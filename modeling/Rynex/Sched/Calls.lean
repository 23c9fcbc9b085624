import Rynex.Sched.Model

/-! The calls that create tasks, block, wait for children and change what the scheduler looks at,
the timer interrupt, and the step of the whole system. -/

namespace Rynex.Sched

open Rynex.Errno Rynex.Lib

def cloneVm : UInt64 := 0x100
def cloneParent : UInt64 := 0x8000
def cloneThread : UInt64 := 0x10000
def cloneParentSettid : UInt64 := 0x100000
def cloneChildCleartid : UInt64 := 0x200000

def futexWaiters : Nat := 2 ^ 31

namespace State

/-! ### The timer -/

/-- `save_interrupt_context` and `inc_ticks`; `user` says that user mode was interrupted. -/
def enterTimer (s : State) (user : Bool) : State :=
  let s :=
    if s.current ≠ 0 && !s.inSyscall then
      s.setTask (taskIdx s.current) fun t => { t with userMode := user }
    else s
  { s with ticks := (s.ticks + 1) % 2 ^ 64 }

/-- The switch of `timer_schedule` once the time slice is used up. -/
def timerSwitch (s : State) : State :=
  let me := s.current
  match s.dequeueTask with
  | (none, s) => s
  | (some next, s) =>
    if next = me then s
    else
      let s := (s.setTask (taskIdx me) fun t => { t with state := .ready }).enqueueTask me
        (s.task me).prio
      { s.setTask (taskIdx next) fun t => { t with state := .running } with current := next }

def timerSchedule (s : State) : State :=
  let s := s.wakeupExpiredSleepers
  let t := s.task s.current
  if s.current = 0 then s
  else if s.inSyscall then s
  else if t.userStack = 0 then s
  else if !t.userMode then s
  else
    let s := s.setTask (taskIdx s.current) fun t => { t with timeSlice := t.timeSlice - 1 }
    if t.state ≠ .running then s
    else if 0 < t.timeSlice - 1 then s
    else
      (s.setTask (taskIdx s.current) fun t =>
        { t with timeSlice := initialTimeSlice t.prio }).timerSwitch

/-! ### Creation -/

/-- `alloc_pid_from`: the lowest free pid. -/
def allocPidFrom (s : State) (min : Nat) : Option (Nat × State) :=
  ((List.range' min (maxTasks - min)).find? fun p => !s.pids p).map fun p =>
    (p, { s with pids := Function.update s.pids p true })

def freePid (s : State) (pid : Nat) : State :=
  if pid = 0 ∨ maxTasks ≤ pid then s else { s with pids := Function.update s.pids pid false }

/-- A slot is written as a whole, its link included. -/
def putTask (s : State) (i : Nat) (t : Task) : State :=
  { s with
    tasks := Function.update s.tasks i t
    rq := { s.rq with next := Function.update s.rq.next i none } }

/-- `create_kernel_task_prio`; `stack` says that the stack could be allocated. -/
def createKernelTaskPrio (s : State) (prio : Prio) (kernelPml4 : Nat) (stack : Bool) :
    Option Nat × State :=
  match s.allocPidFrom 2 with
  | none => (none, s)
  | some (tid, s) =>
    if !stack then (none, s)
    else
      let s := s.setTask (taskIdx tid) fun t =>
        { t with
          id := tid, tgid := tid, state := .ready, userMode := false, userStack := 0,
          pml4 := kernelPml4, staticPrio := prio, prio := prio,
          timeSlice := initialTimeSlice prio, parent := none }
      (some tid, s.enqueueTask tid prio)

def allocFdForTask (s : State) (tid inode : Nat) (flags : BitVec 32) : State :=
  match s.files.allocFd (tid % maxTasks) inode flags with
  | none => s
  | some (_, files) => { s with files := files }

/-- `create_user_task_on_cpu` once there is an init task, with the inode of the console. -/
def createUserTaskOnCpu (s : State) (prio : Prio) (pml4 userStack : Nat) (stack tls : Bool)
    (console : Option Nat) : Option Nat × State :=
  match s.allocPidFrom 1 with
  | none => (none, s)
  | some (tid, s) =>
    if !stack || !tls then (none, s)
    else
      let me := s.current
      let s := s.setTask (taskIdx tid) fun t =>
        { t with
          id := tid, tgid := tid, state := .ready, userMode := true, userStack := userStack,
          pml4 := pml4, staticPrio := prio, prio := prio,
          timeSlice := initialTimeSlice prio, parent := some me }
      let s := match console with
        | none => s
        | some c => ((s.allocFdForTask tid c 0).allocFdForTask tid c 1).allocFdForTask tid c 1
      (some tid, s.enqueueTask tid prio)

/-- The descriptors of a child: a copy of the table, with one more reference to each pipe end. -/
def inheritFds (f : Pipe.Sys) (parent child : Nat) : Pipe.Sys :=
  let table := f.tables parent
  { f with
    pipes := (List.range Pipe.maxFdsPerTask).foldl (fun pipes fd =>
      if (table fd).used then Pipe.pipeIncRefs pipes (table fd).inodeIdx else pipes) f.pipes
    tables := Function.update f.tables child table }

/-- The fields that a child of `sys_fork` or `sys_clone` takes from its parent, and the ones that
are set anew. -/
def childOf (t : Task) (tid : Nat) : Task :=
  { t with
    id := tid, tgid := tid, state := .ready, timeSlice := initialTimeSlice t.prio,
    blockedOn := 0, piBoosted := false, inSyscall := false, exitCode := 0,
    signals := { t.signals with pending := 0 }, wakeupTick := 0, futexDeadline := 0,
    childTidptr := 0, pollFds := 0 }

/-- `sys_fork`: `stack` says that the stack could be allocated, `pml4` is the copy that
`cow_fork_pml4` returns. -/
def sysFork (s : State) (stack : Bool) (pml4 : Option Nat) : Int × State :=
  if s.current = 0 then (-einval, s)
  else
    match s.allocPidFrom 1 with
    | none => (-enomem, s)
    | some (tid, s) =>
      let s := { s with files := inheritFds s.files (s.current % maxTasks) (tid % maxTasks) }
      if !stack then (-enomem, s.freePid tid)
      else
        match pml4 with
        | none => (-enomem, s.freePid tid)
        | some pml4 =>
          let parent := s.task s.current
          let s := s.putTask (taskIdx tid)
            { childOf parent tid with
              pml4 := pml4, parent := some s.current, addrSpacePrivate := true }
          (tid, s.enqueueTask tid parent.prio)

def sysClone (s : State) (flags : UInt64) (childStack parentTidptr childTidptr : Nat) (stack : Bool)
    (pml4 : Option Nat) : Int × State :=
  if s.current = 0 then (-einval, s)
  else
    match s.allocPidFrom 1 with
    | none => (-enomem, s)
    | some (tid, s) =>
      let s := { s with files := inheritFds s.files (s.current % maxTasks) (tid % maxTasks) }
      let parent := s.task s.current
      if !stack then (-enomem, s)
      else
        match if flags &&& cloneVm ≠ 0 then some parent.pml4 else pml4 with
        | none => (-enomem, s)
        | some pml4 =>
          let s := s.putTask (taskIdx tid)
            { childOf parent tid with
              tgid := if flags &&& cloneThread ≠ 0 then parent.tgid else tid
              userMode := true
              userStack := childStack
              pml4 := pml4
              parent := if flags &&& cloneParent ≠ 0 then parent.parent else some s.current
              childTidptr := if flags &&& cloneChildCleartid ≠ 0 then childTidptr else 0
              addrSpacePrivate := flags &&& cloneVm = 0 }
          let s := if flags &&& cloneParentSettid ≠ 0 ∧ parentTidptr ≠ 0 then
            (s.storeWord parentTidptr tid).storeWord (parentTidptr + 4) 0 else s
          (tid, s.enqueueTask tid parent.prio)

/-! ### Address spaces -/

def live (t : Task) : Bool := t.state ≠ .empty && t.state ≠ .zombie

/-- `free_address_space`, for the task in slot `owner`. -/
def freeAddressSpace (s : State) (pml4 owner : Nat) : State :=
  { s with frees := s.frees ++ [⟨pml4, (List.range maxTasks).filter fun i =>
      i ≠ owner && live (s.tasks i) && (s.tasks i).pml4 = pml4⟩] }

/-- The end of `sys_execve`, once the image is loaded under `pml4`. The task is marked as the owner
of its page table before the test of that mark. -/
def execveCommit (s : State) (pml4 userStack : Nat) : State :=
  let i := taskIdx s.current
  let old := (s.tasks i).pml4
  let s := s.setTask i fun t =>
    { t with pml4 := pml4, userStack := userStack, userMode := true, addrSpacePrivate := true }
  let s := if old ≠ 0 && old ≠ pml4 && (s.tasks i).addrSpacePrivate then s.freeAddressSpace old i
    else s
  s.setTask i fun t => { t with inSyscall := false }

/-! ### Waiting -/

/-- The current task is marked blocked and `schedule_inner` called. -/
def block (s : State) (force : Bool) (f : Task → Task) : Bool × State :=
  (s.setTask (taskIdx s.current) fun t => { f t with state := .blocked }).scheduleInner force

def futexResume (s : State) : Int × State :=
  if (s.task s.current).futexDeadline ≠ 0 then
    (-etimedout, s.setTask (taskIdx s.current) fun t => { t with futexDeadline := 0 })
  else (0, s)

/-- `futex_wait`, with the timeout in ticks; there is no answer while it waits. -/
def futexWait (s : State) (uaddr val : Nat) (timeout : Option Nat) : Option Int × State :=
  match s.space (s.task s.current).pml4 uaddr with
  | none => (some (-efault), s)
  | some pa =>
    if s.word pa ≠ val then (some (-eagain), s)
    else if s.current = 0 then (some (-einval), s)
    else
      let deadline := match timeout with
        | none => 0
        | some n => min (s.ticks + n) (2 ^ 64 - 1)
      match s.removeFromRunqueue s.current with
      | none => (none, { s with hung := true })
      | some s =>
        match s.block true fun t =>
          { t with blockedOn := uaddr, wakeupTick := deadline, futexDeadline := deadline } with
        | (false, s) => (none, s)
        | (true, s) => (some s.futexResume.1, s.futexResume.2)

def blockOnFutex (s : State) (uaddr : Nat) : State :=
  if s.current = 0 then s
  else
    match s.removeFromRunqueue s.current with
    | none => { s with hung := true }
    | some s => (s.block true fun t => { t with blockedOn := uaddr }).2

/-- The priority of the owner of a lock is raised to that of the current task. -/
def boostOwner (s : State) (owner : Nat) : Option State :=
  let prio := (s.task s.current).prio
  if (s.task owner).state ≠ .empty ∧ prio < (s.task owner).prio then
    (s.removeFromRunqueue owner).map fun s =>
      let s := s.setTask (taskIdx owner) fun t => { t with prio := prio, piBoosted := true }
      if (s.task owner).state = .ready then s.enqueueTask owner prio else s
  else some s

/-- `futex_lock_pi`. An unmapped address faults, which is not followed here. -/
def futexLockPi (s : State) (uaddr : Nat) : Option Int × State :=
  if s.current = 0 then (some (-einval), s)
  else
    match s.space (s.task s.current).pml4 uaddr with
    | none => (none, s)
    | some pa =>
      let prev := s.word pa
      if prev = 0 then (some 0, { s with word := Function.update s.word pa s.current })
      else
        let s := { s with word := Function.update s.word pa (prev % futexWaiters + futexWaiters) }
        match s.boostOwner (prev % futexWaiters) with
        | none => (none, { s with hung := true })
        | some s =>
          match s.block false fun t => { t with blockedOn := uaddr } with
          | (false, s) => (none, s)
          | (true, s) => (some 0, s)

/-- `futex_unlock_pi` first gives back a raised priority. -/
def unboost (s : State) : Option State :=
  let t := s.task s.current
  if t.piBoosted then
    let s := s.setTask (taskIdx s.current) fun t =>
      { t with piBoosted := false, prio := t.staticPrio }
    if t.state = .ready ∧ t.prio ≠ t.staticPrio then
      (s.removeFromRunqueue s.current).map fun s => s.enqueueTask s.current t.staticPrio
    else some s
  else some s

/-- The waiter of the highest priority, the first of them. -/
def bestWaiter (s : State) (uaddr : Nat) : Option Nat :=
  ((List.range maxTasks).foldl (fun best i =>
    let t := s.tasks i
    if t.state = .blocked && t.blockedOn = uaddr && t.id ≠ 0 then
      match best with
      | none => some (t.id, t.prio)
      | some (_, prio) => if t.prio < prio then some (t.id, t.prio) else best
    else best) (none : Option (Nat × Prio))).map Prod.fst

def futexUnlockPi (s : State) (uaddr : Nat) : Option Int × State :=
  if s.current = 0 then (some (-einval), s)
  else
    match s.unboost with
    | none => (none, { s with hung := true })
    | some s =>
      match s.bestWaiter uaddr with
      | none => (some 0, s.storeWord uaddr 0)
      | some w =>
        let s := s.storeWord uaddr (w % futexWaiters + futexWaiters)
        (some 0, s.wakeTask (taskIdx w) w fun t =>
          { t with blockedOn := 0, wakeupTick := 0, futexDeadline := 0 })

def sysSleep (s : State) (ticks : Nat) : State :=
  if s.current = 0 then s
  else (s.block true fun t => { t with wakeupTick := (s.ticks + ticks) % 2 ^ 64 }).2

/-- `sys_read` of an empty pipe whose buffer is at `addr`. -/
def readEmpty (s : State) (addr : Nat) : State :=
  (s.block false fun t => { t with blockedOn := addr }).2

/-- `sys_poll` where it blocks, and after it was woken. -/
def pollBlock (s : State) (fds deadline : Nat) : State :=
  (s.block true fun t => { t with wakeupTick := deadline, pollFds := fds }).2

def pollResume (s : State) : State :=
  s.setTask (taskIdx s.current) fun t =>
    if t.signals.pending &&& ~~~ t.signals.blocked ≠ 0 then { t with pollFds := 0 } else t

/-- `sys_rt_sigsuspend`; `null` says that there is no mask. -/
def sysRtSigsuspend (s : State) (null : Bool) (mask : UInt64) : Option Int × State :=
  if s.current = 0 ∨ null then (some (-einval), s)
  else
    let t := s.task s.current
    let masked : Task.Signals := { t.signals with blocked := mask }
    if s.sigLock then (none, s.waitLock)
    else if masked.ready then (some (-eintr), s)
    else
      match s.block true fun t => { t with signals := masked, blockedOn := sigsuspendMagic } with
      | (false, s) => (none, s)
      | (true, s) => (some (-eintr), s.setTask (taskIdx s.current) fun u =>
          { u with signals := { u.signals with blocked := t.signals.blocked } })

/-- The mask of the current task, which `rt_sigsuspend`, `rt_sigprocmask` and `rt_sigreturn` set. -/
def setMask (s : State) (mask : UInt64) : State :=
  s.setTask (taskIdx s.current) fun t => { t with signals := { t.signals with blocked := mask } }

/-- `rt_sigaction` of a signal whose action may be set. -/
def setAction (s : State) (sig : Nat) (act : Task.SignalAction) : State :=
  s.setTask (taskIdx s.current) fun t =>
    { t with signals := { t.signals with handlers := Function.update t.signals.handlers sig act } }

/-- `sys_setpgid` of the current task, whose group is kept in `tgid`. -/
def sysSetpgid (s : State) (pid pgid : Int) : Int × State :=
  let target := if pid = 0 then (s.current : Int) else pid
  let group := if pgid = 0 then target else pgid
  if s.current = 0 then (-einval, s)
  else if target ≠ s.current ∧ target ≠ 0 then (-eperm, s)
  else if (s.task target.toNat).id = 0 then (-esrch, s)
  else (0, s.setTask (taskIdx target.toNat) fun t => { t with tgid := (group % 2 ^ 64).toNat })

def sysSetsid (s : State) : State :=
  if s.current = 0 then s else s.setTask (taskIdx s.current) fun t => { t with tgid := s.current }

def isChild (s : State) (pid : Int) (i : Nat) : Bool :=
  let t := s.tasks i
  t.id ≠ 0 && t.parent = some s.current && (pid ≤ 0 || (t.id : Int) = pid) && -1 ≤ pid

/-- `sys_waitpid` takes the zombie out of its slot. -/
def reap (s : State) (i : Nat) : State :=
  let t := s.tasks i
  let s := if t.pml4 ≠ 0 && t.addrSpacePrivate then s.freeAddressSpace t.pml4 i else s
  (s.putTask i .empty).freePid t.id

/-- `sys_waitpid` waits for the word at the tid pointer of a child to become zero. -/
def waitTid (s : State) (uaddr : Nat) : State :=
  match s.space (s.task s.current).pml4 uaddr with
  | none => s
  | some pa => if s.word pa ≠ 0 then (s.futexWait uaddr (s.word pa) none).2 else s

/-- One turn of the loop of `sys_waitpid`. There is no answer when the loop goes round. -/
def sysWaitpid (s : State) (pid : Int) (nohang : Bool) : Option Int × State :=
  if s.current = 0 then (some (-echild), s)
  else
    let children := (List.range maxTasks).filter (s.isChild pid)
    match children.find? fun i => (s.tasks i).state = .zombie with
    | some i => (some (s.tasks i).id, s.reap i)
    | none =>
      match children with
      | [] => (some (-echild), s)
      | i :: _ =>
        if nohang then (some 0, s)
        else if (s.tasks i).childTidptr ≠ 0 then (none, s.waitTid (s.tasks i).childTidptr)
        else (none, s.yieldNowForce)

end State

/-! ### The system -/

/-- The calls on descriptors of the current task. -/
inductive FileCall where
  | alloc (inode : Nat) (flags : BitVec 32)
  | pipe (null : Bool)
  | dup2 (oldfd newfd : Nat)
  | fcntl (fd : Nat) (cmd : Int) (arg : BitVec 64)
  | close (fd : Nat)

def FileCall.run (f : Pipe.Sys) (t : Nat) : FileCall → Pipe.Sys
  | .alloc inode flags => match f.allocFd t inode flags with
    | none => f
    | some (_, f) => f
  | .pipe null => (f.sysPipe t null).2.2
  | .dup2 oldfd newfd => (f.sysDup2 t oldfd newfd).2
  | .fcntl fd cmd arg => (f.sysFcntl t fd cmd arg).2
  | .close fd => (f.closeFd t fd).2

/-- What the current task does, with the answers of what it allocates. -/
inductive Call where
  | createKernel (prio : Prio) (kernelPml4 : Nat) (stack : Bool)
  | spawn (prio : Prio) (pml4 userStack : Nat) (stack tls : Bool) (console : Option Nat)
  | fork (stack : Bool) (pml4 : Option Nat)
  | clone (flags : UInt64) (childStack parentTidptr childTidptr : Nat) (stack : Bool)
      (pml4 : Option Nat)
  | execve (pml4 userStack : Nat)
  | syscall (enter : Bool)
  | yieldNow
  | yieldNowForce
  | sleep (ticks : Nat)
  | futexWait (uaddr val : Nat) (timeout : Option Nat)
  | futexResume
  | futexWake (uaddr maxWake : Nat)
  | futexLockPi (uaddr : Nat)
  | futexUnlockPi (uaddr : Nat)
  | blockOnFutex (uaddr : Nat)
  | readEmpty (addr : Nat)
  | pipeWakeWaiters
  | pollBlock (fds deadline : Nat)
  | pollResume
  | sigsuspend (null : Bool) (mask : UInt64)
  | setMask (mask : UInt64)
  | setAction (sig : Nat) (act : Task.SignalAction)
  | setpgid (pid pgid : Int)
  | setsid
  | kill (pid sig : Int)
  | tkill (tid : Nat) (sig : Int)
  | checkDeliverSignal (restore : Bool)
  | exit (code : Int)
  | waitpid (pid : Int) (nohang : Bool)
  | files (c : FileCall)
  | store (va value : Nat)
  | remap (space : Nat → Nat → Option Nat)

/-- A call of the current task, or an interrupt: the timer, a key that wakes the waiters on a word,
a key that sends a signal to the foreground group. -/
inductive Event where
  | call (c : Call)
  | tick (user : Bool)
  | irq (uaddr : Nat)
  | key (fg : Nat) (sig : Int)

namespace State

def call (s : State) : Call → State
  | .createKernel prio pml4 stack => (s.createKernelTaskPrio prio pml4 stack).2
  | .spawn prio pml4 userStack stack tls console =>
    (s.createUserTaskOnCpu prio pml4 userStack stack tls console).2
  | .fork stack pml4 => (s.sysFork stack pml4).2
  | .clone flags childStack parentTidptr childTidptr stack pml4 =>
    (s.sysClone flags childStack parentTidptr childTidptr stack pml4).2
  | .execve pml4 userStack => s.execveCommit pml4 userStack
  | .syscall enter => s.setTask (taskIdx s.current) fun t => { t with inSyscall := enter }
  | .yieldNow => s.yieldNow
  | .yieldNowForce => s.yieldNowForce
  | .sleep ticks => s.sysSleep ticks
  | .futexWait uaddr val timeout => (s.futexWait uaddr val timeout).2
  | .futexResume => s.futexResume.2
  | .futexWake uaddr maxWake => (s.futexWake uaddr maxWake).2
  | .futexLockPi uaddr => (s.futexLockPi uaddr).2
  | .futexUnlockPi uaddr => (s.futexUnlockPi uaddr).2
  | .blockOnFutex uaddr => s.blockOnFutex uaddr
  | .readEmpty addr => s.readEmpty addr
  | .pipeWakeWaiters => s.pipeWakeWaiters
  | .pollBlock fds deadline => s.pollBlock fds deadline
  | .pollResume => s.pollResume
  | .sigsuspend null mask => (s.sysRtSigsuspend null mask).2
  | .setMask mask => s.setMask mask
  | .setAction sig act => s.setAction sig act
  | .setpgid pid pgid => (s.sysSetpgid pid pgid).2
  | .setsid => s.sysSetsid
  | .kill pid sig => (s.sysKill pid sig).2
  | .tkill tid sig =>
    if sig = 0 ∨ (s.task tid).id = 0 then s else (s.sigDeliverToTask (taskIdx tid) sig).2
  | .checkDeliverSignal restore => (s.checkDeliverSignal restore).2
  | .exit code => (s.exitTask code).2
  | .waitpid pid nohang => (s.sysWaitpid pid nohang).2
  | .files c => { s with files := c.run s.files (s.current % maxTasks) }
  | .store va value => s.storeWord va value
  | .remap space => { s with space := space }

/-- What an interrupt does before the interrupted context goes on. -/
def interrupt (s : State) : Event → State
  | .call _ => s
  | .tick user => (s.enterTimer (user && !s.idle)).timerSchedule
  | .irq uaddr => (s.futexWake uaddr 1).2
  | .key fg sig => s.signalForegroundGroup fg sig

def step (s : State) (e : Event) : State :=
  if s.hung then s
  else
    match e with
    | .call c => if s.idle then s else s.call c
    | e =>
      let s := s.interrupt e
      if s.idle then s.idlePoll else s

end State

/-- The state in which `boot_userland` starts the init task. -/
def boot (kernelPml4 initPml4 userStack : Nat) (space : Nat → Nat → Option Nat) : State where
  tasks := fun i =>
    if i = 0 then
      { Task.empty with state := .running, pml4 := kernelPml4, staticPrio := 39, prio := 39 }
    else if i = 1 then
      { Task.empty with
        id := 1, tgid := 1, state := .running, userMode := true, userStack := userStack,
        pml4 := initPml4, prio := 10, timeSlice := initialTimeSlice 10, parent := some 0 }
    else .empty
  pids := fun i => i = 0 || i = 1
  rq := .empty
  current := 1
  idle := false
  ticks := 0
  sigLock := false
  hung := false
  deadlocked := false
  leaked := false
  files := .boot fun _ => .live
  space := space
  word := fun _ => 0
  frees := []

end Rynex.Sched
