import Rynex.Lib.LevelQueue
import Rynex.Paging.UserRange
import Rynex.Pipe.Model
import Rynex.Task.Signal

/-! The task table and the run queue of one CPU: `schedule_inner`, the timer, the paths that wake a
task, `exit_task`, `kill_task_zombie` and the delivery of signals. -/

namespace Rynex.Sched

open Rynex.Errno Rynex.Lib
open Rynex.Task (Signals SignalAction sigChld sigKill sigStop sigDfl sigIgn terminates)

def maxTasks : Nat := 64
abbrev priorityLevels : Nat := 40

instance : NeZero priorityLevels := ⟨by decide⟩

def sigsuspendMagic : Nat := 2 ^ 64 - 2

/-- `u64::MAX`, on which a task waits for any child. -/
def anyChild : Nat := 2 ^ 64 - 1

/-- An internal priority; a nice value from -20 to 19 gives one of these. -/
abbrev Prio := Fin priorityLevels

/-- `PRIORITY_DEFAULT`. -/
def prioDefault : Prio := 20

def initialTimeSlice (prio : Prio) : Nat := max 2 (8 - prio.val * 5 / 40)

inductive TaskState where
  | empty
  | ready
  | running
  | blocked
  | exited
  | zombie
deriving DecidableEq, Repr

/-- The fields of a task that the modelled functions use. `runqueue_next` is kept with the run
queue; `userMode` says that the code selector in `regs` is the one of user mode. -/
structure Task where
  id : Nat
  tgid : Nat
  state : TaskState
  userMode : Bool
  userStack : Nat
  pml4 : Nat
  staticPrio : Prio
  prio : Prio
  timeSlice : Nat
  parent : Option Nat
  blockedOn : Nat
  piBoosted : Bool
  inSyscall : Bool
  exitCode : Int
  signals : Signals
  wakeupTick : Nat
  futexDeadline : Nat
  childTidptr : Nat
  addrSpacePrivate : Bool
  pollFds : Nat

def Task.empty : Task where
  id := 0
  tgid := 0
  state := .empty
  userMode := false
  userStack := 0
  pml4 := 0
  staticPrio := prioDefault
  prio := prioDefault
  timeSlice := 0
  parent := none
  blockedOn := 0
  piBoosted := false
  inSyscall := false
  exitCode := 0
  signals := ⟨0, 0, fun _ => .empty⟩
  wakeupTick := 0
  futexDeadline := 0
  childTidptr := 0
  addrSpacePrivate := false
  pollFds := 0

abbrev RunQueue := LevelQueue Prio Nat Nat

/-- A call of `free_address_space`, kept as history: the page table, and the live tasks that used it
then apart from the one it was freed for. -/
structure Free where
  pml4 : Nat
  users : List Nat
deriving DecidableEq, Repr

/-- The state of the CPU. `idle` says that it halts in the loop of `schedule_inner`, in the context
of `current`; `hung` that it spins for ever, `deadlocked` that it does so at the signal lock, and
`leaked` that a task gave up the CPU with the signal lock held. The descriptors and pipes are those
of `Pipe.Sys`, whose column of tasks is not used. `space` translates the user addresses of a page
table and `word` is the 32-bit word at a physical address. `frees` is history. -/
structure State where
  tasks : Nat → Task
  pids : Nat → Bool
  rq : RunQueue
  current : Nat
  idle : Bool
  ticks : Nat
  sigLock : Bool
  hung : Bool
  deadlocked : Bool
  leaked : Bool
  files : Pipe.Sys
  space : Nat → Nat → Option Nat
  word : Nat → Nat
  frees : List Free

/-- `task_idx`: a pid is its slot. -/
def taskIdx (id : Nat) : Nat := if maxTasks ≤ id then 0 else id

namespace State

/-- `task_ref`. -/
def task (s : State) (id : Nat) : Task := s.tasks (taskIdx id)

def setTask (s : State) (i : Nat) (f : Task → Task) : State :=
  { s with tasks := Function.update s.tasks i (f (s.tasks i)) }

def inSyscall (s : State) : Bool := s.current ≠ 0 && (s.task s.current).inSyscall

/-- A context waits for the signal lock, which is held. -/
def waitLock (s : State) : State := { s with hung := true, deadlocked := true }

/-! ### The run queue -/

def enqueueTask (s : State) (tid : Nat) (prio : Prio) : State :=
  { s with rq := s.rq.enqueue taskIdx tid prio }

def dequeueTask (s : State) : Option Nat × State :=
  let (t, rq) := s.rq.dequeue taskIdx (List.finRange priorityLevels)
  (t, { s with rq := rq })

/-- `remove_from_runqueue`, which does not come back from a queue that is a loop. -/
def removeFromRunqueue (s : State) (tid : Nat) : Option State :=
  (s.rq.remove taskIdx maxTasks tid (s.task tid).prio).map fun rq => { s with rq := rq }

/-! ### `schedule_inner` -/

/-- `schedule_inner` queues the current task if it is still active. -/
def stepBack (s : State) : State :=
  let old := s.current
  if old ≠ 0 ∧ ((s.task old).state = .running ∨ (s.task old).state = .ready) then
    (s.setTask (taskIdx old) fun t => { t with state := .ready }).enqueueTask old (s.task old).prio
  else s

/-- The end of `schedule_inner`, once it has picked another task. -/
def switchTo (s : State) (next : Nat) : State :=
  let old := s.current
  let s := s.stepBack.setTask (taskIdx next) fun t => { t with state := .running }
  -- `context_switch` saves the selector of the kernel code that called it
  let s := s.setTask (taskIdx old) fun t => { t with userMode := false }
  { s with current := next, idle := false, leaked := s.leaked || s.sigLock }

/-- The branch in which the first task of the queue is the current one. -/
def pickSecond (s : State) : Bool × State :=
  match s.dequeueTask with
  | (some other, s) =>
    if other ≠ s.current then (false, s.switchTo other)
    else
      let s := s.enqueueTask other (s.task other).prio
      (true, (s.enqueueTask s.current (s.task s.current).prio).setTask (taskIdx s.current)
        fun t => { t with state := .running })
  | (none, s) =>
    (true, (s.enqueueTask s.current (s.task s.current).prio).setTask (taskIdx s.current)
      fun t => { t with state := .running })

/-- `schedule_inner`. The answer says whether it comes back to its caller at once. -/
def scheduleInner (s : State) (force : Bool) : Bool × State :=
  if !force && s.inSyscall then (true, s)
  else
    match s.dequeueTask with
    | (some id, s) => if id ≠ s.current then (false, s.switchTo id) else s.pickSecond
    | (none, s) => (false, { s with idle := true, leaked := s.leaked || s.sigLock })

/-- The loop of `schedule_inner` after an interrupt. -/
def idlePoll (s : State) : State :=
  match s.dequeueTask with
  | (some t, s) =>
    if t ≠ s.current then s.switchTo t
    else { s.setTask (taskIdx t) fun t => { t with state := .running } with idle := false }
  | (none, s) => s

def yieldNow (s : State) : State :=
  if s.current = 0 then s
  else
    let s := s.setTask (taskIdx s.current) fun t =>
      if t.state = .running then { t with state := .ready } else t
    (s.scheduleInner false).2

def yieldNowForce (s : State) : State :=
  if s.current = 0 then s
  else
    let s := s.setTask (taskIdx s.current) fun t =>
      if t.state = .running then { t with state := .ready, timeSlice := initialTimeSlice t.prio }
        else t
    (s.scheduleInner true).2

/-! ### Waking -/

/-- The blocked task `tid` in slot `i` becomes ready and is queued, with the fields that the caller
changes. -/
def wakeTask (s : State) (i tid : Nat) (f : Task → Task) : State :=
  let s := s.setTask i fun t => { f t with state := .ready }
  s.enqueueTask tid (s.tasks i).prio

/-- The body of the loops over the task table that wake the tasks a test selects. -/
def wakeAt (test : State → Task → Bool) (f : State → Task → Task) (s : State) (i : Nat) : State :=
  let t := s.tasks i
  if t.state = .blocked && t.id ≠ 0 && test s t then s.wakeTask i t.id (f s) else s

def wakeAll (s : State) (test : State → Task → Bool) (f : State → Task → Task) : State :=
  (List.range maxTasks).foldl (wakeAt test f) s

def wakeupExpiredSleepers (s : State) : State :=
  s.wakeAll (fun s t => 0 < t.wakeupTick && t.wakeupTick ≤ s.ticks)
    fun _ t => { t with wakeupTick := 0 }

/-- An open descriptor of the task is an end of a pipe. -/
def hasPipe (s : State) (id : Nat) : Bool :=
  (List.range Pipe.maxFdsPerTask).any fun fd =>
    let d := s.files.tables (id % maxTasks) fd
    d.used && (Pipe.pipeIdxOf d.inodeIdx).isSome

def pipeWakeWaiters (s : State) : State :=
  s.wakeAll (fun s t => t.id ≠ s.current && t.pollFds ≠ 0 && s.hasPipe t.id)
    fun s t => { t with wakeupTick := min t.wakeupTick s.ticks }

/-- The body of the loop of `futex_wake`, with the number of tasks woken so far. -/
def futexWakeAt (uaddr maxWake : Nat) (acc : Nat × State) (i : Nat) : Nat × State :=
  let (woken, s) := acc
  let t := s.tasks i
  if woken < maxWake && t.state = .blocked && t.blockedOn = uaddr && t.id ≠ 0 then
    (woken + 1, s.wakeTask i t.id fun t =>
      { t with blockedOn := 0, wakeupTick := 0, futexDeadline := 0 })
  else (woken, s)

def futexWake (s : State) (uaddr maxWake : Nat) : Nat × State :=
  (List.range maxTasks).foldl (futexWakeAt uaddr maxWake) (0, s)

/-! ### The end of a task -/

def storeWord (s : State) (va value : Nat) : State :=
  match s.space (s.task s.current).pml4 va with
  | none => s
  | some pa => { s with word := Function.update s.word pa value }

def isUserTidptrValid (s : State) (v : Nat) : Bool :=
  Paging.isUserAddr v && v + 8 < 2 ^ 64 &&
    (s.space (s.task s.current).pml4 (v - v % 4096)).isSome

/-- `CLONE_CHILD_CLEARTID`: the word is cleared and one waiter woken. -/
def clearTid (s : State) (tidptr : Nat) : State :=
  if tidptr ≠ 0 && s.isUserTidptrValid tidptr then
    (((s.storeWord tidptr 0).storeWord (tidptr + 4) 0).futexWake tidptr 1).2
  else s

def catchesChld (t : Task) : Bool :=
  t.id ≠ 0 && t.state ≠ .empty && (t.signals.handlers sigChld).handler ≠ sigIgn &&
    (t.signals.handlers sigChld).handler ≠ sigDfl

/-- `exit_task` makes SIGCHLD pending for the parent under the signal lock, and wakes a parent that
waits for a signal or polls. -/
def notifyParent (s : State) (p : Nat) : State :=
  let t := s.task p
  if catchesChld t then
    let s := s.setTask (taskIdx p) fun t => { t with signals := t.signals.setPending sigChld }
    if t.state = .blocked && (t.blockedOn = sigsuspendMagic || t.pollFds ≠ 0) then
      s.wakeTask (taskIdx p) p fun t => { t with blockedOn := 0 }
    else s
  else s

/-- A parent that waits for the task `id` is woken. -/
def wakeParent (s : State) : Option Nat → Nat → State
  | none, _ => s
  | some p, id =>
    let t := s.task p
    if t.state = .blocked && (t.blockedOn = id || t.blockedOn = anyChild) then
      s.wakeTask (taskIdx p) p fun t => { t with blockedOn := 0 }
    else s

def reparentChildrenToInit (s : State) (fromPid : Nat) : State :=
  { s with tasks := fun i =>
      let t := s.tasks i
      if i < maxTasks && t.id ≠ 0 && t.parent = some fromPid then { t with parent := some 1 }
      else t }

def closeFds (s : State) (id : Nat) : State :=
  { s with files :=
      (List.range Pipe.maxFdsPerTask).foldl (fun f fd => (f.closeFd (id % maxTasks) fd).2) s.files }

def die (code : Int) (t : Task) : Task := { t with state := .zombie, exitCode := code }

def exitHead (s : State) (code : Int) : State :=
  let id := s.current
  let s := (s.closeFds id).setTask (taskIdx id) (die code)
  s.clearTid (s.task id).childTidptr

/-- What `exit_task` does after the signal for the parent and before it schedules. -/
def exitTail (s : State) : State :=
  let id := s.current
  (s.wakeParent (s.task id).parent id).reparentChildrenToInit id

/-- `exit_task` up to the call of `force_schedule`; `none` if it waits for the signal lock, which
its own context holds. -/
def exitBody (s : State) (code : Int) : Option State :=
  let s := s.exitHead code
  match (s.task s.current).parent with
  | none => some s.exitTail
  | some p => if s.sigLock then none else some (s.notifyParent p).exitTail

def exitTask (s : State) (code : Int) : Bool × State :=
  if s.current = 0 then (true, s)
  else
    match s.exitBody code with
    | none => (false, (s.exitHead code).waitLock)
    | some s => s.scheduleInner true

/-- `kill_task_zombie`; `none` if it does not come back from the run queue. -/
def killTaskZombie (s : State) (idx : Nat) (code : Int) : Option State :=
  let s := s.setTask idx (die code)
  let id := (s.tasks idx).id
  (if id ≠ 0 then s.removeFromRunqueue id else some s).map fun s =>
    let s := s.clearTid (if id = s.current then (s.tasks idx).childTidptr else 0)
    (s.wakeParent (s.tasks idx).parent id).reparentChildrenToInit id

/-! ### Signals -/

/-- The body of `sig_deliver_to_task` under the lock; no answer if it does not come back. -/
def deliverLocked (s : State) (idx : Nat) (sig : Int) : Option Int × State :=
  let t := s.tasks idx
  if t.id = 0 ∨ t.state = .empty then (some (-esrch), s)
  else if sig ≤ 0 ∨ Task.signalCount ≤ sig then (some (-einval), s)
  else
    let n := sig.toNat
    let kill := match s.killTaskZombie idx (128 + sig) with
      | none => (none, { s with hung := true })
      | some s => (some 0, s)
    let act := t.signals.handlers n
    if n = sigKill ∨ n = sigStop then kill
    else if act.handler = sigIgn then (some 0, s)
    else if act.handler ≠ sigDfl then
      -- the function returns here, before the task it has made ready is queued
      (some 0, s.setTask idx fun t =>
        let t := { t with signals := t.signals.setPending n }
        if t.state = .blocked ∧ t.blockedOn = sigsuspendMagic then
          { t with state := .ready, blockedOn := 0 }
        else t)
    else if terminates n then
      if t.signals.isBlocked n then
        (some 0, s.setTask idx fun t => { t with signals := t.signals.setPending n })
      else if taskIdx s.current = idx then
        let (back, s) := s.exitTask (128 + sig)
        (if back then some 0 else none, s)
      else kill
    else (some 0, s)

/-- Runs `f` under the signal lock, which is released when `f` comes back. -/
def locked {α : Type} (s : State) (f : State → Option α × State) : Option α × State :=
  if s.sigLock then (none, s.waitLock)
  else
    match f { s with sigLock := true } with
    | (none, s) => (none, s)
    | (some r, s) => (some r, { s with sigLock := false })

def sigDeliverToTask (s : State) (idx : Nat) (sig : Int) : Option Int × State :=
  s.locked fun s => s.deliverLocked idx sig

/-- The signals that a scan sends to the tasks that a test selects, with the number of them that
were delivered. -/
def sendAll (test : Task → Bool) (sig : Int) : State → Nat → List Nat → Option Nat × State
  | s, hits, [] => (some hits, s)
  | s, hits, i :: is =>
    if (s.tasks i).id ≠ 0 && test (s.tasks i) then
      match s.sigDeliverToTask i sig with
      | (none, s) => (none, s)
      | (some r, s) => sendAll test sig s (if r = 0 then hits + 1 else hits) is
    else sendAll test sig s hits is

def killTargets (current : Nat) (pid : Int) (t : Task) : Bool :=
  pid = -1 || (pid = 0 && t.tgid = current) || (pid < -1 && (t.tgid : Int) = -pid) ||
    (0 < pid && (t.id : Int) = pid)

def sysKill (s : State) (pid sig : Int) : Option Int × State :=
  if sig = 0 then (some 0, s)
  else
    match sendAll (killTargets s.current pid) sig s 0 (List.range maxTasks) with
    | (none, s) => (none, s)
    | (some hits, s) => (some (if 0 < hits then 0 else -esrch), s)

/-- `signal_foreground_group`, for the foreground group `fg` of the terminal. -/
def signalForegroundGroup (s : State) (fg : Nat) (sig : Int) : State :=
  if s.current = 0 then s
  else
    let target := if 0 < fg then fg else (s.task s.current).tgid
    (sendAll (fun t => t.tgid = target || target = 0) sig s 0 (List.range maxTasks)).2

/-- A handler runs with its signal and the mask of its action blocked. -/
def handlerSignals (sig : Nat) (t : Task) : Signals :=
  { t.signals with
    blocked := t.signals.blocked ||| (Task.bit sig ||| (t.signals.handlers sig).mask)
    pending := t.signals.pending &&& ~~~ Task.bit sig }

/-- The loop of `check_deliver_signal`, whose answer says whether a handler is entered. The frame
on the user stack is the subject of `Task.Pointers`. -/
def deliverPending (s : State) : List Nat → Option Nat × State
  | [] => (some 0, s)
  | sig :: sigs =>
    match (s.task s.current).signals.delivery sig with
    | .skip => s.deliverPending sigs
    | .exit =>
      let s := s.setTask (taskIdx s.current) fun t =>
        { t with signals := t.signals.clearPending sig }
      let (back, s) := s.exitTask (128 + sig)
      if back then s.deliverPending sigs else (none, s)
    | .enter =>
      (some 1, s.setTask (taskIdx s.current) fun t => { t with signals := handlerSignals sig t })

/-- `check_deliver_signal`; `restore` says that `rt_sigreturn` left a context to resume. -/
def checkDeliverSignal (s : State) (restore : Bool) : Option Nat × State :=
  s.locked fun s =>
    if restore then (some 1, s)
    else if s.current = 0 ∨ (s.task s.current).state = .empty then (some 0, s)
    else s.deliverPending (List.range' 1 (Task.signalCount - 1))

end State

end Rynex.Sched
