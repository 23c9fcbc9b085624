import Rynex.Pipe.Buffer
import Rynex.Sched.Waiting

/-! Readers, pollers and writers of a pipe. A reader of an empty pipe is marked blocked and calls
`schedule`, which does not switch inside a system call; a writer wakes the tasks that have
polled. -/

namespace Rynex.Sched

open Rynex.Lib State

variable {s : State} {i p : Nat}

namespace State

def stored (f f' : Pipe.Sys) (t fd : Nat) : Option Nat :=
  (Pipe.pipeIdxOf (f.tables t fd).inodeIdx).filter fun p => (f.pipes p).wpos < (f'.pipes p).wpos

def writePipe (s : State) (fd : Nat) (bytes : List UInt8) (valid : Bool) : Pipe.Io × State :=
  let t := s.current % maxTasks
  let (io, files) := s.files.sysWrite t fd bytes valid
  let wrote := (stored s.files files t fd).isSome
  let s := { s with files := files }
  (io, if wrote then s.pipeWakeWaiters else s)

/-- One turn of the loop of `sys_read` of the current task; `addr` is the address of the buffer of a
pipe. -/
def readPipe (addr : Nat → Nat) (s : State) (fd count : Nat) (valid : Bool) : Pipe.Io × State :=
  let t := s.current % maxTasks
  let (io, files) := s.files.sysRead t fd count valid
  let s := { s with files := files }
  match io with
  | .blocks =>
    (.blocks, s.readEmpty (addr ((Pipe.pipeIdxOf (s.files.tables t fd).inodeIdx).getD 0)))
  | io => (io, s)

/-- The empty pipe that a read gets to, past the checks of `sys_read`. -/
def findsEmpty (s : State) (fd count : Nat) (valid : Bool) : Option Nat :=
  let t := s.current % maxTasks
  let inode := (s.files.tables t fd).inodeIdx
  if count = 0 || !valid || t = 0 || !s.files.isOpen t fd || Pipe.pipeIsWriteEnd inode then none
  else (Pipe.pipeIdxOf inode).filter fun p => (s.files.pipes p).wpos ≤ (s.files.pipes p).rpos

def nonblock (s : State) (fd : Nat) : Bool :=
  (s.files.tables (s.current % maxTasks) fd).flags &&& 0x800#32 ≠ 0

/-- A task has the end of the pipe open that `inode` names. -/
def opensInode (s : State) (id inode : Nat) : Bool :=
  (List.range Pipe.maxFdsPerTask).any fun fd =>
    let d := s.files.tables (id % maxTasks) fd
    d.used && d.inodeIdx = inode

def readInode (p : Nat) : Nat := Pipe.pipeInodeBase + 2 * p

def writeInode (p : Nat) : Nat := Pipe.pipeInodeBase + 2 * p + 1

/-- The task in slot `i` is blocked and waits for data in the pipe: in `sys_read`, at the buffer, or
in `sys_poll`, with the read end open. -/
def waitsForData (addr : Nat → Nat) (s : State) (p i : Nat) : Bool :=
  let t := s.tasks i
  t.state = .blocked && (t.blockedOn = addr p || (t.pollFds ≠ 0 && s.opensInode t.id (readInode p)))

/-- `pipe_wake_waiters` wakes the task in slot `i` if it is blocked. -/
def wokenByPipe (s : State) (i : Nat) : Bool :=
  let t := s.tasks i
  t.id ≠ 0 && t.id ≠ s.current && t.pollFds ≠ 0 && s.hasPipe t.id

def hasWriter (s : State) (p : Nat) : Bool :=
  (List.range maxTasks).any fun t => s.opensInode t (writeInode p)

end State

/-- The calls on a pipe that wait for data or bring it. -/
inductive PipeCall where
  | read (fd count : Nat) (valid : Bool)
  | write (fd : Nat) (bytes : List UInt8) (valid : Bool)

namespace PipeCall

variable (addr : Nat → Nat) (s : State)

/-- The pipe in which the write of the current task stores a byte. -/
def storedIn (fd : Nat) (bytes : List UInt8) (valid : Bool) : Option Nat :=
  stored s.files (s.files.sysWrite (s.current % maxTasks) fd bytes valid).2 (s.current % maxTasks)
    fd

/-- After a write that stored a byte no task is blocked for data of the pipe; a read that waits has
given up the CPU, and a read of an empty pipe that no task can write to answers 0. -/
def Served : PipeCall → Prop
  | .write fd bytes valid => ∀ p, storedIn s fd bytes valid = some p → ∀ i < maxTasks,
      (s.writePipe fd bytes valid).2.waitsForData addr p i = false
  | .read fd count valid =>
      ((s.readPipe addr fd count valid).1 = .blocks →
        (s.readPipe addr fd count valid).2.idle = true ∨
          (s.readPipe addr fd count valid).2.current ≠ s.current) ∧
      ∀ p, s.findsEmpty fd count valid = some p → s.hasWriter p = false →
        (s.readPipe addr fd count valid).1 = .ret 0 []

/-- The tasks that wait for the data have polled, and a read that finds the pipe empty does not wait
and has a writer. -/
def Covered : PipeCall → Prop
  | .write fd bytes valid => ∀ p, storedIn s fd bytes valid = some p → ∀ i < maxTasks,
      s.waitsForData addr p i = true → s.wokenByPipe i = true
  | .read fd count valid => ∀ p, s.findsEmpty fd count valid = some p →
      s.nonblock fd = true ∧ s.hasWriter p = true

end PipeCall

/-! ### A call that waits -/

def InCall (s : State) : Prop := s.inSyscall = true ∧ s.idle = false

theorem block_inCall {f : Task → Task} (h : InCall s) (hf : ∀ t, (f t).inSyscall = t.inSyscall) :
    s.block false f =
      (true, s.setTask (taskIdx s.current) fun t => { f t with state := .blocked }) := by
  have hsys := h.1
  unfold State.inSyscall at hsys
  unfold State.block State.scheduleInner State.inSyscall State.task
  rw [if_pos]
  simpa [State.setTask, hf, State.task] using hsys

/-! ### Whom a scan of the table wakes -/

/-- A function of the scan that the wakes of other tasks do not change. -/
def Steady {β : Type} (g : State → Task → β) : Prop :=
  ∀ s s' t, s'.current = s.current → s'.files = s.files → s'.ticks = s.ticks → g s' t = g s t

theorem wakeAt_keeps (test : State → Task → Bool) (f : State → Task → Task) (s : State) (j : Nat) :
    (wakeAt test f s j).current = s.current ∧ (wakeAt test f s j).files = s.files ∧
      (wakeAt test f s j).ticks = s.ticks := by
  unfold State.wakeAt
  dsimp only
  split <;> exact ⟨rfl, rfl, rfl⟩

theorem tasks_wakeAt_ne (test : State → Task → Bool) (f : State → Task → Task) (s : State) {j : Nat}
    (h : i ≠ j) : (wakeAt test f s j).tasks i = s.tasks i := by
  unfold State.wakeAt
  dsimp only
  split
  · exact s.tasks_wakeTask_ne _ h
  · rfl

theorem tasks_foldl_wakeAt {test : State → Task → Bool} {f : State → Task → Task}
    (htest : Steady test) (hf : Steady f) {l : List Nat} (hl : l.Nodup) (s : State) :
    (l.foldl (wakeAt test f) s).tasks i =
      if i ∈ l ∧ (s.tasks i).state = .blocked ∧ (s.tasks i).id ≠ 0 ∧ test s (s.tasks i) = true then
        { f s (s.tasks i) with state := .ready }
      else s.tasks i := by
  induction l generalizing s with
  | nil => simp
  | cons j l ih =>
    obtain ⟨hj, hl'⟩ := List.nodup_cons.mp hl
    rw [List.foldl_cons, ih hl']
    obtain ⟨hcur, hfiles, hticks⟩ := wakeAt_keeps test f s j
    by_cases hij : i = j
    · subst hij
      rw [if_neg fun h => hj h.1]
      unfold State.wakeAt
      simp only [Bool.and_eq_true, decide_eq_true_eq, List.mem_cons, true_or, true_and, and_assoc]
      split
      · exact s.tasks_wakeTask_self i (s.tasks i).id (f s)
      · rfl
    · rw [tasks_wakeAt_ne test f s hij, htest s _ _ hcur hfiles hticks, hf s _ _ hcur hfiles hticks]
      simp [hij]

theorem tasks_wakeAll {test : State → Task → Bool} {f : State → Task → Task} (htest : Steady test)
    (hf : Steady f) (s : State) (hi : i < maxTasks) : (s.wakeAll test f).tasks i =
      if (s.tasks i).state = .blocked ∧ (s.tasks i).id ≠ 0 ∧ test s (s.tasks i) = true then
        { f s (s.tasks i) with state := .ready }
      else s.tasks i := by
  have h := tasks_foldl_wakeAt (i := i) htest hf (List.nodup_range (n := maxTasks)) s
  simpa [State.wakeAll, hi] using h

theorem wakeAll_files (test : State → Task → Bool) (f : State → Task → Task) (s : State) :
    (s.wakeAll test f).files = s.files :=
  List.foldlRecOn (motive := fun s' : State => s'.files = s.files) (List.range maxTasks) _ rfl
    fun s' h j _ => (wakeAt_keeps test f s' j).2.1.trans h

theorem tasks_pipeWakeWaiters (s : State) (hi : i < maxTasks) : s.pipeWakeWaiters.tasks i =
    if (s.tasks i).state = .blocked ∧ s.wokenByPipe i = true then
      { s.tasks i with wakeupTick := min (s.tasks i).wakeupTick s.ticks, state := .ready }
    else s.tasks i := by
  have htest : Steady fun s t => t.id ≠ s.current && t.pollFds ≠ 0 && s.hasPipe t.id := by
    intro s s' t hcur hfiles _
    simp only [State.hasPipe, hcur, hfiles]
  have hf : Steady fun s t => ({ t with wakeupTick := min t.wakeupTick s.ticks } : Task) := by
    intro s s' t _ _ hticks
    simp only [hticks]
  have h := tasks_wakeAll htest hf s hi
  simpa [State.pipeWakeWaiters, State.wokenByPipe, and_assoc] using h

/-! ### Writing -/

theorem tables_sysWrite (f : Pipe.Sys) (t fd : Nat) (bytes : List UInt8) (valid : Bool) :
    (f.sysWrite t fd bytes valid).2.tables = f.tables := by
  rcases f.sysWrite_cases t fd bytes valid with ⟨n, -, h⟩ | h | ⟨q, -, -, -, h⟩
  · rw [h]
  · rw [h]
  · rw [h]
    rfl

theorem waitsForData_writePipe (addr : Nat → Nat) {fd : Nat} {bytes : List UInt8} {valid : Bool}
    (hst : PipeCall.storedIn s fd bytes valid = some p) (hi : i < maxTasks) :
    (s.writePipe fd bytes valid).2.waitsForData addr p i =
      (s.waitsForData addr p i && !s.wokenByPipe i) := by
  have htab := tables_sysWrite s.files (s.current % maxTasks) fd bytes valid
  unfold PipeCall.storedIn at hst
  simp only [State.writePipe, hst, Option.isSome_some, if_true]
  generalize (s.files.sysWrite (s.current % maxTasks) fd bytes valid).2 = files at htab
  have htasks := tasks_pipeWakeWaiters { s with files := files } hi
  have hfiles : (State.pipeWakeWaiters { s with files := files }).files = files :=
    wakeAll_files _ _ _
  have hwoken : State.wokenByPipe { s with files := files } i = s.wokenByPipe i := by
    simp only [State.wokenByPipe, State.hasPipe, htab]
  rw [hwoken] at htasks
  simp only [State.waitsForData, State.opensInode, htasks, hfiles, htab]
  by_cases hb : (s.tasks i).state = .blocked <;> cases hw : s.wokenByPipe i <;> simp [hb]

/-! ### Reading -/

section Read

variable (addr : Nat → Nat) {fd count : Nat} {valid : Bool}

theorem sysRead_empty (h : s.findsEmpty fd count valid = some p) :
    s.files.sysRead (s.current % maxTasks) fd count valid =
      (if s.nonblock fd then .ret (-Errno.eagain) [] else .blocks, s.files) := by
  unfold State.findsEmpty at h
  dsimp only at h
  split at h
  · cases h
  rename_i hpass
  obtain ⟨hp, hpos⟩ := Option.filter_eq_some_iff.mp h
  simp only [Bool.or_eq_true, decide_eq_true_eq, not_or, Bool.not_eq_true,
    Bool.not_eq_true'] at hpass hpos
  obtain ⟨⟨⟨⟨hcount, hvalid⟩, ht⟩, hopen⟩, hend⟩ := hpass
  have hempty : ¬(s.files.pipes p).rpos < (s.files.pipes p).wpos := by omega
  unfold Pipe.Sys.sysRead State.nonblock
  simp [hcount, hvalid, ht, hopen, hend, hp, hempty]
  split <;> simp_all

theorem sysRead_not_blocks (h : s.findsEmpty fd count valid = none) :
    (s.files.sysRead (s.current % maxTasks) fd count valid).1 ≠ .blocks := by
  intro hblocks
  unfold Pipe.Sys.sysRead at hblocks
  unfold State.findsEmpty at h
  split at hblocks
  · cases hblocks
  split at hblocks
  · cases hblocks
  split at hblocks
  · cases hblocks
  rename_i hcount hvalid hopen
  simp only [Bool.or_eq_true, decide_eq_true_eq, not_or, Bool.not_eq_true',
    Bool.not_eq_false] at hvalid hopen
  dsimp only at hblocks h
  split at hblocks
  · cases hblocks
  rename_i q hq
  split at hblocks
  · cases hblocks
  rename_i hend
  split at hblocks
  · cases hblocks
  rename_i hpos
  -- Every check is passed and the pipe is empty.
  simp [hcount, hvalid, hopen.1, hopen.2, hend, hq] at h
  omega

theorem readPipe_fst : (s.readPipe addr fd count valid).1 =
    (s.files.sysRead (s.current % maxTasks) fd count valid).1 := by
  unfold State.readPipe
  dsimp only
  split
  · rename_i h
    exact h.symm
  · rfl

theorem readPipe_stays (hcall : InCall s) (h : s.findsEmpty fd count valid = some p)
    (hb : s.nonblock fd = false) : (s.readPipe addr fd count valid).2.current = s.current ∧
      (s.readPipe addr fd count valid).2.idle = false := by
  have hread := sysRead_empty h
  rw [hb, if_neg (by decide)] at hread
  obtain ⟨a, ha⟩ : ∃ a, s.readPipe addr fd count valid = (.blocks, s.readEmpty a) := by
    simp only [State.readPipe, hread]
    exact ⟨_, rfl⟩
  have hblock := block_inCall (f := fun t => { t with blockedOn := a }) hcall fun _ => rfl
  rw [ha, State.readEmpty, hblock]
  exact ⟨rfl, hcall.2⟩

end Read

/-! ### The calls on a pipe -/

/-- A write leaves no task blocked for the data exactly if those that wait have polled, and a read
of an empty pipe is served exactly if it does not wait and there is a writer. -/
theorem pipe_call_served_iff (addr : Nat → Nat) (c : PipeCall) (hcall : InCall s) :
    c.Served addr s ↔ c.Covered addr s := by
  cases c with
  | write fd bytes valid =>
    refine forall_congr' fun p => forall_congr' fun hst => forall_congr' fun i =>
      forall_congr' fun hi => ?_
    rw [waitsForData_writePipe addr hst hi]
    cases s.waitsForData addr p i <;> cases s.wokenByPipe i <;> simp
  | read fd count valid =>
    simp only [PipeCall.Served, PipeCall.Covered]
    rcases hempty : s.findsEmpty fd count valid with _ | p
    · have hnot := sysRead_not_blocks hempty
      rw [readPipe_fst]
      simp [hnot]
    · have hread := sysRead_empty hempty
      cases hb : s.nonblock fd with
      | true =>
        rw [readPipe_fst, hread, hb]
        simp [Errno.eagain]
      | false =>
        have hstays := readPipe_stays addr hcall hempty hb
        rw [readPipe_fst, hread, hb]
        simp [hstays]

/-- The init task makes a pipe, starts a child and enters a system call. -/
def parentWithPipe : State :=
  [Event.call (.files (.pipe false)), .call (.fork true (some 0x4000)), .call (.syscall true)].foldl
    State.step (boot 0x1000 0x2000 0x7000 fun _ va => some va)

/-- No task waits for the data that the init task writes. -/
theorem pipe_call_served_iff_write : InCall parentWithPipe ∧
    PipeCall.storedIn parentWithPipe 1 [0] true = some 0 ∧
    PipeCall.Served (fun p => 0x100000 + 4096 * p) parentWithPipe (.write 1 [0] true) := by
  have hcall : InCall parentWithPipe := by
    unfold InCall
    decide
  have hst : PipeCall.storedIn parentWithPipe 1 [0] true = some 0 := by decide
  refine ⟨hcall, hst, (pipe_call_served_iff _ _ hcall).mpr ?_⟩
  intro p hp
  obtain rfl : 0 = p := Option.some.inj (hst.symm.trans hp)
  decide

/-- The init task reads from its empty pipe: it is marked blocked and is still the task that runs
twenty ticks later, with the child that could write ready. With no write end open it waits too. -/
theorem empty_read_keeps_cpu :
    let addr := fun p => 0x100000 + 4096 * p
    let r := parentWithPipe.readPipe addr 0 1 true
    let late := (List.replicate 20 (Event.tick false)).foldl State.step r.2
    let alone := [Event.call (.files (.pipe false)), .call (.files (.close 1)),
      .call (.syscall true)].foldl State.step (boot 0x1000 0x2000 0x7000 fun _ va => some va)
    (r.1 = .blocks ∧ (r.2.tasks 1).state = .blocked ∧ r.2.current = 1 ∧ r.2.idle = false) ∧
      (late.current = 1 ∧ late.idle = false ∧ (late.tasks 2).state = .ready) ∧
      alone.findsEmpty 0 1 true = some 0 ∧ alone.hasWriter 0 = false ∧
      (alone.readPipe addr 0 1 true).1 = .blocks := by
  decide +kernel

end Rynex.Sched
