import Rynex.Sched.Invariant

/-! What the functions that wake, end, signal and create tasks do to the table, said once for every
property that follows it through them. -/

namespace Rynex.Sched

open Rynex.Lib State
open Rynex.Task (sigChld sigKill sigStop sigDfl sigIgn terminates)

variable {s s' s'' : State} {i tid : Nat} {f : Task → Task} {code : Int} {t t' t'' : Task}

theorem State.storeWord_eq (s : State) (va value : Nat) :
    ∃ w, s.storeWord va value = { s with word := w } := by
  unfold State.storeWord
  split
  · exact ⟨s.word, rfl⟩
  · exact ⟨_, rfl⟩

/-! ### Waking -/

/-- The task may have been woken or marked with a signal, and is otherwise as it was. -/
structure Woken (t t' : Task) : Prop where
  id : t'.id = t.id
  tgid : t'.tgid = t.tgid
  parent : t'.parent = t.parent
  pml4 : t'.pml4 = t.pml4
  addrSpacePrivate : t'.addrSpacePrivate = t.addrSpacePrivate
  handlers : t'.signals.handlers = t.signals.handlers
  mask : t'.signals.blocked = t.signals.blocked
  state : t'.state = t.state ∧ t'.blockedOn = t.blockedOn ∨ t.state = .blocked ∧ t'.state = .ready

theorem Woken.refl (t : Task) : Woken t t := ⟨rfl, rfl, rfl, rfl, rfl, rfl, rfl, .inl ⟨rfl, rfl⟩⟩

theorem Woken.trans (h : Woken t t') (h' : Woken t' t'') : Woken t t'' where
  id := h'.id.trans h.id
  tgid := h'.tgid.trans h.tgid
  parent := h'.parent.trans h.parent
  pml4 := h'.pml4.trans h.pml4
  addrSpacePrivate := h'.addrSpacePrivate.trans h.addrSpacePrivate
  handlers := h'.handlers.trans h.handlers
  mask := h'.mask.trans h.mask
  state := by
    rcases h.state with ⟨hs, hon⟩ | ⟨hb, hr⟩ <;> rcases h'.state with ⟨hs', hon'⟩ | ⟨hb', hr'⟩
    · exact .inl ⟨hs'.trans hs, hon'.trans hon⟩
    · exact .inr ⟨hs.symm.trans hb', hr'⟩
    · exact .inr ⟨hb, hs'.trans hr⟩
    · rw [hr] at hb'
      cases hb'

/-- Only the task table and the run queue have changed. -/
def OnlyTasks (s s' : State) : Prop := ∃ T R, s' = { s with tasks := T, rq := R }

/-- Some tasks were woken or marked with a signal. -/
structure Woke (s s' : State) : Prop where
  tasks : ∀ i, Woken (s.tasks i) (s'.tasks i)
  rest : OnlyTasks s s'

namespace Woke

theorem refl (s : State) : Woke s s := ⟨fun _ => .refl _, s.tasks, s.rq, rfl⟩

theorem trans (h : Woke s s') (h' : Woke s' s'') : Woke s s'' := by
  refine ⟨fun i => (h.tasks i).trans (h'.tasks i), ?_⟩
  obtain ⟨_, _, rfl⟩ := h.rest
  obtain ⟨T, R, rfl⟩ := h'.rest
  exact ⟨T, R, rfl⟩

theorem setTask (s : State) (h : Woken (s.tasks i) (f (s.tasks i))) : Woke s (s.setTask i f) := by
  refine ⟨fun j => ?_, _, _, rfl⟩
  obtain rfl | hj := eq_or_ne j i
  · rwa [tasks_setTask_self]
  · rw [tasks_setTask_ne _ _ hj]
    exact .refl _

theorem wakeTask (s : State) (tid : Nat)
    (h : Woken (s.tasks i) { f (s.tasks i) with state := .ready }) :
    Woke s (s.wakeTask i tid f) := by
  have hset : Woke s (s.setTask i fun t => { f t with state := .ready }) := setTask s h
  exact ⟨hset.tasks, _, _, rfl⟩

theorem wakeAll {test : State → Task → Bool} {g : State → Task → Task} (s : State)
    (hg : ∀ s t, t.state = .blocked → Woken t { g s t with state := .ready }) :
    Woke s (s.wakeAll test g) := by
  refine List.foldlRecOn (motive := Woke s) _ _ (.refl s) fun s' hs' i _ => ?_
  unfold State.wakeAt
  dsimp only
  split
  next hsel =>
    simp only [Bool.and_eq_true, decide_eq_true_eq] at hsel
    exact hs'.trans (.wakeTask _ _ (hg s' _ hsel.1.1))
  next => exact hs'

theorem futexWake (s : State) (uaddr maxWake : Nat) : Woke s (s.futexWake uaddr maxWake).2 := by
  refine List.foldlRecOn (motive := fun acc : Nat × State => Woke s acc.2) _ _ (.refl s)
    fun acc hacc i _ => ?_
  unfold State.futexWakeAt
  dsimp only
  split
  next hsel =>
    simp only [Bool.and_eq_true, decide_eq_true_eq] at hsel
    exact hacc.trans (.wakeTask _ _ ⟨rfl, rfl, rfl, rfl, rfl, rfl, rfl, .inr ⟨hsel.1.1.2, rfl⟩⟩)
  next => exact hacc

theorem notifyParent (s : State) (p : Nat) : Woke s (s.notifyParent p) := by
  unfold State.notifyParent
  dsimp only
  split
  · have hpend : Woke s (s.setTask (taskIdx p)
        fun t => { t with signals := t.signals.setPending sigChld }) :=
      .setTask s ⟨rfl, rfl, rfl, rfl, rfl, rfl, rfl, .inl ⟨rfl, rfl⟩⟩
    split
    next hb =>
      simp only [Bool.and_eq_true, decide_eq_true_eq] at hb
      refine hpend.trans (.wakeTask _ _ ?_)
      rw [tasks_setTask_self]
      exact ⟨rfl, rfl, rfl, rfl, rfl, rfl, rfl, .inr ⟨hb.1, rfl⟩⟩
    next => exact hpend
  · exact .refl s

theorem wakeParent (s : State) (p : Option Nat) (id : Nat) : Woke s (s.wakeParent p id) := by
  cases p with
  | none => exact .refl s
  | some p =>
    unfold State.wakeParent
    dsimp only
    split
    next hb =>
      simp only [Bool.and_eq_true, decide_eq_true_eq] at hb
      exact .wakeTask _ _ ⟨rfl, rfl, rfl, rfl, rfl, rfl, rfl, .inr ⟨hb.1, rfl⟩⟩
    next => exact .refl s

theorem clearTid (s : State) (tidptr : Nat) :
    ∃ w, Woke { s with word := w } (s.clearTid tidptr) := by
  unfold State.clearTid
  split
  · obtain ⟨w, hw⟩ := s.storeWord_eq tidptr 0
    obtain ⟨w', hw'⟩ := State.storeWord_eq { s with word := w } (tidptr + 4) 0
    rw [hw, hw']
    exact ⟨w', .futexWake _ _ _⟩
  · exact ⟨s.word, .refl s⟩

end Woke

/-! ### The end of a task -/

theorem removeFromRunqueue_eq (h : s.removeFromRunqueue tid = some s') :
    ∃ rq, s' = { s with rq := rq } := by
  simp only [State.removeFromRunqueue, Option.map_eq_some_iff] at h
  obtain ⟨rq, -, rfl⟩ := h
  exact ⟨rq, rfl⟩

theorem exitHead_cases (s : State) (code : Int) :
    ∃ w, Woke ({ s with files := (s.closeFds s.current).files, word := w }.setTask
      (taskIdx s.current) (die code)) (s.exitHead code) := by
  obtain ⟨files, hfiles⟩ : ∃ files, s.closeFds s.current = { s with files := files } := ⟨_, rfl⟩
  rw [State.exitHead, hfiles]
  exact Woke.clearTid ({ s with files := files }.setTask (taskIdx s.current) (die code)) _

theorem exitBody_cases (h : s.exitBody code = some s') :
    ∃ s₁ pid, Woke (s.exitHead code) s₁ ∧ s' = s₁.reparentChildrenToInit pid := by
  have htail (z : State) : ∃ s₁ pid, Woke z s₁ ∧ z.exitTail = s₁.reparentChildrenToInit pid :=
    ⟨_, _, .wakeParent .., rfl⟩
  unfold State.exitBody at h
  dsimp only at h
  split at h
  · cases h
    exact htail _
  · split at h
    · cases h
    · cases h
      obtain ⟨s₁, pid, hw, heq⟩ := htail ((s.exitHead code).notifyParent ‹Nat›)
      exact ⟨s₁, pid, (Woke.notifyParent ..).trans hw, heq⟩

theorem killTaskZombie_cases (h : s.killTaskZombie i code = some s') :
    ∃ rq w s₁ pid, Woke ({ s with rq := rq, word := w }.setTask i (die code)) s₁ ∧
      s' = s₁.reparentChildrenToInit pid := by
  unfold State.killTaskZombie at h
  simp only [Option.map_eq_some_iff] at h
  obtain ⟨z, hz, rfl⟩ := h
  have hq : ∃ rq, z = { s.setTask i (die code) with rq := rq } := by
    split at hz
    · exact removeFromRunqueue_eq hz
    · cases hz
      exact ⟨_, rfl⟩
  obtain ⟨w, hw⟩ := Woke.clearTid z
    (if ((s.setTask i (die code)).tasks i).id = z.current then (z.tasks i).childTidptr else 0)
  have hend := hw.trans (.wakeParent _ ((z.clearTid
    (if ((s.setTask i (die code)).tasks i).id = z.current then (z.tasks i).childTidptr
      else 0)).tasks
      i).parent ((s.setTask i (die code)).tasks i).id)
  obtain ⟨rq, rfl⟩ := hq
  exact ⟨rq, w, _, _, hend, rfl⟩

/-! ### Signals -/

/-- The signal ends the current task: its default action is to terminate the task in slot `i`,
which runs, and it is not blocked. -/
def endsCurrent (s : State) (i : Nat) (sig : Int) : Bool :=
  let t := s.tasks i
  t.id ≠ 0 && t.state ≠ .empty && 0 < sig && sig < Task.signalCount &&
    sig.toNat ≠ sigKill && sig.toNat ≠ sigStop && (t.signals.handlers sig.toNat).handler = sigDfl &&
    terminates sig.toNat && !t.signals.isBlocked sig.toNat && taskIdx s.current = i

def fatal (t : Task) (sig : Int) : Bool :=
  0 < sig && sig < Task.signalCount && (sig.toNat = sigKill || sig.toNat = sigStop ||
    (t.signals.handlers sig.toNat).handler = sigDfl && terminates sig.toNat &&
      !t.signals.isBlocked sig.toNat)

/-- A signal with a handler makes a task that waits in `rt_sigsuspend` ready without queueing it. -/
def silent (t : Task) (sig : Int) : Bool :=
  t.state = .blocked && t.blockedOn = sigsuspendMagic && 0 < sig && sig < Task.signalCount &&
    sig.toNat ≠ sigKill && sig.toNat ≠ sigStop &&
    (t.signals.handlers sig.toNat).handler ≠ sigIgn && (t.signals.handlers sig.toNat).handler ≠
      sigDfl

/-- The signal is made pending for its handler, and the task goes on out of `rt_sigsuspend`. -/
def caughtBy (sig : Int) (t : Task) : Task :=
  let t := { t with signals := t.signals.setPending sig.toNat }
  if t.state = .blocked ∧ t.blockedOn = sigsuspendMagic
    then { t with state := .ready, blockedOn := 0 }
  else t

/-- The ways through `sig_deliver_to_task` under the lock. -/
inductive Delivers (s : State) (i : Nat) (sig : Int) : Option Int × State → Prop where
  | refused (r : Int) (h : (s.tasks i).id = 0 ∨ (s.tasks i).state = .empty ∨ sig ≤ 0 ∨
      Task.signalCount ≤ sig) : Delivers s i sig (some r, s)
  | ignored : Delivers s i sig (some 0, s)
  | pended : Delivers s i sig
      (some 0, s.setTask i fun t => { t with signals := t.signals.setPending sig.toNat })
  | caught (hid : (s.tasks i).id ≠ 0) (hsilent : (s.tasks i).state = .blocked ∧
      (s.tasks i).blockedOn = sigsuspendMagic → silent (s.tasks i) sig = true) :
      Delivers s i sig (some 0, s.setTask i (caughtBy sig))
  | killed {s' : State} (hlive : (s.tasks i).id ≠ 0 ∧ (s.tasks i).state ≠ .empty)
      (hfatal : fatal (s.tasks i) sig = true) (hends : endsCurrent s i sig = false)
      (hself : taskIdx s.current = i → sig = sigKill ∨ sig = sigStop)
      (h : s.killTaskZombie i (128 + sig) = some s') : Delivers s i sig (some 0, s')
  | lost (hlive : (s.tasks i).id ≠ 0 ∧ (s.tasks i).state ≠ .empty)
      (h : s.killTaskZombie i (128 + sig) = none) : Delivers s i sig (none, { s with hung := true })
  | exits (h : endsCurrent s i sig = true) (hfatal : fatal (s.tasks i) sig = true)
      (hcur : taskIdx s.current = i) : Delivers s i sig
      (if (s.exitTask (128 + sig)).1 then some 0 else none, (s.exitTask (128 + sig)).2)

theorem delivers (s : State) (i : Nat) (sig : Int) : Delivers s i sig (s.deliverLocked i sig) := by
  unfold State.deliverLocked
  dsimp only
  split
  next hdead => exact .refused _ (hdead.imp_right .inl)
  next hlive =>
  rw [not_or] at hlive
  split
  next hsig => exact .refused _ (.inr (.inr hsig))
  next hsig =>
  simp only [not_or, not_le] at hsig
  split
  next hks =>
    have hfatal : fatal (s.tasks i) sig = true := by
      rcases hks with hks | hks <;> simp [fatal, hsig, hks]
    have hends : endsCurrent s i sig = false := by
      rcases hks with hks | hks <;> simp [endsCurrent, hks]
    cases h : s.killTaskZombie i (128 + sig) with
    | none => exact .lost hlive h
    | some s' => exact .killed hlive hfatal hends (fun _ => by omega) h
  next hks =>
  rw [not_or] at hks
  split
  next => exact .ignored
  next hign =>
  split
  next hdfl =>
    refine .caught hlive.1 fun hsus => ?_
    simp [silent, hsus, hsig, hks, hign, hdfl]
  next hdfl =>
  rw [ne_eq, not_not] at hdfl
  split
  next hterm =>
    split
    next => exact .pended
    next hblk =>
    split
    next hcur =>
      exact .exits (by simp [endsCurrent, hlive, hsig, hks, hdfl, hterm, hblk, hcur])
        (by simp [fatal, hsig, hdfl, hterm, hblk]) hcur
    next hcur =>
      have hfatal : fatal (s.tasks i) sig = true := by simp [fatal, hsig, hdfl, hterm, hblk]
      have hends : endsCurrent s i sig = false := by simp [endsCurrent, hcur]
      cases h : s.killTaskZombie i (128 + sig) with
      | none => exact .lost hlive h
      | some s' => exact .killed hlive hfatal hends (fun heq => absurd heq hcur) h
  next => exact .ignored

/-! ### Creation -/

theorem State.allocPidFrom_cases (s : State) {min tid : Nat}
    (h : s.allocPidFrom min = some (tid, s')) : min ≤ tid ∧ tid < maxTasks ∧ s.pids tid = false ∧
      s' = { s with pids := Function.update s.pids tid true } := by
  simp only [State.allocPidFrom, Option.map_eq_some_iff, Prod.mk.injEq] at h
  obtain ⟨p, hfind, rfl, rfl⟩ := h
  have hrange := List.mem_range'_1.mp (List.mem_of_find?_eq_some hfind)
  exact ⟨hrange.1, by omega, by simpa using List.find?_some hfind, rfl⟩

theorem freePid_eq (s : State) (pid : Nat) : ∃ pids, s.freePid pid = { s with pids := pids } := by
  unfold State.freePid
  split
  · exact ⟨s.pids, rfl⟩
  · exact ⟨_, rfl⟩

/-- The free pid that a new task gets. -/
structure Fresh (s : State) (min tid : Nat) : Prop where
  low : min ≤ tid
  lt : tid < maxTasks
  free : s.pids tid = false

/-- The task `u` is in the slot of its pid and on the queue. -/
structure Arrives (s s' : State) (tid : Nat) (u : Task) : Prop where
  id : u.id = tid
  ready : u.state = .ready
  rq : ∃ rq : RunQueue,
    (rq = s.rq ∨ rq = { s.rq with next := Function.update s.rq.next tid none }) ∧
    s'.rq = rq.enqueue taskIdx tid u.prio
  rest : s' = { s with
    tasks := Function.update s.tasks tid u, pids := Function.update s.pids tid true, rq := s'.rq
    files := s'.files, word := s'.word }

namespace Arrives

variable {u : Task}

theorem tasks (h : Arrives s s' tid u) : s'.tasks = Function.update s.tasks tid u := by rw [h.rest]

theorem pids (h : Arrives s s' tid u) : s'.pids = Function.update s.pids tid true := by rw [h.rest]

theorem current (h : Arrives s s' tid u) : s'.current = s.current := by rw [h.rest]

end Arrives

/-- What a call that creates a task does. There is no pid; or the pid is taken and memory is short,
where the call leaves the descriptors `kept` and frees the pid if `back` is set; or the task that
`made` describes arrives with descriptors as `given`. -/
inductive Creates (s : State) (min : Nat) (short : Prop) (back : Bool) (kept : Nat → Pipe.Sys)
    (given : Nat → Pipe.Sys → Prop) (made : Nat → Task → Prop) : Option Nat → State → Prop where
  | noPid : Creates s min short back kept given made none s
  | noMemory {tid : Nat} (h : Fresh s min tid) (hshort : short) :
      Creates s min short back kept given made none
        (let s' := { s with pids := Function.update s.pids tid true, files := kept tid }
        if back then s'.freePid tid else s')
  | done {tid : Nat} {u : Task} {s' : State} (h : Fresh s min tid) (hu : made tid u)
      (harr : Arrives s s' tid u) (hfiles : given tid s'.files) :
      Creates s min short back kept given made (some tid) s'

theorem createKernelTaskPrio_creates (s : State) (prio : Prio) (pml4 : Nat) (stack : Bool) :
    Creates s 2 (stack = false) false (fun _ => s.files) (fun _ f => f = s.files)
      (fun tid u => u.pml4 = pml4 ∧ u.addrSpacePrivate = (s.tasks tid).addrSpacePrivate)
      (s.createKernelTaskPrio prio pml4 stack).1 (s.createKernelTaskPrio prio pml4 stack).2 := by
  unfold State.createKernelTaskPrio
  cases hpid : s.allocPidFrom 2 with
  | none => exact .noPid
  | some r =>
    obtain ⟨tid, s₁⟩ := r
    obtain ⟨hlow, hlt, hfree, rfl⟩ := State.allocPidFrom_cases s hpid
    dsimp only
    split
    next hs => exact .noMemory ⟨hlow, hlt, hfree⟩ (by simpa using hs)
    next =>
      rw [taskIdx_of_lt hlt]
      exact .done (u := { s.tasks tid with
          id := tid, tgid := tid, state := .ready, userMode := false, userStack := 0,
          pml4 := pml4, staticPrio := prio, prio := prio,
          timeSlice := initialTimeSlice prio, parent := none })
        ⟨hlow, hlt, hfree⟩ ⟨rfl, rfl⟩ ⟨rfl, rfl, ⟨_, .inl rfl, rfl⟩, rfl⟩ rfl

theorem allocFdForTask_eq (s : State) (tid inode : Nat) (flags : BitVec 32) :
    ∃ f, s.allocFdForTask tid inode flags = { s with files := f } := by
  unfold State.allocFdForTask
  split
  · exact ⟨s.files, rfl⟩
  · exact ⟨_, rfl⟩

/-- The console becomes the first descriptors of the new task. -/
def withConsole (s : State) (tid : Nat) : Option Nat → State
  | none => s
  | some c => ((s.allocFdForTask tid c 0).allocFdForTask tid c 1).allocFdForTask tid c 1

theorem withConsole_eq (s : State) (tid : Nat) (console : Option Nat) :
    ∃ f, withConsole s tid console = { s with files := f } := by
  cases console with
  | none => exact ⟨s.files, rfl⟩
  | some c =>
    obtain ⟨f₁, h₁⟩ := allocFdForTask_eq s tid c 0
    obtain ⟨f₂, h₂⟩ := allocFdForTask_eq { s with files := f₁ } tid c 1
    obtain ⟨f₃, h₃⟩ := allocFdForTask_eq { s with files := f₂ } tid c 1
    exact ⟨f₃, by rw [withConsole, h₁, h₂, h₃]⟩

theorem createUserTaskOnCpu_creates (s : State) (prio : Prio) (pml4 userStack : Nat)
    (stack tls : Bool)
    (console : Option Nat) :
    Creates s 1 (stack = false ∨ tls = false) false (fun _ => s.files)
      (fun tid f => ∃ w : State, w.files = s.files ∧ f = (withConsole w tid console).files)
      (fun tid u => u.pml4 = pml4 ∧ u.addrSpacePrivate = (s.tasks tid).addrSpacePrivate)
      (s.createUserTaskOnCpu prio pml4 userStack stack tls console).1
      (s.createUserTaskOnCpu prio pml4 userStack stack tls console).2 := by
  unfold State.createUserTaskOnCpu
  cases hpid : s.allocPidFrom 1 with
  | none => exact .noPid
  | some r =>
    obtain ⟨tid, s₁⟩ := r
    obtain ⟨hlow, hlt, hfree, rfl⟩ := State.allocPidFrom_cases s hpid
    dsimp only
    split
    next hs => exact .noMemory ⟨hlow, hlt, hfree⟩ (by simpa using hs)
    next =>
      rw [taskIdx_of_lt hlt]
      generalize hw : State.setTask _ tid _ = w
      obtain ⟨f, hf⟩ := withConsole_eq w tid console
      have hdone : Creates s 1 (stack = false ∨ tls = false) false (fun _ => s.files)
          (fun tid f => ∃ w : State, w.files = s.files ∧ f = (withConsole w tid console).files)
          (fun tid u => u.pml4 = pml4 ∧ u.addrSpacePrivate = (s.tasks tid).addrSpacePrivate)
            (some tid)
          ((withConsole w tid console).enqueueTask tid prio) := by
        refine .done (u := { s.tasks tid with
          id := tid, tgid := tid, state := .ready, userMode := true, userStack := userStack,
          pml4 := pml4, staticPrio := prio, prio := prio,
          timeSlice := initialTimeSlice prio, parent := some s.current }) ⟨hlow, hlt, hfree⟩
            ⟨rfl, rfl⟩
          ?_ ⟨w, by rw [← hw]; rfl, rfl⟩
        rw [hf]
        subst hw
        exact ⟨rfl, rfl, ⟨_, .inl rfl, rfl⟩, rfl⟩
      cases console <;> exact hdone

theorem sysFork_creates (s : State) (stack : Bool) (pml4 : Option Nat) :
    ∃ r, Creates s 1 (stack = false ∨ pml4 = none) true
        (fun tid => inheritFds s.files (s.current % maxTasks) (tid % maxTasks))
        (fun tid f => f = inheritFds s.files (s.current % maxTasks) (tid % maxTasks))
        (fun _ u => pml4 = some u.pml4) r (s.sysFork stack pml4).2 ∧
      ∀ tid : Nat, (s.sysFork stack pml4).1 = tid → r = some tid := by
  have hneg {e : Int} (he : 0 < e) (tid : Nat) (h : -e = tid) : (none : Option Nat) = some tid := by
    omega
  unfold State.sysFork
  split
  · exact ⟨none, .noPid, hneg (by decide)⟩
  cases hpid : s.allocPidFrom 1 with
  | none => exact ⟨none, .noPid, hneg (by decide)⟩
  | some r =>
    obtain ⟨tid, s₁⟩ := r
    obtain ⟨hlow, hlt, hfree, rfl⟩ := State.allocPidFrom_cases s hpid
    dsimp only
    split
    next hs =>
      exact ⟨none, .noMemory ⟨hlow, hlt, hfree⟩ (.inl (by simpa using hs)), hneg (by decide)⟩
    next =>
    cases pml4 with
    | none => exact ⟨none, .noMemory ⟨hlow, hlt, hfree⟩ (.inr rfl), hneg (by decide)⟩
    | some p =>
      dsimp only
      rw [taskIdx_of_lt hlt]
      exact ⟨some tid, .done (u := { childOf (s.task s.current) tid with
          pml4 := p, parent := some s.current, addrSpacePrivate := true })
        ⟨hlow, hlt, hfree⟩ rfl ⟨rfl, rfl, ⟨_, .inr rfl, rfl⟩, rfl⟩ rfl,
        fun n h => congrArg some (Int.ofNat.inj h)⟩

/-- The page table of a child: that of its parent under `CLONE_VM`. -/
def clonePml4 (s : State) (flags : UInt64) (pml4 : Option Nat) : Option Nat :=
  if flags &&& cloneVm ≠ 0 then some (s.task s.current).pml4 else pml4

theorem sysClone_creates (s : State) (flags : UInt64) (childStack parentTidptr childTidptr : Nat)
    (stack : Bool) (pml4 : Option Nat) :
    ∃ r, Creates s 1 True false
        (fun tid => inheritFds s.files (s.current % maxTasks) (tid % maxTasks))
        (fun tid f => f = inheritFds s.files (s.current % maxTasks) (tid % maxTasks))
        (fun _ u => clonePml4 s flags pml4 = some u.pml4 ∧
          u.addrSpacePrivate = decide (flags &&& cloneVm = 0)) r
        (s.sysClone flags childStack parentTidptr childTidptr stack pml4).2 ∧
      ∀ tid : Nat, (s.sysClone flags childStack parentTidptr childTidptr stack pml4).1 = tid →
        r = some tid := by
  have hneg {e : Int} (he : 0 < e) (tid : Nat) (h : -e = tid) : (none : Option Nat) = some tid := by
    omega
  unfold State.sysClone
  split
  · exact ⟨none, .noPid, hneg (by decide)⟩
  cases hpid : s.allocPidFrom 1 with
  | none => exact ⟨none, .noPid, hneg (by decide)⟩
  | some r =>
    obtain ⟨tid, s₁⟩ := r
    obtain ⟨hlow, hlt, hfree, rfl⟩ := State.allocPidFrom_cases s hpid
    dsimp only
    split
    · exact ⟨none, .noMemory ⟨hlow, hlt, hfree⟩ trivial, hneg (by decide)⟩
    split
    · exact ⟨none, .noMemory ⟨hlow, hlt, hfree⟩ trivial, hneg (by decide)⟩
    next p hp =>
      rw [taskIdx_of_lt hlt]
      -- the two stores of the tid lie between the slot and the queue
      have htid (x : State) : ∃ w, (if flags &&& cloneParentSettid ≠ 0 ∧ parentTidptr ≠ 0 then
          (x.storeWord parentTidptr tid).storeWord (parentTidptr + 4) 0 else x) =
            { x with word := w } := by
        split
        · obtain ⟨w₁, h₁⟩ := x.storeWord_eq parentTidptr tid
          obtain ⟨w₂, h₂⟩ := State.storeWord_eq { x with word := w₁ } (parentTidptr + 4) 0
          exact ⟨w₂, by rw [h₁, h₂]⟩
        · exact ⟨x.word, rfl⟩
      obtain ⟨w, hw⟩ := htid _
      rw [hw]
      exact ⟨some tid, .done (u := { childOf (s.task s.current) tid with
          tgid := if flags &&& cloneThread ≠ 0 then (s.task s.current).tgid else tid
          userMode := true
          userStack := childStack
          pml4 := p
          parent := if flags &&& cloneParent ≠ 0 then (s.task s.current).parent else some s.current
          childTidptr := if flags &&& cloneChildCleartid ≠ 0 then childTidptr else 0
          addrSpacePrivate := flags &&& cloneVm = 0 })
        ⟨hlow, hlt, hfree⟩ ⟨hp, rfl⟩ ⟨rfl, rfl, ⟨_, .inr rfl, rfl⟩, rfl⟩ rfl,
        fun n h => congrArg some (Int.ofNat.inj h)⟩

def Event.creates : Event → Bool
  | .call (.createKernel _ _ _) | .call (.spawn _ _ _ _ _ _) | .call (.fork _ _)
  | .call (.clone _ _ _ _ _ _) => true
  | _ => false

theorem call_creates (s : State) {c : Call} (hc : Event.creates (.call c) = true) :
    ∃ min short back kept given made r, 0 < min ∧
      Creates s min short back kept given made r (s.call c) := by
  cases c with
  | createKernel prio pml4 stack =>
    exact ⟨_, _, _, _, _, _, _, by decide, createKernelTaskPrio_creates s prio pml4 stack⟩
  | spawn prio pml4 userStack stack tls console =>
    exact ⟨_, _, _, _, _, _, _, by decide,
      createUserTaskOnCpu_creates s prio pml4 userStack stack tls console⟩
  | fork stack pml4 =>
    obtain ⟨r, hr, -⟩ := sysFork_creates s stack pml4
    exact ⟨_, _, _, _, _, _, r, by decide, hr⟩
  | clone flags childStack parentTidptr childTidptr stack pml4 =>
    obtain ⟨r, hr, -⟩ := sysClone_creates s flags childStack parentTidptr childTidptr stack pml4
    exact ⟨_, _, _, _, _, _, r, by decide, hr⟩
  | _ => cases hc

/-! ### Priorities -/

/-- A state that differs in priorities and queues alone. -/
structure Reweighed (s s' : State) : Prop where
  task : ∀ i, ∃ prio boosted, s'.tasks i = { s.tasks i with prio := prio, piBoosted := boosted }
  rest : OnlyTasks s s'

namespace Reweighed

theorem current (h : Reweighed s s') : s'.current = s.current := by
  obtain ⟨_, _, rfl⟩ := h.rest
  rfl

theorem idle (h : Reweighed s s') : s'.idle = s.idle := by
  obtain ⟨_, _, rfl⟩ := h.rest
  rfl

theorem word (h : Reweighed s s') : s'.word = s.word := by
  obtain ⟨_, _, rfl⟩ := h.rest
  rfl

theorem space (h : Reweighed s s') : s'.space = s.space := by
  obtain ⟨_, _, rfl⟩ := h.rest
  rfl

theorem requeue (s : State) (rq : RunQueue) : Reweighed s { s with rq := rq } :=
  ⟨fun _ => ⟨_, _, rfl⟩, _, _, rfl⟩

theorem setTask (s : State) (rq : RunQueue) (j : Nat) (prio : Task → Prio) (boosted : Task → Bool) :
    Reweighed s { s.setTask j (fun t => { t with prio := prio t, piBoosted := boosted t }) with
      rq := rq } := by
  refine ⟨fun i => ?_, _, _, rfl⟩
  obtain rfl | hne := eq_or_ne i j
  · dsimp only
    rw [tasks_setTask_self]
    exact ⟨_, _, rfl⟩
  · dsimp only
    rw [tasks_setTask_ne _ _ hne]
    exact ⟨_, _, rfl⟩

theorem boostOwner {owner : Nat} (h : s.boostOwner owner = some s') : Reweighed s s' := by
  unfold State.boostOwner at h
  dsimp only at h
  split at h
  · simp only [State.removeFromRunqueue, Option.map_map, Option.map_eq_some_iff] at h
    obtain ⟨rq, -, rfl⟩ := h
    dsimp only [Function.comp]
    split
    · exact setTask s _ (taskIdx owner) (fun _ => (s.task s.current).prio) fun _ => true
    · exact setTask s _ (taskIdx owner) (fun _ => (s.task s.current).prio) fun _ => true
  · cases h
    exact requeue s s.rq

theorem unboost (h : s.unboost = some s') : Reweighed s s' := by
  unfold State.unboost at h
  dsimp only at h
  split at h
  · split at h
    · simp only [State.removeFromRunqueue, Option.map_map, Option.map_eq_some_iff] at h
      obtain ⟨rq, -, rfl⟩ := h
      exact setTask s _ (taskIdx s.current) Task.staticPrio fun _ => false
    · cases h
      exact setTask s _ (taskIdx s.current) Task.staticPrio fun _ => false
  · cases h
    exact requeue s s.rq

end Reweighed

/-! ### Calls on the caller's own fields -/

/-- A task sets fields that neither the scheduler nor the memory looks at. -/
structure OwnFields (t t' : Task) : Prop where
  id : t'.id = t.id
  prio : t'.prio = t.prio
  state : t'.state = t.state
  parent : t'.parent = t.parent
  pml4 : t'.pml4 = t.pml4
  addrSpacePrivate : t'.addrSpacePrivate = t.addrSpacePrivate

theorem OwnFields.alike (h : OwnFields t t') : Alike t t' := ⟨h.id, h.prio, h.state⟩

/-- The calls with which a task sets fields of its own. -/
def Call.sets : Call → Bool
  | .syscall _ | .futexResume | .pollResume | .setMask _ | .setAction _ _ | .setpgid _ _
  | .setsid => true
  | _ => false

theorem State.sysSetpgid_cases (s : State) (pid pgid : Int) : (s.sysSetpgid pid pgid).2 = s ∨
    ∃ g, (s.sysSetpgid pid pgid).2 = s.setTask (taskIdx s.current) fun t =>
      { t with tgid := g } := by
  have htarget (h : (if pid = 0 then (s.current : Int) else pid) = 0) : s.current = 0 := by
    split at h <;> omega
  simp only [State.sysSetpgid]
  generalize (if pid = 0 then (s.current : Int) else pid) = target at htarget
  split
  · exact .inl rfl
  split
  · exact .inl rfl
  split
  · exact .inl rfl
  · have heq : target.toNat = s.current := by
      by_cases h0 : target = 0
      · exact absurd (htarget h0) ‹_›
      · omega
    rw [heq]
    exact .inr ⟨_, rfl⟩

theorem setTask_id (s : State) (i : Nat) : s.setTask i id = s := by
  simp [State.setTask, Function.update_eq_self]

theorem call_sets (s : State) {c : Call} (hc : c.sets = true) :
    ∃ f, (∀ t, OwnFields t (f t)) ∧ s.call c = s.setTask (taskIdx s.current) f := by
  have hsame : ∃ f, (∀ t, OwnFields t (f t)) ∧ s = s.setTask (taskIdx s.current) f :=
    ⟨id, fun _ => ⟨rfl, rfl, rfl, rfl, rfl, rfl⟩, (setTask_id s _).symm⟩
  cases c with
  | syscall enter =>
    exact ⟨fun t => { t with inSyscall := enter }, fun _ => ⟨rfl, rfl, rfl, rfl, rfl, rfl⟩, rfl⟩
  | futexResume =>
    simp only [State.call, State.futexResume]
    split
    · exact ⟨fun t => { t with futexDeadline := 0 }, fun _ => ⟨rfl, rfl, rfl, rfl, rfl, rfl⟩, rfl⟩
    · exact hsame
  | pollResume =>
    refine ⟨fun t => if t.signals.pending &&& ~~~ t.signals.blocked ≠ 0 then
      { t with pollFds := 0 } else t, fun t => ?_, rfl⟩
    dsimp only
    split <;> exact ⟨rfl, rfl, rfl, rfl, rfl, rfl⟩
  | setMask mask =>
    exact ⟨fun t => { t with signals := { t.signals with blocked := mask } },
      fun _ => ⟨rfl, rfl, rfl, rfl, rfl, rfl⟩, rfl⟩
  | setAction sig act =>
    exact ⟨fun t => { t with signals := { t.signals with
      handlers := Function.update t.signals.handlers sig act } },
        fun _ => ⟨rfl, rfl, rfl, rfl, rfl, rfl⟩, rfl⟩
  | setpgid pid pgid =>
    simp only [State.call]
    rcases s.sysSetpgid_cases pid pgid with heq | ⟨g, heq⟩ <;> rw [heq]
    · exact hsame
    · exact ⟨fun t => { t with tgid := g }, fun _ => ⟨rfl, rfl, rfl, rfl, rfl, rfl⟩, rfl⟩
  | setsid =>
    simp only [State.call, State.sysSetsid]
    split
    · exact hsame
    · exact ⟨fun t => { t with tgid := s.current }, fun _ => ⟨rfl, rfl, rfl, rfl, rfl, rfl⟩, rfl⟩
  | _ => cases hc

/-! ### Waiting for a child -/

/-- What `sys_waitpid` comes to: nothing, a zombie among the children, a wait for a tid word, or
another turn. -/
theorem sysWaitpid_cases (s : State) (pid : Int) (nohang : Bool) :
    (s.sysWaitpid pid nohang).2 = s ∨
    (∃ i < maxTasks, s.isChild pid i = true ∧ (s.tasks i).state = .zombie ∧
      ((List.range maxTasks).filter (s.isChild pid)).find?
        (fun i => (s.tasks i).state = .zombie) = some i ∧ (s.sysWaitpid pid nohang).2 = s.reap i) ∨
    (∃ uaddr val, (s.sysWaitpid pid nohang).2 = (s.futexWait uaddr val none).2) ∨
    (s.sysWaitpid pid nohang).2 = s.yieldNowForce := by
  unfold State.sysWaitpid
  split
  · exact .inl rfl
  dsimp only
  split
  next i hfind =>
    have hmem := List.mem_filter.mp (List.mem_of_find?_eq_some hfind)
    exact .inr (.inl ⟨i, List.mem_range.mp hmem.1, hmem.2,
      by simpa using List.find?_some hfind, hfind,
      rfl⟩)
  next =>
  split
  · exact .inl rfl
  split
  · exact .inl rfl
  split
  · unfold State.waitTid
    split
    · exact .inl rfl
    split
    · exact .inr (.inr (.inl ⟨_, _, rfl⟩))
    · exact .inl rfl
  · exact .inr (.inr (.inr rfl))

end Rynex.Sched
