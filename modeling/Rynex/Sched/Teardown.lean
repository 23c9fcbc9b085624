import Rynex.Sched.Descriptors
import Rynex.Sched.Futex

/-! The two ends of a task. `kill_task_zombie` is meant to leave the system as if the victim had
called `exit_task`; what it leaves out is said here exactly. -/

namespace Rynex.Sched

open Rynex.Lib State
open Rynex.Task (sigChld)

variable {s s' s₁ : State} {i v p : Nat} {code : Int}

/-! ### The parts of the state that a teardown changes -/

/-- The state without the task table, the run queue, the descriptors and the memory. -/
def rest (s : State) : State :=
  { s with
    tasks := fun _ => .empty, rq := .empty, files := .boot fun _ => .live, word := fun _ => 0 }

theorem eq_iff_of_rest (h : rest s = rest s') :
    s = s' ↔ s.tasks = s'.tasks ∧ s.rq = s'.rq ∧ s.files = s'.files ∧ s.word = s'.word := by
  constructor
  · rintro rfl
    exact ⟨rfl, rfl, rfl, rfl⟩
  · rintro ⟨ht, hq, hf, hw⟩
    cases s
    cases s'
    simp only [rest, State.mk.injEq] at h ht hq hf hw ⊢
    simp [h, ht, hq, hf, hw]

namespace OnlyTasks

theorem refl (s : State) : OnlyTasks s s := ⟨s.tasks, s.rq, rfl⟩

theorem trans {s'' : State} (h : OnlyTasks s s') (h' : OnlyTasks s' s'') : OnlyTasks s s'' := by
  obtain ⟨_, _, rfl⟩ := h
  obtain ⟨T, R, rfl⟩ := h'
  exact ⟨T, R, rfl⟩

theorem parts (h : OnlyTasks s s') : rest s' = rest s ∧ s'.files = s.files ∧ s'.word = s.word ∧
    s'.current = s.current ∧ s'.sigLock = s.sigLock := by
  obtain ⟨T, R, rfl⟩ := h
  exact ⟨rfl, rfl, rfl, rfl, rfl⟩

theorem eq_iff {a b : State} (ha : OnlyTasks s a) (hb : OnlyTasks s b) :
    a = b ↔ a.tasks = b.tasks ∧ a.rq = b.rq := by
  rw [eq_iff_of_rest (ha.parts.1.trans hb.parts.1.symm), ha.parts.2.1, hb.parts.2.1, ha.parts.2.2.1,
    hb.parts.2.2.1]
  simp

end OnlyTasks

/-! ### Closing the descriptors -/

theorem closeAll_closed {sys : Pipe.Sys} (h : Closed sys v) :
    (List.range Pipe.maxFdsPerTask).foldl (fun f fd => (f.closeFd v fd).2) sys = sys := by
  refine List.foldlRecOn (motive := fun f : Pipe.Sys => f = sys) _ _ rfl fun f hf fd hfd => ?_
  subst hf
  simp [Pipe.Sys.closeFd, Pipe.Sys.isOpen, h fd (List.mem_range.mp hfd)]

theorem closed_closeAll (sys : Pipe.Sys) (v : Nat) :
    Closed ((List.range Pipe.maxFdsPerTask).foldl (fun f fd => (f.closeFd v fd).2) sys) v := by
  suffices h : ∀ n ≤ Pipe.maxFdsPerTask, ∀ fd < n,
      (((List.range n).foldl (fun f fd => (f.closeFd v fd).2) sys).tables v fd).used = false from
    fun fd hfd => h _ le_rfl fd hfd
  intro n hn
  induction n with
  | zero => exact fun fd hfd => absurd hfd (Nat.not_lt_zero _)
  | succ n ih =>
    intro fd hfd
    rw [List.range_succ, List.foldl_append, List.foldl_cons, List.foldl_nil]
    generalize (List.range n).foldl (fun f fd => (f.closeFd v fd).2) sys = f at ih
    by_contra hu
    have hu' : (f.tables v fd).used = true := Quiet.used_closeFd f v n (by simpa using hu)
    obtain rfl | hlt := Nat.lt_succ_iff_lt_or_eq.mp hfd |>.symm
    · simp [Pipe.Sys.closeFd, Pipe.Sys.isOpen, hu', show fd < Pipe.maxFdsPerTask by omega,
        Pipe.Sys.setFd] at hu
    · rw [ih (by omega) fd hlt] at hu'
      cases hu'

theorem closeAll_eq_iff (sys : Pipe.Sys) (v : Nat) :
    (List.range Pipe.maxFdsPerTask).foldl (fun f fd => (f.closeFd v fd).2) sys = sys ↔
      Closed sys v :=
  ⟨fun h => h ▸ closed_closeAll sys v, closeAll_closed⟩

/-! ### Who is whose child -/

/-- Nobody has changed its number or its parent. -/
def Kin (s s' : State) : Prop :=
  ∀ i, (s'.tasks i).parent = (s.tasks i).parent ∧ (s'.tasks i).id = (s.tasks i).id

namespace Kin

theorem refl (s : State) : Kin s s := fun _ => ⟨rfl, rfl⟩

theorem trans {s'' : State} (h : Kin s s') (h' : Kin s' s'') : Kin s s'' :=
  fun i => ⟨(h' i).1.trans (h i).1, (h' i).2.trans (h i).2⟩

theorem woke (h : Woke s s') : Kin s s' := fun i => ⟨(h.tasks i).parent, (h.tasks i).id⟩

theorem eq_of_parent {t t' : Task} {q : Option Nat} (hp : t'.parent = t.parent)
    (h : { t' with parent := q } = { t with parent := q }) : t' = t := by
  cases t
  cases t'
  simp only [Task.mk.injEq] at h hp ⊢
  simp [h, hp]

theorem reparent_iff (h : Kin s s') (id : Nat) :
    (s'.reparentChildrenToInit id).tasks = (s.reparentChildrenToInit id).tasks ↔
      s'.tasks = s.tasks := by
  constructor
  · intro heq
    funext i
    have hi := congrFun heq i
    simp only [State.reparentChildrenToInit] at hi
    by_cases hc : (i < maxTasks && (s.tasks i).id ≠ 0 && (s.tasks i).parent = some id) = true
    · rw [if_pos hc, if_pos (by rw [(h i).1, (h i).2]; exact hc)] at hi
      exact eq_of_parent (h i).1 hi
    · rwa [if_neg hc, if_neg (by rw [(h i).1, (h i).2]; exact hc)] at hi
  · intro heq
    simp only [State.reparentChildrenToInit, heq]

end Kin

/-! ### The step for the parent -/

/-- A parent with a handler for SIGCHLD has it pending, and `exit_task` would not wake it out of
`rt_sigsuspend` or `poll` alone. -/
def chldSettled (t : Task) (v : Nat) : Bool :=
  !catchesChld t || (t.signals.setPending sigChld).pending = t.signals.pending &&
    !(t.state = .blocked && (t.blockedOn = sigsuspendMagic || t.pollFds ≠ 0) &&
      !(t.blockedOn = v || t.blockedOn = anyChild))

theorem setPending_eq_iff (g : Task.Signals) :
    g.setPending sigChld = g ↔ (g.setPending sigChld).pending = g.pending := by
  constructor
  · exact fun h => by rw [h]
  · intro h
    cases g
    simp only [Task.Signals.setPending] at h ⊢
    simp [h]

theorem enqueue_inj {r : RunQueue} {x y : Nat} {q : Prio}
    (h : r.enqueue taskIdx x q = r.enqueue taskIdx y q) : x = y := by
  have htail : ∀ x, (r.enqueue taskIdx x q).tails q = some x := by
    intro x
    unfold LevelQueue.enqueue
    split <;> simp
  have := congrFun (congrArg LevelQueue.tails h) q
  rw [htail, htail] at this
  exact Option.some.inj this

theorem wakeTask_eq_iff (s : State) (i x y : Nat) {f g : Task → Task} :
    s.wakeTask i x f = s.wakeTask i y g ↔
      ({ f (s.tasks i) with state := .ready } : Task) = { g (s.tasks i) with state := .ready } ∧
        x = y := by
  constructor
  · intro h
    have htask := congrFun (congrArg State.tasks h) i
    rw [tasks_wakeTask_self, tasks_wakeTask_self] at htask
    refine ⟨htask, ?_⟩
    have hprio : (f (s.tasks i)).prio = (g (s.tasks i)).prio := by
      simpa using congrArg Task.prio htask
    have hrq : s.rq.enqueue taskIdx x (f (s.tasks i)).prio =
      s.rq.enqueue taskIdx y (g (s.tasks i)).prio := by
      simpa [State.wakeTask, State.enqueueTask, State.setTask] using congrArg State.rq h
    rw [hprio] at hrq
    exact enqueue_inj hrq
  · rintro ⟨h, rfl⟩
    simp only [State.wakeTask, State.setTask, h]

theorem setTask_eq_self_iff (s : State) (i : Nat) (f : Task → Task) :
    s.setTask i f = s ↔ f (s.tasks i) = s.tasks i := by
  constructor
  · intro h
    have := congrFun (congrArg State.tasks h) i
    rwa [tasks_setTask_self] at this
  · intro h
    simp only [State.setTask, h, Function.update_eq_self]

theorem wakeTask_setTask (s : State) (i tid : Nat) (f g : Task → Task) :
    (s.setTask i f).wakeTask i tid g = s.wakeTask i tid (g ∘ f) := by
  simp [State.wakeTask, State.setTask, State.enqueueTask]

theorem setTask_wakeTask (s : State) (i tid : Nat) (f : Task → Task) :
    ((s.wakeTask i tid f).setTask i fun t => { t with signals := t.signals.setPending sigChld }) =
      s.wakeTask i tid fun t => { f t with signals := (f t).signals.setPending sigChld } := by
  simp [State.wakeTask, State.setTask, State.enqueueTask]

theorem wakeParent_of_not_blocked {s : State} {p v : Nat} (h : (s.task p).state ≠ .blocked) :
    s.wakeParent (some p) v = s := by
  simp only [State.wakeParent]
  rw [if_neg (by simp [h])]

theorem wakeParent_of_waiting {s : State} {p v : Nat} (hb : (s.task p).state = .blocked)
    (hon : (s.task p).blockedOn = v ∨ (s.task p).blockedOn = anyChild) :
    s.wakeParent (some p) v = s.wakeTask (taskIdx p) p fun t => { t with blockedOn := 0 } := by
  simp only [State.wakeParent]
  rw [if_pos (by simpa [hb] using hon)]

theorem wakeParent_of_not_waiting {s : State} {p v : Nat}
    (hon : ¬ ((s.task p).blockedOn = v ∨ (s.task p).blockedOn = anyChild)) :
    s.wakeParent (some p) v = s := by
  simp only [State.wakeParent]
  rw [if_neg]
  simp only [Bool.and_eq_true, Bool.or_eq_true, decide_eq_true_eq]
  exact fun h => hon h.2

theorem notifyParent_ignored {z : State} (hc : catchesChld (z.task p) = false) :
    z.notifyParent p = z := by simp [State.notifyParent, hc]

theorem notifyParent_wakes {z : State} (hc : catchesChld (z.task p) = true)
    (hw : (z.task p).state = .blocked ∧
      ((z.task p).blockedOn = sigsuspendMagic ∨ (z.task p).pollFds ≠ 0)) :
    z.notifyParent p = z.wakeTask (taskIdx p) p fun t =>
      { t with signals := t.signals.setPending sigChld, blockedOn := 0 } := by
  simp only [State.notifyParent]
  rw [if_pos hc, if_pos (by simpa [hw.1] using hw.2), wakeTask_setTask]
  rfl

theorem notifyParent_marks {z : State} (hc : catchesChld (z.task p) = true)
    (hw : ¬ ((z.task p).state = .blocked ∧
      ((z.task p).blockedOn = sigsuspendMagic ∨ (z.task p).pollFds ≠ 0))) :
    z.notifyParent p = z.setTask (taskIdx p) fun t =>
      { t with signals := t.signals.setPending sigChld } := by
  simp only [State.notifyParent]
  rw [if_pos hc, if_neg]
  simpa using hw

theorem notifyParent_idle_iff (z : State) (p v : Nat) :
    (z.notifyParent p).wakeParent (some p) v = z.wakeParent (some p) v ↔
      chldSettled (z.task p) v = true := by
  cases hc : catchesChld (z.task p) with
  | false =>
    refine iff_of_true ?_ (by simp [chldSettled, hc])
    rw [notifyParent_ignored hc]
  | true =>
    simp only [chldSettled, hc, Bool.not_true, Bool.false_or, Bool.and_eq_true, decide_eq_true_eq,
      ← setPending_eq_iff]
    by_cases hon : (z.task p).blockedOn = v ∨ (z.task p).blockedOn = anyChild
    · -- the parent waits for the child anyway, if it is blocked
      rw [and_iff_left (by simp [hon])]
      by_cases hw : (z.task p).state = .blocked ∧
          ((z.task p).blockedOn = sigsuspendMagic ∨ (z.task p).pollFds ≠ 0)
      · rw [notifyParent_wakes hc hw, wakeParent_of_waiting hw.1 hon, wakeParent_of_not_blocked
          (by simp [State.task, tasks_wakeTask_self]), wakeTask_eq_iff]
        exact ⟨fun h => congrArg Task.signals h.1,
          fun h => by simp only [State.task] at h; simp [h]⟩
      · rw [notifyParent_marks hc hw]
        by_cases hb : (z.task p).state = .blocked
        · rw [wakeParent_of_waiting hb hon, wakeParent_of_waiting (by simpa [State.task] using hb)
            (by simpa [State.task] using hon), wakeTask_setTask, wakeTask_eq_iff]
          exact ⟨fun h => congrArg Task.signals h.1,
            fun h => by simp only [State.task] at h; simp [h]⟩
        · rw [wakeParent_of_not_blocked hb, wakeParent_of_not_blocked
            (by simpa [State.task] using hb),
            setTask_eq_self_iff]
          exact ⟨fun h => congrArg Task.signals h,
            fun h => by simp only [State.task] at h; simp [h]⟩
    · rw [wakeParent_of_not_waiting hon]
      by_cases hw : (z.task p).state = .blocked ∧
          ((z.task p).blockedOn = sigsuspendMagic ∨ (z.task p).pollFds ≠ 0)
      · -- `exit_task` wakes the parent and `kill_task_zombie` does not
        rw [notifyParent_wakes hc hw, wakeParent_of_not_blocked
          (by simp [State.task, tasks_wakeTask_self])]
        refine iff_of_false (fun h => ?_) fun h => ?_
        · have hst := congrArg (fun s : State => (s.tasks (taskIdx p)).state) h
          simp only [tasks_wakeTask_self] at hst
          exact TaskState.noConfusion (hst.trans hw.1)
        · have hrest := h.2
          simp only [Bool.not_eq_true', Bool.and_eq_false_iff, Bool.or_eq_false_iff,
            Bool.not_eq_false', Bool.or_eq_true, decide_eq_true_eq,
              decide_eq_false_iff_not] at hrest
          tauto
      · rw [notifyParent_marks hc hw, wakeParent_of_not_waiting (by simpa [State.task] using hon),
          setTask_eq_self_iff]
        have hrest : (!(decide ((z.task p).state = .blocked) &&
            (decide ((z.task p).blockedOn = sigsuspendMagic) || decide ((z.task p).pollFds ≠ 0)) &&
            !(decide ((z.task p).blockedOn = v) || decide ((z.task p).blockedOn = anyChild)))) =
              true := by
          simp only [Bool.not_eq_true', Bool.and_eq_false_iff, Bool.or_eq_false_iff,
            Bool.not_eq_false', Bool.or_eq_true, decide_eq_true_eq, decide_eq_false_iff_not]
          tauto
        rw [and_iff_left hrest]
        exact ⟨fun h => congrArg Task.signals h, fun h => by simp only [State.task] at h; simp [h]⟩

/-- The only waiter that `kill_task_zombie` wakes as well: the parent, which waits without a timeout
for a word whose address is the number of the victim. -/
def wokenAnyway (z : State) (w tid v : Nat) (parent : Option Nat) : Bool :=
  tid = v && (z.tasks w).wakeupTick = 0 && (z.tasks w).futexDeadline = 0 &&
    parent.any fun p => taskIdx p = w && (z.tasks w).id = p

theorem catchesChld_woken {t : Task} (hb : t.state = .blocked) :
    catchesChld { wokenByFutex t with state := .ready } = catchesChld t := by
  unfold catchesChld wokenByFutex
  rw [hb]
  rfl

theorem woken_iff {t : Task} : ({ wokenByFutex t with state := .ready } : Task) =
    { t with blockedOn := 0, state := .ready } ↔ t.wakeupTick = 0 ∧ t.futexDeadline = 0 := by
  constructor
  · exact fun h => ⟨(congrArg Task.wakeupTick h).symm, (congrArg Task.futexDeadline h).symm⟩
  · rintro ⟨h₁, h₂⟩
    simp [wokenByFutex, h₁, h₂]

theorem woken_told_iff {t : Task} : ({ wokenByFutex t with
      signals := (wokenByFutex t).signals.setPending sigChld, state := .ready } : Task) =
    { t with blockedOn := 0, state := .ready } ↔
      (t.wakeupTick = 0 ∧ t.futexDeadline = 0) ∧ t.signals.setPending sigChld = t.signals := by
  constructor
  · exact fun h => ⟨⟨(congrArg Task.wakeupTick h).symm, (congrArg Task.futexDeadline h).symm⟩,
      congrArg Task.signals h⟩
  · rintro ⟨⟨h₁, h₂⟩, h₃⟩
    simp [wokenByFutex, h₁, h₂, h₃]

theorem tasks_wakeParent_ne {z : State} {w : Nat} (h : taskIdx p ≠ w) :
    (z.wakeParent (some p) v).tasks w = z.tasks w := by
  simp only [State.wakeParent]
  split
  · exact tasks_wakeTask_ne _ _ h.symm
  · rfl

theorem tasks_notifyParent_ne {z : State} {w : Nat} (h : taskIdx p ≠ w) :
    (z.notifyParent p).tasks w = z.tasks w := by
  simp only [State.notifyParent]
  split
  · split
    · rw [tasks_wakeTask_ne _ _ h.symm, tasks_setTask_ne _ _ h.symm]
    · rw [tasks_setTask_ne _ _ h.symm]
  · rfl

/-- A waiter on the tid word is woken, and the parent is told. -/
theorem wokenAnyway_iff {z : State} {w tid : Nat} (hw : waitsOn (z.tasks w) tid = true)
    (hany : tid ≠ anyChild) :
    ((z.wakeTask w (z.tasks w).id wokenByFutex).notifyParent p).wakeParent (some p) v =
        z.wakeParent (some p) v ↔
      wokenAnyway z w tid v (some p) = true ∧ chldSettled (z.task p) v = true := by
  simp only [waitsOn, Bool.and_eq_true, decide_eq_true_eq] at hw
  obtain ⟨⟨hb, hon⟩, hid⟩ := hw
  generalize hc : z.wakeTask w (z.tasks w).id wokenByFutex = c
  have hself : c.tasks w = { wokenByFutex (z.tasks w) with state := .ready } := by
    rw [← hc, tasks_wakeTask_self]
  have hdiff : ∀ {s s' : State}, (s.tasks w).state = .ready → (s'.tasks w).state = .blocked →
    s ≠ s' := by
    rintro s s' h h' rfl
    rw [h] at h'
    cases h'
  by_cases hp : taskIdx p = w
  · subst hp
    have hcb : (c.task p).state ≠ .blocked := by simp [State.task, hself]
    have hcatch : catchesChld (c.task p) = catchesChld (z.task p) := by
      rw [State.task, hself]
      exact catchesChld_woken hb
    -- the parent is told, and no longer blocked
    have hleft : (c.notifyParent p).wakeParent (some p) v =
        if catchesChld (z.task p) then c.setTask (taskIdx p) fun t =>
          { t with signals := t.signals.setPending sigChld } else c := by
      cases hcc : catchesChld (z.task p) with
      | true =>
        rw [notifyParent_marks (hcatch.trans hcc) fun h => hcb h.1]
        exact wakeParent_of_not_blocked (by simpa [State.task] using hcb)
      | false =>
        rw [notifyParent_ignored (hcatch.trans hcc)]
        exact wakeParent_of_not_blocked hcb
    have hready : (((c.notifyParent p).wakeParent (some p) v).tasks (taskIdx p)).state =
      .ready := by
      rw [hleft]
      split
      · rw [tasks_setTask_self, hself]
      · rw [hself]
    by_cases htid : tid = v
    · have hwait : (z.task p).blockedOn = v ∨ (z.task p).blockedOn = anyChild :=
        .inl (hon.trans htid)
      have hsettled : chldSettled (z.task p) v = true ↔ (catchesChld (z.task p) = true →
          (z.task p).signals.setPending sigChld = (z.task p).signals) := by
        rw [setPending_eq_iff]
        cases hcc : catchesChld (z.task p) <;> simp [chldSettled, hcc, hwait]
      have hanyway : wokenAnyway z (taskIdx p) tid v (some p) = true ↔
          ((z.tasks (taskIdx p)).wakeupTick = 0 ∧ (z.tasks (taskIdx p)).futexDeadline = 0) ∧
            (z.tasks (taskIdx p)).id = p := by
        simp [wokenAnyway, htid]
      rw [hleft, wakeParent_of_waiting hb hwait, ← hc, hsettled, hanyway]
      cases hcc : catchesChld (z.task p) with
      | true =>
        rw [if_pos rfl, setTask_wakeTask, wakeTask_eq_iff, woken_told_iff, and_right_comm]
        exact and_congr_right fun _ => ⟨fun h _ => h, fun h => h rfl⟩
      | false =>
        rw [if_neg (by simp), wakeTask_eq_iff, woken_iff]
        exact ⟨fun h => ⟨h, fun h' => by cases h'⟩, fun h => h.1⟩
    · refine iff_of_false (hdiff hready ?_) fun h => ?_
      · rw [wakeParent_of_not_waiting]
        · exact hb
        · rw [State.task, hon]
          exact fun h => h.elim htid hany
      · have := h.1
        simp [wokenAnyway, htid] at this
  · refine iff_of_false (hdiff ?_ ?_) fun h => ?_
    · rw [tasks_wakeParent_ne hp, tasks_notifyParent_ne hp, hself]
    · rw [tasks_wakeParent_ne hp, hb]
    · have := h.1
      simp [wokenAnyway, hp] at this

/-! ### The tid word -/

def clearsTid (s : State) (v : Nat) : Bool :=
  (s.tasks v).childTidptr ≠ 0 && isUserTidptrValid { s with current := v } (s.tasks v).childTidptr

/-- Both halves of the tid word of the victim are zero. -/
def tidZero (s : State) (v : Nat) : Bool :=
  [(s.tasks v).childTidptr, (s.tasks v).childTidptr + 4].all fun va =>
    (s.space (s.tasks v).pml4 va).all fun pa => s.word pa = 0

/-- The waiter that the end of the victim wakes through its tid word. -/
def tidWaiter (s : State) (tid : Nat) : Option Nat :=
  if tid ≠ 0 && s.isUserTidptrValid tid then waiter s.tasks tid else none

def wakeTidWaiter (s : State) : Option Nat → State
  | none => s
  | some w => s.wakeTask w (s.tasks w).id wokenByFutex

theorem clearTid_parts (x : State) (tid : Nat) :
    (x.clearTid tid).tasks = (wakeTidWaiter x (tidWaiter x tid)).tasks ∧
      (x.clearTid tid).rq = (wakeTidWaiter x (tidWaiter x tid)).rq ∧
      (x.clearTid tid).files = x.files ∧ rest (x.clearTid tid) = rest x ∧
      (x.clearTid tid).word = if tid ≠ 0 && x.isUserTidptrValid tid then
        ((x.storeWord tid 0).storeWord (tid + 4) 0).word else x.word := by
  unfold State.clearTid tidWaiter
  split
  · obtain ⟨w₁, e₁⟩ := x.storeWord_eq tid 0
    obtain ⟨w₂, e₂⟩ := State.storeWord_eq { x with word := w₁ } (tid + 4) 0
    rw [e₁, e₂, futexWake_one]
    have hsame : waiter (State.tasks { x with word := w₂ }) tid = waiter x.tasks tid := rfl
    rw [hsame]
    cases waiter x.tasks tid <;> exact ⟨rfl, rfl, rfl, rfl, rfl⟩
  · exact ⟨rfl, rfl, rfl, rfl, rfl⟩

def zeroAt (w : Nat → Nat) : Option Nat → Nat → Nat
  | none => w
  | some pa => Function.update w pa 0

theorem storeWord_zero (s : State) (va : Nat) : s.storeWord va 0 =
    { s with word := zeroAt s.word (s.space (s.task s.current).pml4 va) } := by
  unfold State.storeWord
  cases s.space (s.task s.current).pml4 va <;> rfl

theorem zeroAt_twice_iff (w : Nat → Nat) (a b : Option Nat) :
    zeroAt (zeroAt w a) b = w ↔ (∀ pa ∈ a, w pa = 0) ∧ ∀ pa ∈ b, w pa = 0 := by
  cases a with
  | none => cases b <;> simp [zeroAt, eq_comm]
  | some a =>
    cases b with
    | none => simp [zeroAt, eq_comm]
    | some b =>
      simp only [zeroAt, Option.mem_def, Option.some.injEq, forall_eq']
      constructor
      · intro h
        have ha := congrFun h a
        have hb := congrFun h b
        rw [Function.update_self] at hb
        obtain rfl | hne := eq_or_ne a b
        · exact ⟨hb.symm, hb.symm⟩
        · rw [Function.update_of_ne hne, Function.update_self] at ha
          exact ⟨ha.symm, hb.symm⟩
      · rintro ⟨ha, hb⟩
        have hfirst : Function.update w a 0 = w := Function.update_eq_self_iff.mpr ha.symm
        rw [hfirst]
        exact Function.update_eq_self_iff.mpr hb.symm

theorem cleared_word_iff {x : State} {tid pml4 : Nat} (hpml4 : (x.task x.current).pml4 = pml4) :
    ((x.storeWord tid 0).storeWord (tid + 4) 0).word = x.word ↔
      ([tid, tid + 4].all fun va => (x.space pml4 va).all fun pa => x.word pa = 0) = true := by
  have hword : ((x.storeWord tid 0).storeWord (tid + 4) 0).word =
      zeroAt (zeroAt x.word (x.space pml4 tid)) (x.space pml4 (tid + 4)) := by
    rw [storeWord_zero x, storeWord_zero, hpml4, ← hpml4]
    rfl
  rw [hword, zeroAt_twice_iff]
  simp [Option.all_eq_true]

/-! ### The queue and the table after both ends -/

theorem setTask_congr {c y : State} (ht : c.tasks = y.tasks) (i : Nat) (f : Task → Task) :
    (c.setTask i f).tasks = (y.setTask i f).tasks := by simp only [State.setTask, ht]

theorem wakeTask_congr {c y : State} (ht : c.tasks = y.tasks) (hq : c.rq = y.rq) (i tid : Nat)
    (f : Task → Task) : (c.wakeTask i tid f).tasks = (y.wakeTask i tid f).tasks ∧
      (c.wakeTask i tid f).rq = (y.wakeTask i tid f).rq := by
  simp only [State.wakeTask, State.setTask, State.enqueueTask, ht, hq, and_self]

theorem notifyParent_congr {c y : State} (ht : c.tasks = y.tasks) (hq : c.rq = y.rq) (p : Nat) :
    (c.notifyParent p).tasks = (y.notifyParent p).tasks ∧
      (c.notifyParent p).rq = (y.notifyParent p).rq := by
  have htask : c.task p = y.task p := congrFun ht _
  cases hc : catchesChld (y.task p) with
  | false =>
    rw [notifyParent_ignored (htask ▸ hc), notifyParent_ignored hc]
    exact ⟨ht, hq⟩
  | true =>
    by_cases hw : (y.task p).state = .blocked ∧
        ((y.task p).blockedOn = sigsuspendMagic ∨ (y.task p).pollFds ≠ 0)
    · rw [notifyParent_wakes (htask ▸ hc) (htask ▸ hw), notifyParent_wakes hc hw]
      exact wakeTask_congr ht hq _ _ _
    · rw [notifyParent_marks (htask ▸ hc) (htask ▸ hw), notifyParent_marks hc hw]
      exact ⟨setTask_congr ht _ _, hq⟩

theorem wakeParent_congr {c y : State} (ht : c.tasks = y.tasks) (hq : c.rq = y.rq) (p : Option Nat)
    (v : Nat) : (c.wakeParent p v).tasks = (y.wakeParent p v).tasks ∧
      (c.wakeParent p v).rq = (y.wakeParent p v).rq := by
  cases p with
  | none => exact ⟨ht, hq⟩
  | some p =>
    have htask : c.task p = y.task p := congrFun ht _
    by_cases hb : (y.task p).state = .blocked
    · by_cases hon : (y.task p).blockedOn = v ∨ (y.task p).blockedOn = anyChild
      · rw [wakeParent_of_waiting (htask ▸ hb) (htask ▸ hon), wakeParent_of_waiting hb hon]
        exact wakeTask_congr ht hq _ _ _
      · rw [wakeParent_of_not_waiting (htask ▸ hon), wakeParent_of_not_waiting hon]
        exact ⟨ht, hq⟩
    · rw [wakeParent_of_not_blocked (htask ▸ hb), wakeParent_of_not_blocked hb]
      exact ⟨ht, hq⟩

def tellParent (s : State) : Option Nat → State
  | none => s
  | some p => s.notifyParent p

/-- The waiter on the tid word and the parent change nothing that `kill_task_zombie` does not. -/
def wakesSettled (z : State) (v : Nat) (w parent : Option Nat) : Bool :=
  w.all (fun w => wokenAnyway z w (z.tasks v).childTidptr v parent) &&
    parent.all fun p => chldSettled (z.task p) v

theorem wakesSettled_iff {z : State} {tid : Nat} {w : Option Nat} (parent : Option Nat)
    (htid : (z.tasks v).childTidptr = tid) (hw : ∀ i ∈ w, waitsOn (z.tasks i) tid = true)
    (hany : w.isSome = true → tid ≠ anyChild) :
    (tellParent (wakeTidWaiter z w) parent).wakeParent parent v = z.wakeParent parent v ↔
      wakesSettled z v w parent = true := by
  cases w with
  | none =>
    cases parent with
    | none => exact iff_of_true rfl rfl
    | some p => simpa [wakesSettled, tellParent, wakeTidWaiter] using notifyParent_idle_iff z p v
  | some w =>
    have hwait := hw w rfl
    cases parent with
    | none =>
      refine iff_of_false (fun h => ?_) (by simp [wakesSettled, wokenAnyway])
      have hst := congrArg (fun s : State => (s.tasks w).state) h
      simp only [tellParent, wakeTidWaiter, State.wakeParent, tasks_wakeTask_self] at hst
      simp only [waitsOn, Bool.and_eq_true, decide_eq_true_eq] at hwait
      exact TaskState.noConfusion (hst.trans hwait.1.1)
    | some p =>
      simpa [wakesSettled, tellParent, wakeTidWaiter, htid] using
        wokenAnyway_iff (p := p) (v := v) hwait (hany rfl)

/-! ### Both ends compared -/

theorem Woke.tellParent (s : State) (parent : Option Nat) : Woke s (tellParent s parent) := by
  cases parent with
  | none => exact .refl s
  | some p => exact .notifyParent s p

theorem OnlyTasks.wakeTidWaiter (s : State) (w : Option Nat) : OnlyTasks s (wakeTidWaiter s w) := by
  cases w with
  | none => exact .refl s
  | some w => exact ⟨_, _, rfl⟩

theorem tellParent_congr {c y : State} (ht : c.tasks = y.tasks) (hq : c.rq = y.rq)
    (parent : Option Nat) : (tellParent c parent).tasks = (tellParent y parent).tasks ∧
      (tellParent c parent).rq = (tellParent y parent).rq := by
  cases parent with
  | none => exact ⟨ht, hq⟩
  | some p => exact notifyParent_congr ht hq p

theorem Kin.wakeTidWaiter (s : State) (w : Option Nat) : Kin s (wakeTidWaiter s w) := by
  cases w with
  | none => exact .refl s
  | some w =>
    intro i
    obtain rfl | hi := eq_or_ne i w
    · exact ⟨by rw [Sched.wakeTidWaiter, tasks_wakeTask_self]; rfl,
        by rw [Sched.wakeTidWaiter, tasks_wakeTask_self]; rfl⟩
    · rw [Sched.wakeTidWaiter, tasks_wakeTask_ne _ _ hi]
      exact ⟨rfl, rfl⟩

theorem exitBody_eq {y c : State} {parent : Option Nat} (hc : y.exitHead code = c)
    (hv : v < maxTasks) (hcur : c.current = v) (hlock : c.sigLock = false)
    (hparent : (c.tasks v).parent = parent) : y.exitBody code =
      some (((tellParent c parent).wakeParent parent v).reparentChildrenToInit v) := by
  have htask : (c.task c.current).parent = parent := by rw [hcur, c.task_of_lt hv, hparent]
  have htell : (tellParent c parent).current = v :=
    (Woke.tellParent c parent).rest.parts.2.2.2.1.trans hcur
  have htail : (State.task (tellParent c parent) v).parent = parent := by
    rw [State.task_of_lt _ hv, (Kin.woke (.tellParent c parent) v).1, hparent]
  have hexit : (tellParent c parent).exitTail =
      ((tellParent c parent).wakeParent parent v).reparentChildrenToInit v := by
    simp only [State.exitTail, htell, htail]
  simp only [State.exitBody, hc, htask]
  cases parent with
  | none => exact congrArg some hexit
  | some p =>
    simp only [hlock, Bool.false_eq_true, if_false]
    exact congrArg some hexit

theorem killTaskZombie_eq (hid : (s.tasks v).id = v) (hne : v ≠ 0) (hother : v ≠ s.current)
    (hrem : s.removeFromRunqueue v = some s₁) : s.killTaskZombie v code =
      some (((s₁.setTask v (die code)).wakeParent (s.tasks v).parent v).reparentChildrenToInit
        v) := by
  have hs₁ : s₁.tasks = s.tasks ∧ s₁.current = s.current := by
    obtain ⟨rq, rfl⟩ := removeFromRunqueue_eq hrem
    exact ⟨rfl, rfl⟩
  have hzcur : (s₁.setTask v (die code)).current = s.current := hs₁.2
  have hzv : (s₁.setTask v (die code)).tasks v = die code (s.tasks v) := by
    rw [tasks_setTask_self, hs₁.1]
  have hdie : (die code (s.tasks v)).id = v := hid
  simp only [State.killTaskZombie, tasks_setTask_self, hdie, ne_eq, hne, not_false_eq_true, if_true,
    Sane.removeFromRunqueue_setTask (f := die code) s v v (fun _ => rfl), hrem, Option.map_some]
  rw [hzcur, if_neg hother]
  have hclear : (s₁.setTask v (die code)).clearTid 0 = s₁.setTask v (die code) := by
    simp [State.clearTid]
  rw [hclear, hzv]
  rfl

/-- `exit_task` called by the task `v`, up to the choice of the next task. -/
def exitAs (s : State) (v : Nat) (code : Int) : Option State :=
  (State.exitBody { s with current := v } code).map fun e => { e with current := s.current }

/-- The victim has no open descriptor; it has no tid word to clear, or the word is zero; nobody
waits on it whom the kill does not wake; and its parent need not be told. -/
def sameEnd (s : State) (v : Nat) (code : Int) : Bool :=
  let z := s.setTask v (die code)
  Closed s.files v && (!clearsTid s v || tidZero s v) &&
    wakesSettled z v (if clearsTid s v then waiter z.tasks (s.tasks v).childTidptr else none)
      (s.tasks v).parent

theorem exitHead_eq (s : State) (code : Int) (hv : v < maxTasks) : ∃ files,
    (files = s.files ↔ Closed s.files v) ∧ State.exitHead { s with current := v } code =
      ({ s with current := v, files := files }.setTask v (die code)).clearTid
        (s.tasks v).childTidptr := by
  refine ⟨_, closeAll_eq_iff s.files v, ?_⟩
  unfold State.exitHead State.closeFds
  have hmod : v % maxTasks = v := Nat.mod_eq_of_lt hv
  simp only [hmod, taskIdx_of_lt hv]
  generalize List.foldl _ s.files _ = files
  rw [State.task_of_lt _ hv, tasks_setTask_self]
  rfl

theorem exitAs_iff (hv : v < maxTasks) (hlock : s.sigLock = false) : exitAs s v code =
      some (((s.setTask v (die code)).wakeParent (s.tasks v).parent v).reparentChildrenToInit v) ↔
    sameEnd s v code = true := by
  obtain ⟨files, hfiles, hhead⟩ := exitHead_eq s code hv
  generalize hx : { s with current := v, files := files }.setTask v (die code) = x at hhead
  generalize hz : s.setTask v (die code) = z
  generalize htid : (s.tasks v).childTidptr = tid at hhead
  have hxz : x.tasks = z.tasks ∧ x.rq = z.rq ∧ x.word = z.word ∧ x.space = s.space ∧
      x.current = v ∧ x.files = files ∧ z.files = s.files ∧ z.word = s.word := by
    rw [← hx, ← hz]
    exact ⟨rfl, rfl, rfl, rfl, rfl, rfl, rfl, rfl⟩
  obtain ⟨hxt, hxq, hxw, hxs, hxc, hxf, hzf, hzw⟩ := hxz
  have hzv : z.tasks v = die code (s.tasks v) := by rw [← hz, tasks_setTask_self]
  have hvalid : (tid ≠ 0 && x.isUserTidptrValid tid) = clearsTid s v := by
    rw [clearsTid, htid, ← hx]
    simp only [State.isUserTidptrValid, State.task, State.setTask, taskIdx_of_lt hv,
      Function.update_self]
    rfl
  -- the head of `exit_task`, told through what it does to `z`
  generalize hc : x.clearTid tid = c at hhead
  obtain ⟨hct, hcq, hcf, hcrest, hcw⟩ := clearTid_parts x tid
  generalize hw : tidWaiter x tid = w at hct hcq
  rw [hc] at hct hcq hcf hcrest hcw
  have hy : c.tasks = (wakeTidWaiter z w).tasks ∧ c.rq = (wakeTidWaiter z w).rq := by
    rw [hct, hcq]
    cases w with
    | none => exact ⟨hxt, hxq⟩
    | some w =>
      simp only [wakeTidWaiter, hxt]
      exact wakeTask_congr hxt hxq _ _ _
  have hkin := Kin.wakeTidWaiter z w
  have hparent : (c.tasks v).parent = (s.tasks v).parent := by
    rw [hy.1, (hkin v).1, hzv]
    rfl
  have hccur : c.current = v := (congrArg (fun s : State => s.current) hcrest).trans hxc
  have hclock : c.sigLock = false := by
    refine (congrArg (fun s : State => s.sigLock) hcrest).trans ?_
    rw [← hx]
    exact hlock
  have hbody := exitBody_eq hhead hv hccur hclock hparent
  have hwaiter : w = if clearsTid s v then waiter z.tasks tid else none := by
    rw [← hw, tidWaiter, hvalid, hxt]
  have hwaits : ∀ i ∈ w, waitsOn (z.tasks i) tid = true := by
    intro i hi
    rw [hwaiter] at hi
    split at hi
    · have hfind : (List.range maxTasks).find? (fun i => waitsOn (z.tasks i) tid) = some i := hi
      simpa using List.find?_some hfind
    · cases hi
  have hany : w.isSome = true → tid ≠ anyChild := by
    rintro hsome rfl
    have hclear : clearsTid s v = true := by
      by_contra hn
      rw [hwaiter, if_neg hn] at hsome
      cases hsome
    rw [← hvalid, State.isUserTidptrValid] at hclear
    simp [Paging.isUserAddr, anyChild] at hclear
  have hword : c.word = z.word ↔ (!clearsTid s v || tidZero s v) = true := by
    rw [hcw, hvalid]
    cases hcl : clearsTid s v with
    | false => simp [hxw]
    | true =>
      have hpml4 : (x.task x.current).pml4 = (s.tasks v).pml4 := by
        rw [hxc, x.task_of_lt hv, hxt, hzv]
        rfl
      rw [if_pos rfl, ← hxw, cleared_word_iff hpml4, hxs, hxw, hzw]
      simp only [tidZero, htid, Bool.not_true, Bool.false_or]
  have hsettled := wakesSettled_iff (s.tasks v).parent (by rw [hzv]; exact htid) hwaits hany
  have hsame : sameEnd s v code = (Closed s.files v && (!clearsTid s v || tidZero s v) &&
      wakesSettled z v w (s.tasks v).parent) := by
    rw [sameEnd, hz, hwaiter, htid]
  rw [hsame]
  generalize (s.tasks v).parent = parent at hparent hbody hsettled
  -- the two states before the children are given away
  have htold := tellParent_congr hy.1 hy.2 parent
  have hE := wakeParent_congr htold.1 htold.2 parent v
  have hcE : OnlyTasks c ((tellParent c parent).wakeParent parent v) :=
    ((Woke.tellParent c parent).trans (.wakeParent ..)).rest
  have hzY : OnlyTasks z ((tellParent (wakeTidWaiter z w) parent).wakeParent parent v) :=
    (OnlyTasks.wakeTidWaiter z w).trans ((Woke.tellParent ..).trans (.wakeParent ..)).rest
  have hzK : OnlyTasks z (z.wakeParent parent v) := (Woke.wakeParent ..).rest
  have hkinY := hkin.trans (Kin.woke ((Woke.tellParent _ parent).trans (.wakeParent _ parent v)))
  have hkinK := Kin.woke (.wakeParent z parent v)
  rw [hzY.eq_iff hzK] at hsettled
  generalize (tellParent (wakeTidWaiter z w) parent).wakeParent parent v =
    Y at hE hzY hkinY hsettled
  generalize (tellParent c parent).wakeParent parent v = E at hE hcE hbody
  generalize z.wakeParent parent v = K at hzK hkinK hsettled
  have hkinE : Kin K E := fun i => by
    rw [hE.1]
    exact ⟨(hkinY i).1.trans (hkinK i).1.symm, (hkinY i).2.trans (hkinK i).2.symm⟩
  have hrest : rest { E.reparentChildrenToInit v with current := s.current } =
      rest (K.reparentChildrenToInit v) := by
    have hE' : rest E = rest x := hcE.parts.1.trans hcrest
    have hK' : rest K = rest z := hzK.parts.1
    have hleft : rest { E.reparentChildrenToInit v with current := s.current } =
        { rest E with current := s.current } := rfl
    have hright : rest (K.reparentChildrenToInit v) = rest K := rfl
    rw [hleft, hright, hE', hK', ← hx, ← hz]
    rfl
  have hefiles : (E.reparentChildrenToInit v).files = files :=
    hcE.parts.2.1.trans (hcf.trans hxf)
  have hkfiles : (K.reparentChildrenToInit v).files = s.files := hzK.parts.2.1.trans hzf
  have heword : (E.reparentChildrenToInit v).word = c.word := hcE.parts.2.2.1
  have hkword : (K.reparentChildrenToInit v).word = z.word := hzK.parts.2.2.1
  simp only [exitAs, hbody, Option.map_some, Option.some.injEq]
  rw [eq_iff_of_rest hrest, hkinE.reparent_iff v, hefiles, hkfiles, heword, hkword, hfiles, hword,
    hE.1]
  have hrq : (E.reparentChildrenToInit v).rq = (K.reparentChildrenToInit v).rq ↔ Y.rq = K.rq := by
    rw [← hE.2]
    exact Iff.rfl
  rw [hrq, ← and_assoc, hsettled, Bool.and_eq_true, Bool.and_eq_true, decide_eq_true_eq]
  exact and_comm

theorem sameEnd_of_dequeued (hrem : s.removeFromRunqueue v = some s₁) (code : Int) :
    sameEnd s₁ v code = sameEnd s v code := by
  obtain ⟨rq, rfl⟩ := removeFromRunqueue_eq hrem
  rfl

/-- `s₁` is the state with the victim taken off the run queue, as it is when the victim runs. -/
theorem kill_as_exit_iff (s s₁ : State) (v : Nat) (code : Int) (hv : v < maxTasks) (hne : v ≠ 0)
    (hid : (s.tasks v).id = v) (hother : v ≠ s.current) (hlock : s.sigLock = false)
    (hrem : s.removeFromRunqueue v = some s₁) :
    s.killTaskZombie v code = exitAs s₁ v code ↔ sameEnd s v code = true := by
  have htasks : s₁.tasks = s.tasks ∧ s₁.sigLock = s.sigLock := by
    obtain ⟨rq, rfl⟩ := removeFromRunqueue_eq hrem
    exact ⟨rfl, rfl⟩
  have hlock₁ : s₁.sigLock = false := htasks.2.trans hlock
  rw [killTaskZombie_eq hid hne hother hrem, ← htasks.1, eq_comm, exitAs_iff hv hlock₁,
    sameEnd_of_dequeued hrem]

/-- A child without open descriptors is killed by its parent, which has no handler for SIGCHLD. -/
theorem kill_as_exit_child :
    let s := [Event.call (.fork true (some 0x3000))].foldl State.step
      (boot 0x1000 0x2000 0x7000 fun _ _ => none)
    ∃ s₁, s.removeFromRunqueue 2 = some s₁ ∧ s.killTaskZombie 2 9 = exitAs s₁ 2 9 := by
  have hrem : (([Event.call (.fork true (some 0x3000))].foldl State.step
      (boot 0x1000 0x2000 0x7000 fun _ _ => none)).removeFromRunqueue 2).isSome = true := by
    decide
  obtain ⟨s₁, hs₁⟩ := Option.isSome_iff_exists.mp hrem
  exact ⟨s₁, hs₁, (kill_as_exit_iff _ s₁ 2 9 (by decide) (by decide) (by decide)
    (by decide) (by decide) hs₁).2 (by decide)⟩

/-- A child that inherited an open file is killed by its parent: the file stays open, and the end of
the child itself would have closed it. -/
theorem killed_child_keeps_file :
    let s := [Event.call (.files (.alloc 5 0)), .call (.fork true (some 0x3000))].foldl State.step
      (boot 0x1000 0x2000 0x7000 fun _ _ => none)
    ∃ s₁ k e, s.removeFromRunqueue 2 = some s₁ ∧ s.killTaskZombie 2 9 = some k ∧
      exitAs s₁ 2 9 = some e ∧ (k.files.tables 2 0).used = true ∧
      (e.files.tables 2 0).used = false := by
  have hrun : (([Event.call (.files (.alloc 5 0)), .call (.fork true (some 0x3000))].foldl
    State.step
      (boot 0x1000 0x2000 0x7000 fun _ _ => none)).removeFromRunqueue 2).any (fun s₁ =>
        (exitAs s₁ 2 9).any fun e => !(e.files.tables 2 0).used) = true ∧
      (([Event.call (.files (.alloc 5 0)), .call (.fork true (some 0x3000))].foldl State.step
        (boot 0x1000 0x2000 0x7000 fun _ _ => none)).killTaskZombie 2 9).any
          (fun k => (k.files.tables 2 0).used) = true := by
    decide +kernel
  obtain ⟨s₁, hs₁, hexit⟩ := (Option.any_eq_true _ _).mp hrun.1
  obtain ⟨e, he, hclosed⟩ := (Option.any_eq_true _ _).mp hexit
  obtain ⟨k, hk, hopen⟩ := (Option.any_eq_true _ _).mp hrun.2
  exact ⟨s₁, k, e, hs₁, hk, he, hopen, by simpa using hclosed⟩

end Rynex.Sched
