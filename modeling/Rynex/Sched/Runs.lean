import Rynex.Sched.Waiting

/-! The run queue in every run of one CPU, and the defects that break it: a task that is woken in
the idle loop behind another one is queued twice, and a task that a signal wakes from
`rt_sigsuspend` is not queued at all. -/

namespace Rynex.Sched

open Rynex.Lib State

variable {full : Prop} {s : State}

/-- What keeps the current task and its place apart: a call comes from a task that is running or
ready, `futex_unlock_pi` does not queue its caller, an interrupted task is not blocked, and the task
in whose context the CPU idles is picked up first when the interrupt wakes it. -/
def orderly (s : State) (e : Event) : Bool :=
  let t := s.tasks s.current
  s.hung || match e with
    | .call c => s.idle || (t.state = .running || t.state = .ready) && match c with
      | .futexUnlockPi _ => !(t.piBoosted && t.state = .ready && t.prio ≠ t.staticPrio)
      | _ => true
    | e => t.state ≠ .blocked || s.idle && match e with
      | .key _ _ => !pidLike t.blockedOn
      | e => ((s.interrupt e).tasks s.current).state ≠ .ready ||
        (s.interrupt e).dequeueTask.1 = some s.current

/-- No other task that `test` selects waits in `rt_sigsuspend` for a handler of the signal. -/
def heard (s : State) (test : Task → Bool) (sig : Int) : Bool :=
  (List.range maxTasks).all fun i =>
    !((s.tasks i).id ≠ 0 && test (s.tasks i) && i ≠ s.current && silent (s.tasks i) sig)

/-- No signal is sent to another task that waits in `rt_sigsuspend` and has a handler for it. -/
def loud (s : State) : Event → Bool
  | .call (.kill pid sig) => heard s (killTargets s.current pid) sig
  | .call (.tkill tid sig) => heard s (fun t => t.id = tid) sig
  | .key fg sig => heard s (foreground s fg) sig
  | _ => true

theorem not_silent_of_heard {test : Task → Bool} {sig : Int} {i : Nat} (h : heard s test sig = true)
    (hi : i < maxTasks) (hid : (s.tasks i).id ≠ 0) (htest : test (s.tasks i) = true)
    (hcur : i ≠ s.current) : silent (s.tasks i) sig = false := by
  have hall := List.all_eq_true.mp h i (List.mem_range.mpr hi)
  simpa [hid, htest, hcur] using hall

namespace Sane

theorem tkill {tid : Nat} {sig : Int} (h : Sane full [s.current] s) (hact : Active s)
    (hloud : full → heard s (fun t => t.id = tid) sig = true) :
    Sane full [(s.call (.tkill tid sig)).current] (s.call (.tkill tid sig)) := by
  simp only [State.call]
  split
  · exact h
  next hc =>
    simp only [not_or] at hc
    refine (h.sigDeliverToTask (.of_not_blocked hact.not_blocked) (taskIdx_lt tid) fun hf hcur =>
      ?_).sane
    have hne : taskIdx tid ≠ 0 := fun h0 => hc.2 (by rw [State.task, h0]; exact h.slots.zero.1)
    have hid : taskIdx tid = tid := by
      unfold taskIdx at hne ⊢
      split <;> simp_all
    by_cases hempty : (s.tasks (taskIdx tid)).state = .empty
    · simp [silent, hempty]
    · refine not_silent_of_heard (hloud hf) (taskIdx_lt tid) hc.2 ?_ hcur
      simp [(h.slots.ids _ (taskIdx_lt tid) hne hempty).trans hid]

theorem call {c : Call} (h : Sane full [s.current] s) (hact : Active s)
    (hkeep : ∀ uaddr, c = .futexUnlockPi uaddr → ¬ ((s.tasks s.current).piBoosted = true ∧
      (s.tasks s.current).state = .ready ∧ (s.tasks s.current).prio ≠
        (s.tasks s.current).staticPrio))
    (hloud : full → loud s (.call c) = true) : Sane full [(s.call c).current] (s.call c) := by
  have hno : NoChildWait s := .of_not_blocked hact.not_blocked
  have hnb := hact.not_blocked
  by_cases hset : c.sets = true
  · obtain ⟨f, hf, heq⟩ := call_sets s hset
    rw [heq]
    exact h.setTask _ (hf _).alike
  by_cases hnew : Event.creates (.call c) = true
  · obtain ⟨min, short, back, kept, given, made, r, hmin, hcr⟩ := call_creates s hnew
    exact h.created hmin hcr
  by_cases hwait : c.waits = true
  · exact (h.waits hwait).sane h
  cases c with
  | createKernel | spawn | fork | clone => exact absurd rfl hnew
  | syscall | futexResume | pollResume | setMask | setAction | setpgid | setsid =>
    exact absurd rfl hset
  | sleep | futexWait | futexLockPi | blockOnFutex | readEmpty | pollBlock | sigsuspend =>
    exact absurd rfl hwait
  | execve pml4 userStack => exact h.execveCommit pml4 userStack
  | yieldNow => exact h.yieldNow
  | yieldNowForce => exact h.yieldNowForce
  | futexWake uaddr maxWake => exact ((Scanned.futexWake h uaddr maxWake).sane hnb).1
  | futexUnlockPi uaddr => exact h.futexUnlockPi hact (hkeep uaddr rfl)
  | pipeWakeWaiters =>
    simp only [State.call, State.pipeWakeWaiters]
    refine (Scanned.sane (Scanned.wakeAll h ?_) hnb).1
    exact fun _ _ => rfl
  | kill pid sig =>
    exact h.sysKill hno fun hf i hi hid htest hcur =>
      not_silent_of_heard (hloud hf) hi hid htest hcur
  | tkill tid sig => exact h.tkill hact hloud
  | checkDeliverSignal restore => exact (h.checkDeliverSignal restore).sane
  | exit code => exact (h.exitTask code).1
  | waitpid pid nohang => exact h.sysWaitpid hact
  | files c => exact h.congr rfl rfl rfl rfl
  | store va value =>
    obtain ⟨w, hw⟩ := s.storeWord_eq va value
    simp only [State.call, hw]
    exact h.congr rfl rfl rfl rfl
  | remap space => exact h.congr rfl rfl rfl rfl

theorem interrupt {e : Event} (h : Sane full [s.current] s)
    (hno : ∀ fg sig, e = .key fg sig → NoChildWait s) (hloud : full → loud s e = true) :
    Polled full s (s.interrupt e) := by
  cases e with
  | call c => exact .kept h
  | tick user =>
    have hin := h.enterTimer (user && !s.idle)
    have hcur : (s.enterTimer (user && !s.idle)).current = s.current := by
      unfold State.enterTimer
      simp only
      split <;> rfl
    have hstate : ((s.enterTimer (user && !s.idle)).tasks s.current).state =
        (s.tasks s.current).state := by
      unfold State.enterTimer
      simp only
      split
      · simp only [h.current_idx, tasks_setTask_self]
      · rfl
    rw [← hcur] at hin
    have hp := Polled.timerSchedule hin
    simp only [State.interrupt]
    generalize s.enterTimer (user && !s.idle) = s₁ at hcur hstate hp ⊢
    cases hp with
    | kept hs => exact .kept hs
    | woken hs hc hb hr =>
      rw [hcur] at hc hb hr
      exact .woken hs hc (hstate ▸ hb) hr
  | irq uaddr => exact (Scanned.futexWake h uaddr 1).polled
  | key fg sig =>
    exact .kept (h.signalForegroundGroup (hno fg sig rfl) fun hf i hi hid htest hcur =>
      not_silent_of_heard (hloud hf) hi hid htest hcur)

end Sane

/-! ### Every run -/

theorem idle_enterTimer (s : State) (user : Bool) : (s.enterTimer user).idle = s.idle := by
  unfold State.enterTimer
  simp only
  split <;> rfl

theorem idle_timerSwitch (s : State) : s.timerSwitch.idle = s.idle := by
  unfold State.timerSwitch State.dequeueTask
  simp only
  split
  next hd => exact (congrArg (fun r : Option Nat × State => r.2.idle) hd).symm
  next hd =>
    have hidle := (congrArg (fun r : Option Nat × State => r.2.idle) hd).symm
    split
    · exact hidle
    · exact hidle

theorem idle_timerSchedule (s : State) : s.timerSchedule.idle = s.idle := by
  have hwoke : Woke s s.wakeupExpiredSleepers :=
    .wakeAll s fun _ _ hb => ⟨rfl, rfl, rfl, rfl, rfl, rfl, rfl, .inr ⟨hb, rfl⟩⟩
  rw [← (Calm.woke hwoke).idle]
  unfold State.timerSchedule
  generalize s.wakeupExpiredSleepers = s₁
  simp only
  split
  · rfl
  · split
    · rfl
    · split
      · rfl
      · split
        · rfl
        · split
          · rfl
          · split
            · rfl
            · exact idle_timerSwitch _

theorem idle_tick (s : State) (user : Bool) : (s.interrupt (.tick user)).idle = s.idle := by
  rw [State.interrupt, idle_timerSchedule, idle_enterTimer]

theorem idle_irq (s : State) (uaddr : Nat) : (s.interrupt (.irq uaddr)).idle = s.idle := by
  rw [State.interrupt]
  exact (Calm.woke (.futexWake s uaddr 1)).idle

theorem Sane.poll {e : Event} (h : Sane full [s.current] s)
    (hno : ∀ fg sig, e ≠ .key fg sig) (hloud : full → loud s e = true)
    (hidle : (s.interrupt e).idle = s.idle)
    (hord : (s.tasks s.current).state ≠ .blocked ∨ s.idle = true ∧
      (((s.interrupt e).tasks s.current).state ≠ .ready ∨
        (s.interrupt e).dequeueTask.1 = some s.current)) :
    let s' := s.interrupt e
    Sane full [(if s'.idle then s'.idlePoll else s').current]
      (if s'.idle then s'.idlePoll else s') := by
  have hp := h.interrupt (e := e) (fun fg sig heq => absurd heq (hno fg sig)) hloud
  simp only
  generalize s.interrupt e = s₁ at hp hidle hord
  cases hp with
  | kept hs =>
    split
    · exact hs.idlePoll
    · exact hs
  | woken hs hcur hb hr =>
    -- the task of the idle context was woken; it is the first of the queue
    rcases hord with hnb | ⟨hi, hnr | hfirst⟩
    · exact absurd hb hnb
    · exact absurd hr hnr
    · rw [if_pos (hidle.trans hi)]
      exact hs.idlePoll_self (by rw [hcur, hfirst])

theorem Sane.step {e : Event} (h : Sane full [s.current] s) (hord : orderly s e = true)
    (hloud : full → loud s e = true) : Sane full [(s.step e).current] (s.step e) := by
  unfold State.step
  split
  · exact h
  next hrun =>
  simp only [orderly, hrun, Bool.false_or] at hord
  cases e with
  | call c =>
    simp only
    split
    · exact h
    next hidle =>
      simp only [hidle, Bool.false_or, Bool.and_eq_true, Bool.or_eq_true, decide_eq_true_eq] at hord
      refine h.call hord.1 ?_ hloud
      rintro uaddr rfl ⟨hb, hr, hp⟩
      simp [hb, hr, hp] at hord
  | tick user =>
    exact h.poll (e := .tick user) (fun _ _ heq => by cases heq) hloud (idle_tick s user)
      (by simpa using hord)
  | irq uaddr =>
    exact h.poll (e := .irq uaddr) (fun _ _ heq => by cases heq) hloud (idle_irq s uaddr)
      (by simpa using hord)
  | key fg sig =>
    have hno : NoChildWait s := by
      intro hb
      simp only [hb, ne_eq, not_true_eq_false, decide_false, Bool.false_or, Bool.and_eq_true,
        Bool.not_eq_eq_eq_not, Bool.not_true] at hord
      exact hord.2
    have hp : Sane full [(s.signalForegroundGroup fg sig).current]
      (s.signalForegroundGroup fg sig) :=
      h.signalForegroundGroup hno fun hf i hi hid htest hcur =>
        not_silent_of_heard (hloud hf) hi hid htest hcur
    simp only
    split
    · exact hp.idlePoll
    · exact hp

theorem Sane.boot (kernelPml4 initPml4 userStack : Nat) (space : Nat → Nat → Option Nat) :
    Sane full [1] (boot kernelPml4 initPml4 userStack space) := by
  refine ⟨⟨⟨rfl, rfl⟩, fun t _ hne hst => ?_, fun t _ hp => ?_, ?_⟩,
    fun _ => [], LevelQueue.holds_empty, fun h => absurd h List.not_mem_nil,
      fun _ t _ hst hout => ?_⟩
  · simp only [Sched.boot, hne, if_false] at hst ⊢
    split at hst
    next h1 => simp [h1]
    next => exact absurd rfl hst
  · simp only [Sched.boot, Bool.or_eq_false_iff, decide_eq_false_iff_not] at hp ⊢
    simp [hp, Task.empty]
  · simp [Sched.boot, maxTasks]
  · simp only [List.mem_singleton] at hout
    simp only [Sched.boot, hout, if_false] at hst
    split at hst <;> cases hst

theorem Sane.run (full : Prop) {kernelPml4 initPml4 userStack : Nat}
    {space : Nat → Nat → Option Nat}
    {es : List Event}
    (h : Steps State.step (fun s e => orderly s e = true ∧ (full → loud s e = true))
      (Sched.boot kernelPml4 initPml4 userStack space) es) :
    Sane full [(es.foldl State.step (Sched.boot kernelPml4 initPml4 userStack space)).current]
      (es.foldl State.step (Sched.boot kernelPml4 initPml4 userStack space)) :=
  h.invariant (I := fun s => Sane full [s.current] s)
    (fun _ _ hs hok => hs.step hok.1 hok.2) (Sane.boot ..)

/-! ### The queue has no loops -/

/-- Every level of the run queue is a list that ends, no task is on it twice or on two levels, and
the current task is on none. -/
def Acyclic (s : State) : Prop :=
  ∃ q : Prio → List Nat, (∀ p, LevelQueue.Chain taskIdx s.rq.next (s.rq.heads p) (q p)) ∧
    (∀ p, (q p).Nodup) ∧ (∀ p p' t, t ∈ q p → t ∈ q p' → p = p') ∧ ∀ p, s.current ∉ q p

theorem Sane.acyclic (h : Sane full [s.current] s) : Acyclic s := by
  obtain ⟨q, hq⟩ := h.queued
  refine ⟨q, hq.holds.chain, fun p => (hq.holds.nodup p).of_map, fun p p' t ht ht' => ?_,
    fun p hp => ?_⟩
  · exact hq.holds.apart ht ht' rfl
  · exact (hq.member hp).2.2.2.2 List.mem_cons_self

theorem not_acyclic_of_self_loop {p : Prio} {t : Nat} (ht : t < maxTasks)
    (hhead : s.rq.heads p = some t) (hnext : s.rq.next t = some t) : ¬ Acyclic s := by
  rintro ⟨q, hchain, hnodup, -, -⟩
  have hidx := taskIdx_of_lt ht
  have hc := hchain p
  have hn := hnodup p
  rw [hhead] at hc
  match hl : q p, hc, hn with
  | [], hc, _ => cases hc
  | [x], hc, _ =>
    obtain ⟨hx, hc⟩ := hc
    cases hx
    rw [hidx, hnext] at hc
    cases hc
  | x :: y :: l, hc, hn =>
    obtain ⟨hx, hc⟩ := hc
    cases hx
    rw [hidx, hnext] at hc
    obtain ⟨hy, -⟩ := hc
    cases hy
    simp at hn

theorem run_queue_acyclic (kernelPml4 initPml4 userStack : Nat) (space : Nat → Nat → Option Nat)
    (es : List Event) (h : Steps State.step (fun s e => orderly s e = true)
      (boot kernelPml4 initPml4 userStack space) es) :
    Acyclic (es.foldl State.step (boot kernelPml4 initPml4 userStack space)) :=
  (Sane.run False (h.mono fun _ _ hs => ⟨hs, False.elim⟩)).acyclic

/-- Task 1 forks, sleeps and is woken by the timer while its child runs. -/
theorem run_queue_acyclic_sleep :
    let s := boot 0x1000 0x2000 0x7000 fun _ _ => none
    let es : List Event := [.call (.fork true (some 0x3000)), .call (.syscall true),
      .call (.sleep 1),
      .tick true, .call .yieldNow]
    (es.foldl State.step s).current = 1 ∧ Acyclic (es.foldl State.step s) :=
  ⟨by decide +kernel, run_queue_acyclic _ _ _ _ _ (by decide +kernel)⟩

/-- Two tasks sleep and the timer wakes both of them in the idle loop, which runs in the context of
the second one. The first one is picked, and the second one, which is ready and on the queue, is
queued once more. -/
theorem both_sleepers_woken :
    let s := [Event.call (.fork true (some 0x3000)), .call (.syscall true), .call (.sleep 1),
      .call (.syscall true), .call (.sleep 1), .tick false].foldl State.step
        (boot 0x1000 0x2000 0x7000 fun _ _ => none)
    s.rq.heads 10 = some 2 ∧ s.rq.next 2 = some 2 ∧ ¬ Acyclic s := by
  have hhead : ([Event.call (.fork true (some 0x3000)), .call (.syscall true), .call (.sleep 1),
      .call (.syscall true), .call (.sleep 1), .tick false].foldl State.step
        (boot 0x1000 0x2000 0x7000 fun _ _ => none)).rq.heads 10 = some 2 := by decide +kernel
  have hnext : ([Event.call (.fork true (some 0x3000)), .call (.syscall true), .call (.sleep 1),
      .call (.syscall true), .call (.sleep 1), .tick false].foldl State.step
        (boot 0x1000 0x2000 0x7000 fun _ _ => none)).rq.next 2 = some 2 := by decide +kernel
  exact ⟨hhead, hnext, not_acyclic_of_self_loop (by decide) hhead hnext⟩

/-! ### Every ready task is queued -/

/-- Every ready task other than the current one is on the list of its level. -/
def AllQueued (s : State) : Prop :=
  ∀ t, t < maxTasks → (s.tasks t).state = .ready → t ≠ s.current →
    ∃ l, LevelQueue.Chain taskIdx s.rq.next (s.rq.heads (s.tasks t).prio) l ∧ t ∈ l

theorem Sane.allQueued (h : Sane True [s.current] s) : AllQueued s := by
  intro t hlt hr hne
  obtain ⟨q, hq⟩ := h.queued
  exact ⟨_, hq.holds.chain _, hq.complete trivial t hlt hr (by simpa using hne)⟩

theorem ready_tasks_queued (kernelPml4 initPml4 userStack : Nat) (space : Nat → Nat → Option Nat)
    (es : List Event) (h : Steps State.step (fun s e => orderly s e = true ∧ loud s e = true)
      (boot kernelPml4 initPml4 userStack space) es) :
    AllQueued (es.foldl State.step (boot kernelPml4 initPml4 userStack space)) :=
  (Sane.run True (h.mono fun _ _ hs => ⟨hs.1, fun _ => hs.2⟩)).allQueued

/-- A child is killed while its parent waits for it. -/
theorem ready_tasks_queued_kill :
    let s := boot 0x1000 0x2000 0x7000 fun _ _ => none
    let es : List Event := [.call (.fork true (some 0x3000)), .call (.fork true (some 0x4000)),
      .call (.kill 2 15), .call (.waitpid (-1) false), .call .yieldNow]
    (es.foldl State.step s).current = 3 ∧ AllQueued (es.foldl State.step s) :=
  ⟨by decide, ready_tasks_queued _ _ _ _ _ (by decide)⟩

/-- Task 1 has a handler for SIGUSR1 and waits in `rt_sigsuspend`; its child sends it that signal.
It is ready then, and on no list. -/
theorem suspended_task_lost :
    let s := [Event.call (.setAction 10 ⟨0x400000, 0, 0, 0⟩), .call (.fork true (some 0x3000)),
      .call (.syscall true), .call (.sigsuspend false 0), .call (.kill 1 10)].foldl State.step
        (boot 0x1000 0x2000 0x7000 fun _ _ => none)
    (s.tasks 1).state = .ready ∧ s.current = 2 ∧ (∀ p, s.rq.heads p = none) ∧ ¬ AllQueued s := by
  have hr : (([Event.call (.setAction 10 ⟨0x400000, 0, 0, 0⟩), .call (.fork true (some 0x3000)),
      .call (.syscall true), .call (.sigsuspend false 0), .call (.kill 1 10)].foldl State.step
        (boot 0x1000 0x2000 0x7000 fun _ _ => none)).tasks 1).state = .ready := by decide
  have hcur : ([Event.call (.setAction 10 ⟨0x400000, 0, 0, 0⟩), .call (.fork true (some 0x3000)),
      .call (.syscall true), .call (.sigsuspend false 0), .call (.kill 1 10)].foldl State.step
        (boot 0x1000 0x2000 0x7000 fun _ _ => none)).current = 2 := by decide
  have hempty : ∀ p, ([Event.call (.setAction 10 ⟨0x400000, 0, 0, 0⟩),
    .call (.fork true (some 0x3000)),
      .call (.syscall true), .call (.sigsuspend false 0), .call (.kill 1 10)].foldl State.step
        (boot 0x1000 0x2000 0x7000 fun _ _ => none)).rq.heads p = none := by decide
  refine ⟨hr, hcur, hempty, fun hall => ?_⟩
  obtain ⟨l, hl, hmem⟩ := hall 1 (by decide) hr (by rw [hcur]; decide)
  rw [hempty] at hl
  cases l with
  | nil => cases hmem
  | cons x l => cases hl.1

end Rynex.Sched
