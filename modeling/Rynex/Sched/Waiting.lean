import Rynex.Sched.Creation

/-! What the calls that wait, the futex calls and the timer keep of the scheduler's invariant. -/

namespace Rynex.Sched

open Rynex.Lib Rynex.Errno State

variable {full : Prop} {out : List Nat} {s s' : State} {t i owner uaddr w : Nat} {f : Task → Task}

/-- The current task may run: a call that could not schedule has not left it blocked, and it has not
killed itself. -/
def Active (s : State) : Prop :=
  (s.tasks s.current).state = .running ∨ (s.tasks s.current).state = .ready

theorem Active.not_blocked (h : Active s) : (s.tasks s.current).state ≠ .blocked := by
  rcases h with h | h <;> simp [h]

/-! ### The waiters on a word -/

def waitsOn (t : Task) (uaddr : Nat) : Bool := t.state = .blocked && t.blockedOn = uaddr && t.id ≠ 0

/-- What a futex wake does to the task it wakes. -/
def wokenByFutex (t : Task) : Task := { t with blockedOn := 0, wakeupTick := 0, futexDeadline := 0 }

def pickWaiter (s : State) (uaddr : Nat) (best : Option (Nat × Prio)) (i : Nat) :
    Option (Nat × Prio) :=
  let t := s.tasks i
  if waitsOn t uaddr then
    match best with
    | none => some (t.id, t.prio)
    | some (_, prio) => if t.prio < prio then some (t.id, t.prio) else best
  else best

theorem bestWaiter_eq (s : State) (uaddr : Nat) : s.bestWaiter uaddr =
    ((List.range maxTasks).foldl (pickWaiter s uaddr) none).map Prod.fst := rfl

theorem pickWaiter_cases (s : State) (uaddr i : Nat) (best : Option (Nat × Prio)) :
    pickWaiter s uaddr best i = best ∨ waitsOn (s.tasks i) uaddr = true ∧
      pickWaiter s uaddr best i = some ((s.tasks i).id, (s.tasks i).prio) := by
  unfold pickWaiter
  dsimp only
  split
  · rename_i hw
    split
    · exact .inr ⟨hw, rfl⟩
    · split
      · exact .inr ⟨hw, rfl⟩
      · exact .inl rfl
  · exact .inl rfl

theorem bestWaiter_waits (h : s.bestWaiter uaddr = some w) :
    ∃ i < maxTasks, waitsOn (s.tasks i) uaddr = true ∧ (s.tasks i).id = w := by
  rw [bestWaiter_eq, Option.map_eq_some_iff] at h
  obtain ⟨⟨w, prio⟩, h, rfl⟩ := h
  revert h w prio
  refine List.foldlRecOn (motive := fun best : Option (Nat × Prio) =>
    ∀ w prio, best = some (w, prio) →
    ∃ i < maxTasks, waitsOn (s.tasks i) uaddr = true ∧ (s.tasks i).id = w) _ _
      (fun _ _ h => by cases h)
    fun best hbest i hi w prio h => ?_
  obtain hkeep | ⟨hw, hpick⟩ := pickWaiter_cases s uaddr i best
  · exact hbest w prio (hkeep.symm.trans h)
  · obtain ⟨rfl, rfl⟩ := Prod.mk.inj (Option.some.inj (hpick.symm.trans h))
    exact ⟨i, List.mem_range.mp hi, hw, rfl⟩

theorem Slots.waits_id (h : Slots s) (hi : i < maxTasks) (hw : waitsOn (s.tasks i) uaddr = true) :
    taskIdx (s.tasks i).id = i := by
  simp only [Sched.waitsOn, Bool.and_eq_true, decide_eq_true_eq] at hw
  have hzero : i ≠ 0 := by
    rintro rfl
    exact hw.2 h.zero.1
  rw [h.ids i hi hzero (by simp [hw.1.1]), taskIdx_of_lt hi]


def deadlineOf (s : State) : Option Nat → Nat
  | none => 0
  | some n => min (s.ticks + n) (2 ^ 64 - 1)

namespace Sane

/-! ### Futexes -/

theorem removeCurrent (h : Sane full [s.current] s) :
    ∃ rq, s.removeFromRunqueue s.current = some { s with rq := rq } ∧
      Sane full [s.current] { s with rq := rq } := by
  obtain ⟨rq, hrem, hs⟩ := h.remove h.slots.current.1
  exact ⟨rq, hrem, hs.out_congr fun t => by simp⟩

theorem setQuiet (h : Sane full out s) (hnr : (s.tasks i).state ≠ .ready)
    (hid : (f (s.tasks i)).id = (s.tasks i).id)
    (hstate : (f (s.tasks i)).state = (s.tasks i).state) :
    Sane full out (s.setTask i f) := by
  have hsame : ∀ t, ((s.setTask i f).tasks t).id = (s.tasks t).id ∧
      ((s.setTask i f).tasks t).state = (s.tasks t).state := by
    intro t
    obtain rfl | hne := eq_or_ne t i
    · rw [tasks_setTask_self]
      exact ⟨hid, hstate⟩
    · rw [tasks_setTask_ne _ _ hne]
      exact ⟨rfl, rfl⟩
  obtain ⟨q, hq⟩ := h.queued
  refine ⟨h.slots.frame rfl rfl ((hsame 0).2.trans h.slots.zero.2) (fun t _ => (hsame t).1)
    fun t _ => by rw [(hsame t).2], q, hq.frame rfl fun t _ _ => ?_⟩
  obtain rfl | hne := eq_or_ne t i
  · exact .inr ⟨hnr, by rwa [(hsame t).2]⟩
  · rw [tasks_setTask_ne _ _ hne]
    exact .inl (.refl _)

/-- The owner of a lock is taken off the queue and put back under its new priority. -/
theorem boostOwner (h : Sane full [s.current] s) (owner : Nat) :
    ∃ s', s.boostOwner owner = some s' ∧ Sane full [s'.current] s' := by
  unfold State.boostOwner
  simp only
  split
  next hc =>
    by_cases hlt : owner < maxTasks ∧ owner ≠ 0
    · have hcur : owner ≠ s.current := by
        rintro rfl
        exact lt_irrefl _ hc.2
      obtain ⟨rq, hrem, hs⟩ := h.remove hlt.1
      rw [hrem, Option.map_some]
      refine ⟨_, rfl, ?_⟩
      rw [taskIdx_of_lt hlt.1]
      generalize (s.task s.current).prio = prio
      have hne : (s.tasks owner).state ≠ .empty := s.task_of_lt hlt.1 ▸ hc.1
      have hs' := hs.setOut (i := owner) (f := fun t => { t with prio := prio, piBoosted := true })
        (by simp) hlt.2 rfl Iff.rfl
      have htask := State.task_of_lt ({ s with rq := rq }.setTask owner
        fun t => { t with prio := prio, piBoosted := true }) hlt.1
      rw [htask]
      split
      next hr => exact hs'.enqueue hlt.2 hlt.1 hr (by simp) (by simpa using hcur)
      next hr => exact hs'.put_back hr
    · have hidx : taskIdx owner = 0 := by
        unfold taskIdx
        split <;> omega
      have hzero : (s.tasks 0).state ≠ .ready := by simp [h.slots.zero.2]
      obtain ⟨q, hq⟩ := h.queued
      rw [hq.remove_of_ge (by omega), Option.map_some]
      refine ⟨_, rfl, ?_⟩
      simp only [State.task, hidx, tasks_setTask_self, hzero, if_false]
      exact h.setQuiet hzero rfl rfl
  next => exact ⟨s, rfl, h⟩

theorem unboost (h : Sane full [s.current] s)
    (hkeep : ¬ ((s.tasks s.current).piBoosted = true ∧ (s.tasks s.current).state = .ready ∧
      (s.tasks s.current).prio ≠ (s.tasks s.current).staticPrio)) :
    ∃ s', s.unboost = some s' ∧ Sane full [s'.current] s' ∧ s'.current = s.current ∧
      (s'.tasks s.current).state = (s.tasks s.current).state := by
  unfold State.unboost
  simp only [h.current_task]
  split
  next hboost =>
    rw [if_neg fun hc => hkeep ⟨hboost, hc⟩]
    refine ⟨_, rfl, h.setCurrent (fun _ => rfl) fun _ ht => ht, rfl, ?_⟩
    rw [h.current_idx, tasks_setTask_self]
  next => exact ⟨s, rfl, h, rfl, rfl⟩

theorem futexUnlockPi {uaddr : Nat} (h : Sane full [s.current] s) (hact : Active s)
    (hkeep : ¬ ((s.tasks s.current).piBoosted = true ∧ (s.tasks s.current).state = .ready ∧
      (s.tasks s.current).prio ≠ (s.tasks s.current).staticPrio)) :
    Sane full [(s.futexUnlockPi uaddr).2.current] (s.futexUnlockPi uaddr).2 := by
  obtain ⟨s', hu, hs', hcur, hst⟩ := h.unboost hkeep
  have hnb := hact.not_blocked
  rw [← hst, ← hcur] at hnb
  unfold State.futexUnlockPi
  rw [if_neg h.slots.current.2.1, hu]
  simp only
  split
  · obtain ⟨w, e⟩ := s'.storeWord_eq uaddr 0
    rw [e]
    exact hs'.congr rfl rfl rfl rfl
  next w hbest =>
    obtain ⟨i, hi, hw, rfl⟩ := bestWaiter_waits hbest
    have hidx := hs'.slots.waits_id hi hw
    have hb : (s'.task (s'.tasks i).id).state = .blocked := by
      simp only [waitsOn, Bool.and_eq_true, decide_eq_true_eq] at hw
      rw [State.task, hidx]
      exact hw.1.1
    generalize (s'.tasks i).id = w at hb
    obtain ⟨word, e⟩ := s'.storeWord_eq uaddr (w % futexWaiters + futexWaiters)
    simp only [e]
    have hword : Sane full [s'.current] { s' with word := word } := hs'.congr rfl rfl rfl rfl
    refine Sane.wakeOther (s := { s' with word := word }) hword hb ?_ fun _ => rfl
    rintro rfl
    exact hnb (hs'.current_task ▸ hb)

/-! ### Waiting -/

theorem not_back (h : Sane full [s.current] s) (hid : ∀ t, (f t).id = t.id) :
    (s.block true f).1 = false :=
  Sane.scheduleInner_leaves (s := State.setTask _ _ _)
    (h.setCurrent (f := fun t => { f t with state := .blocked }) hid fun _ _ => by simp)

theorem futexWait_cases (h : Sane full [s.current] s) (uaddr val : Nat) (timeout : Option Nat) :
    (∃ r, s.futexWait uaddr val timeout = (some (-r), s) ∧ (r = efault ∨ r = eagain ∨ r = einval)) ∨
    ∃ rq, Sane full [s.current] { s with rq := rq } ∧ s.futexWait uaddr val timeout =
      (none, (State.block { s with rq := rq } true fun t =>
        { t with
          blockedOn := uaddr, wakeupTick := deadlineOf s timeout,
          futexDeadline := deadlineOf s timeout }).2) := by
  obtain ⟨rq, hrem, hs⟩ := h.removeCurrent
  unfold State.futexWait
  split
  · exact .inl ⟨_, rfl, .inl rfl⟩
  split
  · exact .inl ⟨_, rfl, .inr (.inl rfl)⟩
  split
  · exact .inl ⟨_, rfl, .inr (.inr rfl)⟩
  refine .inr ⟨rq, hs, ?_⟩
  have hback := not_back (s := { s with rq := rq }) hs (f := fun t =>
    { t with
      blockedOn := uaddr, wakeupTick := deadlineOf s timeout,
      futexDeadline := deadlineOf s timeout }) fun _ => rfl
  simp only [hrem]
  split
  next hr => exact congrArg (Prod.mk none) (congrArg Prod.snd hr).symm
  next hr => cases hback.symm.trans (congrArg Prod.fst hr)

end Sane

/-- A call that may wait is over, with a word changed at most, or lost in the kernel; or its task
blocks, for which only a word, priorities and queues have changed. -/
inductive Waits (full : Prop) (s : State) : State → Prop where
  | passes (word : Nat → Nat) : Waits full s { s with word := word }
  | lost (deadlocked : Bool) : Waits full s { s with hung := true, deadlocked := deadlocked }
  | blocked {word : Nat → Nat} {z : State} (force : Bool) (f : Task → Task)
      (hid : ∀ t, (f t).id = t.id) (hr : Reweighed { s with word := word } z)
      (h : Sane full [z.current] z) : Waits full s (z.block force f).2

def Call.waits : Call → Bool
  | .sleep _ | .futexWait _ _ _ | .futexLockPi _ | .blockOnFutex _ | .readEmpty _ | .pollBlock _ _
  | .sigsuspend _ _ => true
  | _ => false

namespace Sane

theorem waits {c : Call} (h : Sane full [s.current] s) (hc : c.waits = true) :
    Waits full s (s.call c) := by
  have hsame : Waits full s s := .passes s.word
  have hself : Reweighed { s with word := s.word } s := .requeue s s.rq
  cases c with
  | sleep ticks =>
    simp only [State.call, State.sysSleep, if_neg h.slots.current.2.1]
    exact .blocked true _ (fun _ => rfl) hself h
  | futexWait uaddr val timeout =>
    rcases h.futexWait_cases uaddr val timeout with ⟨r, hr, -⟩ | ⟨rq, hs, hr⟩
    · rw [State.call, hr]
      exact hsame
    · rw [State.call, hr]
      have hq : Reweighed { s with word := s.word } { s with rq := rq } := .requeue s rq
      exact .blocked true _ (fun _ => rfl) hq hs
  | futexLockPi uaddr =>
    simp only [State.call, State.futexLockPi, if_neg h.slots.current.2.1]
    split
    · exact hsame
    next pa _ =>
    split
    · exact .passes _
    generalize Function.update s.word pa _ = word
    have hs : Sane full [s.current] { s with word := word } := h.congr rfl rfl rfl rfl
    obtain ⟨z, hb, hz⟩ := Sane.boostOwner (s := { s with word := word }) hs
      (s.word pa % futexWaiters)
    have hblock : Waits full s (z.block false fun t => { t with blockedOn := uaddr }).2 :=
      .blocked false _ (fun _ => rfl) (.boostOwner hb) hz
    rw [hb]
    dsimp only
    split <;>
    next hr =>
      rw [hr] at hblock
      exact hblock
  | blockOnFutex uaddr =>
    obtain ⟨rq, hrem, hs⟩ := h.removeCurrent
    simp only [State.call, State.blockOnFutex, if_neg h.slots.current.2.1, hrem]
    have hq : Reweighed { s with word := s.word } { s with rq := rq } := .requeue s rq
    exact .blocked true _ (fun _ => rfl) hq hs
  | readEmpty addr => exact .blocked false _ (fun _ => rfl) hself h
  | pollBlock fds deadline => exact .blocked true _ (fun _ => rfl) hself h
  | sigsuspend null mask =>
    simp only [State.call, State.sysRtSigsuspend]
    split
    · exact hsame
    split
    · exact .lost true
    split
    · exact hsame
    have hblock : Waits full s (s.block true fun t => { t with
        signals := { (s.task s.current).signals with blocked := mask },
        blockedOn := sigsuspendMagic }).2 :=
      .blocked true _ (fun _ => rfl) hself h
    have hback := not_back h (f := fun t => { t with
        signals := { (s.task s.current).signals with blocked := mask },
        blockedOn := sigsuspendMagic })
      fun _ => rfl
    split
    next hr =>
      rw [hr] at hblock
      exact hblock
    next hr =>
      rw [hr] at hback
      cases hback
  | _ => cases hc

end Sane

theorem Waits.sane (h : Sane full [s.current] s) (hw : Waits full s s') :
    Sane full [s'.current] s' := by
  cases hw with
  | passes word => exact h.congr rfl rfl rfl rfl
  | lost deadlocked => exact h.congr rfl rfl rfl rfl
  | blocked force f hid _ hz => exact hz.block force hid

namespace Sane

theorem sysWaitpid {pid : Int} {nohang : Bool} (h : Sane full [s.current] s) (hact : Active s) :
    Sane full [(s.sysWaitpid pid nohang).2.current] (s.sysWaitpid pid nohang).2 := by
  rcases sysWaitpid_cases s pid nohang with hr | ⟨i, hi, -, hz, -, hr⟩ | ⟨uaddr, val, hr⟩ | hr <;>
    rw [hr]
  · exact h
  · have hne : i ≠ 0 := by
      rintro rfl
      rw [h.slots.zero.2] at hz
      cases hz
    refine h.reap ⟨hne, hi⟩ ?_ hz
    rintro rfl
    rcases hact with ha | ha <;> rw [hz] at ha <;> cases ha
  · exact (h.waits (c := .futexWait uaddr val none) rfl).sane h
  · exact h.yieldNowForce

/-! ### The timer -/

theorem enterTimer (h : Sane full [s.current] s) (user : Bool) :
    Sane full [s.current] (s.enterTimer user) := by
  unfold State.enterTimer
  simp only
  split
  · exact (h.setTask (taskIdx s.current) (f := fun t => { t with userMode := user })
      ⟨rfl, rfl, rfl⟩).congr rfl rfl rfl rfl
  · exact h.congr rfl rfl rfl rfl

theorem timerSwitch (h : Sane full [s.current] s) :
    Sane full [s.timerSwitch.current] s.timerSwitch := by
  obtain ⟨hlt, hne, hstate⟩ := h.slots.current
  unfold State.timerSwitch
  rcases h.dequeue with hd | ⟨next, rq, hd, hne', hlt', hr, hout, hs⟩
  · simp only [hd]
    exact h
  · have hnext : next ≠ s.current := by simpa using hout
    simp only [hd, hnext, if_false, h.current_idx, taskIdx_of_lt hlt']
    have hready := hs.setOut (i := s.current) (f := fun t => { t with state := .ready })
      (by simp) hne
      rfl (by simp [hstate])
    have hback := Sane.enqueue (p := (State.task { s with rq := rq } s.current).prio)
      (hready.out_congr (fun t => by simp [or_comm] : ∀ t, t ∈ [next, s.current] ↔
        t ∈ [s.current, next])) hne hlt (by simp) (by simp [State.task, h.current_idx])
      (by simpa using hnext.symm)
    refine hback.dispatch ⟨hne', hlt'⟩ ?_ _ rfl
    rw [tasks_enqueueTask, tasks_setTask_ne _ _ hnext]
    exact hr

end Sane

/-- After an interrupt the current task is off the queue, or it was blocked and has been queued. -/
inductive Polled (full : Prop) (s s' : State) : Prop where
  | kept (sane : Sane full [s'.current] s')
  | woken (sane : Sane full [] s') (current : s'.current = s.current)
      (blocked : (s.tasks s.current).state = .blocked)
      (ready : (s'.tasks s.current).state = .ready)

theorem Scanned.polled (h : Scanned full s s') : Polled full s s' := by
  cases h with
  | kept hs hcur _ =>
    rw [← hcur] at hs
    exact .kept hs
  | woken hs hcur hb hr => exact .woken hs hcur hb hr

namespace Polled

/-- A task that was ready when the timer came is not switched. -/
theorem timerSchedule (h : Sane full [s.current] s) : Polled full s s.timerSchedule := by
  have hscan : Scanned full s s.wakeupExpiredSleepers := Scanned.wakeAll h fun _ _ => rfl
  unfold State.timerSchedule
  generalize s.wakeupExpiredSleepers = s₁ at hscan
  simp only
  split
  · exact hscan.polled
  · split
    · exact hscan.polled
    · split
      · exact hscan.polled
      · split
        · exact hscan.polled
        · cases hscan with
          | kept hs hcur _ =>
            rw [← hcur] at hs
            have hslice := hs.setTask (taskIdx s₁.current)
              (f := fun t => { t with timeSlice := t.timeSlice - 1 }) ⟨rfl, rfl, rfl⟩
            split
            · exact .kept hslice
            · split
              · exact .kept hslice
              · refine .kept (Sane.timerSwitch (s := State.setTask _ _ _) ?_)
                exact hslice.setTask _ ⟨rfl, rfl, rfl⟩
          | woken hs hcur hb hr =>
            have hslice := hs.setTask (taskIdx s₁.current)
              (f := fun t => { t with timeSlice := t.timeSlice - 1 }) ⟨rfl, rfl, rfl⟩
            rw [if_pos (by rw [hs.current_task, hcur, hr]; simp)]
            refine .woken hslice hcur hb ?_
            rw [hs.current_idx, hcur, tasks_setTask_self]
            exact hr

end Polled

end Rynex.Sched
