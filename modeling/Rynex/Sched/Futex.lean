import Rynex.Sched.Waiting

/-! Whom `futex_wake` and `futex_unlock_pi` wake. The waiters are told apart by the virtual address
alone, so a waiter of another address space is woken when it is selected, whatever the physical word
behind the address is there. -/

namespace Rynex.Sched

open Rynex.Lib State

variable {s s' : State} {uaddr i : Nat}

def wakeWaiter (s : State) (i : Nat) : State := s.wakeTask i (s.tasks i).id wokenByFutex

theorem tasks_wakeWaiter_ne (s : State) {i j : Nat} (h : j ≠ i) :
    (wakeWaiter s i).tasks j = s.tasks j := s.tasks_wakeTask_ne wokenByFutex h

theorem futexWakeAt_eq (uaddr maxWake n i : Nat) (s : State) : futexWakeAt uaddr maxWake (n, s) i =
    if n < maxWake ∧ waitsOn (s.tasks i) uaddr = true then (n + 1, wakeWaiter s i) else (n, s) := by
  simp only [State.futexWakeAt, waitsOn, Bool.and_eq_true, decide_eq_true_eq, and_assoc]
  rfl

theorem foldl_futexWakeAt (uaddr maxWake : Nat) {l : List Nat} (hl : l.Nodup) (n : Nat)
    (s : State) :
    (l.foldl (futexWakeAt uaddr maxWake) (n, s)).2 =
      ((l.filter fun i => waitsOn (s.tasks i) uaddr).take (maxWake - n)).foldl wakeWaiter s := by
  induction l generalizing n s with
  | nil => simp
  | cons i l ih =>
    obtain ⟨hi, hl'⟩ := List.nodup_cons.mp hl
    rw [List.foldl_cons, futexWakeAt_eq]
    by_cases hn : n < maxWake
    · cases hw : waitsOn (s.tasks i) uaddr with
      | true =>
        have hrest : (l.filter fun j => waitsOn ((wakeWaiter s i).tasks j) uaddr) =
            l.filter fun j => waitsOn (s.tasks j) uaddr :=
          List.filter_congr fun j hj => by
            have hne : j ≠ i := fun heq => hi (heq ▸ hj)
            rw [tasks_wakeWaiter_ne s hne]
        obtain ⟨k, hk⟩ : ∃ k, maxWake - n = k + 1 := ⟨maxWake - n - 1, by omega⟩
        have hk' : maxWake - (n + 1) = k := by omega
        rw [if_pos ⟨hn, rfl⟩, ih hl', hrest, hk', hk]
        simp only [List.filter_cons, hw, if_true, List.take_succ_cons, List.foldl_cons]
      | false =>
        rw [if_neg (by simp), ih hl']
        simp only [List.filter_cons, hw, Bool.false_eq_true, if_false]
    · have hk : maxWake - n = 0 := by omega
      rw [if_neg fun h => hn h.1, ih hl', hk, List.take_zero, List.take_zero]

/-- The slots of the tasks that `futex_wake` selects. -/
def futexSelected (tasks : Nat → Task) (uaddr maxWake : Nat) : List Nat :=
  ((List.range maxTasks).filter fun i => waitsOn (tasks i) uaddr).take maxWake

theorem futexWake_eq (s : State) (uaddr maxWake : Nat) :
    (s.futexWake uaddr maxWake).2 = (futexSelected s.tasks uaddr maxWake).foldl wakeWaiter s :=
  foldl_futexWakeAt uaddr maxWake List.nodup_range 0 s

def waiter (tasks : Nat → Task) (uaddr : Nat) : Option Nat :=
  (List.range maxTasks).find? fun i => waitsOn (tasks i) uaddr

theorem futexWake_one (s : State) (uaddr : Nat) : (s.futexWake uaddr 1).2 =
    match waiter s.tasks uaddr with
    | none => s
    | some w => s.wakeTask w (s.tasks w).id wokenByFutex := by
  rw [futexWake_eq, futexSelected, List.take_one, List.head?_filter, waiter]
  cases (List.range maxTasks).find? fun i => waitsOn (s.tasks i) uaddr <;> rfl

theorem tasks_foldl_wakeWaiter {l : List Nat} (hl : l.Nodup) (s : State) (i : Nat) :
    (l.foldl wakeWaiter s).tasks i =
      if i ∈ l then { wokenByFutex (s.tasks i) with state := .ready } else s.tasks i := by
  induction l generalizing s with
  | nil => simp
  | cons j l ih =>
    obtain ⟨hj, hl'⟩ := List.nodup_cons.mp hl
    rw [List.foldl_cons, ih hl']
    obtain rfl | hne := eq_or_ne i j
    · rw [if_neg hj, if_pos List.mem_cons_self]
      exact s.tasks_wakeTask_self i (s.tasks i).id wokenByFutex
    · rw [tasks_wakeWaiter_ne s hne]
      simp [hne]

theorem tasks_futexWake (s : State) (uaddr maxWake i : Nat) :
    (s.futexWake uaddr maxWake).2.tasks i =
    if i ∈ futexSelected s.tasks uaddr maxWake
      then { wokenByFutex (s.tasks i) with state := .ready }
    else s.tasks i := by
  rw [futexWake_eq]
  exact tasks_foldl_wakeWaiter ((List.nodup_range.filter _).sublist (List.take_sublist ..)) s i

/-! ### Waiters of other address spaces -/

/-- The task in slot `i` waits on the address, and another physical word than the caller's is behind
it there. -/
def foreignWaiter (s : State) (uaddr i : Nat) : Bool :=
  waitsOn (s.tasks i) uaddr &&
    s.space (s.tasks i).pml4 uaddr ≠ s.space (s.task s.current).pml4 uaddr

/-- A task that waits on another word is woken. -/
def WakesForeign (s s' : State) (uaddr : Nat) : Prop :=
  ∃ i < maxTasks, foreignWaiter s uaddr i = true ∧ (s'.tasks i).state ≠ .blocked

/-- The task to which `futex_unlock_pi` gives the lock. -/
def futexHeir (s : State) (uaddr : Nat) : Option Nat :=
  if s.current = 0 then none else s.unboost.bind fun s => s.bestWaiter uaddr

/-- No task that `futex_wake` selects waits on another word than the caller's. -/
def selectsOwn (s : State) (uaddr maxWake : Nat) : Bool :=
  (futexSelected s.tasks uaddr maxWake).all fun i => !foreignWaiter s uaddr i

/-- The task to which `futex_unlock_pi` gives the lock does not wait on another word either. -/
def ownHeir (s : State) (uaddr : Nat) : Bool :=
  (futexHeir s uaddr).all fun w => !foreignWaiter s uaddr (taskIdx w)

theorem blocked_of_foreign (h : foreignWaiter s uaddr i = true) : (s.tasks i).state = .blocked := by
  simp only [foreignWaiter, waitsOn, Bool.and_eq_true, decide_eq_true_eq] at h
  exact h.1.1.1

theorem futexWake_foreign_iff (s : State) (uaddr maxWake : Nat) :
    ¬ WakesForeign s (s.futexWake uaddr maxWake).2 uaddr ↔ selectsOwn s uaddr maxWake = true := by
  simp only [WakesForeign, selectsOwn, List.all_eq_true, tasks_futexWake, not_exists, not_and]
  constructor
  · intro h i hi
    have hlt : i < maxTasks := List.mem_range.mp (List.mem_filter.mp (List.mem_of_mem_take hi)).1
    by_contra hf
    exact h i hlt (by simpa using hf) (by simp [hi])
  · intro h i _ hf
    by_cases hi : i ∈ futexSelected s.tasks uaddr maxWake
    · have hown := h i hi
      rw [hf] at hown
      cases hown
    · simp [hi, blocked_of_foreign hf]

theorem state_unboost (h : s.unboost = some s') (i : Nat) :
    (s'.tasks i).state = (s.tasks i).state := by
  have hset : ((s.setTask (taskIdx s.current) fun t =>
      { t with piBoosted := false, prio := t.staticPrio }).tasks i).state = (s.tasks i).state := by
    obtain rfl | hne := eq_or_ne i (taskIdx s.current)
    · rw [tasks_setTask_self]
    · rw [tasks_setTask_ne _ _ hne]
  unfold State.unboost at h
  simp only at h
  split at h
  · split at h
    · simp only [State.removeFromRunqueue, Option.map_map, Option.map_eq_some_iff] at h
      obtain ⟨rq, -, rfl⟩ := h
      exact hset
    · cases h
      exact hset
  · cases h
    rfl

theorem futexUnlockPi_foreign_iff (s : State) (uaddr : Nat) :
    ¬ WakesForeign s (s.futexUnlockPi uaddr).2 uaddr ↔ ownHeir s uaddr = true := by
  unfold State.futexUnlockPi ownHeir futexHeir
  split
  · exact iff_of_true (fun ⟨i, _, hf, hw⟩ => hw (blocked_of_foreign hf)) rfl
  cases hu : s.unboost with
  | none => exact iff_of_true (fun ⟨i, _, hf, hw⟩ => hw (blocked_of_foreign hf)) rfl
  | some s₁ =>
    have hstate := state_unboost hu
    simp only [Option.bind_some]
    cases hb : s₁.bestWaiter uaddr with
    | none =>
      obtain ⟨w, hw⟩ := s₁.storeWord_eq uaddr 0
      simp only [hw]
      refine iff_of_true (fun ⟨i, _, hf, hw⟩ => hw ?_) rfl
      exact (hstate i).trans (blocked_of_foreign hf)
    | some w =>
      obtain ⟨word, hword⟩ := s₁.storeWord_eq uaddr (w % futexWaiters + futexWaiters)
      simp only [hword, Option.all_some, WakesForeign, not_exists, not_and]
      have hself := { s₁ with word := word }.tasks_wakeTask_self (taskIdx w) w wokenByFutex
      constructor
      · intro h
        by_contra hf
        refine h (taskIdx w) (taskIdx_lt w) (by simpa using hf) ?_
        exact fun hbl => by cases (congrArg Task.state hself).symm.trans hbl
      · intro hown i _ hf
        have hne : i ≠ taskIdx w := by
          rintro rfl
          rw [hf] at hown
          cases hown
        refine not_not.mpr ?_
        have hother : (State.wakeTask { s₁ with word := word } (taskIdx w) w wokenByFutex).tasks i =
            s₁.tasks i := State.tasks_wakeTask_ne _ wokenByFutex hne
        exact ((congrArg Task.state hother).trans (hstate i)).trans (blocked_of_foreign hf)

/-- The task that is woken by `futex_unlock_pi` is the one that gets the lock. -/
theorem futex_wakes_own_iff (s : State) (uaddr maxWake : Nat) :
    (¬ WakesForeign s (s.call (.futexWake uaddr maxWake)) uaddr ↔
      selectsOwn s uaddr maxWake = true) ∧
      (¬ WakesForeign s (s.call (.futexUnlockPi uaddr)) uaddr ↔ ownHeir s uaddr = true) :=
  ⟨futexWake_foreign_iff s uaddr maxWake, futexUnlockPi_foreign_iff s uaddr⟩

/-- A child with a copy of the page waits on its own word, and the parent wakes it, or gives it its
own lock, with the same address. -/
theorem child_woken_for_parent :
    let space (pml4 va : Nat) : Option Nat :=
      if va = 0x400000 then if pml4 = 0x2000 then some 0x10000 else some 0x20000 else none
    let s := [Event.call (.fork true (some 0x3000)), .call .yieldNowForce,
      .call (.futexWait 0x400000 0 none)].foldl State.step (boot 0x1000 0x2000 0x7000 space)
    s.current = 1 ∧ (s.tasks 2).state = .blocked ∧ foreignWaiter s 0x400000 2 = true ∧
      WakesForeign s (s.call (.futexWake 0x400000 1)) 0x400000 ∧
      WakesForeign s (s.call (.futexUnlockPi 0x400000)) 0x400000 ∧
      (s.call (.futexUnlockPi 0x400000)).word 0x10000 = 2 + futexWaiters := by
  refine ⟨by decide, by decide, by decide, ⟨2, ?_⟩, ⟨2, ?_⟩, by decide⟩
  · decide
  · decide

end Rynex.Sched
