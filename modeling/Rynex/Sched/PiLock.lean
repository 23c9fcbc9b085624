import Rynex.Sched.Futex
import Rynex.Sched.PipeWait

/-! The lock of `futex_lock_pi` and `futex_unlock_pi`. A task that finds the lock held calls
`schedule`, which comes back at once inside a system call, and the owner is not asked for when the
lock is given back. -/

namespace Rynex.Sched

open Rynex.Lib State

variable {s s' : State} {uaddr i w : Nat}

/-- The word behind the address in the space of the current task. -/
def lockWord (s : State) (uaddr : Nat) : Option Nat :=
  (s.space (s.task s.current).pml4 uaddr).map s.word

def ownsLock (s : State) (uaddr : Nat) : Bool :=
  (lockWord s uaddr).any fun word => word % futexWaiters = s.current

/-- The lock is free, or the current task has it already. -/
def lockFree (s : State) (uaddr : Nat) : Bool :=
  (lockWord s uaddr).all fun word => word = 0 || word % futexWaiters = s.current

def lockIdle (s : State) (uaddr : Nat) : Prop :=
  (∀ i < maxTasks, waitsOn (s.tasks i) uaddr = false) ∧
    (lockWord s uaddr).all (fun word => word = 0) = true

/-- The word and the tasks that wait on it are as before. -/
def Untouched (s s' : State) (uaddr : Nat) : Prop :=
  s'.word = s.word ∧ ∀ i < maxTasks, waitsOn (s.tasks i) uaddr = true → s'.tasks i = s.tasks i

/-! ### A change of priorities -/

namespace Reweighed

theorem waitsOn (h : Reweighed s s') (uaddr i : Nat) :
    waitsOn (s'.tasks i) uaddr = waitsOn (s.tasks i) uaddr := by
  obtain ⟨_, _, hi⟩ := h.task i
  rw [hi]
  rfl

theorem pml4 (h : Reweighed s s') : (s'.task s'.current).pml4 = (s.task s.current).pml4 := by
  obtain ⟨_, _, hi⟩ := h.task (taskIdx s.current)
  rw [h.current, State.task, hi]
  rfl

theorem lockWord (h : Reweighed s s') (uaddr : Nat) : lockWord s' uaddr = lockWord s uaddr := by
  unfold Sched.lockWord
  rw [h.pml4, h.space, h.word]

theorem inCall (h : Reweighed s s') (hcall : InCall s) : InCall s' := by
  obtain ⟨_, _, hi⟩ := h.task (taskIdx s.current)
  unfold InCall State.inSyscall State.task
  rw [h.current, h.idle, hi]
  exact hcall

end Reweighed

/-! ### Taking the lock -/

theorem InCall.current_ne_zero (h : InCall s) : s.current ≠ 0 := by
  have hsys := h.1
  simp only [State.inSyscall, Bool.and_eq_true, decide_eq_true_eq] at hsys
  exact hsys.1

theorem lockWord_setTask (s : State) (j uaddr : Nat) {f : Task → Task}
    (hf : ∀ t, (f t).pml4 = t.pml4) : lockWord (s.setTask j f) uaddr = lockWord s uaddr := by
  have hpml4 : ((s.setTask j f).task s.current).pml4 = (s.task s.current).pml4 := by
    unfold State.task
    obtain heq | hne := eq_or_ne (taskIdx s.current) j
    · rw [heq, tasks_setTask_self, hf]
    · rw [tasks_setTask_ne _ _ hne]
  unfold lockWord
  exact congrArg (fun pml4 => (s.space pml4 uaddr).map s.word) hpml4

theorem lockWord_update {pa : Nat} (hpa : s.space (s.task s.current).pml4 uaddr = some pa)
    (word : Nat) : lockWord { s with word := Function.update s.word pa word } uaddr =
    some word := by
  have hpa' : s.space (State.task { s with word := Function.update s.word pa word }
    s.current).pml4 uaddr = some pa := hpa
  simp [lockWord, hpa']

/-- A call that answers 0 has put the current task into a free word, or has left the word with the
owner that it had. -/
theorem lockWord_futexLockPi (hcall : InCall s) (h : s.futexLockPi uaddr = (some 0, s')) :
    s'.current = s.current ∧ ∃ word, lockWord s uaddr = some word ∧
      lockWord s' uaddr =
        some (if word = 0 then s.current else word % futexWaiters + futexWaiters) := by
  unfold State.futexLockPi at h
  rw [if_neg hcall.current_ne_zero] at h
  split at h
  · cases h
  rename_i pa hpa
  have hword : lockWord s uaddr = some (s.word pa) := by rw [lockWord, hpa, Option.map_some]
  dsimp only at h
  split at h
  · rename_i hfree
    cases h
    refine ⟨rfl, s.word pa, hword, ?_⟩
    rw [if_pos hfree]
    exact lockWord_update hpa s.current
  · rename_i hheld
    generalize hnew : s.word pa % futexWaiters + futexWaiters = new at h
    have hset := lockWord_update hpa new
    split at h
    · cases h
    rename_i s₂ hb
    have hr := Reweighed.boostOwner hb
    have hblock := block_inCall (f := fun t => { t with blockedOn := uaddr })
      (hr.inCall hcall) fun _ => rfl
    rw [hblock] at h
    cases h
    refine ⟨hr.current, s.word pa, hword, ?_⟩
    rw [if_neg hheld, hnew, ← hset, ← hr.lockWord uaddr]
    exact lockWord_setTask s₂ _ uaddr fun _ => rfl

theorem maxTasks_lt_futexWaiters : maxTasks < futexWaiters := by decide

theorem ownsLock_futexLockPi_iff (hslots : s.current < maxTasks) (hcall : InCall s)
    (h : s.futexLockPi uaddr = (some 0, s')) : ownsLock s' uaddr = true ↔
    lockFree s uaddr = true := by
  obtain ⟨hcur, word, hword, hword'⟩ := lockWord_futexLockPi hcall h
  have hlt := lt_trans hslots maxTasks_lt_futexWaiters
  unfold ownsLock lockFree
  rw [hword', hword, hcur]
  -- The constant is kept from being unfolded.
  generalize futexWaiters = waiters at hlt
  simp only [Option.any_some, Option.all_some, decide_eq_true_eq, Bool.or_eq_true]
  split
  · rename_i hzero
    exact iff_of_true (Nat.mod_eq_of_lt hlt) (.inl hzero)
  · rename_i hheld
    rw [Nat.add_mod_right, Nat.mod_mod, or_iff_right hheld]

/-! ### Giving the lock back -/

theorem pickWaiter_none_iff (s : State) (uaddr i : Nat) (best : Option (Nat × Prio)) :
    pickWaiter s uaddr best i = none ↔ best = none ∧ waitsOn (s.tasks i) uaddr = false := by
  unfold pickWaiter
  dsimp only
  split
  · rename_i hw
    split
    · simp [hw]
    · split <;> simp
  · rename_i hw
    simp [hw]

theorem foldl_pickWaiter_none_iff (s : State) (uaddr : Nat) (l : List Nat)
    (best : Option (Nat × Prio)) : l.foldl (pickWaiter s uaddr) best = none ↔
      best = none ∧ ∀ i ∈ l, waitsOn (s.tasks i) uaddr = false := by
  induction l generalizing best with
  | nil => simp
  | cons j l ih =>
    rw [List.foldl_cons, ih, pickWaiter_none_iff, List.forall_mem_cons, and_assoc]

theorem bestWaiter_none_iff (s : State) (uaddr : Nat) :
    s.bestWaiter uaddr = none ↔ ∀ i < maxTasks, waitsOn (s.tasks i) uaddr = false := by
  rw [bestWaiter_eq, Option.map_eq_none_iff, foldl_pickWaiter_none_iff]
  simp only [true_and, List.mem_range]

theorem futexUnlockPi_cases (hcur : s.current ≠ 0) (h : s.futexUnlockPi uaddr = (some 0, s')) :
    ∃ s₁, Reweighed s s₁ ∧
      (s₁.bestWaiter uaddr = none ∧ s' = s₁.storeWord uaddr 0 ∨
        ∃ w, s₁.bestWaiter uaddr = some w ∧
          s' = (s₁.storeWord uaddr (w % futexWaiters + futexWaiters)).wakeTask (taskIdx w) w
            wokenByFutex) := by
  unfold State.futexUnlockPi at h
  rw [if_neg hcur] at h
  split at h
  · cases h
  rename_i s₁ hu
  refine ⟨s₁, .unboost hu, ?_⟩
  split at h
  · rename_i hb
    cases h
    exact .inl ⟨hb, rfl⟩
  · rename_i w hb
    cases h
    exact .inr ⟨w, hb, rfl⟩

theorem untouched_futexUnlockPi_iff (hslots : Slots s) (h : s.futexUnlockPi uaddr = (some 0, s')) :
    Untouched s s' uaddr ↔ lockIdle s uaddr := by
  obtain ⟨s₁, hr, ⟨hb, rfl⟩ | ⟨w, hb, rfl⟩⟩ := futexUnlockPi_cases hslots.current.2.1 h
  · have hnone := (bestWaiter_none_iff s₁ uaddr).mp hb
    simp only [hr.waitsOn] at hnone
    have hword : (s₁.storeWord uaddr 0).word = s.word ↔
        (lockWord s uaddr).all (fun word => word = 0) = true := by
      unfold State.storeWord lockWord
      rw [hr.pml4, hr.space]
      cases hpa : s.space (s.task s.current).pml4 uaddr with
      | none => simp [hr.word]
      | some pa =>
        simp only [Option.map_some, Option.all_some, decide_eq_true_eq, hr.word]
        exact Function.update_eq_self_iff.trans eq_comm
    unfold Untouched lockIdle
    rw [hword]
    refine ⟨fun hu => ⟨hnone, hu.1⟩, fun hi => ⟨hi.2, fun i hlt hw => ?_⟩⟩
    rw [hnone i hlt] at hw
    cases hw
  · obtain ⟨i, hi, hw, rfl⟩ := bestWaiter_waits hb
    rw [hr.waitsOn] at hw
    refine iff_of_false (fun hu => ?_) fun hidle => ?_
    · have hidx : taskIdx (s₁.tasks i).id = i := by
        obtain ⟨_, _, htask⟩ := hr.task i
        rw [htask]
        exact hslots.waits_id hi hw
      have hsame := hu.2 i hi hw
      rw [hidx, tasks_wakeTask_self] at hsame
      have hstate := congrArg Task.state hsame
      simp only [Sched.waitsOn, Bool.and_eq_true, decide_eq_true_eq] at hw
      rw [hw.1.1] at hstate
      cases hstate
    · have hnot := hidle.1 i hi
      rw [hw] at hnot
      cases hnot

/-! ### The lock -/

/-- A task that gets 0 from `futex_lock_pi` owns the lock exactly if it was free or its own, and a
task that is not the owner leaves the word and its waiters alone with `futex_unlock_pi` exactly if
there is nothing to give back. -/
theorem pi_lock_respects_owner_iff (hslots : Slots s) (hcall : InCall s) (uaddr : Nat) :
    (∀ s', s.futexLockPi uaddr = (some 0, s') →
      (ownsLock s' uaddr = true ↔ lockFree s uaddr = true)) ∧
    ∀ s', s.futexUnlockPi uaddr = (some 0, s') →
      ((ownsLock s uaddr = false → Untouched s s' uaddr) ↔
        ownsLock s uaddr = true ∨ lockIdle s uaddr) := by
  refine ⟨fun s' h => ownsLock_futexLockPi_iff hslots.current.1 hcall h, fun s' h => ?_⟩
  rw [untouched_futexUnlockPi_iff hslots h]
  cases ownsLock s uaddr <;> simp

def lonelyCaller : State :=
  (boot 0x1000 0x2000 0x7000 fun _ va => some va).step (.call (.syscall true))

theorem pi_lock_respects_owner_iff_free : Slots lonelyCaller ∧ InCall lonelyCaller ∧
    ∃ s', lonelyCaller.futexLockPi 0x400000 = (some 0, s') ∧ ownsLock s' 0x400000 = true := by
  have hslots : Slots lonelyCaller :=
    ⟨by decide, by decide, by decide, by decide⟩
  have hcall : InCall lonelyCaller := by
    unfold InCall
    decide
  have hret : (lonelyCaller.futexLockPi 0x400000).1 = some 0 := by decide
  have hlock : lonelyCaller.futexLockPi 0x400000 =
      (some 0, (lonelyCaller.futexLockPi 0x400000).2) := Prod.ext hret rfl
  refine ⟨hslots, hcall, _, hlock, ?_⟩
  exact ((pi_lock_respects_owner_iff hslots hcall 0x400000).1 _ hlock).mpr (by decide)

/-- The init task takes the lock and starts a thread, which gets 0 from `futex_lock_pi` while the
word names the init task, or sets the word to zero with `futex_unlock_pi`. -/
theorem thread_shares_lock :
    let s := [Event.call (.syscall true), .call (.futexLockPi 0x400000), .call (.syscall false),
      .call (.clone (cloneVm ||| cloneThread) 0x8000 0 0 true none), .call .yieldNowForce,
      .call (.syscall true)].foldl State.step (boot 0x1000 0x2000 0x7000 fun _ va => some va)
    s.current = 2 ∧ lockWord s 0x400000 = some 1 ∧
      (s.futexLockPi 0x400000).1 = some 0 ∧
      lockWord (s.futexLockPi 0x400000).2 0x400000 = some (1 + futexWaiters) ∧
      (s.futexUnlockPi 0x400000).1 = some 0 ∧
      lockWord (s.futexUnlockPi 0x400000).2 0x400000 = some 0 := by
  decide

end Rynex.Sched
