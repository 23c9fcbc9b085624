import Mathlib

/-! Ring buffers: the elements that a slot array holds between a start index and a count, as a
list, and what writing the next free slot and taking the oldest one do to that list. -/

namespace Rynex.Lib.Ring

variable {α : Type*} {slots : Nat → α} {cap start count : Nat}

/-- The `count` elements of the ring from `start` on, oldest first. -/
def window (slots : Nat → α) (cap start count : Nat) : List α :=
  (List.range count).map fun i => slots ((start + i) % cap)

@[simp] theorem window_zero : window slots cap start 0 = [] := rfl

@[simp] theorem length_window : (window slots cap start count).length = count := by
  simp [window]

@[simp] theorem window_mod_start :
    window slots cap (start % cap) count = window slots cap start count := by
  simp [window, Nat.mod_add_mod]

theorem window_congr {start' : Nat} (h : start % cap = start' % cap) :
    window slots cap start count = window slots cap start' count := by
  rw [← window_mod_start, h, window_mod_start]

theorem add_mod_inj (start : Nat) {i j : Nat} (hi : i < cap) (hj : j < cap)
    (h : (start + i) % cap = (start + j) % cap) : i = j := by
  have hmod : i ≡ j [MOD cap] := Nat.ModEq.add_left_cancel' start h
  exact Nat.ModEq.eq_of_lt_of_lt hmod hi hj

theorem window_push (x : α) (h : count < cap) :
    window (Function.update slots ((start + count) % cap) x) cap start (count + 1) =
      window slots cap start count ++ [x] := by
  simp only [window, List.range_succ, List.map_append, List.map_cons, List.map_nil,
    Function.update_self]
  congr 1
  refine List.map_congr_left fun i hi => Function.update_of_ne (fun he => ?_) _ _
  have hlt : i < count := List.mem_range.mp hi
  have := add_mod_inj start (by omega) h he
  omega

theorem window_succ :
    window slots cap start (count + 1) =
      slots (start % cap) :: window slots cap (start + 1) count := by
  simp only [window, List.range_succ_eq_map, List.map_cons, List.map_map, Nat.add_zero]
  congr 1
  refine List.map_congr_left fun i _ => ?_
  simp [Nat.add_comm, Nat.add_left_comm]

theorem window_update_taken (x : α) (h : count < cap) :
    window (Function.update slots (start % cap) x) cap (start + 1) count =
      window slots cap (start + 1) count := by
  refine List.map_congr_left fun i hi => Function.update_of_ne (fun he => ?_) _ _
  have hlt : i < count := List.mem_range.mp hi
  have hshift : (start + (i + 1)) % cap = (start + 0) % cap := by
    simpa [Nat.add_assoc, Nat.add_comm 1 i] using he
  have := add_mod_inj start (by omega) (by omega) hshift
  omega

end Rynex.Lib.Ring
