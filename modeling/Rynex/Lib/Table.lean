import Mathlib

/-! Tables with a fixed number of rows: what a sum over the rows does when one row is replaced. -/

namespace Rynex.Lib.Table

variable {α M : Type*} [AddCommMonoid M]

/-- The sum of `g` over the first `n` rows of a table. -/
def total (g : α → M) (n : Nat) (rows : Nat → α) : M := ∑ i ∈ Finset.range n, g (rows i)

variable {g : α → M} {n i : Nat} {rows rows' : Nat → α} {v : α}

theorem total_update (hi : i < n) :
    total g n (Function.update rows i v) + g (rows i) = total g n rows + g v := by
  have hmem : i ∈ Finset.range n := Finset.mem_range.mpr hi
  have hrest : ∑ j ∈ (Finset.range n).erase i, g (Function.update rows i v j) =
      ∑ j ∈ (Finset.range n).erase i, g (rows j) :=
    Finset.sum_congr rfl fun j hj => by rw [Function.update_of_ne (Finset.ne_of_mem_erase hj)]
  rw [total, total, ← Finset.add_sum_erase _ _ hmem, ← Finset.add_sum_erase _ _ hmem, hrest,
    Function.update_self]
  abel

theorem total_congr (h : ∀ i < n, g (rows' i) = g (rows i)) : total g n rows' = total g n rows :=
  Finset.sum_congr rfl fun i hi => h i (Finset.mem_range.mp hi)

theorem total_eq_zero (h : ∀ i < n, g (rows i) = 0) : total g n rows = 0 :=
  Finset.sum_eq_zero fun i hi => h i (Finset.mem_range.mp hi)

theorem total_le {g : α → Nat} {b : Nat} (h : ∀ a, g a ≤ b) : total g n rows ≤ n * b := by
  have hle := Finset.sum_le_card_nsmul (Finset.range n) (fun i => g (rows i)) b fun i _ =>
    h (rows i)
  rwa [Finset.card_range, smul_eq_mul] at hle

theorem le_total {g : α → Nat} (hi : i < n) : g (rows i) ≤ total g n rows :=
  Finset.single_le_sum (f := fun i => g (rows i)) (fun _ _ => Nat.zero_le _)
    (Finset.mem_range.mpr hi)

theorem total_succ : total g (n + 1) rows = total g n rows + g (rows n) :=
  Finset.sum_range_succ (fun i => g (rows i)) n

theorem mem_total {β : Type*} {g : α → Multiset β} {x : β} (hi : i < n) (hx : x ∈ g (rows i)) :
    x ∈ total g n rows :=
  Multiset.mem_sum.mpr ⟨i, Finset.mem_range.mpr hi, hx⟩

theorem disjoint_of_nodup_total {β : Type*} {g : α → Multiset β} {j : Nat}
    (h : (total g n rows).Nodup) (hi : i < n) (hj : j < n) (hne : i ≠ j) :
    Disjoint (g (rows i)) (g (rows j)) := by
  have hmem : j ∈ (Finset.range n).erase i :=
    Finset.mem_erase.mpr ⟨hne.symm, Finset.mem_range.mpr hj⟩
  rw [total, ← Finset.add_sum_erase _ _ (Finset.mem_range.mpr hi),
    ← Finset.add_sum_erase _ _ hmem] at h
  have hdis := (Multiset.nodup_add.mp h).2.2
  exact Multiset.disjoint_left.mpr fun hx hx' =>
    Multiset.disjoint_left.mp hdis hx (Multiset.mem_add.mpr (.inl hx'))

end Rynex.Lib.Table
