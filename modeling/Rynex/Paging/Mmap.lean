import Rynex.Paging.Regions

/-! `sys_mmap`: where it places a region, and when the answer is a region of the user half that no
other region overlaps. A hint is taken as it is; without one the address comes from a search whose
sums wrap and whose candidates are the ends of regions, aligned or not. -/

namespace Rynex.Paging

open Rynex.Memory

variable {m m' : Machine} {pml4 start stop size addr length prot flags c x : Nat} {fd : Int}

/-! ### The search for a hole -/

/-- One record in the scan for the least end. -/
def overlapStep (pml4 start stop : Nat) (best : Option Nat) (v : VmaRec) : Option Nat :=
  if v.pml4 = pml4 ∧ start < v.stop ∧ v.start < stop then
    match best with
    | none => some v.stop
    | some b => if v.stop < b then some v.stop else some b
  else best

theorem vmaFirstOverlapEnd_eq (m : Machine) (pml4 start stop : Nat) :
    m.vmaFirstOverlapEnd pml4 start stop = m.vmas.foldl (overlapStep pml4 start stop) none := rfl

theorem overlapStep_isSome {best : Option Nat} (v : VmaRec) (h : best.isSome = true) :
    (overlapStep pml4 start stop best v).isSome = true := by
  unfold overlapStep
  split
  · split
    · rfl
    · split <;> rfl
  · exact h

theorem overlapFold_isSome (pml4 start stop : Nat) {best : Option Nat} (recs : List VmaRec)
    (h : best.isSome = true) :
    (recs.foldl (overlapStep pml4 start stop) best).isSome = true := by
  induction recs generalizing best with
  | nil => exact h
  | cons v recs ih => exact ih (overlapStep_isSome v h)

theorem overlapFold_eq_none {recs : List VmaRec} :
    recs.foldl (overlapStep pml4 start stop) none = none ↔
      ∀ v ∈ recs, ¬ (v.pml4 = pml4 ∧ start < v.stop ∧ v.start < stop) := by
  induction recs with
  | nil => simp
  | cons v recs ih =>
    rw [List.foldl_cons, List.forall_mem_cons]
    by_cases hv : v.pml4 = pml4 ∧ start < v.stop ∧ v.start < stop
    · have hbest : (overlapStep pml4 start stop none v).isSome = true := by simp [overlapStep, hv]
      have hsome := overlapFold_isSome pml4 start stop recs hbest
      constructor
      · intro h
        simp [h] at hsome
      · exact fun h => absurd hv h.1
    · rw [show overlapStep pml4 start stop none v = none from if_neg hv, ih]
      exact (and_iff_right hv).symm

theorem overlapFold_mem {best : Option Nat} {recs : List VmaRec} {e : Nat}
    (h : recs.foldl (overlapStep pml4 start stop) best = some e) :
    best = some e ∨
      ∃ v ∈ recs, v.pml4 = pml4 ∧ start < v.stop ∧ v.start < stop ∧ v.stop = e := by
  induction recs generalizing best with
  | nil => exact .inl h
  | cons v recs ih =>
    rcases ih h with hbest | ⟨w, hw, hrest⟩
    · unfold overlapStep at hbest
      split at hbest
      case isFalse => exact .inl hbest
      case isTrue hv =>
        have hfound : v.stop = e → ∃ w ∈ v :: recs, w.pml4 = pml4 ∧ start < w.stop ∧
            w.start < stop ∧ w.stop = e :=
          fun he => ⟨v, List.mem_cons_self, hv.1, hv.2.1, hv.2.2, he⟩
        split at hbest
        · exact .inr (hfound (Option.some.inj hbest))
        · split at hbest
          · exact .inr (hfound (Option.some.inj hbest))
          · exact .inl hbest
    · exact .inr ⟨w, List.mem_cons_of_mem _ hw, hrest⟩

theorem vmaFirstOverlapEnd_mem {e : Nat} (h : m.vmaFirstOverlapEnd pml4 start stop = some e) :
    ∃ v ∈ m.vmas, v.pml4 = pml4 ∧ start < v.stop ∧ v.start < stop ∧ v.stop = e :=
  (overlapFold_mem h).resolve_left (Option.some_ne_none e).symm

/-- No region overlaps the range from `x` on, by the test of the scan but without wrapping. -/
def Machine.Clear (m : Machine) (pml4 size x : Nat) : Prop :=
  ∀ v ∈ m.vmas, ¬ (v.pml4 = pml4 ∧ x < v.stop ∧ v.start < x + size)

/-- The region grants the protection that was asked for. The entries of a page table have no bit
that denies reading. -/
def Grants (prot : Nat) (v : VmaRec) : Prop :=
  Pte.present v.flags = true ∧ Pte.user v.flags = true ∧
    Pte.writable v.flags = prot.testBit 1 ∧ v.flags.testBit 63 = !prot.testBit 2

end Rynex.Paging
