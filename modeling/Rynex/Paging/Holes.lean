import Rynex.Paging.Mmap

/-! The search for a hole among the regions of an address space, as `sys_mmap` and `sys_dma_alloc`
run it. In exact arithmetic it is first fit; the sum of the candidate and the size is taken modulo
`2 ^ 64`, and once it wraps the search leaves the range that it is meant to search. -/

namespace Rynex.Paging

open Rynex.Memory

variable {m : Machine} {pml4 base limit size c e x fuel : Nat}

namespace Machine

/-- The loop of both calls: a candidate that meets a region moves to the least end of those it
meets. -/
def searchHole (m : Machine) (pml4 size limit : Nat) : Nat → Nat → Option Nat
  | 0, _ => none
  | fuel + 1, candidate =>
    if (candidate + size) % 2 ^ 64 ≤ limit then
      match m.vmaFirstOverlapEnd pml4 candidate ((candidate + size) % 2 ^ 64) with
      | some stop => searchHole m pml4 size limit fuel stop
      | none => some candidate
    else none

/-- The search of `sys_dma_alloc`, which takes a choice of zero for a failure. -/
def dmaHole (m : Machine) (pml4 size : Nat) : Option Nat :=
  let chosen := (m.searchHole pml4 size 0x60000000 (m.vmas.length + 1) 0x50000000).getD 0
  if chosen = 0 then none else some chosen

def mmapHole (m : Machine) (pml4 size : Nat) : Option Nat :=
  m.findHole pml4 size (m.vmas.length + 1) 0x70000000

theorem findHole_eq (m : Machine) (pml4 size fuel c : Nat) :
    m.findHole pml4 size fuel c = m.searchHole pml4 size 0x00007FFFFFFFF000 fuel c := by
  induction fuel generalizing c with
  | zero => rfl
  | succ fuel ih =>
    rw [findHole, searchHole]
    split_ifs with hfits
    · cases m.vmaFirstOverlapEnd pml4 c ((c + size) % 2 ^ 64) with
      | some stop => exact ih stop
      | none => rfl
    · rfl

end Machine

/-! ### What the search is for -/

def Meets (v : VmaRec) (x size : Nat) : Prop :=
  ∃ y, (x ≤ y ∧ y < x + size) ∧ v.start ≤ y ∧ y < v.stop

/-- No region of the address space meets the range. -/
def Free (m : Machine) (pml4 size x : Nat) : Prop :=
  ∀ v ∈ m.vmas, v.pml4 = pml4 → ¬Meets v x size

/-- The answer is the least free address from `base` on and its range ends by `limit`; there is no
answer only if no range that ends by `limit` is free. -/
def FirstFit (m : Machine) (pml4 size base limit : Nat) : Option Nat → Prop
  | some c => base ≤ c ∧ c + size ≤ limit ∧ Free m pml4 size c ∧
      ∀ x, base ≤ x → Free m pml4 size x → c ≤ x
  | none => ∀ x, base ≤ x → x + size ≤ limit → ¬Free m pml4 size x

/-- A free range ends by `limit`, or every range that does meets a region from whose end the size
can be added without wrapping. -/
def Bounded (m : Machine) (pml4 size base limit : Nat) : Prop :=
  (∃ x, base ≤ x ∧ x + size ≤ limit ∧ Free m pml4 size x) ∨
    ∀ x, base ≤ x → x + size ≤ limit →
      ∃ v ∈ m.vmas, v.pml4 = pml4 ∧ Meets v x size ∧ v.stop + size < 2 ^ 64

/-- The regions of the address space are non-empty ranges of 64-bit addresses. -/
def Proper (m : Machine) (pml4 : Nat) : Prop :=
  ∀ v ∈ m.vmas, v.pml4 = pml4 → v.start < v.stop ∧ v.stop < 2 ^ 64

theorem meets_iff {v : VmaRec} (hv : v.start < v.stop) (hsize : 0 < size) :
    Meets v x size ↔ x < v.stop ∧ v.start < x + size := by
  constructor
  · rintro ⟨y, hy, hv⟩
    omega
  · intro h
    exact ⟨max x v.start, by omega, by omega⟩

/-! ### One turn -/

theorem overlapFold_le {start stop : Nat} {best : Option Nat} {recs : List VmaRec}
    (h : recs.foldl (overlapStep pml4 start stop) best = some e) :
    (∀ b, best = some b → e ≤ b) ∧
      ∀ v ∈ recs, v.pml4 = pml4 → start < v.stop → v.start < stop → e ≤ v.stop := by
  induction recs generalizing best with
  | nil =>
    refine ⟨fun b hb => ?_, nofun⟩
    rw [List.foldl_nil, hb] at h
    exact (Option.some.inj h).ge
  | cons v recs ih =>
    obtain ⟨hbest, hrest⟩ := ih h
    unfold overlapStep at hbest
    refine ⟨fun b hb => ?_, List.forall_mem_cons.mpr ⟨fun hp hlt hgt => ?_, hrest⟩⟩
    · subst hb
      split at hbest
      · simp only at hbest
        split at hbest
        · next hlt => exact (hbest _ rfl).trans hlt.le
        · exact hbest _ rfl
      · exact hbest _ rfl
    · rw [if_pos ⟨hp, hlt, hgt⟩] at hbest
      split at hbest
      · exact hbest _ rfl
      · split at hbest
        · exact hbest _ rfl
        · next hle => exact (hbest _ rfl).trans (Nat.le_of_not_lt hle)

/-- The end that a turn jumps to, when the sum does not wrap: it is the end of a region, the least
of those that the candidate meets, and that region meets every range in between. -/
structure Jump (m : Machine) (pml4 size c e : Nat) : Prop where
  past : c < e
  below : e < 2 ^ 64
  least : ∀ v ∈ m.vmas, v.pml4 = pml4 → Meets v c size → e ≤ v.stop
  meets : ∃ v ∈ m.vmas, v.pml4 = pml4 ∧ v.stop = e ∧ ∀ x, c ≤ x → x < e → Meets v x size

theorem jump_of_some (hm : Proper m pml4) (hsize : 0 < size)
    (h : m.vmaFirstOverlapEnd pml4 c (c + size) = some e) : Jump m pml4 size c e := by
  obtain ⟨v, hv, hp, hlt, hgt, rfl⟩ := vmaFirstOverlapEnd_mem h
  obtain ⟨hne, hmax⟩ := hm v hv hp
  refine ⟨hlt, hmax, fun w hw hpw hmeets => ?_, v, hv, hp, rfl, fun x hx hxe => ?_⟩
  · obtain ⟨hwlt, hwgt⟩ := (meets_iff (hm w hw hpw).1 hsize).mp hmeets
    exact (overlapFold_le h).2 w hw hpw hwlt hwgt
  · exact (meets_iff hne hsize).mpr ⟨hxe, by omega⟩

theorem free_of_none (hm : Proper m pml4) (hsize : 0 < size)
    (h : m.vmaFirstOverlapEnd pml4 c (c + size) = none) : Free m pml4 size c := by
  rw [vmaFirstOverlapEnd_eq, overlapFold_eq_none] at h
  intro v hv hp hmeets
  exact h v hv ⟨hp, (meets_iff (hm v hv hp).1 hsize).mp hmeets⟩

theorem Jump.not_free (h : Jump m pml4 size c e) (hx : c ≤ x) (hxe : x < e) :
    ¬Free m pml4 size x := by
  obtain ⟨v, hv, hp, -, hmeets⟩ := h.meets
  exact fun hfree => hfree v hv hp (hmeets x hx hxe)

/-! ### The loop ends -/

/-- The ends of regions that lie past the candidate. -/
def endsPast (m : Machine) (c : Nat) : Nat := m.vmas.countP fun v => c < v.stop

theorem endsPast_lt {stop : Nat} (h : m.vmaFirstOverlapEnd pml4 c stop = some e) :
    endsPast m e < endsPast m c := by
  obtain ⟨v, hv, -, hlt, -, rfl⟩ := vmaFirstOverlapEnd_mem h
  obtain ⟨l₁, l₂, heq⟩ := List.append_of_mem hv
  have hmono : ∀ l : List VmaRec,
      l.countP (fun w => v.stop < w.stop) ≤ l.countP (fun w => c < w.stop) := by
    intro l
    refine List.countP_mono_left fun w _ hw => ?_
    simp only [decide_eq_true_eq] at hw ⊢
    omega
  have h₁ := hmono l₁
  have h₂ := hmono l₂
  simp only [endsPast, heq, List.countP_append, List.countP_cons, lt_self_iff_false, decide_false,
    Bool.false_eq_true, if_false, hlt, decide_true, if_true]
  omega

/-- One turn more changes nothing once every end past the candidate has its turn. -/
theorem searchHole_fuel (h : endsPast m c < fuel) :
    m.searchHole pml4 size limit (fuel + 1) c = m.searchHole pml4 size limit fuel c := by
  induction fuel generalizing c with
  | zero => cases h
  | succ fuel ih =>
    rw [Machine.searchHole]
    conv_rhs => rw [Machine.searchHole]
    split
    case isFalse => rfl
    case isTrue =>
      split
      case h_2 => rfl
      case h_1 e he =>
        have hless := endsPast_lt he
        exact ih (by omega)

theorem endsPast_le (m : Machine) (c : Nat) : endsPast m c ≤ m.vmas.length :=
  List.countP_le_length

theorem searchHole_enough (m : Machine) (pml4 size limit c k : Nat) :
    m.searchHole pml4 size limit (m.vmas.length + 1 + k) c =
      m.searchHole pml4 size limit (m.vmas.length + 1) c := by
  induction k with
  | zero => rfl
  | succ k ih =>
    rw [← ih, ← Nat.add_assoc]
    have hle := endsPast_le m c
    exact searchHole_fuel (by omega)

/-! ### When it is first fit -/

/-- Every address between `base` and the candidate has been ruled out. -/
theorem searchHole_firstFit (hm : Proper m pml4) (hsize : 0 < size) (hlimit : limit < 2 ^ 64)
    (hb : Bounded m pml4 size base limit) (hbase : base ≤ c) (hc : c + size < 2 ^ 64)
    (hpast : ∀ x, base ≤ x → x < c → ¬Free m pml4 size x) (hfuel : endsPast m c < fuel) :
    FirstFit m pml4 size base limit (m.searchHole pml4 size limit fuel c) := by
  induction fuel generalizing c with
  | zero => cases hfuel
  | succ fuel ih =>
    rw [Machine.searchHole, Nat.mod_eq_of_lt hc]
    split
    case isFalse hover =>
      intro x hx hfit
      exact hpast x hx (by omega)
    case isTrue hfit =>
      split
      case h_2 hnone =>
        refine ⟨hbase, hfit, free_of_none hm hsize hnone, fun x hx hfree => ?_⟩
        by_contra hlt
        exact hpast x hx (by omega) hfree
      case h_1 e he =>
        have hjump := jump_of_some hm hsize he
        have hless := endsPast_lt he
        have hpast' : ∀ x, base ≤ x → x < e → ¬Free m pml4 size x := by
          intro x hx hxe
          by_cases hxc : x < c
          · exact hpast x hx hxc
          · exact hjump.not_free (by omega) hxe
        have hsum : e + size < 2 ^ 64 := by
          rcases hb with ⟨x, hx, hxfit, hfree⟩ | hall
          · by_contra hwrap
            exact hpast' x hx (by omega) hfree
          · obtain ⟨v, hv, hp, hmeets, hstop⟩ := hall c hbase hfit
            have hle := hjump.least v hv hp hmeets
            omega
        exact ih (hbase.trans hjump.past.le) hsum hpast' (by omega)

/-- Once the sum wraps it stays below the limit, so the search ends with an answer. -/
theorem searchHole_isSome (hm : Proper m pml4) (hsize : 0 < size) (hlimit : limit < 2 ^ 64)
    (hfit : x + size ≤ limit)
    (hfar : ∀ v ∈ m.vmas, v.pml4 = pml4 → Meets v x size → 2 ^ 64 ≤ v.stop + size)
    (hmax : c < 2 ^ 64) (hc : c ≤ x ∨ 2 ^ 64 ≤ c + size) (hfuel : endsPast m c < fuel) :
    (m.searchHole pml4 size limit fuel c).isSome := by
  induction fuel generalizing c with
  | zero => cases hfuel
  | succ fuel ih =>
    have hlow : (c + size) % 2 ^ 64 ≤ limit := by omega
    rw [Machine.searchHole, if_pos hlow]
    split
    case h_2 => rfl
    case h_1 e he =>
      have hless := endsPast_lt he
      obtain ⟨v, hv, hp, hlt, hgt, rfl⟩ := vmaFirstOverlapEnd_mem he
      refine ih (hm v hv hp).2 ?_ (by omega)
      rcases hc with hcx | hwrap
      · by_cases hxe : v.stop ≤ x
        · exact .inl hxe
        · -- the jump passes `x`, and the region that it jumps behind meets the range at `x`
          rw [Nat.mod_eq_of_lt (by omega)] at hgt
          exact .inr (hfar v hv hp ((meets_iff (hm v hv hp).1 hsize).mpr ⟨by omega, by omega⟩))
      · exact .inr (by omega)

theorem searchHole_firstFit_iff (hm : Proper m pml4) (hsize : 0 < size) (hlimit : limit < 2 ^ 64)
    (hbase : base + size < 2 ^ 64) :
    FirstFit m pml4 size base limit (m.searchHole pml4 size limit (m.vmas.length + 1) base) ↔
      Bounded m pml4 size base limit := by
  have hfuel : endsPast m base < m.vmas.length + 1 := Nat.lt_succ_of_le (endsPast_le m base)
  constructor
  · intro hfirst
    by_contra hnot
    unfold Bounded at hnot
    push Not at hnot
    obtain ⟨hnone, x, hx, hfit, hfar⟩ := hnot
    have hsome := searchHole_isSome hm hsize hlimit hfit hfar (by omega) (.inl hx) hfuel
    obtain ⟨c, hc⟩ := Option.isSome_iff_exists.mp hsome
    rw [hc] at hfirst
    obtain ⟨hcbase, hcfit, hfree, -⟩ := hfirst
    exact hnone c hcbase hcfit hfree
  · intro hb
    exact searchHole_firstFit hm hsize hlimit hb le_rfl hbase
      (fun x hx hlt => absurd hx (by omega)) hfuel

theorem searchHole_ge (h : m.searchHole pml4 size limit fuel c = some e) : c ≤ e := by
  induction fuel generalizing c with
  | zero => cases h
  | succ fuel ih =>
    rw [Machine.searchHole] at h
    split at h
    case isFalse => cases h
    case isTrue =>
      split at h
      case h_2 => exact (Option.some.inj h).le
      case h_1 stop hstop =>
        obtain ⟨v, -, -, hlt, -, rfl⟩ := vmaFirstOverlapEnd_mem hstop
        exact hlt.le.trans (ih h)

theorem dmaHole_eq (m : Machine) (pml4 size : Nat) :
    m.dmaHole pml4 size = m.searchHole pml4 size 0x60000000 (m.vmas.length + 1) 0x50000000 := by
  unfold Machine.dmaHole
  cases h : m.searchHole pml4 size 0x60000000 (m.vmas.length + 1) 0x50000000 with
  | none => rfl
  | some c =>
    have hc := searchHole_ge h
    exact if_neg (by simp only [Option.getD_some]; omega)

/-- Both searches end, and each is first fit exactly if a free range ends by its limit or no range
that does lies only in regions from whose ends the sum with the size wraps. -/
theorem hole_search_first_fit_iff (m : Machine) (pml4 size : Nat) (hm : Proper m pml4)
    (hsize : 0 < size) (hmax : size ≤ 0x00007FFFFFFFF000) :
    (FirstFit m pml4 size 0x70000000 0x00007FFFFFFFF000 (m.mmapHole pml4 size) ↔
        Bounded m pml4 size 0x70000000 0x00007FFFFFFFF000) ∧
      (FirstFit m pml4 size 0x50000000 0x60000000 (m.dmaHole pml4 size) ↔
        Bounded m pml4 size 0x50000000 0x60000000) ∧
      ∀ limit c k, m.searchHole pml4 size limit (m.vmas.length + 1 + k) c =
        m.searchHole pml4 size limit (m.vmas.length + 1) c := by
  refine ⟨?_, ?_, fun limit c k => searchHole_enough m pml4 size limit c k⟩
  · rw [Machine.mmapHole, Machine.findHole_eq]
    exact searchHole_firstFit_iff hm hsize (by omega) (by omega)
  · rw [dmaHole_eq]
    exact searchHole_firstFit_iff hm hsize (by omega) (by omega)

/-- A region lies over the base: the search goes on behind it. -/
theorem hole_search_first_fit_iff_low :
    let m := ofPool [⟨0x1000, 0x70000000, 0x70002000, 5⟩]
    FirstFit m 0x1000 0x1000 0x70000000 0x00007FFFFFFFF000 (m.mmapHole 0x1000 0x1000) := by
  intro m
  have hm : Proper m 0x1000 := by simp [Proper, m, ofPool]
  refine (hole_search_first_fit_iff m 0x1000 0x1000 hm (by decide) (by decide)).1.mpr (.inl ?_)
  refine ⟨0x70002000, by decide, by decide, fun v hv hp hmeets => ?_⟩
  obtain rfl : v = ⟨0x1000, 0x70000000, 0x70002000, 5⟩ := by simpa [m, ofPool] using hv
  obtain ⟨y, hy, hvy⟩ := hmeets
  simp only at hvy
  omega

/-- The first region reaches from the base to the last pages of the address space. Behind it the
sum wraps, and the answer overlaps the second region. -/
theorem hole_past_limit :
    let v : VmaRec := ⟨0x1000, 2 ^ 64 - 0x1800, 2 ^ 64 - 0x800, 0⟩
    let m := ofPool [⟨0x1000, 0x70000000, 2 ^ 64 - 0x2000, 0⟩, v]
    Proper m 0x1000 ∧ m.mmapHole 0x1000 0x3000 = some (2 ^ 64 - 0x2000) ∧
      Meets v (2 ^ 64 - 0x2000) 0x3000 ∧
      ¬FirstFit m 0x1000 0x3000 0x70000000 0x00007FFFFFFFF000 (m.mmapHole 0x1000 0x3000) := by
  intro v m
  have hhole : m.mmapHole 0x1000 0x3000 = some (2 ^ 64 - 0x2000) := by decide
  refine ⟨by simp [Proper, m, v, ofPool], hhole, ⟨2 ^ 64 - 0x1800, by decide, by decide⟩, ?_⟩
  rw [hhole]
  rintro ⟨-, hfit, -⟩
  exact absurd hfit (by decide)

end Rynex.Paging
