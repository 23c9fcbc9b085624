import Rynex.Lib.Run
import Rynex.Paging.Calls

/-! The pool of mapped regions of `task.rs`. Dropped records are holes that are filled again, so
the order of the records means nothing: what the pool stands for is a map from address spaces to
multisets of regions. `vma_clear_range` is related to lookups address by address. -/

namespace Rynex.Paging

open Rynex.Lib

variable {m m' : Machine} {pml4 q start stop flags addr x : Nat} {v w : VmaRec}

/-- A hole that `vma_register` fills. -/
def VmaRec.dropped (v : VmaRec) : Bool := v.pml4 = 0 && v.start = 0

def VmaRec.covers (pml4 x : Nat) (v : VmaRec) : Bool := v.pml4 = pml4 ∧ v.start ≤ x ∧ x < v.stop

theorem VmaRec.covers_iff :
    v.covers pml4 x = true ↔ v.pml4 = pml4 ∧ v.start ≤ x ∧ x < v.stop :=
  decide_eq_true_iff

theorem vmaFind_eq (m : Machine) (pml4 x : Nat) :
    m.vmaFind pml4 x = m.vmas.find? (VmaRec.covers pml4 x) := rfl

theorem replaceFirst_eq_append {p : VmaRec → Bool} (f : VmaRec → VmaRec) {recs : List VmaRec}
    (h : recs.any p = true) : ∃ l₁ v l₂, recs = l₁ ++ v :: l₂ ∧ (∀ w ∈ l₁, p w = false) ∧
      p v = true ∧ replaceFirst p f recs = l₁ ++ f v :: l₂ := by
  induction recs with
  | nil => cases h
  | cons w ws ih =>
    by_cases hw : p w = true
    · exact ⟨[], w, ws, rfl, nofun, hw, by simp [replaceFirst, hw]⟩
    · obtain ⟨l₁, v, l₂, rfl, hl₁, hv, heq⟩ := ih (by simpa [hw] using h)
      refine ⟨w :: l₁, v, l₂, rfl, ?_, hv, by simp [replaceFirst, hw, heq]⟩
      simpa [hw] using hl₁

theorem replaceFirst_of_not_any {p : VmaRec → Bool} (f : VmaRec → VmaRec) {recs : List VmaRec}
    (h : recs.any p = false) : replaceFirst p f recs = recs := by
  induction recs with
  | nil => rfl
  | cons w ws ih =>
    simp only [List.any_cons, Bool.or_eq_false_iff] at h
    simp [replaceFirst, h.1, ih h.2]

/-! ### The pool as a map of multisets -/

/-- A region of an address space. -/
structure Region where
  start : Nat
  stop : Nat
  flags : Nat
deriving DecidableEq, Repr

def VmaRec.region (v : VmaRec) : Region := ⟨v.start, v.stop, v.flags⟩

def regionsOf (recs : List VmaRec) (pml4 : Nat) : Multiset Region :=
  ((recs.filter fun v => v.pml4 = pml4).map VmaRec.region : List Region)

@[simp] theorem regionsOf_nil (q : Nat) : regionsOf [] q = 0 := rfl

theorem regionsOf_append (l₁ l₂ : List VmaRec) (q : Nat) :
    regionsOf (l₁ ++ l₂) q = regionsOf l₁ q + regionsOf l₂ q := by
  simp [regionsOf]

theorem regionsOf_cons (v : VmaRec) (l : List VmaRec) (q : Nat) :
    regionsOf (v :: l) q = (if v.pml4 = q then {v.region} else 0) + regionsOf l q := by
  by_cases h : v.pml4 = q <;> simp [regionsOf, h, Multiset.cons_coe]

theorem mem_regionsOf {recs : List VmaRec} {r : Region} :
    r ∈ regionsOf recs q ↔ ∃ v ∈ recs, v.pml4 = q ∧ v.region = r := by
  simp [regionsOf, and_assoc]

/-- The address spaces of the system and their regions. Address 0 is no PML4. -/
def regions (m : Machine) (pml4 : Nat) : Multiset Region :=
  if pml4 = 0 then 0 else regionsOf m.vmas pml4

theorem regions_of_ne_zero (hq : q ≠ 0) : regions m q = regionsOf m.vmas q := if_neg hq

def room (m : Machine) : Nat :=
  m.vmas.countP VmaRec.dropped + (maxVmaRecords - m.vmas.length)

/-- `w` is put in the place of a hole, or at the end. -/
inductive Put (w : VmaRec) : List VmaRec → List VmaRec → Prop
  | hole (l₁ l₂ : List VmaRec) {v : VmaRec} (hv : v.dropped = true) :
    Put w (l₁ ++ v :: l₂) (l₁ ++ w :: l₂)
  | append (l : List VmaRec) (hlen : l.length < maxVmaRecords) : Put w l (l ++ [w])

theorem vmaRegister_put (hroom : 0 < room m) (pml4 start stop flags : Nat) :
    ∃ recs, m.vmaRegister pml4 start stop flags = (true, { m with vmas := recs }) ∧
      Put ⟨pml4, start, stop, flags⟩ m.vmas recs := by
  unfold Machine.vmaRegister
  by_cases hany : m.vmas.any VmaRec.dropped = true
  · obtain ⟨l₁, v, l₂, heq, -, hv, hrep⟩ :=
      replaceFirst_eq_append (fun _ => ⟨pml4, start, stop, flags⟩) hany
    refine ⟨_, if_pos hany, ?_⟩
    have hput : Put ⟨pml4, start, stop, flags⟩ (l₁ ++ v :: l₂)
      (l₁ ++ ⟨pml4, start, stop, flags⟩ :: l₂) := .hole l₁ l₂ hv
    rwa [← heq, ← hrep] at hput
  · have hlen : m.vmas.length < maxVmaRecords := by
      have hnone : m.vmas.countP VmaRec.dropped = 0 := by
        simpa [List.countP_eq_zero] using hany
      unfold room at hroom
      omega
    exact ⟨_, (if_neg hany).trans (if_pos hlen), .append _ hlen⟩

theorem Put.regionsOf {recs recs' : List VmaRec} (h : Put w recs recs') (hq : q ≠ 0) :
    regionsOf recs' q = (if w.pml4 = q then {w.region} else 0) + regionsOf recs q := by
  cases h with
  | append l _ => rw [regionsOf_append, regionsOf_cons, regionsOf_nil, add_zero, add_comm]
  | hole l₁ l₂ hv =>
    have hv : ¬ _ = q := fun h => hq (h ▸ (by simpa [VmaRec.dropped] using hv : _ ∧ _).1)
    rw [regionsOf_append, regionsOf_append, regionsOf_cons, regionsOf_cons, if_neg hv, zero_add]
    abel

theorem Put.room {recs recs' : List VmaRec} (h : Put w recs recs') (hw : w.dropped = false) :
    recs'.countP VmaRec.dropped + (maxVmaRecords - recs'.length) + 1 =
      recs.countP VmaRec.dropped + (maxVmaRecords - recs.length) := by
  cases h with
  | append l hlen => simp [hw]; omega
  | hole l₁ l₂ hv => simp [hw, hv]; omega

theorem Put.getElem? {recs recs' : List VmaRec} (h : Put w recs recs') {i : Nat}
    (hv : recs[i]? = some v) (hlive : v.dropped = false) : recs'[i]? = some v := by
  cases h with
  | append l _ => exact List.getElem?_append_left (List.getElem?_eq_some_iff.mp hv).1 ▸ hv
  | hole l₁ l₂ hd =>
    rcases Nat.lt_trichotomy i l₁.length with hi | rfl | hi
    · rw [List.getElem?_append_left hi] at hv ⊢
      exact hv
    · simp_all
    · rw [List.getElem?_append_right hi.le] at hv ⊢
      obtain ⟨k, hk⟩ : ∃ k, i - l₁.length = k + 1 := ⟨i - l₁.length - 1, by omega⟩
      rw [hk] at hv ⊢
      exact hv

theorem Put.getElem?_inv {recs recs' : List VmaRec} (h : Put w recs recs') {i : Nat}
    (hi : i < recs.length) (hv : recs'[i]? = some v) : v = w ∨ recs[i]? = some v := by
  cases h with
  | append l _ => exact .inr (List.getElem?_append_left hi ▸ hv)
  | hole l₁ l₂ hd =>
    rcases Nat.lt_trichotomy i l₁.length with hi | rfl | hi
    · rw [List.getElem?_append_left hi] at hv ⊢
      exact .inr hv
    · simp_all
    · rw [List.getElem?_append_right hi.le] at hv ⊢
      obtain ⟨k, hk⟩ : ∃ k, i - l₁.length = k + 1 := ⟨i - l₁.length - 1, by omega⟩
      rw [hk] at hv ⊢
      exact .inr hv

theorem Put.length_le {recs recs' : List VmaRec} (h : Put w recs recs') :
    recs.length ≤ recs'.length := by
  cases h <;> simp

/-! ### Calls on the pool -/

/-- After `k` turns of `vma_clone`: the records of `src` are where they were, those that the loop
has passed stand once more under `dst`, and no other address space has changed. -/
structure CloneTurns (src dst : Nat) (m mk : Machine) (k : Nat) : Prop where
  length : m.vmas.length ≤ mk.vmas.length
  kept : ∀ (i : Nat) (v : VmaRec), m.vmas[i]? = some v → v.pml4 = src → mk.vmas[i]? = some v
  noNew : ∀ i < m.vmas.length, ∀ v : VmaRec, mk.vmas[i]? = some v → v.pml4 = src →
    m.vmas[i]? = some v
  others : ∀ q ≠ 0, q ≠ dst → regionsOf mk.vmas q = regionsOf m.vmas q
  copied : regionsOf mk.vmas dst = regionsOf m.vmas dst + regionsOf (m.vmas.take k) src
  left : room mk + (regionsOf (m.vmas.take k) src).card = room m

section Clone

variable {src dst : Nat} {mk : Machine} {k : Nat}

theorem CloneTurns.zero (src dst : Nat) (m : Machine) : CloneTurns src dst m m 0 :=
  ⟨le_rfl, fun _ _ h _ => h, fun _ _ _ h _ => h, fun _ _ _ => rfl, by simp, by simp⟩

theorem regionsOf_take_succ {recs : List VmaRec} (hk : recs[k]? = some v) (q : Nat) :
    regionsOf (recs.take (k + 1)) q =
      regionsOf (recs.take k) q + if v.pml4 = q then {v.region} else 0 := by
  rw [List.take_add_one, hk, Option.toList_some, regionsOf_append, regionsOf_cons, regionsOf_nil,
    add_zero]

theorem card_regionsOf_take (recs : List VmaRec) (k q : Nat) :
    (regionsOf (recs.take k) q).card ≤ (regionsOf recs q).card := by
  conv_rhs => rw [← List.take_append_drop k recs]
  rw [regionsOf_append, Multiset.card_add]
  exact Nat.le_add_right ..

theorem CloneTurns.succ (h : CloneTurns src dst m mk k) (hne : src ≠ dst) (hsrc : src ≠ 0)
    (hdst : dst ≠ 0)
    (hroom : (regionsOf m.vmas src).card ≤ room m) (hk : k < m.vmas.length) :
    CloneTurns src dst m (mk.cloneRec src dst k) (k + 1) := by
  obtain ⟨v, hv⟩ : ∃ v, m.vmas[k]? = some v := ⟨_, List.getElem?_eq_getElem hk⟩
  have htake := regionsOf_take_succ hv
  by_cases hvsrc : v.pml4 = src
  · have hcur := h.kept k v hv hvsrc
    have hcard := card_regionsOf_take m.vmas (k + 1) src
    rw [htake, if_pos hvsrc, Multiset.card_add, Multiset.card_singleton] at hcard
    have hleft : 0 < room mk := by have := h.left; omega
    obtain ⟨recs, hreg, hput⟩ := vmaRegister_put hleft dst v.start v.stop v.flags
    have hstep : mk.cloneRec src dst k = { mk with vmas := recs } := by
      simp [Machine.cloneRec, hcur, hvsrc, hreg]
    rw [hstep]
    refine ⟨h.length.trans hput.length_le, ?kept, ?noNew, ?others, ?copied, ?left⟩
    case kept =>
      intro i u hu husrc
      refine hput.getElem? (h.kept i u hu husrc) ?_
      simp [VmaRec.dropped, husrc, hsrc]
    case noNew =>
      intro i hi u hu husrc
      rcases hput.getElem?_inv (hi.trans_le h.length) hu with rfl | hold
      · exact absurd husrc.symm hne
      · exact h.noNew i hi u hold husrc
    case others =>
      intro q hq hqd
      rw [hput.regionsOf hq, if_neg (Ne.symm hqd), zero_add]
      exact h.others q hq hqd
    case copied =>
      rw [hput.regionsOf hdst, if_pos rfl, h.copied, htake, if_pos hvsrc]
      simp only [VmaRec.region]
      abel
    case left =>
      have hput := hput.room (by simp [VmaRec.dropped, hdst])
      have hold := h.left
      rw [htake, if_pos hvsrc, Multiset.card_add, Multiset.card_singleton]
      have hnew : room { mk with vmas := recs } =
        recs.countP VmaRec.dropped + (maxVmaRecords - recs.length) := rfl
      rw [hnew]
      unfold room at hold ⊢
      omega
  · have hstep : mk.cloneRec src dst k = mk := by
      unfold Machine.cloneRec
      split
      · rfl
      next u hu =>
      refine if_neg fun husrc => hvsrc ?_
      have huv := h.noNew k hk u hu husrc
      rw [hv] at huv
      exact Option.some.inj huv ▸ husrc
    rw [hstep]
    refine ⟨h.length, h.kept, h.noNew, h.others, ?_, ?_⟩
    · rw [htake, if_neg hvsrc, add_zero, h.copied]
    · rw [htake, if_neg hvsrc, add_zero, h.left]

theorem CloneTurns.loop (hne : src ≠ dst) (hsrc : src ≠ 0) (hdst : dst ≠ 0)
    (hroom : (regionsOf m.vmas src).card ≤ room m) (hk : k ≤ m.vmas.length) :
    CloneTurns src dst m ((List.range k).foldl (Machine.cloneRec src dst) m) k := by
  induction k with
  | zero => exact .zero src dst m
  | succ k ih =>
    rw [List.range_succ, List.foldl_append]
    exact (ih (Nat.le_of_succ_le hk)).succ hne hsrc hdst hroom hk

theorem vmaClone_of_empty (h : regionsOf m.vmas src = 0) : m.vmaClone src dst = m := by
  have hturn : ∀ i, m.cloneRec src dst i = m := by
    intro i
    unfold Machine.cloneRec
    split
    · rfl
    next v hv =>
    refine if_neg fun hsrc => ?_
    have hmem : v.region ∈ regionsOf m.vmas src :=
      mem_regionsOf.mpr ⟨v, List.mem_of_getElem? hv, hsrc, rfl⟩
    simp [h] at hmem
  unfold Machine.vmaClone
  generalize List.range m.vmas.length = turns
  induction turns with
  | nil => rfl
  | cons i turns ih => rw [List.foldl_cons, hturn, ih]

theorem vmaClone_regionsOf (hsrc : src ≠ 0) (hdst : dst ≠ 0) (hfresh : regionsOf m.vmas dst = 0)
    (hroom : (regionsOf m.vmas src).card ≤ room m) (hq : q ≠ 0) :
    regionsOf (m.vmaClone src dst).vmas q =
      if q = dst then regionsOf m.vmas src else regionsOf m.vmas q := by
  by_cases hne : src = dst
  · subst hne
    rw [vmaClone_of_empty hfresh]
    split
    · next h => rw [h]
    · rfl
  have h := CloneTurns.loop hne hsrc hdst hroom le_rfl
  split
  · next h' =>
    subst h'
    rw [Machine.vmaClone, h.copied, hfresh, zero_add, List.take_length]
  · next hqd => exact h.others q hq hqd

end Clone

theorem vmaClearPml4_regionsOf (hpml4 : pml4 ≠ 0) (hq : q ≠ 0) :
    regionsOf (m.vmaClearPml4 pml4).vmas q = if q = pml4 then 0 else regionsOf m.vmas q := by
  simp only [Machine.vmaClearPml4, if_neg hpml4]
  induction m.vmas with
  | nil => simp
  | cons v recs ih =>
    rw [List.map_cons, regionsOf_cons, ih, regionsOf_cons]
    have hempty : ¬ VmaRec.empty.pml4 = q := Ne.symm hq
    by_cases hv : v.pml4 = pml4
    · rw [if_pos hv, if_neg hempty, zero_add]
      by_cases hne : q = pml4
      · rw [if_pos hne, if_pos hne]
      · rw [if_neg hne, if_neg hne, if_neg (fun h => hne (h.symm.trans hv)), zero_add]
    · rw [if_neg hv]
      by_cases heq : q = pml4
      · rw [if_pos heq, if_pos heq, if_neg (fun h => hv (h.trans heq)), zero_add]
      · rw [if_neg heq, if_neg heq]

theorem vmaClearAddr_regionsOf (m : Machine) (hpml4 : pml4 ≠ 0) (addr : Nat) :
    (∃ r ∈ regionsOf m.vmas pml4, r.start = addr ∧ ∀ q ≠ 0,
      regionsOf (m.vmaClearAddr pml4 addr).vmas q =
        if q = pml4 then (regionsOf m.vmas pml4).erase r else regionsOf m.vmas q) ∨
    (∀ r ∈ regionsOf m.vmas pml4, r.start ≠ addr) ∧ m.vmaClearAddr pml4 addr = m := by
  by_cases hany : (m.vmas.any fun v => v.pml4 = pml4 && v.start = addr) = true
  · obtain ⟨l₁, v, l₂, heq, -, hv, hrep⟩ := replaceFirst_eq_append (fun _ => .empty) hany
    obtain ⟨hvp, hva⟩ : v.pml4 = pml4 ∧ v.start = addr := by simpa using hv
    refine .inl ⟨v.region, mem_regionsOf.mpr ⟨v, by simp [heq], hvp, rfl⟩, hva, fun q hq => ?_⟩
    have hempty : ¬ VmaRec.empty.pml4 = q := Ne.symm hq
    simp only [Machine.vmaClearAddr, hrep]
    rw [heq, regionsOf_append, regionsOf_append, regionsOf_append, regionsOf_cons, regionsOf_cons,
      regionsOf_cons, if_neg hempty, if_pos hvp, zero_add]
    split
    · next h =>
      subst h
      rw [add_left_comm, Multiset.singleton_add, Multiset.erase_cons_head]
    · next h => rw [if_neg (fun h' => h (h'.symm.trans hvp)), zero_add]
  · refine .inr ⟨fun r hr hra => hany ?_, ?_⟩
    · obtain ⟨v, hv, hvp, rfl⟩ := mem_regionsOf.mp hr
      exact List.any_eq_true.mpr ⟨v, hv, by simpa using ⟨hvp, hra⟩⟩
    · rw [Machine.vmaClearAddr, replaceFirst_of_not_any _ (by simpa using hany)]

/-! ### Runs -/

/-- The calls that add and drop whole records. -/
inductive PoolCall where
  | register (pml4 start stop flags : Nat)
  | clone (src dst : Nat)
  | clearAddr (pml4 addr : Nat)
  | clearPml4 (pml4 : Nat)
deriving DecidableEq, Repr

namespace PoolCall

def run (m : Machine) : PoolCall → Machine
  | register pml4 start stop flags => (m.vmaRegister pml4 start stop flags).2
  | clone src dst => m.vmaClone src dst
  | clearAddr pml4 addr => m.vmaClearAddr pml4 addr
  | clearPml4 pml4 => m.vmaClearPml4 pml4

/-- Address spaces have a PML4 other than 0, the pool has room for what is added, and a clone goes
to an address space without regions. -/
def Fits (m : Machine) : PoolCall → Prop
  | register pml4 _ _ _ => pml4 ≠ 0 ∧ 0 < room m
  | clone src dst => src ≠ 0 ∧ dst ≠ 0 ∧ regions m dst = 0 ∧ (regions m src).card ≤ room m
  | clearAddr pml4 _ => pml4 ≠ 0
  | clearPml4 pml4 => pml4 ≠ 0

end PoolCall

/-- What the calls do to a map from address spaces to multisets of regions. -/
inductive MapStep (R : Nat → Multiset Region) : PoolCall → (Nat → Multiset Region) → Prop
  | register (pml4 : Nat) (r : Region) :
    MapStep R (.register pml4 r.start r.stop r.flags) (Function.update R pml4 (r ::ₘ R pml4))
  | clone (src dst : Nat) : MapStep R (.clone src dst) (Function.update R dst (R src))
  | clearAddr {pml4 : Nat} {r : Region} (hr : r ∈ R pml4) :
    MapStep R (.clearAddr pml4 r.start) (Function.update R pml4 ((R pml4).erase r))
  | clearNone {pml4 addr : Nat} (h : ∀ r ∈ R pml4, r.start ≠ addr) :
    MapStep R (.clearAddr pml4 addr) R
  | clearPml4 (pml4 : Nat) : MapStep R (.clearPml4 pml4) (Function.update R pml4 0)

/-- A lookup finds a region of the address space that covers the address, and it finds one when
there is one. -/
def Answers (m : Machine) : Prop :=
  ∀ pml4 ≠ 0, ∀ x, match m.vmaFind pml4 x with
    | some v => v.region ∈ regions m pml4 ∧ v.start ≤ x ∧ x < v.stop
    | none => ∀ r ∈ regions m pml4, ¬ (r.start ≤ x ∧ x < r.stop)

theorem answers (m : Machine) : Answers m := by
  intro pml4 hpml4 x
  rw [vmaFind_eq, regions_of_ne_zero hpml4]
  split
  · next v hv =>
    have hcov := List.find?_some hv
    obtain ⟨hp, hlo, hhi⟩ : v.pml4 = pml4 ∧ v.start ≤ x ∧ x < v.stop := by
      simpa [VmaRec.covers] using hcov
    exact ⟨mem_regionsOf.mpr ⟨v, List.mem_of_find?_eq_some hv, hp, rfl⟩, hlo, hhi⟩
  · next hnone =>
    intro r hr hx
    obtain ⟨v, hv, hp, rfl⟩ := mem_regionsOf.mp hr
    have hcov := List.find?_eq_none.mp hnone v hv
    simp only [VmaRec.covers, decide_eq_true_eq] at hcov
    exact hcov ⟨hp, hx⟩

theorem regions_eq_update {R : Multiset Region} (hpml4 : pml4 ≠ 0)
    (h : ∀ q ≠ 0, regionsOf m'.vmas q = if q = pml4 then R else regionsOf m.vmas q) :
    regions m' = Function.update (regions m) pml4 R := by
  funext q
  by_cases hq : q = 0
  · rw [Function.update_of_ne (fun h => hpml4 (h.symm.trans hq))]
    simp [regions, hq]
  rw [regions_of_ne_zero hq, h q hq]
  split
  · next heq => rw [heq, Function.update_self]
  · next hne => rw [Function.update_of_ne hne, regions_of_ne_zero hq]

theorem PoolCall.Fits.mapStep {c : PoolCall} (h : c.Fits m) :
    MapStep (regions m) c (regions (run m c)) := by
  cases c with
  | register pml4 start stop flags =>
    obtain ⟨hpml4, hroom⟩ := h
    obtain ⟨recs, hreg, hput⟩ := vmaRegister_put hroom pml4 start stop flags
    have hmap : regions (m.vmaRegister pml4 start stop flags).2 =
        Function.update (regions m) pml4 (⟨start, stop, flags⟩ ::ₘ regions m pml4) := by
      refine regions_eq_update hpml4 fun q hq => ?_
      rw [hreg, hput.regionsOf hq, regions_of_ne_zero hpml4]
      by_cases heq : q = pml4
      · subst heq
        rw [if_pos rfl, if_pos rfl, Multiset.singleton_add]
        rfl
      · rw [if_neg (Ne.symm heq), if_neg heq, zero_add]
    rw [run, hmap]
    exact .register pml4 ⟨start, stop, flags⟩
  | clone src dst =>
    obtain ⟨hsrc, hdst, hfresh, hroom⟩ := h
    rw [regions_of_ne_zero hdst] at hfresh
    rw [regions_of_ne_zero hsrc] at hroom
    have hmap : regions (m.vmaClone src dst) = Function.update (regions m) dst (regions m src) := by
      refine regions_eq_update hdst fun q hq => ?_
      rw [regions_of_ne_zero hsrc]
      exact vmaClone_regionsOf hsrc hdst hfresh hroom hq
    rw [run, hmap]
    exact .clone src dst
  | clearAddr pml4 addr =>
    have hpml4 : pml4 ≠ 0 := h
    rcases vmaClearAddr_regionsOf m hpml4 addr with ⟨r, hr, rfl, hmap⟩ | ⟨hnone, hsame⟩
    · rw [← regions_of_ne_zero hpml4] at hr
      rw [run, regions_eq_update hpml4 hmap, ← regions_of_ne_zero hpml4]
      exact .clearAddr hr
    · rw [run, hsame]
      exact .clearNone (by rwa [regions_of_ne_zero hpml4])
  | clearPml4 pml4 =>
    have hpml4 : pml4 ≠ 0 := h
    rw [run, regions_eq_update hpml4 fun q hq => vmaClearPml4_regionsOf hpml4 hq]
    exact .clearPml4 pml4

/-- In every run whose calls fit the pool, each call does to the map of regions what it says, and
lookups answer from the map before and after it. -/
theorem pool_refines_map {calls : List PoolCall} (h : Steps PoolCall.run PoolCall.Fits m calls) :
    Answers m ∧ Steps PoolCall.run (fun m c => MapStep (regions m) c (regions (c.run m)) ∧
      Answers (c.run m)) m calls :=
  ⟨answers m, h.mono fun _ _ hfits => ⟨hfits.mapStep, answers _⟩⟩

/-- A machine with the given pool and nothing else. -/
def ofPool (recs : List VmaRec) : Machine := ⟨.init 0 0, fun _ _ => 0, fun _ => 0, 0, recs⟩

/-- Two regions, one of them dropped, are cloned into the hole that is left, and the source is
cleared. -/
theorem pool_refines_map_fork : Answers (ofPool []) ∧
    Steps PoolCall.run (fun m c => MapStep (regions m) c (regions (c.run m)) ∧ Answers (c.run m))
      (ofPool []) [.register 0x1000 0x400000 0x402000 7, .register 0x1000 0x500000 0x501000 5,
        .clearAddr 0x1000 0x400000, .clone 0x1000 0x2000, .clearPml4 0x1000] :=
  pool_refines_map ⟨⟨by decide, by decide⟩, ⟨by decide, by decide⟩, nofun,
    ⟨by decide, by decide, by decide, by decide⟩, nofun, trivial⟩

/-! ### Clearing a range -/

/-- What unmapping `[start, stop)` of an address space means for lookups: nothing is found inside,
outside the flags are those of before, and other address spaces keep their records. -/
structure RangeCleared (pml4 start stop : Nat) (m m' : Machine) : Prop where
  inside : ∀ x, start ≤ x → x < stop → m'.vmaFind pml4 x = none
  outside : ∀ x, x < start ∨ stop ≤ x →
    (m'.vmaFind pml4 x).map VmaRec.flags = (m.vmaFind pml4 x).map VmaRec.flags
  others : ∀ q ≠ pml4, regions m' q = regions m q

/-- The record reaches over both ends of the range, so `vma_clear_range` cuts it at `start` and
drops what lies behind `stop`. -/
def VmaRec.spans (pml4 start stop : Nat) (v : VmaRec) : Bool :=
  v.pml4 = pml4 ∧ v.start ≠ 0 ∧ v.start < start ∧ stop < v.stop

/-- The range meets no record of the address space that starts at 0, which `vma_clear_range` passes
over; and behind the range a lookup has the same flags without the records that span it. -/
def Clearable (pml4 start stop : Nat) (m : Machine) : Prop :=
  (∀ v ∈ m.vmas, v.pml4 = pml4 → v.start = 0 → stop ≤ start ∨ v.stop ≤ start) ∧
  ∀ x, stop ≤ x → (m.vmas.find? fun v => v.covers pml4 x && !v.spans pml4 start stop).map
    VmaRec.flags = (m.vmaFind pml4 x).map VmaRec.flags

theorem clearRange_flags (h : (Machine.clearRange pml4 start stop v).covers pml4 x = true) :
    (Machine.clearRange pml4 start stop v).flags = v.flags := by
  unfold Machine.clearRange at h ⊢
  split_ifs at h ⊢ <;> first | rfl | simp [VmaRec.covers, VmaRec.empty] at h

theorem clearRange_covers_before (hle : start ≤ stop) (hx : x < start) :
    (Machine.clearRange pml4 start stop v).covers pml4 x = v.covers pml4 x := by
  rw [Bool.eq_iff_iff]
  unfold Machine.clearRange
  split_ifs <;> simp only [VmaRec.covers_iff, VmaRec.empty] <;> omega

theorem clearRange_covers_behind (hle : start ≤ stop) (hx : stop ≤ x) :
    (Machine.clearRange pml4 start stop v).covers pml4 x =
      (v.covers pml4 x && !v.spans pml4 start stop) := by
  rw [Bool.eq_iff_iff, Bool.and_eq_true, Bool.not_eq_true', VmaRec.covers_iff,
    VmaRec.spans, decide_eq_false_iff_not]
  unfold Machine.clearRange
  split_ifs <;> simp only [VmaRec.covers_iff, VmaRec.empty] <;> omega

theorem clearRange_covers_inside (hlo : start ≤ x) (hhi : x < stop) :
    (Machine.clearRange pml4 start stop v).covers pml4 x =
      (v.covers pml4 x && decide (v.start = 0)) := by
  rw [Bool.eq_iff_iff, Bool.and_eq_true, decide_eq_true_iff, VmaRec.covers_iff]
  unfold Machine.clearRange
  split_ifs <;> simp only [VmaRec.covers_iff, VmaRec.empty] <;> omega

theorem vmaClearRange_find {p : VmaRec → Bool} (hp : ∀ v : VmaRec,
      (Machine.clearRange pml4 start stop v).covers pml4 x = p v) :
    ((m.vmaClearRange pml4 start stop).vmaFind pml4 x).map VmaRec.flags =
      (m.vmas.find? p).map VmaRec.flags := by
  rw [vmaFind_eq, Machine.vmaClearRange, List.find?_map]
  rw [show VmaRec.covers pml4 x ∘ Machine.clearRange pml4 start stop = p from funext hp]
  cases hfind : m.vmas.find? p with
  | none => rfl
  | some v =>
    have hcov := List.find?_some hfind
    rw [← hp v] at hcov
    simp [clearRange_flags hcov]

theorem vmaClearRange_inside (hlo : start ≤ x) (hhi : x < stop) :
    (m.vmaClearRange pml4 start stop).vmaFind pml4 x = none ↔
      ∀ v ∈ m.vmas, v.covers pml4 x = true → v.start ≠ 0 := by
  rw [vmaFind_eq, Machine.vmaClearRange, List.find?_map, Option.map_eq_none_iff,
    List.find?_eq_none]
  refine forall₂_congr fun v _ => ?_
  rw [Function.comp_apply, clearRange_covers_inside hlo hhi, Bool.and_eq_true, decide_eq_true_iff,
    not_and]

theorem clearRange_pml4 (start stop : Nat) (hv : v.pml4 = pml4) :
    (Machine.clearRange pml4 start stop v).pml4 = pml4 ∨
      (Machine.clearRange pml4 start stop v).pml4 = 0 := by
  unfold Machine.clearRange
  split_ifs
  exacts [.inl hv, .inr rfl, .inl hv, .inl hv, .inl hv, .inl hv]

theorem vmaClearRange_others (hq : q ≠ pml4) :
    regions (m.vmaClearRange pml4 start stop) q = regions m q := by
  by_cases hq0 : q = 0
  · simp [regions, hq0]
  rw [regions_of_ne_zero hq0, regions_of_ne_zero hq0, Machine.vmaClearRange]
  induction m.vmas with
  | nil => rfl
  | cons v recs ih =>
    rw [List.map_cons, regionsOf_cons, ih, regionsOf_cons]
    congr 1
    by_cases hv : v.pml4 = pml4
    · have hne : ¬ (Machine.clearRange pml4 start stop v).pml4 = q := by
        rcases clearRange_pml4 start stop hv with h | h <;> omega
      rw [if_neg hne, if_neg (fun h => hq (h.symm.trans hv))]
    · rw [show Machine.clearRange pml4 start stop v = v from if_pos (.inl hv)]

/-- `vma_clear_range` clears exactly the ranges that can be cleared without making one record
two. -/
theorem range_cleared_iff (hle : start ≤ stop) :
    RangeCleared pml4 start stop m (m.vmaClearRange pml4 start stop) ↔
      Clearable pml4 start stop m := by
  constructor
  · rintro ⟨hinside, houtside, -⟩
    refine ⟨fun v hv hvp hv0 => ?_, fun x hx => ?_⟩
    · by_contra hmeets
      rw [not_or, not_le, not_le] at hmeets
      have hnone := (vmaClearRange_inside le_rfl hmeets.1).mp (hinside start le_rfl hmeets.1)
      refine hnone v hv ?_ hv0
      exact VmaRec.covers_iff.mpr ⟨hvp, by omega, hmeets.2⟩
    · rw [← houtside x (.inr hx)]
      exact (vmaClearRange_find fun v => clearRange_covers_behind hle hx).symm
  · rintro ⟨hzero, hspan⟩
    refine ⟨fun x hlo hhi => ?_, fun x hx => ?_, fun q hq => vmaClearRange_others hq⟩
    · refine (vmaClearRange_inside hlo hhi).mpr fun v hv hcov hv0 => ?_
      obtain ⟨hp, -, hlt⟩ := VmaRec.covers_iff.mp hcov
      have := hzero v hv hp hv0
      omega
    · rcases hx with hx | hx
      · exact vmaClearRange_find fun v => clearRange_covers_before hle hx
      · rw [← hspan x hx]
        exact vmaClearRange_find fun v => clearRange_covers_behind hle hx

/-- The upper half of a region is unmapped. -/
theorem range_cleared_upper_half :
    RangeCleared 0x1000 0x20000 0x30000 (ofPool [⟨0x1000, 0x10000, 0x30000, 7⟩])
      ((ofPool [⟨0x1000, 0x10000, 0x30000, 7⟩]).vmaClearRange 0x1000 0x20000 0x30000) := by
  refine (range_cleared_iff (by decide)).mpr ⟨by decide, fun x _ => ?_⟩
  have hspan : VmaRec.spans 0x1000 0x20000 0x30000 ⟨0x1000, 0x10000, 0x30000, 7⟩ = false :=
    by decide
  simp [vmaFind_eq, ofPool, List.find?_cons, hspan]

/-- The middle of a region is unmapped, and its upper part is lost. -/
theorem range_cleared_not_middle :
    ¬ RangeCleared 0x1000 0x20000 0x30000 (ofPool [⟨0x1000, 0x10000, 0x40000, 7⟩])
      ((ofPool [⟨0x1000, 0x10000, 0x40000, 7⟩]).vmaClearRange 0x1000 0x20000 0x30000) := by
  intro h
  have htail := h.outside 0x30000 (by decide)
  revert htail
  decide

end Rynex.Paging
