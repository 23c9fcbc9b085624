import Rynex.Lib.Run
import Rynex.Paging.RangeCheck

/-! The check of a buffer that the kernel is to write, against what the program itself can write
there. A store to a page that was made read-only by a fork is serviced by `page_fault_resolve`; the
check of the same page looks at the write bit and refuses it. -/

namespace Rynex.Paging

open Rynex.Memory Rynex.Lib Rynex.Lib.Radix

variable {m m' m₁ : Machine} {a e p x va addr len : Nat} {pages : List Nat}

/-! ### The entry and the access -/

theorem view_eq_none : view m a va = none ↔ leafEntry m a va = none := by
  simp only [view, look, leafEntry]
  generalize m.mem a (vpn va 0) = e₀
  generalize m.mem (Pte.addr e₀) (vpn va 1) = e₁
  generalize m.mem (Pte.addr e₁) (vpn va 2) = e₂
  generalize m.mem (Pte.addr e₂) (vpn va 3) = e₃
  cases Pte.present e₀ <;> cases Pte.present e₁ <;> cases Pte.huge e₁ <;> cases Pte.present e₂ <;>
    cases Pte.huge e₂ <;> cases Pte.present e₃ <;> simp

theorem user_of_view {v : Nat × Bool × Bool} (hv : view m a va = some v) (hu : v.2.2 = true)
    (hl : leafEntry m a va = some e) : Pte.user e = true := by
  simp only [view, look, leafEntry] at hv hl
  generalize m.mem a (vpn va 0) = e₀ at hv hl
  generalize m.mem (Pte.addr e₀) (vpn va 1) = e₁ at hv hl
  generalize m.mem (Pte.addr e₁) (vpn va 2) = e₂ at hv hl
  generalize m.mem (Pte.addr e₂) (vpn va 3) = e₃ at hv hl
  split_ifs at hl with h0 h1 hh1 h2 hh2 h3
  all_goals
    obtain rfl := Option.some.inj hl
    simp only [Bool.not_eq_true', Bool.not_eq_false] at *
  · simp only [h0, h1, hh1] at hv
    simp [← Option.some.inj hv] at hu
    exact hu.2
  · simp only [h0, h1, hh1, h2, hh2] at hv
    simp [← Option.some.inj hv] at hu
    exact hu.2
  · simp only [h0, h1, hh1, h2, hh2, h3] at hv
    simp [← Option.some.inj hv] at hu
    exact hu.2

theorem leafEntry_of_leafOf (h : leafOf m a va = some e) (hp : Pte.present e = true) :
    leafEntry m a va = some e := by
  rw [leafOf, content, Option.map_eq_some_iff] at h
  obtain ⟨t, ht, rfl⟩ := h
  obtain ⟨pdpt, pd, ⟨hp₀, rfl⟩, ⟨hp₁, hh₁, rfl⟩, hp₂, hh₂, rfl⟩ := table_dir ht
  simp [leafEntry, hp₀, hp₁, hh₁, hp₂, hh₂, hp]

theorem user_of_no_fault (h : faultCode m a va .write = none) (hl : leafEntry m a va = some e) :
    Pte.user e = true := by
  unfold faultCode at h
  cases hv : view m a va with
  | none => simp [hv] at h
  | some v =>
    simp only [hv] at h
    split at h
    · next hal =>
      simp only [Bool.and_eq_true] at hal
      exact user_of_view hv hal.1 hl
    · cases h

theorem resolve_present {code : Nat} (hcode : faultCode m a va .write = some code)
    (hv : view m a va ≠ none) (hm : m.pageFaultResolve a va code 3 = (true, m')) :
    m.cowRemapIn a va = (true, m') := by
  obtain ⟨hwrite, hpresent⟩ := faultCode_bits hcode
  have hsome : (view m a va).isSome = true := Option.isSome_iff_ne_none.mpr hv
  unfold Machine.pageFaultResolve at hm
  simp only [hwrite, hpresent, hsome, decide_true, Bool.and_true, if_true, Bool.not_true,
    Bool.and_false, Bool.false_eq_true, if_false] at hm
  split at hm
  · cases hm
  rcases hr : m.cowRemapIn a va with ⟨done, m₁⟩
  rw [hr] at hm
  cases done with
  | true => simpa using hm
  | false => simp at hm

/-- The store to a present page succeeds only if user mode has access to it. -/
theorem TreeShaped.user_of_stored (h : TreeShaped m a)
    (hs : (reexecute a x .write 2 m).1 = some true) (hl : leafEntry m a x = some e) :
    Pte.user e = true := by
  have hv : view m a x ≠ none := fun hv => by simp [view_eq_none.mp hv] at hl
  unfold reexecute at hs
  split at hs
  · next hfault => exact user_of_no_fault hfault hl
  next code hcode =>
  split at hs
  · cases hs
  next m' hm =>
  obtain ⟨hel, -, hdone⟩ := h.cowRemapIn (resolve_present hcode hv hm)
  obtain ⟨e₀, e', ⟨hleaf, hp, -⟩, hleaf', hp', hw', huser⟩ := hdone rfl
  obtain rfl : e₀ = e := Option.some.inj ((leafEntry_of_leafOf hleaf hp).symm.trans hl)
  rw [← huser]
  -- the page is writable now, so the store does not fault again
  dsimp only at hs
  unfold reexecute at hs
  split at hs
  · next hfault => exact user_of_no_fault hfault (leafEntry_of_leafOf hleaf' hp')
  next code' hcode' =>
  split at hs
  · cases hs
  · next m'' hm' =>
    have hcloser := (hel.tree.resolve hcode' hm').closer rfl
    have hrank : rank m' a x = 0 := by rw [rank, if_pos (by simp [hleaf', hp', hw'])]
    omega

/-! ### What the check asks for -/

/-- The region that covers the page lets user mode write. -/
def writableRegion (m : Machine) (a page : Nat) : Bool :=
  (m.vmaFind a page).any fun v => Pte.user v.flags && Pte.writable v.flags

/-- The pages can be paged in one after the other. -/
def PagesIn (a : Nat) : Machine → List Nat → Prop :=
  Steps (fun m page => (m.handleDemandPage a page).2)
    fun m page => (m.handleDemandPage a page).1 = true

instance (m : Machine) (a : Nat) (pages : List Nat) : Decidable (PagesIn a m pages) :=
  inferInstanceAs (Decidable (Steps _ _ m pages))

def absentPages (m : Machine) (a : Nat) (pages : List Nat) : List Nat :=
  pages.filter fun page => (leafEntry m a page).isNone

/-- No page is mapped read-only, the absent ones lie in regions open to user mode for writing, and
memory lasts to page those in. -/
structure Ready (m : Machine) (a : Nat) (pages : List Nat) : Prop where
  writable : ∀ page ∈ pages, ∀ e, leafEntry m a page = some e → Pte.writable e = true
  region : ∀ page ∈ pages, leafEntry m a page = none → writableRegion m a page = true
  memory : PagesIn a m (absentPages m a pages)

theorem ZeroPage.leafEntry {flags : Nat} (hz : ZeroPage m a va flags p) :
    leafEntry m a va = some (p ||| flags ||| ptePresent) := by
  refine leafEntry_of_leafOf hz.leaf ?_
  rw [Pte.present_eq, Nat.testBit_or]
  simp [ptePresent]

theorem ZeroPage.allows_iff {flags : Nat} (hz : ZeroPage m a va flags p) :
    Allows m a va true ↔ Pte.user flags = true ∧ Pte.writable flags = true := by
  have hp := Pte.addr_of_dvd hz.page.1 hz.page.2
  have hbit : ∀ i, i < 12 → p.testBit i = false := fun i hi => Pte.testBit_page hp (by omega)
  rw [Allows, hz.leafEntry]
  simp only [Option.some.injEq, exists_eq_left', forall_const]
  rw [Pte.user_eq, Pte.writable_eq, Pte.user_eq, Pte.writable_eq]
  have h₁ : ptePresent.testBit 1 = false := by decide
  have h₂ : ptePresent.testBit 2 = false := by decide
  simp [Nat.testBit_or, hbit, h₁, h₂]

theorem pageAllows_of_leafEntry (h : PageTables m a) (hl : leafEntry m a p = some e)
    (hu : Pte.user e = true) : m.pageAllows a p true = Pte.writable e := by
  rw [Bool.eq_iff_iff, h.pageAllows_iff, Allows, hl]
  simp [hu]

theorem Ready.cons_present (hl : leafEntry m a p = some e) :
    Ready m a (p :: pages) ↔ Pte.writable e = true ∧ Ready m a pages := by
  have habs : absentPages m a (p :: pages) = absentPages m a pages := by
    simp [absentPages, hl]
  constructor
  · rintro ⟨hw, hr, hm⟩
    obtain ⟨hwp, hw⟩ := List.forall_mem_cons.mp hw
    exact ⟨hwp e hl, hw, (List.forall_mem_cons.mp hr).2, habs ▸ hm⟩
  · rintro ⟨hwp, hw, hr, hm⟩
    refine ⟨List.forall_mem_cons.mpr ⟨fun e' he' => ?_, hw⟩,
      List.forall_mem_cons.mpr ⟨fun hn => ?_, hr⟩, habs ▸ hm⟩
    · exact Option.some.inj (hl.symm.trans he') ▸ hwp
    · rw [hl] at hn
      cases hn

theorem Ready.not_cons (hl : leafEntry m a p = none) (hd : (m.handleDemandPage a p).1 = false) :
    ¬ Ready m a (p :: pages) := by
  intro hr
  have hmem := hr.memory
  rw [absentPages, List.filter_cons_of_pos (by simp [hl])] at hmem
  have hfirst : (m.handleDemandPage a p).1 = true := hmem.1
  rw [hd] at hfirst
  cases hfirst

/-- The first page is absent and is paged in, which changes nothing for the others. -/
theorem Ready.cons_absent (hl : leafEntry m a p = none)
    (hd : m.handleDemandPage a p = (true, m₁)) (hk : Keeps m m₁ a) (ht : PageTables m a)
    (hsame : ∀ q ∈ pages, leafEntry m₁ a q = none ↔ leafEntry m a q = none)
    (hvmas : m₁.vmas = m.vmas) :
    Ready m a (p :: pages) ↔ writableRegion m a p = true ∧ Ready m₁ a pages := by
  have habs : absentPages m a (p :: pages) = p :: absentPages m₁ a pages := by
    rw [absentPages, List.filter_cons_of_pos (by simp [hl]), absentPages]
    congr 1
    refine List.filter_congr fun q hq => ?_
    rw [Bool.eq_iff_iff, Option.isNone_iff_eq_none, Option.isNone_iff_eq_none]
    exact (hsame q hq).symm
  have hregion : ∀ q, writableRegion m₁ a q = writableRegion m a q := fun q => by
    rw [writableRegion, writableRegion, Machine.vmaFind, Machine.vmaFind, hvmas]
  have hentry : ∀ q ∈ pages, (∀ e, leafEntry m₁ a q = some e → Pte.writable e = true) ↔
      ∀ e, leafEntry m a q = some e → Pte.writable e = true := by
    intro q hq
    cases hq' : leafEntry m a q with
    | none => simp [(hsame q hq).mpr hq']
    | some e =>
      obtain ⟨e', he', hwide⟩ := hk.leafEntry ht hq'
      simp [he', hwide.writable]
  have hmem : PagesIn a m (p :: absentPages m₁ a pages) ↔
    PagesIn a m₁ (absentPages m₁ a pages) := by
    simp only [PagesIn, Steps, hd, true_and]
  constructor
  · rintro ⟨hw, hr, hm⟩
    obtain ⟨hrp, hr⟩ := List.forall_mem_cons.mp hr
    refine ⟨hrp hl, fun q hq => (hentry q hq).mpr ((List.forall_mem_cons.mp hw).2 q hq),
      fun q hq hn => ?_, hmem.mp (habs ▸ hm)⟩
    rw [hregion]
    exact hr q hq ((hsame q hq).mp hn)
  · rintro ⟨hrp, hw, hr, hm⟩
    refine ⟨List.forall_mem_cons.mpr ⟨fun e he => ?_, fun q hq => (hentry q hq).mp (hw q hq)⟩,
      List.forall_mem_cons.mpr ⟨fun _ => hrp, fun q hq hn => ?_⟩, habs ▸ hmem.mpr hm⟩
    · rw [hl] at he
      cases he
    · rw [← hregion]
      exact hr q hq ((hsame q hq).mpr hn)

/-- Within the loop, with user mode having access to the pages that are mapped. -/
theorem TreeShaped.validPages_iff (h : TreeShaped m a) (hno : NoGiB m a)
    (halign : ∀ page ∈ pages, page % pageSize = 0)
    (hapart : pages.Pairwise fun p q => pageOf p ≠ pageOf q)
    (huser : ∀ page ∈ pages, ∀ e, leafEntry m a page = some e → Pte.user e = true) :
    (m.validPages a true pages).1 = true ↔ Ready m a pages := by
  induction pages generalizing m with
  | nil =>
    exact iff_of_true rfl
      ⟨fun _ hp => absurd hp List.not_mem_nil, fun _ hp => absurd hp List.not_mem_nil, trivial⟩
  | cons p pages ih =>
    have ht := h.pageTables hno
    obtain ⟨halignp, halign⟩ := List.forall_mem_cons.mp halign
    obtain ⟨hapartp, hapart⟩ := List.pairwise_cons.mp hapart
    obtain ⟨huserp, huser⟩ := List.forall_mem_cons.mp huser
    unfold Machine.validPages
    cases hl : leafEntry m a p with
    | some e =>
      have hens : m.ensurePage a p = (true, m) := by
        rw [Machine.ensurePage, if_pos]
        rw [Option.isSome_iff_ne_none, ne_eq, ht.resolvePhys_none, hl]
        exact Option.some_ne_none e
      rw [hens, Ready.cons_present hl, ← ih h hno halign hapart huser]
      dsimp only
      rw [pageAllows_of_leafEntry ht hl (huserp e hl)]
      cases Pte.writable e <;> simp
    | none =>
      have hnone : m.resolvePhys a p = none := ht.resolvePhys_none.mpr hl
      rcases hd : m.handleDemandPage a p with ⟨done, m₁⟩
      have hk : Keeps m m₁ a := ht.handleDemandPage hl halignp hd
      cases done with
      | false =>
        have hens : m.ensurePage a p = (false, m₁) := by
          simp [Machine.ensurePage, hnone, hd]
        rw [hens]
        exact iff_of_false Bool.false_ne_true (Ready.not_cons hl (by rw [hd]))
      | true =>
        obtain ⟨hel, -, hdone⟩ := h.handleDemandPage
          (translation_eq_none.mpr (view_eq_none.mpr hl)) hd
        obtain ⟨vma, q, hvma, hz⟩ := hdone rfl
        have hsame : ∀ q ∈ pages, leafEntry m₁ a q = none ↔ leafEntry m a q = none := fun q hq => by
          rw [← view_eq_none, ← view_eq_none, ← translation_eq_none, ← translation_eq_none,
            hel.same q (hapartp q hq).symm]
        have hmapped : (m₁.resolvePhys a p).isSome = true := by
          rw [Option.isSome_iff_ne_none, ne_eq, hk.tables.resolvePhys_none, hz.leafEntry]
          exact Option.some_ne_none _
        have hens : m.ensurePage a p = (true, m₁) := by
          simp [Machine.ensurePage, hnone, hd, hmapped]
        have huser' : ∀ page ∈ pages, ∀ e, leafEntry m₁ a page = some e → Pte.user e = true := by
          intro page hpage e he
          cases hl' : leafEntry m a page with
          | none =>
            rw [(hsame page hpage).mpr hl'] at he
            cases he
          | some e₀ =>
            obtain ⟨e', he', hwide⟩ := hk.leafEntry ht hl'
            obtain rfl := Option.some.inj (he'.symm.trans he)
            exact hwide.user (huser page hpage e₀ hl')
        have hallows : m₁.pageAllows a p true = writableRegion m a p := by
          rw [Bool.eq_iff_iff, hk.tables.pageAllows_iff, hz.allows_iff, writableRegion, hvma]
          simp
        rw [hens, Ready.cons_absent hl hd hk ht hsame hel.vmas,
          ← ih hel.tree hk.tables.noGiB halign hapart huser']
        dsimp only
        rw [hallows]
        cases writableRegion m a p <;> simp

/-! ### The range -/

/-- What the check of a range for writing asks for. -/
structure Checkable (m : Machine) (a addr len : Nat) : Prop where
  space : a ≠ 0
  half : addr + len ≤ 2 ^ 47
  ready : Ready m a (pagesFrom (pageAlignDown addr) (addr + len))

theorem exists_byte (hlen : len ≠ 0) (hp : p ∈ pagesFrom (pageAlignDown addr) (addr + len)) :
    ∃ x, addr ≤ x ∧ x < addr + len ∧ pageAlignDown x = p := by
  obtain ⟨k, rfl, hlt⟩ := mem_pagesFrom.mp hp
  have hpage : pageSize = 4096 := rfl
  simp only [pageAlignDown, hpage] at hlt ⊢
  refine ⟨max addr (addr / 4096 * 4096 + k * 4096), by omega, by omega, by omega⟩

theorem pagesFrom_apart (hhalf : addr + len ≤ 2 ^ 47) :
    (pagesFrom (pageAlignDown addr) (addr + len)).Pairwise fun p q => pageOf p ≠ pageOf q := by
  have hpage : pageSize = 4096 := rfl
  rw [pagesFrom, List.pairwise_map]
  refine List.pairwise_lt_range.imp_of_mem fun {i j} hi hj hlt => ?_
  simp only [List.mem_range, pageAlignDown, pageOf, hpage] at hi hj ⊢
  omega

/-- A buffer that the program could write passes the check exactly if it lies in the user half, no
page of it is mapped read-only, and its absent pages have writable regions at their first byte and
memory to be paged in, all of them. -/
theorem userRangeValid_complete_iff (h : TreeShaped m a) (hno : NoGiB m a)
    (hstores : ∀ x, addr ≤ x → x < addr + len → (reexecute a x .write 2 m).1 = some true) :
    (m.userRangeValid a addr len true).1 = true ↔ len = 0 ∨ Checkable m a addr len := by
  unfold Machine.userRangeValid
  by_cases hlen : len = 0
  · simp [hlen]
  rw [if_neg hlen]
  by_cases hhalf : addr + len ≤ 2 ^ 47
  · have hinside : (!isUserAddr addr || !isUserAddr (addr + len - 1)) = false := by
      simp [isUserAddr]
      omega
    rw [if_neg (by omega), if_neg (by simp [hinside])]
    by_cases ha : a = 0
    · rw [if_pos ha]
      exact iff_of_false Bool.false_ne_true fun hc => (hc.resolve_left hlen).space ha
    rw [if_neg ha, h.validPages_iff hno (fun p => pagesFrom_aligned) (pagesFrom_apart hhalf)]
    · exact ⟨fun hr => .inr ⟨ha, hhalf, hr⟩, fun hc => (hc.resolve_left hlen).ready⟩
    · intro page hpage e he
      obtain ⟨x, hlo, hhi, rfl⟩ := exists_byte hlen hpage
      rw [leafEntry_pageAlignDown] at he
      exact h.user_of_stored (hstores x hlo hhi) he
  · have hfalse : isUserAddr (addr + len - 1) = false := by
      simp [isUserAddr]
      omega
    refine ⟨fun hv => ?_, fun hc => absurd (hc.resolve_left hlen).half hhalf⟩
    simp only [hfalse, Bool.not_false, Bool.or_true, if_true] at hv
    split at hv <;> cases hv

/-- A buffer that crosses a page border, in a region of which no page is mapped yet. -/
theorem userRangeValid_complete_lazy :
    ((blankSpace [⟨0x201000, 0x400000, 0x402000, 7⟩]).userRangeValid 0x201000 0x400ff8 16 true).1 =
      true := by
  refine (userRangeValid_complete_iff (blankSpace_treeShaped _) (blankSpace_noGiB _) ?_).mpr
    (.inr ⟨by decide, by decide, ⟨?_, ?_, by decide⟩⟩)
  · intro x hlo hhi
    have hall : ∀ k < 16, (reexecute 0x201000 (0x400ff8 + k) .write 2
        (blankSpace [⟨0x201000, 0x400000, 0x402000, 7⟩])).1 = some true := by decide
    have hx := hall (x - 0x400ff8) (by omega)
    rwa [Nat.add_sub_cancel' hlo] at hx
  · intro page _ e he
    simp [leafEntry, blankSpace, Pte.present] at he
  · decide

/-- A process with one page of data, below the tables at 0x209000, 0x20a000 and 0x20b000. -/
def dataPage : Machine :=
  ((blankSpace [⟨0x201000, 0x400000, 0x401000, 7⟩]).handleDemandPage 0x201000 0x400000).2

/-- What the turns of `cow_fork_pml4` for present entries do to that process: its tables and its
page are shared, and the page is made read-only. -/
def forkedParent : Machine :=
  ([0x209000, 0x20a000, 0x20b000].foldl Machine.forkSharePteRefc dataPage).forkEntry 0 0x20b000 0

/-- A page that fork made read-only: each store succeeds, and the check refuses the buffer. -/
theorem userRangeValid_refuses_cow :
    (∀ x ∈ List.range' 0x400000 8, (reexecute 0x201000 x .write 2 forkedParent).1 = some true) ∧
      (forkedParent.userRangeValid 0x201000 0x400000 8 true).1 = false := by
  decide +kernel

end Rynex.Paging
