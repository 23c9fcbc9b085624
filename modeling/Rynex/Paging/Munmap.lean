import Rynex.Paging.Regions
import Rynex.Paging.Stays
import Rynex.Paging.UserRange

/-! `sys_munmap`: which pages and regions of a range are left behind. The call gives up when a
region with the stack of any live task meets the range, also when that task belongs to another
address space and only uses the same addresses. -/

namespace Rynex.Paging

open Rynex.Memory Rynex.Lib Rynex.Lib.Radix

variable {m m' m₁ : Machine} {a e q t va x page start stop : Nat} {π : List Nat} {pages : List Nat}

/-! ### User pages and their entries -/

def userAt (m : Machine) (a va : Nat) : Bool := (view m a va).any fun v => v.2.2

/-- The tables of `a` form a tree, as far as memory goes. -/
def Treelike (m : Machine) (a : Nat) : Prop :=
  ∀ {π π' t}, At table m.mem a π t → At table m.mem a π' t → π = π'

theorem leafOf_eq_some : leafOf m a va = some e ↔
    ∃ t, At table m.mem a (dir va) t ∧ m.mem t (vpn va 3) = e := by
  rw [leafOf, content, Option.map_eq_some_iff]
  rfl

theorem view_of_dir (h : At table m.mem a (dir va) t) : ∃ w u, view m a va = look m va 0 t w u := by
  obtain ⟨pdpt, pd, ⟨hp₀, rfl⟩, ⟨hp₁, hh₁, rfl⟩, hp₂, hh₂, rfl⟩ := table_dir h
  generalize hpdpt : Pte.addr (m.mem a (vpn va 0)) = pdpt at *
  generalize hpd : Pte.addr (m.mem pdpt (vpn va 1)) = pd at *
  refine ⟨Pte.writable (m.mem a (vpn va 0)) && Pte.writable (m.mem pdpt (vpn va 1)) &&
    Pte.writable (m.mem pd (vpn va 2)), Pte.user (m.mem a (vpn va 0)) &&
    Pte.user (m.mem pdpt (vpn va 1)) && Pte.user (m.mem pd (vpn va 2)), ?_⟩
  simp [view, look, hp₀, hp₁, hh₁, hp₂, hh₂, hpdpt, hpd]

theorem userAt_leaf (h : leafOf m a va = some e) (hu : userAt m a va = true) :
    Pte.present e = true ∧ Pte.user e = true := by
  obtain ⟨t, ht, rfl⟩ := leafOf_eq_some.mp h
  obtain ⟨w, u, hview⟩ := view_of_dir ht
  rw [userAt, hview, look] at hu
  split at hu
  · next hp =>
    simp only [Option.any_some, Bool.and_eq_true] at hu
    exact ⟨hp, hu.2⟩
  · cases hu

theorem view_of_upper (hat : ∀ {π q}, At table m.mem a π q → π.length < 3 → m'.mem q = m.mem q)
    (hnone : leafOf m a va = none) : view m' a va = view m a va := by
  refine view_of_entries fun levels ρ s hs hpre hρ => .inl ?_
  by_cases hlen : ρ.length < 3
  · rw [hat hs hlen]
  · have hlen : ρ.length = 3 := by omega
    have hdir : ρ = dir va := by
      have := List.prefix_iff_eq_take.mp hpre
      rw [this, hlen]
      rfl
    rw [leafOf_eq_some.mpr ⟨s, hdir ▸ hs, rfl⟩] at hnone
    cases hnone

/-! ### The loop -/

theorem getPteIn_of_dir (h : At table m.mem a (dir va) t)
    (hp : Pte.present (m.mem t (vpn va 3)) = true) : m.getPteIn a va = some t := by
  obtain ⟨pdpt, pd, ⟨hp₀, rfl⟩, ⟨hp₁, -, rfl⟩, hp₂, hh₂, rfl⟩ := table_dir h
  simp [Machine.getPteIn, hp₀, hp₁, hp₂, hh₂, hp]

theorem NoGiB.getPteIn (hno : NoGiB m a) (h : m.getPteIn a va = some t) :
    At table m.mem a (dir va) t := by
  simp only [Machine.getPteIn] at h
  split_ifs at h with h0 h1 h2 h3
  cases h
  simp only [Bool.not_eq_true', Bool.not_eq_false, Bool.or_eq_true, not_or,
    Bool.not_eq_true] at h0 h1 h2
  have hpdpt : At table m.mem a [vpn va 0] (Pte.addr (m.mem a (vpn va 0))) :=
    At.root.concat (table_eq_some.mpr ⟨vpn_lt va 0, h0, .inl rfl, rfl⟩)
  have hpd := hpdpt.concat (table_eq_some.mpr ⟨vpn_lt va 1, h1,
    .inr ⟨by simp, hno _ _ _ hpdpt (vpn_lt va 1) h1⟩, rfl⟩)
  exact hpd.concat (table_eq_some.mpr ⟨vpn_lt va 2, h2.1, .inr ⟨by simp, h2.2⟩, rfl⟩)

/-- What the loop of `sys_munmap` does: no user page is left at the given pages, by leaf entries
that are cleared and nothing else. -/
structure Swept (a : Nat) (m m' : Machine) (pages : List Nat) : Prop where
  at_iff : ∀ {π q}, At table m'.mem a π q ↔ At table m.mem a π q
  upper : ∀ {π q}, At table m.mem a π q → π.length < 3 → m'.mem q = m.mem q
  leaf : ∀ va, leafOf m' a va = leafOf m a va ∨ leafOf m' a va = some 0
  gone : ∀ page ∈ pages, ∀ e, leafOf m' a page = some e →
    ¬ (Pte.present e = true ∧ Pte.user e = true)
  vmas : m'.vmas = m.vmas

theorem Swept.nil (a : Nat) (m : Machine) : Swept a m m [] :=
  ⟨Iff.rfl, fun _ _ => rfl, fun _ => .inl rfl, nofun, rfl⟩

theorem Swept.cons (h : Swept a m m₁ [page]) (h' : Swept a m₁ m' pages) :
    Swept a m m' (page :: pages) := by
  refine ⟨h'.at_iff.trans h.at_iff, fun hq hlen => ?_, fun va => ?_, fun page' hp e he => ?_,
    h'.vmas.trans h.vmas⟩
  · rw [h'.upper (h.at_iff.mpr hq) hlen, h.upper hq hlen]
  · rcases h'.leaf va with heq | heq
    · rw [heq]
      exact h.leaf va
    · exact .inr heq
  · rcases List.mem_cons.mp hp with rfl | hp
    · rcases h'.leaf page' with heq | heq
      · exact h.gone page' List.mem_cons_self e (heq ▸ he)
      · obtain rfl := Option.some.inj (heq.symm.trans he)
        decide
    · exact h'.gone page' hp e he

theorem Swept.treelike (h : Swept a m m' pages) (ht : Treelike m a) : Treelike m' a :=
  fun h₁ h₂ => ht (h.at_iff.mp h₁) (h.at_iff.mp h₂)

theorem Swept.noGiB (h : Swept a m m' pages) (hno : NoGiB m a) : NoGiB m' a := by
  intro i q j hq hj hp
  have hq := h.at_iff.mp hq
  rw [h.upper hq (by simp)] at hp ⊢
  exact hno i q j hq hj hp

/-- One page: its leaf entry is cleared if it is one of a user page. -/
theorem munmapPage_swept (ht : Treelike m a) (hno : NoGiB m a) (page : Nat) :
    Swept a m (Machine.munmapPage a m page) [page] := by
  have hstay : (∀ e, leafOf m a page = some e → ¬ (Pte.present e = true ∧ Pte.user e = true)) →
      Swept a m m [page] := fun hleaf =>
    ⟨Iff.rfl, fun _ _ => rfl, fun _ => .inl rfl, by simpa using hleaf, rfl⟩
  unfold Machine.munmapPage
  cases hpt : m.getPteIn a page with
  | none =>
    refine hstay fun e he hpu => ?_
    obtain ⟨t, hat, rfl⟩ := leafOf_eq_some.mp he
    rw [getPteIn_of_dir hat hpu.1] at hpt
    cases hpt
  | some t =>
    have hat := hno.getPteIn hpt
    simp only
    split
    case isFalse hkeep =>
      refine hstay fun e he hpu => hkeep ?_
      rw [leafOf_of_at hat] at he
      obtain rfl := Option.some.inj he
      simpa using hpu
    case isTrue hpu =>
      set m' := (m.setBuddy (m.buddy.free (Pte.addr (m.mem t (vpn page 3))) 0)).write t (vpn page 3)
        0
      have hmem : ∀ q j, m'.mem q j = if q = t ∧ j = vpn page 3 then 0 else m.mem q j :=
        fun q j => mem_write _ t _ 0 q j
      have hiff : ∀ {π q}, At table m'.mem a π q ↔ At table m.mem a π q :=
        at_write_leaf ht hat 0
      refine ⟨hiff, fun {π q} hq hlen => ?_, fun va => ?_, fun page' hp e he => ?_, rfl⟩
      · funext j
        rw [hmem, if_neg]
        rintro ⟨rfl, -⟩
        rw [ht hq hat] at hlen
        exact absurd hlen (by simp)
      · cases hva : leafOf m a va with
        | none =>
          refine .inl (Option.eq_none_iff_forall_ne_some.mpr fun e he => ?_)
          obtain ⟨s, hs, -⟩ := leafOf_eq_some.mp he
          rw [leafOf_eq_some.mpr ⟨s, hiff.mp hs, rfl⟩] at hva
          cases hva
        | some e =>
          obtain ⟨s, hs, rfl⟩ := leafOf_eq_some.mp hva
          rw [leafOf_of_at (hiff.mpr hs), hmem]
          split_ifs
          exacts [.inr rfl, .inl rfl]
      · obtain rfl := List.mem_singleton.mp hp
        rw [leafOf_of_at (hiff.mpr hat), hmem, if_pos ⟨rfl, rfl⟩] at he
        obtain rfl := Option.some.inj he
        decide

theorem munmapPages_swept (ht : Treelike m a) (hno : NoGiB m a) (pages : List Nat) :
    Swept a m (pages.foldl (Machine.munmapPage a) m) pages := by
  induction pages generalizing m with
  | nil => exact .nil a m
  | cons page pages ih =>
    have hone := munmapPage_swept ht hno page
    exact hone.cons (ih (hone.treelike ht) (hone.noGiB hno))

/-! ### The call -/

/-- Nothing is mapped for user mode in the range, and no region covers a part of it. -/
def Unmapped (m : Machine) (a start stop : Nat) : Prop :=
  ∀ x, start ≤ x → x < stop → userAt m a x = false ∧ m.vmaFind a x = none

def munmapEnd (addr len : Nat) : Nat :=
  pageAlignDown addr + (len + 0xFFF) / pageSize * pageSize

/-- No region with a stack of another address space meets the range, no region of `a` that meets it
starts at 0, and no huge page maps a part of it for user mode. -/
def Clears (m : Machine) (userStacks : List (Nat × Nat)) (a start stop : Nat) : Prop :=
  (∀ page ∈ pagesFrom start stop,
    m.munmapPageInUse (userStacks.filter fun s => s.1 ≠ a) page = false) ∧
  (∀ v ∈ m.vmas, v.pml4 = a → v.start = 0 → v.stop ≤ start) ∧
  ∀ x, start ≤ x → x < stop → leafOf m a x = none → userAt m a x = false

theorem munmapPageInUse_split (m : Machine) (userStacks : List (Nat × Nat)) (a page : Nat) :
    m.munmapPageInUse userStacks page =
      (m.munmapPageInUse (userStacks.filter fun s => s.1 = a) page ||
        m.munmapPageInUse (userStacks.filter fun s => s.1 ≠ a) page) := by
  simp only [Machine.munmapPageInUse]
  induction userStacks with
  | nil => rfl
  | cons s rest ih =>
    by_cases hs : s.1 = a
    · simp [hs, ih, Bool.or_assoc]
    · simp [hs, ih, Bool.or_left_comm]

variable {addr len : Nat} {userStacks : List (Nat × Nat)}

theorem munmapEnd_eq (hfit : munmapEnd addr len < 2 ^ 64) :
    (pageAlignDown addr + pageAlignUp len) % 2 ^ 64 = munmapEnd addr len := by
  have hpage : pageSize = 4096 := rfl
  simp only [munmapEnd, pageAlignUp, pageAlignDown, hpage] at hfit ⊢
  omega

theorem pageAlignDown_mem_munmap (hlo : pageAlignDown addr ≤ x) (hhi : x < munmapEnd addr len) :
    pageAlignDown x ∈ pagesFrom (pageAlignDown addr) (munmapEnd addr len) := by
  have hpage : pageSize = 4096 := rfl
  simp only [mem_pagesFrom, munmapEnd, pageAlignDown, hpage] at hlo hhi ⊢
  exact ⟨x / 4096 - addr / 4096, by omega, by omega⟩

/-- When the call goes through, what it leaves in the range are huge pages and regions from 0 on. -/
theorem unmapped_after_iff (hs : Swept a m m₁ (pagesFrom (pageAlignDown addr) (munmapEnd addr len)))
    (hlen : 0 < len) :
    Unmapped (m₁.vmaClearRange a (pageAlignDown addr) (munmapEnd addr len)) a (pageAlignDown addr)
        (munmapEnd addr len) ↔
      (∀ v ∈ m.vmas, v.pml4 = a → v.start = 0 → v.stop ≤ pageAlignDown addr) ∧
      ∀ x, pageAlignDown addr ≤ x → x < munmapEnd addr len → leafOf m a x = none →
        userAt m a x = false := by
  have hview : ∀ x, leafOf m a x = none → userAt m₁ a x = userAt m a x := fun x hx => by
    rw [userAt, userAt, view_of_upper hs.upper hx]
  have hlt : pageAlignDown addr < munmapEnd addr len := by
    have hpage : pageSize = 4096 := rfl
    simp only [munmapEnd, hpage]
    omega
  constructor
  · refine fun h => ⟨fun v hv hp hv0 => ?_, fun x hlo hhi hx => ?_⟩
    · by_contra hmeets
      have hnone := (vmaClearRange_inside le_rfl hlt).mp (h _ le_rfl hlt).2
      refine hnone v (hs.vmas ▸ hv) (VmaRec.covers_iff.mpr ⟨hp, by omega, by omega⟩) hv0
    · rw [← hview x hx]
      exact (h x hlo hhi).1
  · rintro ⟨hzero, hhuge⟩ x hlo hhi
    refine ⟨?_, (vmaClearRange_inside hlo hhi).mpr fun v hv hcov hv0 => ?_⟩
    · cases hx : leafOf m a x with
      | none =>
        change userAt m₁ a x = false
        rw [hview x hx]
        exact hhuge x hlo hhi hx
      | some e =>
        change userAt m₁ a x = false
        by_contra huser
        rw [Bool.not_eq_false] at huser
        obtain ⟨t, ht, -⟩ := leafOf_eq_some.mp hx
        have hleaf := leafOf_of_at (hs.at_iff.mpr ht)
        refine hs.gone _ (pageAlignDown_mem_munmap hlo hhi) _ ?_ (userAt_leaf hleaf huser)
        exact (leafOf_page m₁ a (pageOf_align x)).trans hleaf
    · obtain ⟨hp, -, hx⟩ := VmaRec.covers_iff.mp hcov
      have := hzero v (hs.vmas ▸ hv) hp hv0
      omega

theorem Unmapped.zero (h : Unmapped m a start stop) (hlt : start < stop) :
    ∀ v ∈ m.vmas, v.pml4 = a → v.start = 0 → v.stop ≤ start := by
  intro v hv hp hv0
  by_contra hmeets
  have hnone := List.find?_eq_none.mp (h start le_rfl hlt).2 v hv
  exact hnone (VmaRec.covers_iff.mpr ⟨hp, by omega, by omega⟩)

/-- For a range without a stack of the caller's own address space, a call that returns 0 leaves the
range unmapped exactly when it was so before, or when nothing gets in its way. -/
theorem munmap_unmaps_iff (ht : Treelike m a) (hno : NoGiB m a)
    (hfit : munmapEnd addr len < 2 ^ 64)
    (hown : ∀ page ∈ pagesFrom (pageAlignDown addr) (munmapEnd addr len),
      m.munmapPageInUse (userStacks.filter fun s => s.1 = a) page = false)
    (h : m.sysMunmap userStacks a addr len = (0, m')) :
    Unmapped m' a (pageAlignDown addr) (munmapEnd addr len) ↔
      Unmapped m a (pageAlignDown addr) (munmapEnd addr len) ∨
        Clears m userStacks a (pageAlignDown addr) (munmapEnd addr len) := by
  have hswept := munmapPages_swept ht hno (pagesFrom (pageAlignDown addr) (munmapEnd addr len))
  unfold Machine.sysMunmap at h
  split at h
  · cases (Prod.mk.inj h).1
  next hlen =>
  have hlen : 0 < len := Nat.pos_of_ne_zero hlen
  have hafter := unmapped_after_iff hswept hlen
  have hlt : pageAlignDown addr < munmapEnd addr len := by
    have hpage : pageSize = 4096 := rfl
    simp only [munmapEnd, hpage]
    omega
  simp only [munmapEnd_eq hfit] at h
  split at h
  next hany =>
    -- a stack is in the way, and it is not one of this address space
    obtain rfl := (Prod.mk.inj h).2
    obtain ⟨page, hpage, huse⟩ := List.any_eq_true.mp hany
    rw [munmapPageInUse_split m userStacks a, hown page hpage, Bool.false_or] at huse
    refine ⟨.inl, fun h => h.resolve_right fun hc => ?_⟩
    rw [hc.1 page hpage] at huse
    cases huse
  next hany =>
    obtain rfl := (Prod.mk.inj h).2
    rw [hafter]
    constructor
    · rintro ⟨hzero, hhuge⟩
      refine .inr ⟨fun page hpage => ?_, hzero, hhuge⟩
      have hnot : m.munmapPageInUse userStacks page = false := by
        simp only [List.any_eq_true, not_exists, not_and] at hany
        simpa using hany page hpage
      rw [munmapPageInUse_split m userStacks a, Bool.or_eq_false_iff] at hnot
      exact hnot.2
    · rintro (hbefore | hc)
      · exact ⟨hbefore.zero hlt, fun x hlo hhi _ => (hbefore x hlo hhi).1⟩
      · exact hc.2

theorem ofPool_at {recs : List VmaRec} (h : At table (ofPool recs).mem a π q) : π = [] := by
  induction π using List.reverseRecOn generalizing q with
  | nil => rfl
  | append_singleton π i _ =>
    obtain ⟨t, -, ht⟩ := h.of_concat
    rw [show (ofPool recs).mem t i = 0 from rfl, table_zero] at ht
    cases ht

theorem ofPool_treelike (recs : List VmaRec) (a : Nat) : Treelike (ofPool recs) a :=
  fun h₁ h₂ => (ofPool_at h₁).trans (ofPool_at h₂).symm

theorem ofPool_noGiB (recs : List VmaRec) (a : Nat) : NoGiB (ofPool recs) a :=
  fun _ _ _ h => absurd (ofPool_at h) nofun

/-- A page of a region is unmapped while the stack of the process lies elsewhere. -/
theorem munmap_unmaps_own : let m := ofPool [⟨0x1000, 0x400000, 0x401000, 7⟩]
    Unmapped (m.sysMunmap [(0x1000, 0x7ffff000)] 0x1000 0x400000 0x1000).2 0x1000 0x400000
      0x401000 := by
  have hcall : (ofPool [⟨0x1000, 0x400000, 0x401000, 7⟩]).sysMunmap [(0x1000, 0x7ffff000)] 0x1000
      0x400000 0x1000 = (0, _) := Prod.ext (by decide) rfl
  refine (munmap_unmaps_iff (ofPool_treelike _ _) (ofPool_noGiB _ _) (by decide) (by decide)
    hcall).mpr (.inr ⟨by decide, by decide, fun x _ _ _ => ?_⟩)
  simp [userAt, view, look, ofPool, Pte.present]

/-- A process cannot unmap its page while another process has its stack at the same addresses. -/
theorem munmap_kept_by_foreign_stack :
    let m := ofPool [⟨0x1000, 0x400000, 0x401000, 7⟩, ⟨0x2000, 0x400000, 0x402000, 7⟩]
    let r := m.sysMunmap [(0x1000, 0x7ffff000), (0x2000, 0x401800)] 0x1000 0x400000 0x1000
    r.1 = 0 ∧ m.munmapPageInUse [(0x1000, 0x7ffff000)] 0x400000 = false ∧
      ¬ Unmapped r.2 0x1000 0x400000 0x401000 := by
  refine ⟨by decide, by decide, fun h => ?_⟩
  have hnone := (h 0x400000 le_rfl (by decide)).2
  revert hnone
  decide

end Rynex.Paging
