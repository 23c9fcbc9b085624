import Rynex.Paging.Space
import Rynex.Memory.Reserved

/-! The functions of `paging.rs` that map and unmap pages in the kernel's own tree. They follow
every present entry above the page tables as if it led to a table, so a huge page on the way is
taken for one: the words of the data that it maps are read as entries and written as such. -/

namespace Rynex.Paging

open Rynex.Memory Rynex.Lib Rynex.Lib.Radix

namespace Machine

/-- What tells `map_page` and `map_kernel_page` apart: the flags of a link to a new table and the
texts of the errors. -/
structure Style where
  link : Nat
  noPdpt : String
  noPd : String
  noPt : String
  taken : String

/-- The page that entry `i` of `t` leads to; a new table is linked when the entry is absent.
`map_kernel_page` clears the new page once more, which `alloc_zeroed_page` has done. -/
def descend (m : Machine) (t i link : Nat) (oom : String) : Except String Nat × Machine :=
  let e := m.mem t i
  if Pte.present e then (.ok (Pte.addr e), m)
  else
    match m.allocZeroedPage with
    | (none, m) => (.error oom, m)
    | (some new, m) => (.ok new, m.write t i (new ||| link))

def walkCreate (st : Style) (m : Machine) (pml4 virt : Nat) : Except String Nat × Machine :=
  match m.descend pml4 (vpn virt 0) st.link st.noPdpt with
  | (.error e, m) => (.error e, m)
  | (.ok pdpt, m) => m.descend pdpt (vpn virt 1) st.link st.noPd

def mapStyled (st : Style) (m : Machine) (pml4 virt phys flags : Nat) :
    Except String Unit × Machine :=
  match walkCreate st m pml4 virt with
  | (.error e, m) => (.error e, m)
  | (.ok pd, m) =>
    match m.descend pd (vpn virt 2) st.link st.noPt with
    | (.error e, m) => (.error e, m)
    | (.ok pt, m) =>
      if Pte.present (m.mem pt (vpn virt 3)) then (.error st.taken, m)
      else (.ok (), m.write pt (vpn virt 3) (phys ||| flags ||| ptePresent))

def pageStyle : Style where
  link := ptePresent ||| pteWritable ||| pteUser
  noPdpt := "OOM: no PD"
  noPd := "OOM: no PD"
  noPt := "OOM: no PT"
  taken := "page already mapped"

/-- The links to new tables are without the user bit. -/
def kernelStyle : Style where
  link := ptePresent ||| pteWritable
  noPdpt := "OOM: PDPT"
  noPd := "OOM: PD"
  noPt := "OOM: PT"
  taken := "already mapped"

/-- `pml4` is the manager's `kernel_pml4`. -/
def mapPage (m : Machine) (pml4 virt phys flags : Nat) : Except String Unit × Machine :=
  mapStyled pageStyle m pml4 virt phys flags

def mapKernelPage (m : Machine) (virt phys flags : Nat) : Except String Unit × Machine :=
  if m.kernelPml4 = 0 then (.error "kernel PML4 not set", m)
  else mapStyled kernelStyle m m.kernelPml4 virt phys flags

def map2m (m : Machine) (pml4 virt phys flags : Nat) : Except String Unit × Machine :=
  match walkCreate pageStyle m pml4 virt with
  | (.error e, m) => (.error e, m)
  | (.ok pd, m) =>
    if Pte.present (m.mem pd (vpn virt 2)) then (.error "2M page already mapped", m)
    else (.ok (), m.write pd (vpn virt 2) (phys ||| flags ||| ptePresent ||| pteHuge))

/-- Of the entries above the page table, that of the page directory alone is tested for a huge
page. -/
def unmapPage (m : Machine) (pml4 virt : Nat) : Except String Unit × Machine :=
  let pml4e := m.mem pml4 (vpn virt 0)
  if !Pte.present pml4e then (.error "not mapped", m)
  else
    let pdpte := m.mem (Pte.addr pml4e) (vpn virt 1)
    if !Pte.present pdpte then (.error "not mapped", m)
    else
      let pde := m.mem (Pte.addr pdpte) (vpn virt 2)
      if !Pte.present pde then (.error "not mapped", m)
      else if Pte.huge pde then (.error "2M page - use unmap_2m", m)
      else
        let pt := Pte.addr pde
        if !Pte.present (m.mem pt (vpn virt 3)) then (.error "not mapped", m)
        else (.ok (), m.write pt (vpn virt 3) 0)

/-! ### Where a walk goes astray -/

/-- The page directory that the entries on the way to `virt` lead to, as the code follows them. -/
def pdAt (m : Machine) (pml4 virt : Nat) : Nat :=
  Pte.addr (m.mem (Pte.addr (m.mem pml4 (vpn virt 0))) (vpn virt 1))

def hugePdpte (m : Machine) (pml4 virt : Nat) : Bool :=
  let pml4e := m.mem pml4 (vpn virt 0)
  let pdpte := m.mem (Pte.addr pml4e) (vpn virt 1)
  Pte.present pml4e && Pte.present pdpte && Pte.huge pdpte

def hugePde (m : Machine) (pml4 virt : Nat) : Bool :=
  let pml4e := m.mem pml4 (vpn virt 0)
  let pdpte := m.mem (Pte.addr pml4e) (vpn virt 1)
  let pde := m.mem (Pte.addr pdpte) (vpn virt 2)
  Pte.present pml4e && Pte.present pdpte && Pte.present pde && Pte.huge pde

end Machine

/-- The allocator handed the page out between `m` and `m'`. -/
def Handed (m m' : Machine) (p : Nat) : Prop :=
  m.buddy.pool.AvailAt p ∧ ¬ m'.buddy.pool.AvailAt p

/-- Of all pages, only tables of the tree and pages that were handed out for new tables have
changed. -/
def OnlyTables (m m' : Machine) (a : Nat) : Prop :=
  ∀ p, m'.mem p ≠ m.mem p → IsTable m a p ∨ Handed m m' p

def TablesHeld (m : Machine) (a : Nat) : Prop := ∀ t, IsTable m a t → ¬ m.buddy.pool.AvailAt t

/-- No huge page stands on the way of `map_page` and `map_kernel_page`; or one does, and the page
that they end at is a table of the tree all the same, or the new table itself. -/
def Lands (m : Machine) (a virt : Nat) : Prop :=
  let pd := m.pdAt a virt
  let pde := m.mem pd (vpn virt 2)
  if m.hugePdpte a virt then
    if Pte.present pde then IsTable m a (Pte.addr pde)
    else IsTable m a pd ∨ m.allocZeroedPage.1 = some pd
  else m.hugePde a virt = true → IsTable m a (Pte.addr pde)

variable {m m' m₀ : Machine} {a p t i c n v link virt phys flags : Nat} {oom : String}
  {ρ : List Nat}

/-! ### A single word -/

theorem mem_write_ne (h : p ≠ t) : (m.write t i v).mem p = m.mem p := Function.update_of_ne h _ _

theorem onlyTables_write (h : m.mem t i ≠ v) : OnlyTables m (m.write t i v) a ↔ IsTable m a t := by
  constructor
  · intro hot
    have hne : (m.write t i v).mem t ≠ m.mem t := by
      intro heq
      have hword := congrFun heq i
      simp only [Machine.write, Function.update_self] at hword
      exact h hword.symm
    exact (hot t hne).resolve_right fun hh => hh.2 hh.1
  · intro ht p hp
    by_cases hpt : p = t
    · exact .inl (hpt ▸ ht)
    · exact absurd (mem_write_ne hpt) hp

theorem ne_of_present {e e' : Nat} (h : Pte.present e = false) (h' : Pte.present e' = true) :
    e ≠ e' := by
  rintro rfl
  rw [h] at h'
  cases h'

theorem present_or_present (e : Nat) : Pte.present (e ||| ptePresent) = true := by
  rw [Pte.present_eq, Nat.testBit_or]
  simp [ptePresent]

theorem present_or_left {e e' : Nat} (h : Pte.present e' = true) :
    Pte.present (e ||| e') = true := by
  rw [Pte.present_eq] at h ⊢
  rw [Nat.testBit_or, h, Bool.or_true]

/-! ### A way through tables -/

/-- What a walk through tables has done when it stands at `c`, at the path `ρ`: nothing, and `c` is
a table; or new tables were linked, and `c` is the latest of them. -/
inductive Reached (m₀ m : Machine) (a : Nat) (ρ : List Nat) (c : Nat) : Prop
  | old (same : m = m₀) (at_ : At table m₀.mem a ρ c)
  | new (wf : m.buddy.pool.Wf) (avail : ∀ x, m.buddy.pool.AvailAt x → m₀.buddy.pool.AvailAt x)
      (only : OnlyTables m₀ m a) (handed : Handed m₀ m c) (empty : ∀ j, m.mem c j = 0)

theorem Reached.of_link (hwf : m.buddy.pool.Wf)
    (havail : ∀ x, m.buddy.pool.AvailAt x → m₀.buddy.pool.AvailAt x) (honly : OnlyTables m₀ m a)
    (ht : IsTable m₀ a t ∨ Handed m₀ m t) (hheld : ¬ m.buddy.pool.AvailAt t)
    (halloc : m.allocZeroedPage = (some n, m')) :
    Reached m₀ (m'.write t i v) a ρ n := by
  have hg := allocZeroedPage_some hwf halloc
  have htn : n ≠ t := fun h => hheld (h ▸ hg.avail)
  refine .new hg.grants.wf (fun x hx => havail x (hg.grants.sub x hx).1) (fun p hp => ?_)
    ⟨havail n hg.avail, hg.not_avail⟩ fun j => ?_
  · by_cases hpt : p = t
    · subst hpt
      exact ht.imp_right fun hh => ⟨hh.1, fun hx => hh.2 (hg.grants.sub p hx).1⟩
    rw [mem_write_ne hpt, hg.mem] at hp
    by_cases hpn : p = n
    · exact .inr ⟨hpn ▸ havail n hg.avail, hpn ▸ hg.not_avail⟩
    · rw [Function.update_of_ne hpn] at hp
      exact (honly p hp).imp_right fun hh => ⟨hh.1, fun hx => hh.2 (hg.grants.sub p hx).1⟩
  · rw [mem_write_ne htn, hg.mem, Function.update_self]

theorem onlyTables_refl (m : Machine) (a : Nat) : OnlyTables m m a := fun _ hp => absurd rfl hp

theorem Reached.descend (h : Reached m₀ m a ρ t) (hwf : m₀.buddy.pool.Wf) (hheld : TablesHeld m₀ a)
    (hplain : At table m₀.mem a ρ t → Pte.present (m₀.mem t i) = true →
      ρ.length = 0 ∨ ρ.length < 3 ∧ Pte.huge (m₀.mem t i) = false)
    (hi : i < 512) (hok : m.descend t i link oom = (.ok c, m')) :
    Reached m₀ m' a (ρ ++ [i]) c := by
  simp only [Machine.descend] at hok
  split at hok
  next hp =>
    obtain ⟨hc, rfl⟩ := Prod.mk.inj hok
    obtain rfl := Except.ok.inj hc
    cases h with
    | old same at_ =>
      subst same
      exact .old rfl (at_.concat (table_eq_some.mpr ⟨hi, hp, hplain at_ hp, rfl⟩))
    | new _ _ _ _ empty =>
      rw [empty i] at hp
      cases hp
  next hp =>
    split at hok
    · cases hok
    next n m₁ halloc =>
      obtain ⟨hc, rfl⟩ := Prod.mk.inj hok
      obtain rfl := Except.ok.inj hc
      cases h with
      | old same at_ =>
        subst same
        exact .of_link hwf (fun _ => id) (onlyTables_refl m a) (.inl ⟨ρ, at_⟩)
          (hheld t ⟨ρ, at_⟩) halloc
      | new wf avail only handed _ => exact .of_link wf avail only (.inr handed) handed.2 halloc

theorem Reached.write (h : Reached m₀ m a ρ c) (i v : Nat) : OnlyTables m₀ (m.write c i v) a := by
  intro p hp
  by_cases hpc : p = c
  · subst hpc
    cases h with
    | old same at_ => exact .inl ⟨ρ, at_⟩
    | new _ _ _ handed _ => exact .inr handed
  · rw [mem_write_ne hpc] at hp
    cases h with
    | old same _ => exact absurd (congrFun (congrArg Machine.mem same) p) hp
    | new _ _ only _ _ => exact only p hp

theorem at_pdpt (h : At table m.mem a [vpn virt 0] c) :
    Pte.present (m.mem a (vpn virt 0)) = true ∧ c = Pte.addr (m.mem a (vpn virt 0)) := by
  obtain ⟨t, ht, hc⟩ := At.of_concat (π := []) h
  obtain rfl : a = t := Option.some.inj ht
  obtain ⟨-, hp, -, hc⟩ := table_eq_some.mp hc
  exact ⟨hp, hc.symm⟩

theorem at_pd (h : At table m.mem a [vpn virt 0, vpn virt 1] c) :
    Pte.present (m.mem a (vpn virt 0)) = true ∧
    Pte.present (m.mem (Pte.addr (m.mem a (vpn virt 0))) (vpn virt 1)) = true ∧
    c = m.pdAt a virt := by
  obtain ⟨t, ht, hc⟩ := At.of_concat (π := [vpn virt 0]) h
  obtain ⟨hp, rfl⟩ := at_pdpt ht
  obtain ⟨-, hp', -, hc⟩ := table_eq_some.mp hc
  exact ⟨hp, hp', hc.symm⟩

variable {st : Machine.Style}

theorem walkCreate_reached (hwf : m.buddy.pool.Wf) (hheld : TablesHeld m a)
    (hplain : m.hugePdpte a virt = false) (h : Machine.walkCreate st m a virt = (.ok c, m')) :
    Reached m m' a [vpn virt 0, vpn virt 1] c := by
  simp only [Machine.walkCreate] at h
  split at h
  · cases h
  next pdpt m₁ hpdpt =>
    have h₀ : Reached m m a [] a := .old rfl .root
    have h₁ := h₀.descend hwf hheld (fun _ _ => .inl rfl) (vpn_lt virt 0) hpdpt
    refine h₁.descend hwf hheld (fun hat hp => .inr ⟨by simp, ?_⟩) (vpn_lt virt 1) h
    obtain ⟨hp₀, rfl⟩ := at_pdpt hat
    simpa [Machine.hugePdpte, hp₀, hp] using hplain

theorem walkCreate_present (hp₀ : Pte.present (m.mem a (vpn virt 0)) = true)
    (hp₁ : Pte.present (m.mem (Pte.addr (m.mem a (vpn virt 0))) (vpn virt 1)) = true) :
    Machine.walkCreate st m a virt = (.ok (m.pdAt a virt), m) := by
  simp only [Machine.walkCreate, Machine.descend, hp₀, hp₁, if_true]
  rfl

/-! ### A way through a huge page -/

theorem Allocated.eq_of_handed (hs : m.buddy.Sound) (halloc : m.allocZeroedPage = (some n, m'))
    (hp : pageSize ∣ p) (h : Handed m m' p) : n = p := by
  obtain ⟨b, hb, rfl⟩ : ∃ b, m.buddy.allocZeroedPage = (some n, b) ∧ m'.buddy = b := by
    unfold Machine.allocZeroedPage at halloc
    split at halloc
    · next b hb =>
      cases halloc
      exact ⟨b, hb, rfl⟩
    · cases halloc
  have hnd := (allocZeroedPage_some hs.wf halloc).page_dvd
  have hcov : Covers n 0 p := by
    by_contra hout
    exact h.2 ((Buddy.allocZeroedPage_avail hs hb p).mpr ⟨h.1, hout⟩)
  have hlow := hcov.1
  have hhigh : p < n + pageSize := hcov.2
  simp only [pageSize] at hnd hp hhigh
  omega

theorem onlyTables_link {j w : Nat} (hs : m.buddy.Sound) (hp : Pte.present (m.mem t i) = false)
    (htd : pageSize ∣ t) (hlink : Pte.present link = true) (hw : Pte.present w = true)
    (halloc : m.allocZeroedPage = (some n, m')) :
    OnlyTables m ((m'.write t i (n ||| link)).write n j w) a ↔
      IsTable m a t ∨ m.allocZeroedPage.1 = some t := by
  have hg := allocZeroedPage_some hs.wf halloc
  have hmem : ∀ p, p ≠ t → p ≠ n →
      ((m'.write t i (n ||| link)).write n j w).mem p = m.mem p := fun p hpt hpn => by
    rw [mem_write_ne hpn, mem_write_ne hpt, hg.mem, Function.update_of_ne hpn]
  have hhanded : Handed m ((m'.write t i (n ||| link)).write n j w) n := ⟨hg.avail, hg.not_avail⟩
  rw [halloc]
  constructor
  · intro h
    have hword : Pte.present (((m'.write t i (n ||| link)).write n j w).mem t i) = true := by
      by_cases htn : t = n
      · subst htn
        by_cases hij : i = j
        · subst hij
          simpa [Machine.write] using hw
        · simpa [Machine.write, hij] using present_or_left hlink
      · rw [mem_write_ne htn]
        simpa [Machine.write] using present_or_left hlink
    have hne : ((m'.write t i (n ||| link)).write n j w).mem t ≠ m.mem t := fun heq =>
      ne_of_present hp hword (congrFun heq i).symm
    refine (h t hne).imp_right fun hh => ?_
    exact congrArg some (Allocated.eq_of_handed hs halloc htd hh)
  · intro h p hpne
    by_cases hpt : p = t
    · subst hpt
      exact h.imp_right fun hn => by
        obtain rfl : n = p := Option.some.inj hn
        exact hhanded
    · by_cases hpn : p = n
      · exact .inr (hpn ▸ hhanded)
      · exact absurd (hmem p hpt hpn) hpne

/-! ### The four functions -/

theorem hugePdpte_eq_true (h : m.hugePdpte a virt = true) :
    Pte.present (m.mem a (vpn virt 0)) = true ∧
    Pte.present (m.mem (Pte.addr (m.mem a (vpn virt 0))) (vpn virt 1)) = true := by
  simp only [Machine.hugePdpte, Bool.and_eq_true] at h
  exact h.1

theorem hugePde_eq_true (h : m.hugePde a virt = true) :
    Pte.present (m.mem a (vpn virt 0)) = true ∧
    Pte.present (m.mem (Pte.addr (m.mem a (vpn virt 0))) (vpn virt 1)) = true ∧
    Pte.present (m.mem (m.pdAt a virt) (vpn virt 2)) = true := by
  simp only [Machine.hugePde, Bool.and_eq_true] at h
  exact ⟨h.1.1.1, h.1.1.2, h.1.2⟩

theorem mapStyled_present (hp₀ : Pte.present (m.mem a (vpn virt 0)) = true)
    (hp₁ : Pte.present (m.mem (Pte.addr (m.mem a (vpn virt 0))) (vpn virt 1)) = true)
    (hp₂ : Pte.present (m.mem (m.pdAt a virt) (vpn virt 2)) = true)
    (h : Machine.mapStyled st m a virt phys flags = (.ok (), m')) :
    OnlyTables m m' a ↔ IsTable m a (Pte.addr (m.mem (m.pdAt a virt) (vpn virt 2))) := by
  simp only [Machine.mapStyled, walkCreate_present hp₀ hp₁, Machine.descend, hp₂, if_true] at h
  split at h
  · cases h
  next hp =>
    obtain rfl := (Prod.mk.inj h).2
    exact onlyTables_write (ne_of_present (Bool.eq_false_of_not_eq_true hp) (present_or_present _))

theorem mapStyled_iff (hs : m.buddy.Sound) (hheld : TablesHeld m a)
    (hlink : Pte.present st.link = true)
    (h : Machine.mapStyled st m a virt phys flags = (.ok (), m')) :
    OnlyTables m m' a ↔ Lands m a virt := by
  unfold Lands
  simp only
  split
  next hhuge =>
    obtain ⟨hp₀, hp₁⟩ := hugePdpte_eq_true hhuge
    split
    next hp₂ => exact mapStyled_present hp₀ hp₁ hp₂ h
    next hp₂ =>
      rw [Bool.not_eq_true] at hp₂
      simp only [Machine.mapStyled, walkCreate_present hp₀ hp₁, Machine.descend, hp₂,
        Bool.false_eq_true, if_false] at h
      rcases halloc : m.allocZeroedPage with ⟨_ | n, m₁⟩
      · rw [halloc] at h
        cases h
      · rw [halloc] at h
        simp only at h
        split at h
        · cases h
        · obtain rfl := (Prod.mk.inj h).2
          have hlinked := onlyTables_link (a := a) (j := vpn virt 3) hs hp₂ (Pte.page_dvd_addr _)
            hlink (present_or_present (phys ||| flags)) halloc
          rwa [halloc] at hlinked
  next hplain =>
    rw [Bool.not_eq_true] at hplain
    by_cases hhuge : m.hugePde a virt = true
    · obtain ⟨hp₀, hp₁, hp₂⟩ := hugePde_eq_true hhuge
      exact (mapStyled_present hp₀ hp₁ hp₂ h).trans ⟨fun ht _ => ht, fun ht => ht hhuge⟩
    · refine iff_of_true ?_ fun hh => absurd hh hhuge
      simp only [Machine.mapStyled] at h
      split at h
      · cases h
      next pd m₁ hwalk =>
        split at h
        · cases h
        next pt m₂ hpt =>
          split at h
          · cases h
          · obtain rfl := (Prod.mk.inj h).2
            have hpd := walkCreate_reached hs.wf hheld hplain hwalk
            refine (hpd.descend hs.wf hheld (fun hat hp => .inr ⟨by simp, ?_⟩) (vpn_lt virt 2)
              hpt).write _ _
            obtain ⟨hp₀, hp₁, rfl⟩ := at_pd hat
            unfold Machine.pdAt at hp ⊢
            simpa [Machine.hugePde, hp₀, hp₁, hp] using hhuge

theorem map2m_iff (hs : m.buddy.Sound) (hheld : TablesHeld m a)
    (h : m.map2m a virt phys flags = (.ok (), m')) :
    OnlyTables m m' a ↔ (m.hugePdpte a virt = true → IsTable m a (m.pdAt a virt)) := by
  simp only [Machine.map2m] at h
  split at h
  · cases h
  next pd m₁ hwalk =>
    split at h
    · cases h
    next hp =>
      obtain rfl := (Prod.mk.inj h).2
      by_cases hhuge : m.hugePdpte a virt = true
      · obtain ⟨hp₀, hp₁⟩ := hugePdpte_eq_true hhuge
        rw [walkCreate_present hp₀ hp₁] at hwalk
        obtain ⟨hpd, rfl⟩ := Prod.mk.inj hwalk
        obtain rfl := Except.ok.inj hpd
        have hnew : Pte.present (phys ||| flags ||| ptePresent ||| pteHuge) = true := by
          rw [Nat.or_right_comm]
          exact present_or_present _
        exact (onlyTables_write (ne_of_present (Bool.eq_false_of_not_eq_true hp) hnew)).trans
          ⟨fun ht _ => ht, fun ht => ht hhuge⟩
      · refine iff_of_true ?_ fun hh => absurd hh hhuge
        exact (walkCreate_reached hs.wf hheld (Bool.eq_false_of_not_eq_true hhuge) hwalk).write _ _

theorem unmapPage_iff (h : m.unmapPage a virt = (.ok (), m')) :
    OnlyTables m m' a ↔ (m.hugePdpte a virt = true →
      IsTable m a (Pte.addr (m.mem (m.pdAt a virt) (vpn virt 2)))) := by
  simp only [Machine.unmapPage] at h
  split at h
  · cases h
  next hp₀ =>
  split at h
  · cases h
  next hp₁ =>
  split at h
  · cases h
  next hp₂ =>
  split at h
  · cases h
  next hsmall =>
  split at h
  · cases h
  next hp₃ =>
  simp only [Bool.not_eq_true', Bool.not_eq_false, Bool.not_eq_true] at hp₀ hp₁ hp₂ hp₃ hsmall
  obtain rfl := (Prod.mk.inj h).2
  have hzero : Pte.present 0 = false := by decide
  refine (onlyTables_write fun heq => ?_).trans ⟨fun ht _ => ht, fun ht => ?_⟩
  · rw [heq, hzero] at hp₃
    cases hp₃
  · by_cases hhuge : m.hugePdpte a virt = true
    · exact ht hhuge
    · have hplain : Pte.huge (m.mem (Pte.addr (m.mem a (vpn virt 0))) (vpn virt 1)) = false := by
        simpa [Machine.hugePdpte, hp₀, hp₁] using hhuge
      have hat : At table m.mem a ([] ++ [vpn virt 0]) (Pte.addr (m.mem a (vpn virt 0))) :=
        At.root.concat (table_eq_some.mpr ⟨vpn_lt virt 0, hp₀, .inl rfl, rfl⟩)
      have hat' := hat.concat (table_eq_some.mpr ⟨vpn_lt virt 1, hp₁, .inr ⟨by simp, hplain⟩, rfl⟩)
      exact ⟨_, hat'.concat (table_eq_some.mpr ⟨vpn_lt virt 2, hp₂, .inr ⟨by simp, hsmall⟩, rfl⟩)⟩

/-- A call that succeeds changes tables of the tree alone, exactly when no huge page on the way is
taken for a table, or the page that is written through it is a table by chance. -/
theorem kernel_map_only_tables_iff (hs : m.buddy.Sound) (a virt phys flags : Nat)
    (hheld : TablesHeld m a) (hkernel : TablesHeld m m.kernelPml4) :
    ((m.mapPage a virt phys flags).1 = .ok () →
      (OnlyTables m (m.mapPage a virt phys flags).2 a ↔ Lands m a virt)) ∧
    ((m.mapKernelPage virt phys flags).1 = .ok () →
      (OnlyTables m (m.mapKernelPage virt phys flags).2 m.kernelPml4 ↔
        Lands m m.kernelPml4 virt)) ∧
    ((m.map2m a virt phys flags).1 = .ok () →
      (OnlyTables m (m.map2m a virt phys flags).2 a ↔
        (m.hugePdpte a virt = true → IsTable m a (m.pdAt a virt)))) ∧
    ((m.unmapPage a virt).1 = .ok () →
      (OnlyTables m (m.unmapPage a virt).2 a ↔ (m.hugePdpte a virt = true →
        IsTable m a (Pte.addr (m.mem (m.pdAt a virt) (vpn virt 2)))))) := by
  refine ⟨fun h => mapStyled_iff hs hheld (by decide) (Prod.ext h rfl), fun h => ?_,
    fun h => map2m_iff hs hheld (Prod.ext h rfl), fun h => unmapPage_iff (Prod.ext h rfl)⟩
  unfold Machine.mapKernelPage at h ⊢
  split at h
  · cases h
  next hnull =>
    rw [if_neg hnull]
    exact mapStyled_iff hs hkernel (by decide) (Prod.ext h rfl)

/-- A kernel tree with a 1 GiB page, a 2 MiB page, and data behind the former that can be read as
entries. -/
def hugePages : Machine where
  buddy := (Buddy.init 0x200000 16).addRegion 0x208000 0x8000
  mem := fun p i =>
    if p = 0x200000 ∧ i = 0 then 0x201000 + 7
    else if p = 0x201000 ∧ i = 0 then 0x40000000 + 0x83
    else if p = 0x201000 ∧ i = 1 then 0x202000 + 7
    else if p = 0x202000 ∧ i = 0 then 0x600000 + 0x83
    else if p = 0x40000000 ∧ i = 1 then 0x50000000 + 1
    else if p = 0x50000000 ∧ i = 0 then 1
    else 0
  pageRefc := fun _ => 0
  kernelPml4 := 0x200000
  vmas := []

theorem hugePages_gains : Buddy.Gains (Buddy.init 0x200000 16) hugePages.buddy
    fun x => 0x208000 ≤ x ∧ x < 0x208000 + 0x8000 :=
  Buddy.addRegion_spec (Pool.wf_empty _ _ _) (by decide) (by decide) (by decide) (by
    rintro x _ (⟨o, a, hm, -⟩ | ⟨p, hm, -⟩)
    · cases hm
    · cases hm)

theorem hugePages_sound : hugePages.buddy.Sound where
  wf := hugePages_gains.wf
  pages := by
    rw [hugePages_gains.pages]
    decide
  away := by
    rw [hugePages_gains.reserved]
    exact fun r hr => absurd hr List.not_mem_nil

theorem hugePages_avail {x : Nat} (h : hugePages.buddy.pool.AvailAt x) :
    0x208000 ≤ x ∧ x < 0x210000 := by
  rcases h with hf | ⟨p, hm, -⟩
  · rcases hugePages_gains.sub x hf with ⟨o, a, hm, -⟩ | h
    · cases hm
    · exact h
  · rw [show hugePages.buddy.pool.qContents = [] from hugePages_gains.queue] at hm
    cases hm

theorem hugePages_at {π : List Nat} {q : Nat} (h : At table hugePages.mem 0x200000 π q) :
    (π = [] ∧ q = 0x200000) ∨ (π = [0] ∧ q = 0x201000) ∨ (π = [0, 1] ∧ q = 0x202000) := by
  induction π using List.reverseRecOn generalizing q with
  | nil => exact .inl ⟨rfl, (Option.some.inj h).symm⟩
  | append_singleton π i ih =>
    obtain ⟨t, ht, hq⟩ := h.of_concat
    rcases ih ht with ⟨rfl, rfl⟩ | ⟨rfl, rfl⟩ | ⟨rfl, rfl⟩
    · by_cases hi : i = 0
      · subst hi
        have hroot : table 0 0 (hugePages.mem 0x200000 0) = some 0x201000 := by decide
        exact .inr (.inl ⟨rfl, Option.some.inj (hq.symm.trans hroot)⟩)
      · rw [show hugePages.mem 0x200000 i = 0 by simp [hugePages, hi], table_zero] at hq
        cases hq
    · by_cases hi : i = 0
      · subst hi
        have hhuge : table 1 0 (hugePages.mem 0x201000 0) = none := by decide
        cases hq.symm.trans hhuge
      by_cases hi₁ : i = 1
      · subst hi₁
        have hpd : table 1 1 (hugePages.mem 0x201000 1) = some 0x202000 := by decide
        exact .inr (.inr ⟨rfl, Option.some.inj (hq.symm.trans hpd)⟩)
      · rw [show hugePages.mem 0x201000 i = 0 by simp [hugePages, hi, hi₁], table_zero] at hq
        cases hq
    · by_cases hi : i = 0
      · subst hi
        have hhuge : table 2 0 (hugePages.mem 0x202000 0) = none := by decide
        cases hq.symm.trans hhuge
      · rw [show hugePages.mem 0x202000 i = 0 by simp [hugePages, hi], table_zero] at hq
        cases hq

theorem hugePages_table {q : Nat} (h : IsTable hugePages 0x200000 q) :
    q = 0x200000 ∨ q = 0x201000 ∨ q = 0x202000 := by
  obtain ⟨π, hat⟩ := h
  exact (hugePages_at hat).imp And.right (Or.imp And.right And.right)

theorem hugePages_held : TablesHeld hugePages 0x200000 := by
  intro t ht hav
  have hx := hugePages_avail hav
  rcases hugePages_table ht with rfl | rfl | rfl <;> omega

/-- A page is mapped where nothing is. -/
theorem kernel_map_only_tables_plain : (hugePages.mapPage 0x200000 0x80000000 0x300000 3).1 =
    .ok () ∧
    OnlyTables hugePages (hugePages.mapPage 0x200000 0x80000000 0x300000 3).2 0x200000 := by
  have hok : (hugePages.mapPage 0x200000 0x80000000 0x300000 3).1 = .ok () := by decide
  refine ⟨hok, ((kernel_map_only_tables_iff hugePages_sound 0x200000 0x80000000 0x300000 3
    hugePages_held hugePages_held).1 hok).mpr ?_⟩
  have hplain : hugePages.hugePdpte 0x200000 0x80000000 = false := by decide
  have hsmall : hugePages.hugePde 0x200000 0x80000000 = false := by decide
  simp [Lands, hplain, hsmall]

theorem not_onlyTables {q j : Nat} (hq : 0x210000 ≤ q)
    (hword : m'.mem q j ≠ hugePages.mem q j) : ¬ OnlyTables hugePages m' 0x200000 := by
  intro h
  rcases h q (fun heq => hword (congrFun heq j)) with ht | hh
  · rcases hugePages_table ht with rfl | rfl | rfl <;> omega
  · have := hugePages_avail hh.1
    omega

/-- Each of the four functions succeeds and writes into the data behind a huge page. -/
theorem huge_page_taken_for_table :
    ((hugePages.mapPage 0x200000 0 0x300000 3).1 = .ok () ∧
      ¬ OnlyTables hugePages (hugePages.mapPage 0x200000 0 0x300000 3).2 0x200000) ∧
    ((hugePages.mapKernelPage 0x40000000 0x300000 3).1 = .ok () ∧
      ¬ OnlyTables hugePages (hugePages.mapKernelPage 0x40000000 0x300000 3).2 0x200000) ∧
    ((hugePages.map2m 0x200000 0 0x400000 3).1 = .ok () ∧
      ¬ OnlyTables hugePages (hugePages.map2m 0x200000 0 0x400000 3).2 0x200000) ∧
    (hugePages.unmapPage 0x200000 0x200000).1 = .ok () ∧
      ¬ OnlyTables hugePages (hugePages.unmapPage 0x200000 0x200000).2 0x200000 := by
  refine ⟨⟨by decide, not_onlyTables (q := 0x40000000) (j := 0) (by decide) ?_⟩,
    ⟨by decide, not_onlyTables (q := 0x600000) (j := 0) (by decide) ?_⟩,
    ⟨by decide, not_onlyTables (q := 0x40000000) (j := 0) (by decide) ?_⟩,
    by decide, not_onlyTables (q := 0x50000000) (j := 0) (by decide) ?_⟩ <;> decide

end Rynex.Paging
