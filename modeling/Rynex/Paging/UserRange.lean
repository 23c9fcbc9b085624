import Rynex.Paging.Protect

/-! `user_range_valid`: the check of a user buffer, and what an address space must look like for it
to mean that user mode has access to the buffer. -/

namespace Rynex.Paging

open Rynex.Memory Rynex.Lib Rynex.Lib.Radix

variable {m m' m₁ : Machine} {a t va va' addr len : Nat} {w : Bool}

namespace Machine

/-- The address and the entry of the page that `virt` lies in. As in `get_pte_in`, a 1 GiB page is
not told from a page directory. -/
def resolvePhysFlags (m : Machine) (pml4 virt : Nat) : Option (Nat × Nat) :=
  let pml4e := m.mem pml4 (vpn virt 0)
  if !Pte.present pml4e then none
  else
    let pdpte := m.mem (Pte.addr pml4e) (vpn virt 1)
    if !Pte.present pdpte then none
    else
      let pde := m.mem (Pte.addr pdpte) (vpn virt 2)
      if !Pte.present pde then none
      else if Pte.huge pde then some (Pte.addr pde ||| (virt &&& (0x200000 - 1)), pde)
      else
        let pte := m.mem (Pte.addr pde) (vpn virt 3)
        if !Pte.present pte then none else some (Pte.addr pte ||| (virt &&& (pageSize - 1)), pte)

/-- The first half of the loop body: an absent page is paged in, if that can be done. -/
def ensurePage (m : Machine) (pml4 page : Nat) : Bool × Machine :=
  if (m.resolvePhys pml4 page).isSome then (true, m)
  else
    match m.handleDemandPage pml4 page with
    | (false, m) => (false, m)
    | (true, m) => ((m.resolvePhys pml4 page).isSome, m)

def pageAllows (m : Machine) (pml4 page : Nat) (wantWrite : Bool) : Bool :=
  (m.resolvePhysFlags pml4 page).any fun r => Pte.user r.2 && (!wantWrite || Pte.writable r.2)

/-- The loop of `user_range_valid` over the pages that are left. -/
def validPages (pml4 : Nat) (wantWrite : Bool) (m : Machine) : List Nat → Bool × Machine
  | [] => (true, m)
  | page :: pages =>
    match m.ensurePage pml4 page with
    | (false, m) => (false, m)
    | (true, m) =>
      if m.pageAllows pml4 page wantWrite then validPages pml4 wantWrite m pages else (false, m)

end Machine

def isUserAddr (addr : Nat) : Bool := addr < 0x0000_8000_0000_0000

/-- `addr.checked_add(len)` fails from `2 ^ 64` on. -/
def Machine.userRangeValid (m : Machine) (pml4 addr len : Nat) (wantWrite : Bool) :
    Bool × Machine :=
  if len = 0 then (true, m)
  else if 2 ^ 64 ≤ addr + len then (false, m)
  else if !isUserAddr addr || !isUserAddr (addr + len - 1) then (false, m)
  else if pml4 = 0 then (false, m)
  else m.validPages pml4 wantWrite (pagesFrom (pageAlignDown addr) (addr + len))

/-- No entry of a page-directory-pointer table of `a` maps a page. -/
def NoGiB (m : Machine) (a : Nat) : Prop :=
  ∀ i q j, At table m.mem a [i] q → j < 512 → Pte.present (m.mem q j) = true →
    Pte.huge (m.mem q j) = false

/-! ### User-accessible pages -/

/-- The address lies in the user half, in a page that user mode has access to. -/
def UserPage (m : Machine) (a va : Nat) : Prop :=
  va < 2 ^ 47 ∧ (view m a va).any (fun v => v.2.2) = true

instance (m : Machine) (a va : Nat) : Decidable (UserPage m a va) := by
  unfold UserPage; infer_instance

/-- An address space as the kernel builds them: its tables form a tree and its user half is open
to user mode. -/
structure OpenSpace (m : Machine) (a : Nat) : Prop extends Space m a where
  isOpen : Open m a

theorem OpenSpace.gates (h : OpenSpace m a) (hva : va < 2 ^ 47) :
    gate 0 (m.mem a (vpn va 0)) = true ∧
    (Pte.present (m.mem a (vpn va 0)) = true →
      let pdpt := Pte.addr (m.mem a (vpn va 0))
      At table m.mem a [vpn va 0] pdpt ∧ gate 1 (m.mem pdpt (vpn va 1)) = true ∧
      (Pte.present (m.mem pdpt (vpn va 1)) = true →
        let pd := Pte.addr (m.mem pdpt (vpn va 1))
        At table m.mem a [vpn va 0, vpn va 1] pd ∧ gate 2 (m.mem pd (vpn va 2)) = true)) := by
  have hlt := vpn_zero_lt hva
  refine ⟨h.isOpen [] a _ .root (by simp) (by simpa using hlt), fun h0 => ?_⟩
  have hpdpt : At table m.mem a [vpn va 0] (Pte.addr (m.mem a (vpn va 0))) :=
    At.root.concat (table_eq_some.mpr ⟨vpn_lt va 0, h0, .inl rfl, rfl⟩)
  have hg : gate 1 (m.mem (Pte.addr (m.mem a (vpn va 0))) (vpn va 1)) = true :=
    h.isOpen _ _ _ hpdpt (by simp) (by simpa using hlt)
  refine ⟨hpdpt, hg, fun h1 => ?_⟩
  have hh : Pte.huge (m.mem (Pte.addr (m.mem a (vpn va 0))) (vpn va 1)) = false := by
    simpa [gate, h1] using (show _ ∧ _ by simpa [gate, h1] using hg).2
  have hpd := hpdpt.concat (table_eq_some.mpr ⟨vpn_lt va 1, h1, .inr ⟨by simp, hh⟩, rfl⟩)
  exact ⟨hpd, h.isOpen _ _ _ hpd (by simp) (by simpa using hlt)⟩

theorem gate_present {d e : Nat} (hd : d < 2) (hg : gate d e = true) (hp : Pte.present e = true) :
    Pte.user e = true ∧ (d = 0 ∨ Pte.huge e = false) := by
  simp only [gate, hp, if_true] at hg
  rcases (show d = 0 ∨ d = 1 by omega) with rfl | rfl <;> simpa using hg

/-- The entry that the kernel looks at decides what user mode may do. -/
theorem OpenSpace.view_user (h : OpenSpace m a) (hva : va < 2 ^ 47) :
    (view m a va).any (fun v => v.2.2) = (m.resolvePhysFlags a va).any fun r => Pte.user r.2 := by
  obtain ⟨hg0, hdown⟩ := h.gates hva
  simp only [view, look, Machine.resolvePhysFlags]
  by_cases h0 : Pte.present (m.mem a (vpn va 0)) = true
  case neg => simp [h0]
  obtain ⟨hpdpt, hg1, hdown⟩ := hdown h0
  obtain ⟨hu0, -⟩ := gate_present (by decide) hg0 h0
  generalize Pte.addr (m.mem a (vpn va 0)) = pdpt at *
  by_cases h1 : Pte.present (m.mem pdpt (vpn va 1)) = true
  case neg => simp [h0, h1]
  obtain ⟨hpd, -⟩ := hdown h1
  obtain ⟨hu1, hh1 | hh1⟩ := gate_present (by decide) hg1 h1
  · cases hh1
  generalize Pte.addr (m.mem pdpt (vpn va 1)) = pd at *
  by_cases h2 : Pte.present (m.mem pd (vpn va 2)) = true
  case neg => simp [h0, h1, h2, hh1]
  by_cases hh2 : Pte.huge (m.mem pd (vpn va 2)) = true
  case pos => simp [h0, h1, h2, hh1, hh2, hu0, hu1]
  have hpt := table_eq_some.mpr ⟨vpn_lt va 2, h2, .inr ⟨show 2 < 3 by decide, by simpa using hh2⟩,
    rfl⟩
  have hstrict := h.strict rfl hpd hpt
  by_cases h3 : Pte.present (m.mem (Pte.addr (m.mem pd (vpn va 2))) (vpn va 3)) = true
  case neg => simp [h0, h1, h2, h3, hh1, hh2]
  cases hu2 : Pte.user (m.mem pd (vpn va 2)) with
  | true => simp [h0, h1, h2, h3, hh1, hh2, hu0, hu1]
  | false => simp [h0, h1, h2, h3, hh1, hh2, hstrict hu2 _ h3]

/-- What does not resolve is not mapped, and has no huge page on its way. -/
theorem OpenSpace.of_resolvePhys_none (h : OpenSpace m a) (hva : va < 2 ^ 47)
    (hr : m.resolvePhys a va = none) : plainWay m va 3 a = true ∧ view m a va = none := by
  obtain ⟨hg0, hdown⟩ := h.gates hva
  rw [plainWay_three]
  simp only [Machine.resolvePhys] at hr
  simp only [view, look]
  by_cases h0 : Pte.present (m.mem a (vpn va 0)) = true
  case neg => simp [h0]
  obtain ⟨-, hg1, hdown⟩ := hdown h0
  generalize Pte.addr (m.mem a (vpn va 0)) = pdpt at *
  rw [plainWay_two]
  by_cases h1 : Pte.present (m.mem pdpt (vpn va 1)) = true
  case neg =>
    have hh1 : Pte.huge (m.mem pdpt (vpn va 1)) = false := by simpa [gate, h1] using hg1
    simp [h0, h1, hh1]
  obtain ⟨-, hg2⟩ := hdown h1
  obtain ⟨-, hh1 | hh1⟩ := gate_present (by decide) hg1 h1
  · cases hh1
  generalize Pte.addr (m.mem pdpt (vpn va 1)) = pd at *
  rw [plainWay_one]
  by_cases h2 : Pte.present (m.mem pd (vpn va 2)) = true
  case neg =>
    have hh2 : Pte.huge (m.mem pd (vpn va 2)) = false := by simpa [gate, h2] using hg2
    simp [h0, h1, h2, hh1, hh2]
  by_cases hh2 : Pte.huge (m.mem pd (vpn va 2)) = true
  case pos => simp [h0, h1, h2, hh2] at hr
  simp [h0, h1, h2, hh2] at hr
  simp [h0, h1, h2, hh1, hh2, hr]

/-! ### The check -/

/-- What the check does to the machine: the address space stays open, and what user mode had access
to it still has. -/
structure Admits (m m' : Machine) (a : Nat) : Prop where
  space : OpenSpace m' a
  keeps : ∀ va, UserPage m a va → UserPage m' a va

theorem Admits.refl (h : OpenSpace m a) : Admits m m a := ⟨h, fun _ => id⟩

theorem Admits.trans (h : Admits m m₁ a) (h' : Admits m₁ m' a) : Admits m m' a :=
  ⟨h'.space, fun va hva => h'.keeps va (h.keeps va hva)⟩

theorem OpenSpace.spares (h : OpenSpace m a) (hs : Spares (IsTable m a) m m')
    (hsmall : ∀ x, m'.buddy.pool.AvailAt x → x < 2 ^ 52) :
    Admits m m' a ∧ ∀ va, view m' a va = view m a va := by
  obtain ⟨hspace, hat, hview⟩ := h.toSpace.spares hs hsmall
  have hopen : Open m' a := h.isOpen.congr (fun _ _ => (hat _ _).mp) fun π q k hq _ hg => by
    rwa [hs.mem q ⟨π, hq⟩]
  exact ⟨⟨⟨hspace, hopen⟩, fun va hva => ⟨hva.1, hview va ▸ hva.2⟩⟩, hview⟩

theorem OpenSpace.mapInto {res : Except String Unit} {phys flags : Nat} (h : OpenSpace m a)
    (hplain : plainWay m va 3 a = true) (hnone : view m a va = none)
    (hm : m.mapInto a va phys flags = (res, m')) : Admits m m' a := by
  obtain ⟨hspace, hopen, hview⟩ := h.toSpace.mapInto hplain hm
  refine ⟨⟨hspace, hopen h.isOpen⟩, fun va' hva' => ⟨hva'.1, ?_⟩⟩
  rw [hview va' fun hpath => ?_]
  · exact hva'.2
  -- on the same path, the page would not be mapped either
  have hperm : (view m a va').map (·.2) = (view m a va).map (·.2) := look_perm hpath
  rw [hnone, Option.map_none, Option.map_eq_none_iff] at hperm
  have huser := hva'.2
  rw [hperm] at huser
  cases huser

theorem OpenSpace.handleDemandPage {res : Bool} (h : OpenSpace m a) (hva : va < 2 ^ 47)
    (hpage : va % pageSize = 0) (hr : m.resolvePhys a va = none)
    (hm : m.handleDemandPage a va = (res, m')) : Admits m m' a := by
  unfold Machine.handleDemandPage at hm
  obtain ⟨hplain, hnone⟩ := h.of_resolvePhys_none hva hr
  split at hm
  · cases hm
    exact .refl h
  split at hm
  · next m₁ ha =>
    cases hm
    have htook := allocPage_took h.wf ha
    exact (h.spares (htook.spares h.guarded) fun x hx => h.small x (htook.sub x hx)).1
  next p m₁ ha =>
  have htook := allocPage_took h.wf ha
  have hp : ¬ IsTable m a p := fun hT => h.held p hT (htook.page p rfl).1
  have hsp := htook.spares h.guarded
  have hs : Spares (IsTable m a) m (m₁.zeroPage p) := hsp.trans (hsp.spares_writePage hp _)
  obtain ⟨hadm, hview⟩ := h.spares hs fun x hx => h.small x (htook.sub x hx)
  have hplain' : plainWay (m₁.zeroPage p) va 3 a = true := by
    rw [plainWay_congr fun q hq => hs.mem q (way_isTable .root rfl hq)]
    exact hplain
  simp only [hpage, Nat.sub_zero] at hm
  split at hm
  · next e m₂ hmap =>
    cases hm
    exact hadm.trans (hadm.space.mapInto hplain' ((hview va).trans hnone) hmap)
  · next m₂ hmap =>
    cases hm
    exact hadm.trans (hadm.space.mapInto hplain' ((hview va).trans hnone) hmap)

theorem OpenSpace.ensurePage {res : Bool} (h : OpenSpace m a) (hva : va < 2 ^ 47)
    (hpage : va % pageSize = 0) (hm : m.ensurePage a va = (res, m')) : Admits m m' a := by
  unfold Machine.ensurePage at hm
  split_ifs at hm with hr
  · cases hm
    exact .refl h
  have hnone : m.resolvePhys a va = none := by simpa using hr
  split at hm
  · next m₁ hd =>
    cases hm
    exact h.handleDemandPage hva hpage hnone hd
  · next m₁ hd =>
    cases hm
    exact h.handleDemandPage hva hpage hnone hd

theorem OpenSpace.userPage (h : OpenSpace m a) (hva : va < 2 ^ 47)
    (hallow : m.pageAllows a va w = true) : UserPage m a va := by
  refine ⟨hva, ?_⟩
  rw [h.view_user hva]
  unfold Machine.pageAllows at hallow
  cases hr : m.resolvePhysFlags a va with
  | none => rw [hr] at hallow; cases hallow
  | some r =>
    rw [hr] at hallow
    simp only [Option.any_some, Bool.and_eq_true] at hallow ⊢
    exact hallow.1

theorem OpenSpace.validPages {res : Bool} {pages : List Nat} (h : OpenSpace m a)
    (hpages : ∀ p ∈ pages, p < 2 ^ 47 ∧ p % pageSize = 0)
    (hm : m.validPages a w pages = (res, m')) :
    Admits m m' a ∧ (res = true → ∀ p ∈ pages, UserPage m' a p) := by
  induction pages generalizing m with
  | nil =>
    cases hm
    exact ⟨.refl h, by simp⟩
  | cons page pages ih =>
    obtain ⟨hlt, hdvd⟩ := hpages page (by simp)
    simp only [Machine.validPages] at hm
    split at hm
    · next m₁ he =>
      cases hm
      exact ⟨h.ensurePage hlt hdvd he, nofun⟩
    next m₁ he =>
    have hadm := h.ensurePage hlt hdvd he
    split_ifs at hm with hallow
    · obtain ⟨hadm', hall⟩ := ih hadm.space (fun p hp => hpages p (by simp [hp])) hm
      refine ⟨hadm.trans hadm', fun hres p hp => ?_⟩
      rcases List.mem_cons.mp hp with rfl | hp
      · exact hadm'.keeps p (hadm.space.userPage hlt hallow)
      · exact hall hres p hp
    · cases hm
      exact ⟨hadm, nofun⟩

theorem path_pageAlignDown (va : Nat) : path (pageAlignDown va) = path va := by
  have hpage : pageSize = 4096 := rfl
  simp only [path, vpn_eq, pageAlignDown, hpage, List.cons.injEq, and_true]
  omega

theorem userPage_pageAlignDown : UserPage m a (pageAlignDown va) ↔ UserPage m a va := by
  have hperm : (view m a (pageAlignDown va)).map (·.2) = (view m a va).map (·.2) :=
    look_perm (path_pageAlignDown va)
  have hany : (view m a (pageAlignDown va)).any (fun v => v.2.2) = (view m a va).any fun v =>
    v.2.2 := by
    have := congrArg (Option.any Prod.snd) hperm
    simpa [Option.any_map, Function.comp_def] using this
  have hhalf : pageAlignDown va < 2 ^ 47 ↔ va < 2 ^ 47 := by
    have hpage : pageSize = 4096 := rfl
    simp only [pageAlignDown, hpage]
    omega
  rw [UserPage, UserPage, hany, hhalf]

theorem mem_pagesFrom {start stop p : Nat} : p ∈ pagesFrom start stop ↔
    ∃ k, start + k * pageSize = p ∧ p < stop := by
  have hpage : pageSize = 4096 := rfl
  simp only [pagesFrom, List.mem_map, List.mem_range, hpage]
  constructor
  · rintro ⟨k, hk, rfl⟩
    exact ⟨k, rfl, by omega⟩
  · rintro ⟨k, rfl, hlt⟩
    exact ⟨k, by omega, rfl⟩

theorem pageAlignDown_mem_pagesFrom {x : Nat} (hlo : addr ≤ x) (hhi : x < addr + len) :
    pageAlignDown x ∈ pagesFrom (pageAlignDown addr) (addr + len) := by
  have hpage : pageSize = 4096 := rfl
  simp only [mem_pagesFrom, pageAlignDown, hpage]
  exact ⟨x / 4096 - addr / 4096, by omega, by omega⟩

theorem OpenSpace.userRangeValid {res : Bool} (h : OpenSpace m a)
    (hm : m.userRangeValid a addr len w = (res, m')) :
    Admits m m' a ∧ (res = true → ∀ x, addr ≤ x → x < addr + len → UserPage m' a x) := by
  unfold Machine.userRangeValid at hm
  split_ifs at hm with h0 h1 h2 h3
  case pos =>
    cases hm
    exact ⟨.refl h, fun _ x hlo hhi => by omega⟩
  case neg =>
    have hend : addr + len - 1 < 2 ^ 47 := by
      simp only [isUserAddr, Bool.or_eq_true, Bool.not_eq_true', decide_eq_false_iff_not] at h2
      omega
    have hpages : ∀ p ∈ pagesFrom (pageAlignDown addr) (addr + len),
        p < 2 ^ 47 ∧ p % pageSize = 0 := by
      intro p hp
      obtain ⟨k, hk, hlt⟩ := mem_pagesFrom.mp hp
      have hpage : pageSize = 4096 := rfl
      simp only [pageAlignDown, hpage] at hk ⊢
      omega
    obtain ⟨hadm, hall⟩ := h.validPages hpages hm
    refine ⟨hadm, fun hres x hlo hhi => userPage_pageAlignDown.mp ?_⟩
    exact hall hres _ (pageAlignDown_mem_pagesFrom hlo hhi)
  all_goals
    cases hm
    exact ⟨.refl h, nofun⟩

end Rynex.Paging
