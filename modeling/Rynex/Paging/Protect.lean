import Rynex.Paging.Space

/-! What the memory calls of a process leave of the kernel half and of the pages that only the
kernel may use. None of the calls checks its range, so that it is up to the caller to name user
pages only. -/

namespace Rynex.Paging

open Rynex.Memory Rynex.Lib Rynex.Lib.Radix

variable {m m' m₀ m₁ : Machine} {a p q t va va' : Nat}

/-- The page of `va` may be edited: it lies in the user half, no huge page covers it, and if it is
mapped then for user mode. -/
def Editable (a : Nat) (m : Machine) (va : Nat) : Prop :=
  va < 2 ^ 47 ∧ plainWay m va 3 a = true ∧ (view m a va).all (fun v => v.2.2) = true

instance (a : Nat) (m : Machine) (va : Nat) : Decidable (Editable a m va) := by
  unfold Editable; infer_instance

/-- If the allocator takes back the user page of `va`, it is a managed page in use and none of the
tables. -/
def Releasable (a : Nat) (m : Machine) (va : Nat) : Prop :=
  ∀ pt, m.getPteIn a va = some pt → m.buddy.accepts (Pte.addr (m.mem pt (vpn va 3))) = true →
    Pte.addr (m.mem pt (vpn va 3)) ≠ 0 ∧
    Fits m.buddy.base m.buddy.limit (Pte.addr (m.mem pt (vpn va 3))) 0 ∧
    Apart (IsTable m a) m (Pte.addr (m.mem pt (vpn va 3)))

/-- An address of the kernel half, or one that only the kernel may use. -/
def Protected (m : Machine) (a va : Nat) : Prop :=
  256 ≤ vpn va 0 ∨ ∃ p w, view m a va = some (p, w, false)

/-- The invariant of a run of calls from `m₀`. -/
structure Intact (m₀ m : Machine) (a : Nat) : Prop extends Space m a where
  same : ∀ va, Protected m₀ a va → view m a va = view m₀ a va

theorem look_perm {levels : Nat} {w u : Bool} (h : path va' = path va) :
    (look m va' levels t w u).map (·.2) = (look m va levels t w u).map (·.2) := by
  have hv : ∀ d ≤ 3, vpn va' d = vpn va d := by
    simp only [path, List.cons.injEq, and_true] at h
    intro d hd
    interval_cases d <;> simp [h]
  induction levels generalizing t w u with
  | zero => simp only [look, hv 3 (by omega)]
  | succ levels ih =>
    simp only [look, hv (2 - levels) (by omega)]
    split
    · rfl
    split
    · rfl
    · exact ih

theorem Intact.apart (h : Intact m₀ m a) (hva : Editable a m va) (hp : Protected m₀ a va') :
    path va' ≠ path va := by
  intro hpath
  obtain ⟨hlt, -, huser⟩ := hva
  rcases id hp with hk | ⟨p, w, hview⟩
  · have h0 : vpn va' 0 = vpn va 0 := (List.cons.inj hpath).1
    have := vpn_zero_lt hlt
    omega
  · rw [← h.same va' hp] at hview
    have hperm : (view m a va').map (·.2) = (view m a va).map (·.2) := look_perm hpath
    rw [hview] at hperm
    cases hv : view m a va with
    | none => rw [hv] at hperm; cases hperm
    | some v =>
      rw [hv] at hperm huser
      simp only [Option.map_some, Option.some.injEq] at hperm
      rw [Option.all_some, ← hperm] at huser
      cases huser

theorem Intact.step (h : Intact m₀ m a) (hspace : Space m' a)
    (hview : ∀ va', Protected m₀ a va' → view m' a va' = view m a va') : Intact m₀ m' a :=
  ⟨hspace, fun va' hp => (hview va' hp).trans (h.same va' hp)⟩

theorem Intact.congr (h : Intact m₀ m a) (hbuddy : m'.buddy = m.buddy) (hmem : m'.mem = m.mem) :
    Intact m₀ m' a := by
  have hs : Spares (IsTable m a) m m' :=
    ⟨h.guarded.congr hbuddy, fun q _ => by rw [hmem]⟩
  obtain ⟨hspace, -, hview⟩ := h.spares hs (hbuddy ▸ h.small)
  exact h.step hspace fun va' _ => hview va'

theorem Intact.mapInto {res : Except String Unit} {phys flags : Nat} (h : Intact m₀ m a)
    (hva : Editable a m va) (hm : m.mapInto a va phys flags = (res, m')) : Intact m₀ m' a := by
  obtain ⟨hspace, -, hview⟩ := h.toSpace.mapInto hva.2.1 hm
  exact h.step hspace fun va' hp => hview va' (h.apart hva hp)

theorem plainWay_congr {levels : Nat} (h : ∀ q ∈ way m va levels t, m'.mem q = m.mem q) :
    plainWay m' va levels t = plainWay m va levels t := by
  induction levels generalizing t with
  | zero => rfl
  | succ levels ih =>
    have ht := h t (by simp [way])
    simp only [plainWay, ht]
    by_cases hh : levels = 2 ∨ Pte.huge (m.mem t (vpn va (2 - levels))) = false
    case neg =>
      have : (decide (levels = 2) || !Pte.huge (m.mem t (vpn va (2 - levels)))) = false := by
        simpa using hh
      rw [this, Bool.false_and, Bool.false_and]
    by_cases hp : Pte.present (m.mem t (vpn va (2 - levels))) = true
    case neg => simp [hp]
    rw [ih fun q hq => h q ?_]
    simp only [way, List.mem_cons]
    right
    rwa [if_pos (by simpa [hp] using hh)]

theorem Intact.take (h : Intact m₀ m a) (ha : m.allocPage = (some p, m₁)) :
    Intact m₀ (m₁.zeroPage p) a ∧ ∀ va, Editable a m va → Editable a (m₁.zeroPage p) va := by
  have htook := allocPage_took h.wf ha
  have hp : ¬ IsTable m a p := fun hT => h.held p hT (htook.page p rfl).1
  have hsp := htook.spares h.guarded
  have hs : Spares (IsTable m a) m (m₁.zeroPage p) := hsp.trans (hsp.spares_writePage hp _)
  obtain ⟨hspace, -, hview⟩ := h.spares hs fun x hx => h.small x (htook.sub x hx)
  refine ⟨h.step hspace fun va' _ => hview va', fun va hva => ?_⟩
  refine ⟨hva.1, ?_, hview va ▸ hva.2.2⟩
  rw [plainWay_congr fun q hq => hs.mem q (way_isTable .root rfl hq)]
  exact hva.2.1

theorem Intact.refuse (h : Intact m₀ m a) (ha : m.allocPage = (none, m₁)) : Intact m₀ m₁ a := by
  have htook := allocPage_took h.wf ha
  obtain ⟨hspace, -, hview⟩ := h.spares (htook.spares h.guarded)
    fun x hx => h.small x (htook.sub x hx)
  exact h.step hspace fun va' _ => hview va'

theorem Intact.mprotectPage {flags : Nat} (h : Intact m₀ m a)
    (hok : (m.resolvePhys a va).isSome = true → Editable a m va) :
    Intact m₀ (Machine.mprotectPage a flags m va) a := by
  unfold Machine.mprotectPage
  split
  · exact h
  · next phys hphys => exact h.mapInto (hok (by rw [hphys]; rfl)) rfl

theorem Intact.brkPage (h : Intact m₀ m a) (hok : Editable a m va) :
    Intact m₀ (Machine.brkPage a m va) a := by
  unfold Machine.brkPage
  split
  · next m₁ ha => exact h.refuse ha
  · next p m₁ ha => exact (h.take ha).1.mapInto ((h.take ha).2 va hok) rfl

theorem Intact.handleDemandPage {cr2 : Nat} (h : Intact m₀ m a)
    (hok : (m.vmaFind a cr2).isSome = true → Editable a m (cr2 - cr2 % pageSize)) :
    Intact m₀ (m.handleDemandPage a cr2).2 a := by
  unfold Machine.handleDemandPage
  split
  · exact h
  next vma hvma =>
  have hok := hok (by rw [hvma]; rfl)
  split
  · next m₁ ha => exact h.refuse ha
  next p m₁ ha =>
  have htake := h.take ha
  simp only
  split
  · next e m₂ hm => exact htake.1.mapInto (htake.2 _ hok) hm
  · next m₂ hm => exact htake.1.mapInto (htake.2 _ hok) hm

theorem getPteIn_table {pt : Nat} (hplain : plainWay m va 3 a = true)
    (h : m.getPteIn a va = some pt) : ∃ pd, At table m.mem a [vpn va 0, vpn va 1] pd ∧
      table 2 (vpn va 2) (m.mem pd (vpn va 2)) = some pt := by
  simp only [Machine.getPteIn] at h
  split_ifs at h with h0 h1 h2 h3
  cases h
  simp only [Bool.not_eq_true', Bool.not_eq_false, Bool.or_eq_true, not_or,
    Bool.not_eq_true] at h0 h1 h2
  simp only [plainWay_three, plainWay_two, h0, h1, Bool.not_true, Bool.false_or, Bool.and_eq_true,
    Bool.not_eq_true'] at hplain
  have hpdpt : At table m.mem a [vpn va 0] (Pte.addr (m.mem a (vpn va 0))) :=
    At.root.concat (table_eq_some.mpr ⟨vpn_lt va 0, h0, .inl rfl, rfl⟩)
  exact ⟨_, hpdpt.concat (table_eq_some.mpr ⟨vpn_lt va 1, h1, .inr ⟨by simp, hplain.1⟩, rfl⟩),
    table_eq_some.mpr ⟨vpn_lt va 2, h2.1, .inr ⟨by decide, h2.2⟩, rfl⟩⟩

theorem free_small (hwf : m.buddy.pool.Wf) (hsmall : ∀ x, m.buddy.pool.AvailAt x → x < 2 ^ 52)
    (hp : p < 2 ^ 52) (hdvd : pageSize ∣ p)
    (hok : m.buddy.accepts p = true →
      p ≠ 0 ∧ Fits m.buddy.base m.buddy.limit p 0 ∧ ¬ m.buddy.pool.AvailAt p) :
    ∀ x, (m.buddy.free p 0).pool.AvailAt x → x < 2 ^ 52 := by
  intro x hx
  cases hacc : m.buddy.accepts p with
  | false => exact hsmall x ((Buddy.free_of_not_accepts 0 hacc).1 ▸ hx)
  | true =>
    obtain ⟨hp0, hfit, hheld⟩ := hok hacc
    obtain ⟨-, -, -, hsub⟩ := Buddy.free_accepted_sub hwf hp0 hfit
      (fun y hy hav => hheld (hwf.availAt_page hfit.page_dvd hy hav)) hacc
    rcases hsub x hx with hav | hcov
    · exact hsmall x hav
    · have hlt := hcov.2
      obtain ⟨k, rfl⟩ := hdvd
      simp only [Block.size, pageShift, pageSize] at hlt hp
      omega

theorem Intact.munmapPage (h : Intact m₀ m a)
    (hok : (m.getPteIn a va).isSome = true → Editable a m va ∧ Releasable a m va) :
    Intact m₀ (Machine.munmapPage a m va) a := by
  unfold Machine.munmapPage
  split
  · exact h
  next pt hpt =>
  obtain ⟨hedit, hrel⟩ := hok (by rw [hpt]; rfl)
  obtain ⟨pd, hpd, hpt'⟩ := getPteIn_table hedit.2.1 hpt
  simp only
  split
  case isFalse => exact h
  have hpage := hrel pt hpt
  have hfree := free_guarded h.guarded (fun q hq => h.page_dvd hq) hpage
  set m₁ := m.setBuddy (m.buddy.free (Pte.addr (m.mem pt (vpn va 3))) 0)
  have hs : Spares (IsTable m a) m m₁ := ⟨hfree, fun _ _ => rfl⟩
  obtain ⟨hspace, hat, hview⟩ := h.spares hs
    (free_small h.wf h.small (Pte.addr_lt _) (Pte.page_dvd_addr _) fun hacc =>
      ⟨(hpage hacc).1, (hpage hacc).2.1, (hpage hacc).2.2.2⟩)
  obtain ⟨hspace', -, hview'⟩ := hspace.setLeaf (v := 0)
    ((hat _ _).mpr hpd) hpt' (by simp [Pte.present])
  exact h.step hspace' fun va' hp => (hview' va' (h.apart hedit hp)).trans (hview va')

namespace Proc

/-- Every page that the call edits may be edited in the state in which it is. -/
def Proper (a : Nat) (s : Proc) : Call → Prop
  | .mmap .. => True
  | .mprotect addr len prot =>
    Steps (Machine.mprotectPage a (protFlags prot))
      (fun m va => (m.resolvePhys a va).isSome = true → Editable a m va) s.machine
      (pagesFrom (pageAlignDown addr) (pageAlignUp ((addr + len) % 2 ^ 64)))
  | .munmap addr len =>
    Steps (Machine.munmapPage a)
      (fun m va => (m.getPteIn a va).isSome = true → Editable a m va ∧ Releasable a m va) s.machine
      (pagesFrom (pageAlignDown addr) ((pageAlignDown addr + pageAlignUp len) % 2 ^ 64))
  | .brk addr =>
    let s := s.brkRegion a addr
    Steps (Machine.brkPage a) (Editable a) (s.machine.vmaSetEnd a s.brkStart addr) (s.brkPages addr)
  | .fault cr2 => (s.machine.vmaFind a cr2).isSome = true →
      Editable a s.machine (cr2 - cr2 % pageSize)

instance (a : Nat) (s : Proc) (addr len prot : Nat) :
    Decidable (s.Proper a (.mprotect addr len prot)) := by unfold Proper; infer_instance

instance (a : Nat) (s : Proc) (addr : Nat) : Decidable (s.Proper a (.brk addr)) := by
  unfold Proper; infer_instance

instance (a : Nat) (s : Proc) (cr2 : Nat) : Decidable (s.Proper a (.fault cr2)) := by
  unfold Proper; infer_instance

end Proc

theorem Intact.call {s : Proc} {c : Proc.Call} (h : Intact m₀ s.machine a) (hok : s.Proper a c) :
    Intact m₀ (s.step a c).machine a := by
  cases c with
  | mmap addr length prot flags fd =>
    obtain ⟨hbuddy, hmem⟩ := sysMmap_same s.machine a addr length prot flags fd
    exact h.congr hbuddy hmem
  | mprotect addr len prot =>
    exact Steps.invariant (I := fun m => Intact m₀ m a) (fun m va h hva => h.mprotectPage hva) h hok
  | munmap addr len =>
    have hloop := Steps.invariant (I := fun m => Intact m₀ m a) (fun m va h hva => h.munmapPage hva)
      h hok
    simp only [Proc.step, Machine.sysMunmap]
    split; · exact h
    split; · exact h
    exact hloop.congr rfl rfl
  | brk addr =>
    obtain ⟨hbuddy, hmem⟩ := brkRegion_same s a addr
    have hregion : Intact m₀ (s.brkRegion a addr).machine a := h.congr hbuddy hmem
    have hend : Intact m₀
        ((s.brkRegion a addr).machine.vmaSetEnd a (s.brkRegion a addr).brkStart addr) a :=
      hregion.congr rfl rfl
    simp only [Proc.step, Proc.sysBrk]
    split; · exact h
    split; · exact hregion
    exact Steps.invariant (I := fun m => Intact m₀ m a) (fun m va h hva => h.brkPage hva) hend hok
  | fault cr2 =>
    simp only [Proc.step, Machine.pageFaultResolve]
    split; · exact h
    exact h.handleDemandPage hok

/-- Over every run of proper calls the kernel half and the pages that only the kernel may use look
as at the start: the same page or none, the same permissions. -/
theorem calls_keep_kernel_views {s : Proc} (hs : Space s.machine a) {cs : List Proc.Call}
    (hcs : Steps (Proc.step a) (Proc.Proper a) s cs) :
    ∀ va, Protected s.machine a va →
      view (cs.foldl (Proc.step a) s).machine a va = view s.machine a va :=
  (Steps.invariant (I := fun s' => Intact s.machine s'.machine a) (fun _ _ h hok => h.call hok)
    ⟨hs, fun _ _ => rfl⟩ hcs).same

/-! ### A user page next to a kernel page -/

/-- The machine with one user page, and next to it, at address 0x1000, a page without the user
bit. -/
def kernelPage : Machine :=
  { onePage with
    mem := fun p i => if p = 0x203000 ∧ i = 1 then 0x205003 else onePage.mem p i }

theorem kernelPage_at {π : List Nat} (h : At table kernelPage.mem 0x200000 π p) :
    π.length ≤ 3 ∧ π = List.replicate π.length 0 ∧ p = 0x200000 + π.length * 0x1000 := by
  refine at_chain h fun k hk i q hq => ?_
  have h3 : k ≠ 3 := by
    rintro rfl
    rw [table_leaf] at hq
    cases hq
  obtain rfl : i = 0 := by
    by_contra hi
    have hzero : kernelPage.mem (0x200000 + k * 0x1000) i = 0 := by
      simp [kernelPage, onePage, hi]
      omega
    rw [hzero, table_zero] at hq
    cases hq
  have haddr : ∀ k < 3, Pte.addr (kernelPage.mem (0x200000 + k * 0x1000) 0) =
      0x200000 + (k + 1) * 0x1000 := by decide
  exact ⟨h3, rfl, by rw [← (table_eq_some.mp hq).2.2.2, haddr k (by omega)]⟩

theorem kernelPage_space : Space kernelPage 0x200000 := by
  obtain ⟨hwf, havail⟩ := onePage_avail
  have hlimit : kernelPage.buddy.limit = 0x210000 := by decide
  constructor
  case wf => exact hwf
  case small =>
    intro x hx
    have hlt : x < kernelPage.buddy.limit := hwf.availAt_lt hx
    omega
  case root => decide
  case placed =>
    intro π π' t h h'
    obtain ⟨-, hπ, hp⟩ := kernelPage_at h
    obtain ⟨-, hπ', hp'⟩ := kernelPage_at h'
    rw [hπ, hπ', show π.length = π'.length by omega]
  case held =>
    rintro t ⟨π, h⟩ hx
    obtain ⟨hlen, -, rfl⟩ := kernelPage_at h
    have := havail _ hx
    omega
  case strict =>
    intro π pd k pt hlen hpd hpt hu
    have hchild : At table kernelPage.mem 0x200000 (π ++ [k]) pt :=
      hpd.concat (by rw [hlen]; exact hpt)
    obtain ⟨-, hπ, -⟩ := kernelPage_at hchild
    obtain ⟨-, -, hp⟩ := kernelPage_at hpd
    have hk : k = 0 := by
      rw [List.length_append, List.length_singleton, List.replicate_succ'] at hπ
      simpa using (List.append_inj' hπ rfl).2
    rw [hp, hlen, hk] at hu
    exact absurd hu (by decide)

/-- The heap grows, a mapped region is touched and the user page is made read-only: the kernel page
is as it was. -/
theorem calls_keep_kernel_views_kernel_page :
    let cs : List Proc.Call := [.brk 0x400000, .brk 0x402000, .mmap (2 ^ 39) 4096 3 34 (-1),
      .fault (2 ^ 39), .mprotect 0 4096 1]
    view (cs.foldl (Proc.step 0x200000) ⟨kernelPage, 0, 0, []⟩).machine 0x200000 0x1000 =
      some (0x205000, true, false) := by
  intro cs
  have hcs : Steps (Proc.step 0x200000) (Proc.Proper 0x200000) ⟨kernelPage, 0, 0, []⟩ cs := by
    refine ⟨?_, ?_, trivial, ?_, ?_, trivial⟩ <;> decide +kernel
  rw [calls_keep_kernel_views kernelPage_space hcs 0x1000 (.inr ⟨0x205000, true, by decide⟩)]
  decide

/-- `sys_mprotect` of the kernel page gives it to user mode. -/
theorem mprotect_opens_kernel_page : ∃ s : Proc, Space s.machine 0x200000 ∧
    view s.machine 0x200000 0x1000 = some (0x205000, true, false) ∧
    view (s.step 0x200000 (.mprotect 0x1000 4096 3)).machine 0x200000 0x1000 =
      some (0x205000, true, true) :=
  ⟨⟨kernelPage, 0, 0, []⟩, kernelPage_space, by decide, by decide⟩

end Rynex.Paging
