import Rynex.Lib.Run
import Rynex.Paging.Calls
import Rynex.Paging.Isolation

/-! What the calls of one process leave of another one's address space. None of them un-shares a
table before it edits it, so the other process keeps its translations as long as the tables that
are edited are not its own. -/

namespace Rynex.Paging

open Rynex.Memory Rynex.Lib Rynex.Lib.Radix

variable {m m' m₁ : Machine} {T : Nat → Prop} {a o p q t i n va : Nat}

/-! ### Translation -/

/-- What the processor makes of a user address: the physical address of its page, and whether every
level allows a store. -/
def translation (m : Machine) (pml4 va : Nat) : Option (Nat × Bool) :=
  let pml4e := m.mem pml4 (vpn va 0)
  if !Pte.present pml4e then none
  else
    let pdpte := m.mem (Pte.addr pml4e) (vpn va 1)
    let w := Pte.writable pml4e && Pte.writable pdpte
    if !Pte.present pdpte then none
    else if Pte.huge pdpte then
      some (Pte.addr pdpte - Pte.addr pdpte % 2 ^ 30 + pageAlignDown (va % 2 ^ 30), w)
    else
      let pde := m.mem (Pte.addr pdpte) (vpn va 2)
      let w := w && Pte.writable pde
      if !Pte.present pde then none
      else if Pte.huge pde then
        some (Pte.addr pde - Pte.addr pde % 2 ^ 21 + pageAlignDown (va % 2 ^ 21), w)
      else
        let pte := m.mem (Pte.addr pde) (vpn va 3)
        if !Pte.present pte then none else some (Pte.addr pte, w && Pte.writable pte)

theorem vpn_lt (va d : Nat) : vpn va d < 512 := by
  rw [vpn_eq]
  exact Nat.mod_lt _ (by decide)

theorem vpn_zero_lt (hva : va < 2 ^ 47) : vpn va 0 < 256 := by
  rw [vpn_eq]
  omega

theorem next_pml4e (hva : va < 2 ^ 47) (h : Pte.present (m.mem t (vpn va 0)) = true) :
    next 0 (vpn va 0) (m.mem t (vpn va 0)) = some (Pte.addr (m.mem t (vpn va 0))) := by
  simp [next, leads, h, vpn_zero_lt hva]

theorem next_inner {d : Nat} (hd : d = 1 ∨ d = 2) (h : Pte.present (m.mem t (vpn va d)) = true)
    (hh : Pte.huge (m.mem t (vpn va d)) = false) :
    next d (vpn va d) (m.mem t (vpn va d)) = some (Pte.addr (m.mem t (vpn va d))) := by
  have hlt := vpn_lt va d
  rcases hd with rfl | rfl <;> simp [next, leads, h, hh, hlt]

theorem TableOf.root (m : Machine) (o : Nat) : TableOf m o o := ⟨[], by simp, .root⟩

theorem translation_congr (hmem : ∀ q, TableOf m o q → m'.mem q = m.mem q) (hva : va < 2 ^ 47) :
    translation m' o va = translation m o va := by
  have hroot := hmem o (TableOf.root m o)
  simp only [translation, hroot]
  by_cases h0 : Pte.present (m.mem o (vpn va 0)) = true
  case neg => simp [h0]
  have hpdpt : At next m.mem o [vpn va 0] (Pte.addr (m.mem o (vpn va 0))) :=
    At.root.concat (next_pml4e hva h0)
  rw [hmem _ ⟨_, by simp, hpdpt⟩]
  generalize Pte.addr (m.mem o (vpn va 0)) = pdpt at hpdpt ⊢
  by_cases h1 : Pte.present (m.mem pdpt (vpn va 1)) = true
  case neg => simp [h1]
  by_cases hh1 : Pte.huge (m.mem pdpt (vpn va 1)) = true
  case pos => simp [hh1]
  have hpd : At next m.mem o [vpn va 0, vpn va 1] (Pte.addr (m.mem pdpt (vpn va 1))) :=
    hpdpt.concat (next_inner (.inl rfl) h1 (by simpa using hh1))
  rw [hmem _ ⟨_, by simp, hpd⟩]
  generalize Pte.addr (m.mem pdpt (vpn va 1)) = pd at hpd ⊢
  by_cases h2 : Pte.present (m.mem pd (vpn va 2)) = true
  case neg => simp [h2]
  by_cases hh2 : Pte.huge (m.mem pd (vpn va 2)) = true
  case pos => simp [hh2]
  have hpt : At next m.mem o [vpn va 0, vpn va 1, vpn va 2] (Pte.addr (m.mem pd (vpn va 2))) :=
    hpd.concat (next_inner (.inr rfl) h2 (by simpa using hh2))
  rw [hmem _ ⟨_, by simp, hpt⟩]

theorem tableOf_congr (hmem : ∀ q, TableOf m o q → m'.mem q = m.mem q) :
    TableOf m' o q ↔ TableOf m o q := by
  have hwalk : ∀ π : List Nat, π.length ≤ 3 → walk next m'.mem 0 o π = walk next m.mem 0 o π := by
    intro π hπ
    refine walk_congr fun ρ i t hpre ht => ?_
    have hlen := hpre.length_le
    rw [hmem t ⟨ρ, by simp at hlen; omega, ht⟩]
  constructor
  · rintro ⟨π, hπ, hq⟩
    exact ⟨π, hπ, (hwalk π hπ).symm.trans hq⟩
  · rintro ⟨π, hπ, hq⟩
    exact ⟨π, hπ, (hwalk π hπ).trans hq⟩

/-! ### What the primitives spare -/

/-- The allocator is sound and holds none of the pages in `T` for others. -/
structure Guarded (T : Nat → Prop) (m : Machine) : Prop where
  wf : m.buddy.pool.Wf
  held : ∀ q, T q → ¬ m.buddy.pool.AvailAt q

/-- `m'` comes from `m` by steps that leave the pages in `T` alone. -/
structure Spares (T : Nat → Prop) (m m' : Machine) : Prop extends Guarded T m' where
  mem : ∀ q, T q → m'.mem q = m.mem q

theorem Spares.refl (h : Guarded T m) : Spares T m m := ⟨h, fun _ _ => rfl⟩

theorem Spares.trans (h : Spares T m m₁) (h' : Spares T m₁ m') : Spares T m m' :=
  ⟨h'.toGuarded, fun q hq => (h'.mem q hq).trans (h.mem q hq)⟩

theorem Guarded.congr (h : Guarded T m) (hbuddy : m'.buddy = m.buddy) : Guarded T m' :=
  ⟨hbuddy ▸ h.wf, hbuddy ▸ h.held⟩

theorem Guarded.spares_write (h : Guarded T m) (ht : ¬ T t) (i v : Nat) :
    Spares T m (m.write t i v) :=
  ⟨⟨h.wf, h.held⟩, fun q hq => Function.update_of_ne (fun hqt => ht (by rwa [← hqt])) _ _⟩

theorem Guarded.spares_writePage (h : Guarded T m) (ht : ¬ T t) (words : Nat → Nat) :
    Spares T m (m.writePage t words) :=
  ⟨⟨h.wf, h.held⟩, fun q hq => Function.update_of_ne (fun hqt => ht (by rwa [← hqt])) _ _⟩

/-- `m'` is `m` after a request for a page, answered with `res`. -/
structure Took (m m' : Machine) (res : Option Nat) : Prop where
  wf : m'.buddy.pool.Wf
  sub : ∀ x, m'.buddy.pool.AvailAt x → m.buddy.pool.AvailAt x
  page : ∀ p, res = some p → m.buddy.pool.AvailAt p ∧ ¬ m'.buddy.pool.AvailAt p
  mem : ∀ q, res ≠ some q → m'.mem q = m.mem q

theorem took_of_grants {b' : Buddy} (h : Buddy.Grants m.buddy b' p 0) (hmem : ∀ q, q ≠ p →
    m'.mem q = m.mem q) (hb : m'.buddy = b') : Took m m' (some p) := by
  subst hb
  refine ⟨h.wf, fun x hx => (h.sub x hx).1, ?_, fun q hq => hmem q fun hqp => hq (by rw [hqp])⟩
  rintro _ ⟨⟩
  exact ⟨h.avail p (Block.covers_self _ _ _), fun hx => (h.sub p hx).2 (Block.covers_self _ _ _)⟩

theorem took_of_refuses {b' : Buddy} {os : List Nat} (h : Buddy.Refuses m.buddy b' os)
    (hmem : m'.mem = m.mem) (hb : m'.buddy = b') : Took m m' none := by
  subst hb
  exact ⟨h.wf, h.sub, by simp, fun q _ => by rw [hmem]⟩

theorem allocPage_took (hwf : m.buddy.pool.Wf) {res : Option Nat} (h : m.allocPage = (res, m')) :
    Took m m' res := by
  rcases hb : m.buddy.alloc 0 with ⟨res', b'⟩
  simp only [Machine.allocPage, hb, Prod.mk.injEq] at h
  obtain ⟨rfl, rfl⟩ := h
  cases res' with
  | none => exact took_of_refuses (Buddy.alloc_none hwf hb) rfl rfl
  | some p => exact took_of_grants (Buddy.alloc_some hwf hb).1 (fun _ _ => rfl) rfl

theorem allocZeroedPage_took (hwf : m.buddy.pool.Wf) {res : Option Nat}
    (h : m.allocZeroedPage = (res, m')) : Took m m' res := by
  unfold Machine.allocZeroedPage at h
  split at h
  · next p b' hb =>
    cases h
    refine took_of_grants (Buddy.allocZeroedPage_some hwf hb).1 (fun q hq => ?_) rfl
    exact Function.update_of_ne hq _ _
  · next b' hb =>
    cases h
    exact took_of_refuses (Buddy.allocZeroedPage_none hwf hb).2 rfl rfl

theorem Took.spares {res : Option Nat} (h : Took m m' res) (hg : Guarded T m) : Spares T m m' := by
  refine ⟨⟨h.wf, fun q hq hx => hg.held q hq (h.sub q hx)⟩, fun q hq => h.mem q fun hres => ?_⟩
  exact hg.held q hq (h.page q hres).1

/-! ### Mapping -/

/-- The page is in use, and it is none of the pages in `T`. -/
def Apart (T : Nat → Prop) (m : Machine) (q : Nat) : Prop := ¬ T q ∧ ¬ m.buddy.pool.AvailAt q

/-- The tables that `map_into` goes through for `va` from the table `t` on, which has the given
number of levels below it. -/
def way (m : Machine) (va : Nat) : Nat → Nat → List Nat
  | 0, t => [t]
  | levels + 1, t =>
    let e := m.mem t (vpn va (2 - levels))
    t :: if Pte.present e && (levels = 2 || !Pte.huge e) then way m va levels (Pte.addr e) else []

theorem way_congr {levels : Nat} (h : ∀ q ∈ way m va levels t, m'.mem q = m.mem q) :
    way m' va levels t = way m va levels t := by
  induction levels generalizing t with
  | zero => rfl
  | succ levels ih =>
    have ht := h t (by simp [way])
    simp only [way, ht] at h ⊢
    split
    · next hgo =>
      rw [ih fun q hq => h q (by rw [if_pos hgo]; exact List.mem_cons_of_mem _ hq)]
    · rfl

def tableEntries (fill : Option (Nat → Nat)) : Nat → Nat := fill.getD fun _ => 0

theorem tableEntries_some (entries : Nat → Nat) : tableEntries (some entries) = entries := rfl

theorem tableEntries_none (j : Nat) : tableEntries none j = 0 := rfl

theorem fillTable_spares (hg : Guarded T m) (hn : ¬ T n) (fill : Option (Nat → Nat)) :
    Spares T m ((m.zeroPage n).fillTable n fill) ∧
      ((m.zeroPage n).fillTable n fill).buddy = m.buddy ∧
      ((m.zeroPage n).fillTable n fill).mem n = tableEntries fill := by
  have hzero : Spares T m (m.zeroPage n) := hg.spares_writePage hn _
  cases fill with
  | none => exact ⟨hzero, rfl, Function.update_self _ _ _⟩
  | some entries =>
    exact ⟨hzero.trans (hzero.spares_writePage hn entries), rfl, Function.update_self _ _ _⟩

theorem linkTable_spares {fill : Option (Nat → Nat)} {res : Except String Nat} (hg : Guarded T m)
    (ht : Apart T m t) (h : m.linkTable t i fill = (res, m')) :
    Spares T m m' ∧ ∀ n, res = .ok n → Apart T m' n ∧ m'.mem n = tableEntries fill := by
  unfold Machine.linkTable at h
  split at h
  · next m₁ ha =>
    cases h
    exact ⟨(allocZeroedPage_took hg.wf ha).spares hg, by simp⟩
  next n m₁ ha =>
  cases h
  have htook := allocZeroedPage_took hg.wf ha
  obtain ⟨hfree, htaken⟩ := htook.page n rfl
  have hn : ¬ T n := fun hT => hg.held n hT hfree
  have hnt : n ≠ t := fun hnt => ht.2 (hnt ▸ hfree)
  -- the new page is filled, then the entry of `t` is written
  have htaking := htook.spares hg
  obtain ⟨hfill, hbuddy, hmem⟩ := fillTable_spares htaking.toGuarded hn fill
  refine ⟨(htaking.trans hfill).trans (hfill.spares_write ht.1 _ _), ?_⟩
  rintro _ ⟨⟩
  refine ⟨⟨hn, ?_⟩, (Function.update_of_ne hnt _ _).trans hmem⟩
  rwa [Machine.buddy_write, hbuddy]

theorem way_three : way m va 3 t = t ::
    if Pte.present (m.mem t (vpn va 0)) then way m va 2 (Pte.addr (m.mem t (vpn va 0)))
      else [] := by
  simp [way]

theorem way_two : way m va 2 t = t ::
    if Pte.present (m.mem t (vpn va 1)) && !Pte.huge (m.mem t (vpn va 1)) then
      way m va 1 (Pte.addr (m.mem t (vpn va 1))) else [] := by
  simp [way]

theorem way_one : way m va 1 t = t ::
    if Pte.present (m.mem t (vpn va 2)) && !Pte.huge (m.mem t (vpn va 2)) then
      way m va 0 (Pte.addr (m.mem t (vpn va 2))) else [] := by
  simp [way]

/-- One level of `map_into`: from `t`, whose way is apart from `T`, it comes to a table whose way
is apart from `T` as well. -/
structure Leads (T : Nat → Prop) (m m' : Machine) (va levels : Nat) (res : Except String Nat) :
    Prop where
  spares : Spares T m m'
  apart : ∀ n, res = .ok n → ∀ q ∈ way m' va levels n, Apart T m' q

variable {res : Except String Nat}

theorem Leads.of_linkTable {levels : Nat} {fill : Option (Nat → Nat)} (hg : Guarded T m)
    (ht : Apart T m t) (h : m.linkTable t i fill = (res, m'))
    (hstop : ∀ n, m'.mem n = tableEntries fill → way m' va levels n = [n]) :
    Leads T m m' va levels res := by
  obtain ⟨hspares, hok⟩ := linkTable_spares hg ht h
  refine ⟨hspares, fun n hn q hq => ?_⟩
  obtain ⟨hapart, hmem⟩ := hok n hn
  rw [hstop n hmem, List.mem_singleton] at hq
  exact hq ▸ hapart

theorem mapPdpt_leads (hg : Guarded T m) (hway : ∀ q ∈ way m va 3 a, Apart T m q)
    (h : m.mapPdpt a va = (res, m')) : Leads T m m' va 2 res := by
  rw [way_three] at hway
  simp only [Machine.mapPdpt] at h
  split at h
  · next hp =>
    cases h
    rw [if_pos hp] at hway
    refine ⟨.refl hg, ?_⟩
    rintro _ ⟨⟩ q hq
    exact hway q (List.mem_cons_of_mem _ hq)
  · refine .of_linkTable hg (hway a List.mem_cons_self) h fun n hn => ?_
    rw [way_two, hn]
    simp [tableEntries, Pte.present]

theorem huge_splitPdpte (e j : Nat) : Pte.huge (Machine.splitPdpte e j) = true := by
  have hflag : pteHuge.testBit 7 = true := by decide
  have huser : (complement pteUser).testBit 7 = true := by decide
  rw [Pte.huge_eq]
  simp only [Machine.splitPdpte, Nat.testBit_or, Nat.testBit_and, hflag, huser, Bool.or_true,
    Bool.and_self]

theorem pd_entry_stops (e j : Nat) :
    (Pte.present (tableEntries (if Pte.huge e then some (Machine.splitPdpte e) else none) j) &&
      !Pte.huge (tableEntries (if Pte.huge e then some (Machine.splitPdpte e) else none) j)) =
      false := by
  by_cases he : Pte.huge e = true
  · rw [if_pos he, tableEntries_some, huge_splitPdpte, Bool.not_true, Bool.and_false]
  · rw [if_neg he, tableEntries_none]
    decide

theorem mapPd_leads (hg : Guarded T m) (hway : ∀ q ∈ way m va 2 t, Apart T m q)
    (h : m.mapPd t va = (res, m')) : Leads T m m' va 1 res := by
  rw [way_two] at hway
  simp only [Machine.mapPd] at h
  split at h
  · next hp =>
    cases h
    rw [if_pos hp] at hway
    refine ⟨.refl hg, ?_⟩
    rintro _ ⟨⟩ q hq
    exact hway q (List.mem_cons_of_mem _ hq)
  · refine .of_linkTable hg (hway t List.mem_cons_self) h fun n hn => ?_
    rw [way_one, hn, if_neg]
    rw [pd_entry_stops]
    decide

theorem mapPt_leads (hg : Guarded T m) (hway : ∀ q ∈ way m va 1 t, Apart T m q)
    (h : m.mapPt t va = (res, m')) : Leads T m m' va 0 res := by
  rw [way_one] at hway
  have ht := hway t List.mem_cons_self
  simp only [Machine.mapPt] at h
  split at h
  · next hp =>
    cases h
    rw [if_pos hp] at hway
    refine ⟨hg.spares_write ht.1 _ _, ?_⟩
    rintro _ ⟨⟩ q hq
    exact hway q (List.mem_cons_of_mem _ hq)
  · exact .of_linkTable hg ht h fun n _ => by rw [way]

/-- `map_into` leaves alone the tables that its way is apart from. -/
theorem mapInto_spares {res : Except String Unit} {phys flags : Nat} (hg : Guarded T m)
    (hway : ∀ q ∈ way m va 3 a, Apart T m q) (h : m.mapInto a va phys flags = (res, m')) :
    Spares T m m' := by
  unfold Machine.mapInto at h
  split at h
  · next e m₁ h₁ =>
    cases h
    exact (mapPdpt_leads hg hway h₁).spares
  next pdpt m₁ h₁ =>
  have l₁ := mapPdpt_leads hg hway h₁
  split at h
  · next e m₂ h₂ =>
    cases h
    exact l₁.spares.trans (mapPd_leads l₁.spares.toGuarded (l₁.apart _ rfl) h₂).spares
  next pd m₂ h₂ =>
  have l₂ := mapPd_leads l₁.spares.toGuarded (l₁.apart _ rfl) h₂
  have s₂ := l₁.spares.trans l₂.spares
  split at h
  · next e m₃ h₃ =>
    cases h
    exact s₂.trans (mapPt_leads s₂.toGuarded (l₂.apart _ rfl) h₃).spares
  next pt m₃ h₃ =>
  cases h
  have l₃ := mapPt_leads s₂.toGuarded (l₂.apart _ rfl) h₃
  have hpt := l₃.apart pt rfl pt (by simp [way])
  exact (s₂.trans l₃.spares).trans (l₃.spares.spares_write hpt.1 _ _)

theorem mapNew_spares {m₂ : Machine} {res : Except String Unit} {flags : Nat} (hg : Guarded T m)
    (hway : ∀ q ∈ way m va 3 a, Apart T m q) (ha : m.allocPage = (some p, m₁))
    (h : (m₁.zeroPage p).mapInto a va p flags = (res, m₂)) : Spares T m m₂ := by
  have htook := allocPage_took hg.wf ha
  have htaking := htook.spares hg
  have hp : ¬ T p := fun hT => hg.held p hT (htook.page p rfl).1
  have hzero : Spares T m (m₁.zeroPage p) :=
    htaking.trans (htaking.spares_writePage hp _)
  -- the page that is handed out is not on the way, which is in use
  have hsame : way (m₁.zeroPage p) va 3 a = way m va 3 a := by
    refine way_congr fun q hq => ?_
    have hqp : q ≠ p := fun hqp => (hway q hq).2 (hqp ▸ (htook.page p rfl).1)
    exact (Function.update_of_ne hqp _ _).trans (htook.mem q (by simpa using hqp.symm))
  refine hzero.trans (mapInto_spares hzero.toGuarded (fun q hq => ?_) h)
  rw [hsame] at hq
  exact ⟨(hway q hq).1, fun hx => (hway q hq).2 (htook.sub q hx)⟩

/-! ### The calls, page by page -/

/-- The tables on the way to `va` are in use and belong to `a` alone, as far as `o` goes. -/
def MapPrivate (o a : Nat) (m : Machine) (va : Nat) : Prop :=
  ∀ q ∈ way m va 3 a, Apart (TableOf m o) m q

/-- When a user page is mapped at `va`, its page table is none of `o`; and if the allocator takes
the page back, it is a managed page in use and none of the tables of `o`. -/
def UnmapPrivate (o a : Nat) (m : Machine) (va : Nat) : Prop :=
  ∀ pt, m.getPteIn a va = some pt → Pte.user (m.mem pt (vpn va 3)) = true →
    ¬ TableOf m o pt ∧
      (m.buddy.accepts (Pte.addr (m.mem pt (vpn va 3))) = true →
        Pte.addr (m.mem pt (vpn va 3)) ≠ 0 ∧
        Fits m.buddy.base m.buddy.limit (Pte.addr (m.mem pt (vpn va 3))) 0 ∧
        Apart (TableOf m o) m (Pte.addr (m.mem pt (vpn va 3))))

/-- The invariant of a run of calls from `m`: the tables of `o` are as they were. -/
abbrev Kept (o : Nat) (m m' : Machine) : Prop := Spares (TableOf m o) m m'

theorem Kept.tableOf (h : Kept o m m') : TableOf m' o = TableOf m o :=
  funext fun _ => propext (tableOf_congr h.mem)

theorem Kept.congr {m₂ : Machine} (h : Kept o m m') (hbuddy : m₂.buddy = m'.buddy)
    (hmem : m₂.mem = m'.mem) : Kept o m m₂ :=
  ⟨h.toGuarded.congr hbuddy, fun q hq => by rw [hmem, h.mem q hq]⟩

theorem Kept.step {m₂ : Machine} (h : Kept o m m') (hs : Spares (TableOf m' o) m' m₂) :
    Kept o m m₂ :=
  h.trans (h.tableOf ▸ hs)

theorem Kept.guarded (h : Kept o m m') : Guarded (TableOf m' o) m' := h.tableOf ▸ h.toGuarded

theorem mprotectPage_spares {flags : Nat} (hg : Guarded (TableOf m o) m)
    (hok : (m.resolvePhys a va).isSome = true → MapPrivate o a m va) :
    Spares (TableOf m o) m (Machine.mprotectPage a flags m va) := by
  unfold Machine.mprotectPage
  split
  · exact .refl hg
  · next phys hphys => exact mapInto_spares hg (hok (by rw [hphys]; rfl)) rfl

theorem brkPage_spares (hg : Guarded (TableOf m o) m) (hok : MapPrivate o a m va) :
    Spares (TableOf m o) m (Machine.brkPage a m va) := by
  unfold Machine.brkPage
  split
  · next m₁ ha => exact (allocPage_took hg.wf ha).spares hg
  · next p m₁ ha => exact mapNew_spares hg hok ha rfl

theorem handleDemandPage_spares {cr2 : Nat} (hg : Guarded (TableOf m o) m)
    (hok : (m.vmaFind a cr2).isSome = true → MapPrivate o a m (cr2 - cr2 % pageSize)) :
    Spares (TableOf m o) m (m.handleDemandPage a cr2).2 := by
  unfold Machine.handleDemandPage
  split
  · exact .refl hg
  next vma hvma =>
  have hok := hok (by rw [hvma]; rfl)
  split
  · next m₁ ha => exact (allocPage_took hg.wf ha).spares hg
  next p m₁ ha =>
  simp only
  split
  · next e m₂ h => exact mapNew_spares hg hok ha h
  · next m₂ h => exact mapNew_spares hg hok ha h

theorem TableOf.page_dvd (ho : pageSize ∣ o) (h : TableOf m o q) : pageSize ∣ q := by
  obtain ⟨π, -, hq⟩ := h
  by_cases hπ : π = []
  · subst hπ
    exact Option.some.inj hq ▸ ho
  · exact addr_of_at hπ hq ▸ Pte.page_dvd_addr q

theorem free_guarded (hg : Guarded T m) (hT : ∀ q, T q → pageSize ∣ q)
    (hok : m.buddy.accepts p = true → p ≠ 0 ∧ Fits m.buddy.base m.buddy.limit p 0 ∧ Apart T m p) :
    Guarded T (m.setBuddy (m.buddy.free p 0)) := by
  cases hacc : m.buddy.accepts p with
  | false =>
    have hpool := (Buddy.free_of_not_accepts 0 hacc).1
    exact ⟨hpool ▸ hg.wf, fun q hq hx => hg.held q hq (hpool ▸ hx)⟩
  | true =>
    obtain ⟨hp0, hfit, hpT, hheld⟩ := hok hacc
    have hpage := hfit.page_dvd
    rw [pageSize_eq] at hT
    obtain ⟨hwf, -, -, hsub⟩ := Buddy.free_accepted_sub hg.wf hp0 hfit
      (fun x hx hav => hheld (hg.wf.availAt_page hpage hx hav)) hacc
    refine ⟨hwf, fun q hq hx => ?_⟩
    rcases hsub q hx with hav | hcov
    · exact hg.held q hq hav
    · -- an aligned page inside the freed page is that page
      have hqp : p = q := Block.covers_unique hfit.aligned (hT q hq) hcov (Block.covers_self _ _ _)
      exact hpT (hqp ▸ hq)

theorem munmapPage_spares (ho : pageSize ∣ o) (hg : Guarded (TableOf m o) m)
    (hok : UnmapPrivate o a m va) : Spares (TableOf m o) m (Machine.munmapPage a m va) := by
  unfold Machine.munmapPage
  split
  · exact .refl hg
  next pt hpt =>
  simp only
  split
  · next hleaf =>
    obtain ⟨hptT, hpage⟩ := hok pt hpt (by simp_all)
    have hfree := free_guarded hg (fun q => TableOf.page_dvd ho) hpage
    exact ⟨⟨hfree.wf, hfree.held⟩, (hfree.spares_write hptT _ _).mem⟩
  · exact .refl hg

/-! ### Whole calls -/

namespace Proc

/-- Every page that the call edits for `a` is private from `o` in the state in which it is
edited. -/
def Private (a o : Nat) (s : Proc) : Call → Prop
  | .mmap .. => True
  | .mprotect addr len prot =>
    Steps (Machine.mprotectPage a (protFlags prot))
      (fun m va => (m.resolvePhys a va).isSome = true → MapPrivate o a m va) s.machine
      (pagesFrom (pageAlignDown addr) (pageAlignUp ((addr + len) % 2 ^ 64)))
  | .munmap addr len =>
    Steps (Machine.munmapPage a) (UnmapPrivate o a) s.machine
      (pagesFrom (pageAlignDown addr) ((pageAlignDown addr + pageAlignUp len) % 2 ^ 64))
  | .brk addr =>
    let s := s.brkRegion a addr
    Steps (Machine.brkPage a) (MapPrivate o a) (s.machine.vmaSetEnd a s.brkStart addr)
      (s.brkPages addr)
  | .fault cr2 => (s.machine.vmaFind a cr2).isSome = true →
      MapPrivate o a s.machine (cr2 - cr2 % pageSize)

end Proc

theorem Kept.foldl {f : Machine → Nat → Machine} {ok : Machine → Nat → Prop} {vas : List Nat}
    (hstep : ∀ m va, Guarded (TableOf m o) m → ok m va → Spares (TableOf m o) m (f m va))
    (h : Kept o m m') (hok : Steps f ok m' vas) : Kept o m (vas.foldl f m') :=
  Steps.invariant (fun m₁ va h₁ hva => h₁.step (hstep m₁ va h₁.guarded hva)) h hok

theorem vmaRegister_same (m : Machine) (pml4 start stop flags : Nat) :
    (m.vmaRegister pml4 start stop flags).2.buddy = m.buddy ∧
      (m.vmaRegister pml4 start stop flags).2.mem = m.mem := by
  simp only [Machine.vmaRegister]
  split
  · exact ⟨rfl, rfl⟩
  · split <;> exact ⟨rfl, rfl⟩

theorem sysMmap_same (m : Machine) (pml4 addr length prot flags : Nat) (fd : Int) :
    (m.sysMmap pml4 addr length prot flags fd).2.buddy = m.buddy ∧
      (m.sysMmap pml4 addr length prot flags fd).2.mem = m.mem := by
  simp only [Machine.sysMmap]
  split; · exact ⟨rfl, rfl⟩
  split; · exact ⟨rfl, rfl⟩
  split; · exact ⟨rfl, rfl⟩
  next finalAddr _ =>
  have hreg := vmaRegister_same m pml4 finalAddr
    ((finalAddr + pageAlignUp length) % 2 ^ 64) (protFlags prot)
  split <;> simp_all

theorem brkRegion_same (s : Proc) (pml4 addr : Nat) :
    (s.brkRegion pml4 addr).machine.buddy = s.machine.buddy ∧
      (s.brkRegion pml4 addr).machine.mem = s.machine.mem := by
  simp only [Proc.brkRegion]
  split <;> split <;> first | exact vmaRegister_same _ _ _ _ _ | exact ⟨rfl, rfl⟩

/-- One call that is private from `o` keeps the tables of `o`. -/
theorem Kept.call {s : Proc} {c : Proc.Call} (ho : pageSize ∣ o) (h : Kept o m s.machine)
    (hok : s.Private a o c) : Kept o m (s.step a c).machine := by
  cases c with
  | mmap addr length prot flags fd =>
    obtain ⟨hbuddy, hmem⟩ := sysMmap_same s.machine a addr length prot flags fd
    exact h.congr hbuddy hmem
  | mprotect addr len prot =>
    exact h.foldl (fun m va hg hva => mprotectPage_spares hg hva) hok
  | munmap addr len =>
    have hloop := h.foldl (fun m va hg hva => munmapPage_spares ho hg hva) hok
    simp only [Proc.step, Machine.sysMunmap]
    split; · exact h
    split; · exact h
    exact hloop.congr rfl rfl
  | brk addr =>
    obtain ⟨hbuddy, hmem⟩ := brkRegion_same s a addr
    have hregion : Kept o m (s.brkRegion a addr).machine := h.congr hbuddy hmem
    have hend : Kept o m ((s.brkRegion a addr).machine.vmaSetEnd a (s.brkRegion a addr).brkStart
      addr) :=
      hregion.congr rfl rfl
    simp only [Proc.step, Proc.sysBrk]
    split; · exact h
    split; · exact hregion
    exact hend.foldl (fun m va hg hva => brkPage_spares hg hva) hok
  | fault cr2 =>
    simp only [Proc.step, Machine.pageFaultResolve]
    split; · exact h
    exact h.step (handleDemandPage_spares h.guarded hok)

/-! ### After a fork -/

theorem cloneRec_same (m : Machine) (src dst i : Nat) :
    (m.cloneRec src dst i).buddy = m.buddy ∧ (m.cloneRec src dst i).mem = m.mem := by
  unfold Machine.cloneRec
  split
  · exact ⟨rfl, rfl⟩
  split
  · exact vmaRegister_same ..
  · exact ⟨rfl, rfl⟩

theorem vmaClone_same (m : Machine) (src dst : Nat) :
    (m.vmaClone src dst).buddy = m.buddy ∧ (m.vmaClone src dst).mem = m.mem := by
  unfold Machine.vmaClone
  generalize List.range m.vmas.length = turns
  induction turns generalizing m with
  | nil => exact ⟨rfl, rfl⟩
  | cons i turns ih =>
    obtain ⟨hbuddy, hmem⟩ := ih (m.cloneRec src dst i)
    obtain ⟨hbuddy', hmem'⟩ := cloneRec_same m src dst i
    exact ⟨hbuddy.trans hbuddy', hmem.trans hmem'⟩

variable {roots : Finset Nat} {r : Nat}

theorem sysFork_eq (h : m.sysFork r = (some n, m₁)) :
    ∃ m', m.cowForkPml4 r = (some n, m') ∧ m₁.buddy = m'.buddy ∧ m₁.mem = m'.mem := by
  unfold Machine.sysFork at h
  split at h
  · cases h
  next child m' hf =>
  cases h
  exact ⟨m', hf, vmaClone_same m' r n⟩

theorem Kept.fork (hs : Sharing m roots) (hr : r ∈ roots) (hcard : roots.card < u8Max)
    (hf : m.sysFork r = (some n, m₁)) (ho : o = r ∨ o = n) : Kept o m₁ m₁ := by
  obtain ⟨m', hf', hbuddy, hmem⟩ := sysFork_eq hf
  have hs' := (cowForkPml4_cloned hs hr hcard hf').1
  have hmemo : o ∈ insert n roots := by
    rcases ho with rfl | rfl <;> simp [hr]
  refine .refl ⟨hbuddy ▸ hs'.wf, ?_⟩
  rintro q ⟨π, -, hq⟩
  rw [hmem] at hq
  rw [hbuddy]
  exact hs'.held o hmemo π q hq

theorem sysFork_page_dvd (hs : Sharing m roots) (hr : r ∈ roots) (hcard : roots.card < u8Max)
    (hf : m.sysFork r = (some n, m₁)) : pageSize ∣ n := by
  obtain ⟨m', hf', -⟩ := sysFork_eq hf
  obtain ⟨-, m₂, ha, -⟩ := cowForkPml4_cloned hs hr hcard hf'
  exact ha.page_dvd

/-- After a fork, a run of calls of one of the two processes leaves every translation of the other
one as it was, in every state of the run, as long as each page that it edits is private. -/
theorem calls_keep_translations (hs : Sharing m roots) (hr : r ∈ roots)
    (hcard : roots.card < u8Max) (hpage : pageSize ∣ r) (hf : m.sysFork r = (some n, m₁))
    (hao : a = r ∧ o = n ∨ a = n ∧ o = r) {s : Proc} (hm : s.machine = m₁)
    {cs cs' : List Proc.Call} (hrun : Steps (Proc.step a) (Proc.Private a o) s cs)
    (hpre : cs' <+: cs) (hva : va < 2 ^ 47) :
    translation (cs'.foldl (Proc.step a) s).machine o va = translation m₁ o va := by
  have ho : pageSize ∣ o := by
    rcases hao with ⟨-, rfl⟩ | ⟨-, rfl⟩
    exacts [sysFork_page_dvd hs hr hcard hf, hpage]
  have hstart : Kept o m₁ s.machine := by
    rw [hm]
    exact Kept.fork hs hr hcard hf (hao.symm.imp And.right And.right)
  obtain ⟨rest, rfl⟩ := hpre
  have hkept : Kept o m₁ (cs'.foldl (Proc.step a) s).machine :=
    Steps.invariant (I := fun s => Kept o m₁ s.machine) (fun s c h hok => h.call ho hok) hstart
      (Steps.append.mp hrun).1
  exact translation_congr hkept.mem hva

/-! ### A shared page table -/

theorem translation_of_dir (ht : At next m.mem r (dir va) t) :
    ∃ w, translation m r va = if Pte.present (m.mem t (vpn va 3)) then
      some (Pte.addr (m.mem t (vpn va 3)), w && Pte.writable (m.mem t (vpn va 3))) else none := by
  obtain ⟨pdpt, pd, h0, h1, h2⟩ := at_dir.mp ht
  simp only [next_eq_some, leads, Bool.and_eq_true, Bool.not_eq_true',
    decide_eq_true_eq] at h0 h1 h2
  obtain ⟨p0, -, a0⟩ := h0
  obtain ⟨p1, ⟨-, n1⟩, a1⟩ := h1
  obtain ⟨p2, ⟨-, n2⟩, a2⟩ := h2
  refine ⟨Pte.writable (m.mem r (vpn va 0)) && Pte.writable (m.mem pdpt (vpn va 1)) &&
    Pte.writable (m.mem pd (vpn va 2)), ?_⟩
  simp only [translation, p0, a0, p1, n1, a1, p2, n2, a2, Bool.not_true, Bool.false_eq_true,
    if_false]
  cases Pte.present (m.mem t (vpn va 3)) <;> rfl

theorem munmapPage_of_at (ht : At next m.mem a (dir va) t)
    (hp : next 3 (vpn va 3) (m.mem t (vpn va 3)) = some p) :
    Machine.munmapPage a m va = (m.setBuddy (m.buddy.free p 0)).write t (vpn va 3) 0 := by
  obtain ⟨pdpt, pd, h0, h1, h2⟩ := at_dir.mp ht
  simp only [next_eq_some, leads, Bool.and_eq_true, Bool.not_eq_true', decide_eq_true_eq]
    at h0 h1 h2 hp
  obtain ⟨p0, -, rfl⟩ := h0
  obtain ⟨p1, -, rfl⟩ := h1
  obtain ⟨p2, ⟨-, n2⟩, rfl⟩ := h2
  obtain ⟨p3, ⟨-, u3⟩, rfl⟩ := hp
  simp [Machine.munmapPage, Machine.getPteIn, p0, p1, p2, n2, p3, u3]

theorem munmapPage_shared (hplaced : Placed next m.mem roots) (ho : o ∈ roots)
    (hta : At next m.mem a (dir va) t) (hto : At next m.mem o (dir va) t)
    (hp : next 3 (vpn va 3) (m.mem t (vpn va 3)) = some p) :
    translation (Machine.munmapPage a m va) o va = none := by
  rw [munmapPage_of_at hta hp]
  have hto' : At next ((m.setBuddy (m.buddy.free p 0)).write t (vpn va 3) 0).mem o (dir va) t := by
    refine (walk_congr fun ρ i q hpre hq => ?_).trans hto
    -- the tables above `t` stand elsewhere
    have hqt : q ≠ t := fun hqt => by
      have hlen := hpre.length_le
      have hρ := congrArg List.length (hplaced o ho o ho ρ (dir va) q hq (hqt ▸ hto))
      simp at hlen hρ
      omega
    exact congrArg (next _ i) (congrFun (Function.update_of_ne hqt _ _) i)
  obtain ⟨w, hw⟩ := translation_of_dir hto'
  rw [hw]
  simp [Machine.write, Pte.present]

theorem onePage_fork : ∃ n m', onePage.cowForkPml4 0x200000 = (some n, m') := by
  rcases hz : onePage.allocZeroedPage with ⟨p, m₁⟩
  obtain rfl : some 0x208000 = p := by
    rw [show p = onePage.allocZeroedPage.1 by rw [hz]]
    decide
  rw [Machine.cowForkPml4, hz]
  exact ⟨_, _, rfl⟩

theorem onePage_forked {n : Nat} {m' : Machine} (h : onePage.cowForkPml4 0x200000 = (some n, m')) :
    Placed next m'.mem (insert n {0x200000}) ∧
      (∀ r, r = 0x200000 ∨ r = n → At next m'.mem r (dir 0) 0x203000) ∧
      next 3 (vpn 0 3) (m'.mem 0x203000 (vpn 0 3)) = some 0x204000 := by
  have hs := onePage_userSpace.sharing
  have hr : 0x200000 ∈ ({0x200000} : Finset Nat) := Finset.mem_singleton_self _
  have hcard : ({0x200000} : Finset Nat).card < u8Max := by decide
  obtain ⟨hold, hchild⟩ := cowForkPml4_walks hs hr hcard h
  have hdir : walk next m'.mem 0 0x200000 (dir 0) = some 0x203000 :=
    (hold _ hr _).trans (by decide)
  have hpath : walk next m'.mem 0 0x200000 (path 0) = some 0x204000 :=
    (hold _ hr _).trans (by decide)
  refine ⟨(cowForkPml4_cloned hs hr hcard h).1.placed, ?_, ?_⟩
  · rintro r (rfl | rfl)
    · exact hdir
    · exact (hchild _ (by simp [dir])).trans (by decide)
  · obtain ⟨t, ht, hp⟩ := at_path.mp hpath
    exact (ht.unique hdir : t = 0x203000) ▸ hp

theorem mapPrivate_of_absent (hplaced : Placed next m.mem roots) (ha : a ∈ roots) (ho : o ∈ roots)
    (hne : a ≠ o) (hheld : ¬ m.buddy.pool.AvailAt a)
    (hnone : Pte.present (m.mem a (vpn va 0)) = false) : MapPrivate o a m va := by
  intro q hq
  rw [way_three, hnone] at hq
  obtain rfl : q = a := by simpa using hq
  refine ⟨?_, hheld⟩
  rintro ⟨π, -, hat⟩
  obtain rfl := hplaced q ha o ho [] π q .root hat
  exact hne (Option.some.inj hat).symm

/-- The parent of the process with one page maps a region far from it and touches it. -/
theorem calls_keep_translations_one_page : ∃ n m₁, onePage.sysFork 0x200000 = (some n, m₁) ∧
    translation ([Proc.Call.mmap (2 ^ 39) 4096 3 34 (-1), .fault (2 ^ 39)].foldl
      (Proc.step 0x200000) ⟨m₁, 0, 0, []⟩).machine n 0 = translation m₁ n 0 := by
  obtain ⟨n, m', hf⟩ := onePage_fork
  have hs := onePage_userSpace.sharing
  have hr : 0x200000 ∈ ({0x200000} : Finset Nat) := Finset.mem_singleton_self _
  have hcard : ({0x200000} : Finset Nat).card < u8Max := by decide
  have hfork : onePage.sysFork 0x200000 = (some n, m'.vmaClone 0x200000 n) := by
    rw [Machine.sysFork, hf]
  obtain ⟨hbuddy, hmem⟩ := vmaClone_same m' 0x200000 n
  suffices hrun : Steps (Proc.step 0x200000) (Proc.Private 0x200000 n)
      ⟨m'.vmaClone 0x200000 n, 0, 0, []⟩ [.mmap (2 ^ 39) 4096 3 34 (-1), .fault (2 ^ 39)] from
    ⟨n, _, hfork, calls_keep_translations hs hr hcard (by decide) hfork (.inl ⟨rfl, rfl⟩) rfl hrun
      (List.prefix_refl _) (by decide)⟩
  refine ⟨trivial, fun _ => ?_, trivial⟩
  -- the parent has no table there
  obtain ⟨hbuddy₂, hmem₂⟩ := sysMmap_same (m'.vmaClone 0x200000 n) 0x200000 (2 ^ 39) 4096 3 34 (-1)
  obtain ⟨hs', m₂, ha, hclone⟩ := cowForkPml4_cloned hs hr hcard hf
  have hnone : next 0 1 (m'.mem 0x200000 1) = none := by
    have h := (cowForkPml4_walks hs hr hcard hf).1 0x200000 hr [1]
    rw [show walk next onePage.mem 0 0x200000 [1] = none by decide] at h
    simpa [walk] using h
  have hplaced := hs'.placed
  rw [← hmem, ← hmem₂] at hplaced
  refine mapPrivate_of_absent hplaced (by simp) (by simp) ?_ ?_ ?_
  · exact fun hn => hclone.fork.not_mem (hn ▸ hr)
  · simp only [Proc.step, hbuddy₂, hbuddy]
    exact hs'.held _ (by simp) [] _ .root
  · simp only [Proc.step, hmem₂, hmem]
    rw [show vpn (2 ^ 39 - 2 ^ 39 % pageSize) 0 = 1 by decide]
    simpa [next, leads] using hnone

/-- The child of the process with one page unmaps it, and the parent has lost it. -/
theorem munmap_unmaps_in_parent : UserSpace onePage 0x200000 ∧ ∃ n m₁,
    onePage.sysFork 0x200000 = (some n, m₁) ∧ (translation m₁ 0x200000 0).isSome = true ∧
      translation (Proc.step n ⟨m₁, 0, 0, []⟩ (.munmap 0 4096)).machine 0x200000 0 = none := by
  obtain ⟨n, m', hf⟩ := onePage_fork
  obtain ⟨hplaced, hdir, hleaf⟩ := onePage_forked hf
  have hmem := (vmaClone_same m' 0x200000 n).2
  refine ⟨onePage_userSpace, n, m'.vmaClone 0x200000 n, by rw [Machine.sysFork, hf], ?_, ?_⟩
  · obtain ⟨w, hw⟩ := translation_of_dir (m := m'.vmaClone 0x200000 n)
      (hmem ▸ hdir 0x200000 (.inl rfl))
    rw [hw, hmem, (next_eq_some.mp hleaf).1]
    rfl
  · have hpages : pagesFrom (pageAlignDown 0)
      ((pageAlignDown 0 + pageAlignUp 4096) % 2 ^ 64) = [0] := by
      decide
    simp only [Proc.step, Machine.sysMunmap, hpages]
    exact munmapPage_shared (m := m'.vmaClone 0x200000 n) (hmem ▸ hplaced) (by simp)
      (hmem ▸ hdir n (.inr rfl)) (hmem ▸ hdir 0x200000 (.inl rfl)) (hmem ▸ hleaf)

end Rynex.Paging
