import Rynex.Paging.Progress
import Rynex.Paging.UserRange

/-! What a successful `user_range_valid` says of the tables that it leaves behind. The loop edits
the tables while it checks them: each edit for a later page fills absent entries, clears pages that
no table occupied or adds the user bit, so the entries of the pages before it stay as they were. -/

namespace Rynex.Paging

open Rynex.Memory Rynex.Lib Rynex.Lib.Radix

variable {m m' m₁ : Machine} {a e e' i n p q t va virt addr len : Nat} {π ρ : List Nat} {w : Bool}
  {pages : List Nat}

/-! ### The entry that maps an address -/

/-- The entry that maps `va`, where the processor's walk ends at one. -/
def leafEntry (m : Machine) (a va : Nat) : Option Nat :=
  let pml4e := m.mem a (vpn va 0)
  if !Pte.present pml4e then none
  else
    let pdpte := m.mem (Pte.addr pml4e) (vpn va 1)
    if !Pte.present pdpte then none
    else if Pte.huge pdpte then some pdpte
    else
      let pde := m.mem (Pte.addr pdpte) (vpn va 2)
      if !Pte.present pde then none
      else if Pte.huge pde then some pde
      else
        let pte := m.mem (Pte.addr pde) (vpn va 3)
        if !Pte.present pte then none else some pte

/-- Four-level tables: a page is a table at one level only and in use, and no entry of a
page-directory-pointer table maps a page. PageTables may be shared between ranges. -/
structure PageTables (m : Machine) (a : Nat) : Prop where
  wf : m.buddy.pool.Wf
  small : ∀ x, m.buddy.pool.AvailAt x → x < 2 ^ 52
  held : ∀ q, IsTable m a q → ¬ m.buddy.pool.AvailAt q
  level : ∀ {π π' q}, At table m.mem a π q → At table m.mem a π' q → π.length = π'.length
  noGiB : NoGiB m a

theorem PageTables.guarded (h : PageTables m a) : Guarded (IsTable m a) m := ⟨h.wf, h.held⟩

theorem TreeShaped.pageTables (h : TreeShaped m a) (hno : NoGiB m a) : PageTables m a :=
  ⟨h.wf, h.small, h.held, fun hq hq' => congrArg List.length (h.placed hq hq'), hno⟩

theorem at_of_pml4e (h : Pte.present (m.mem a (vpn va 0)) = true) :
    At table m.mem a [vpn va 0] (Pte.addr (m.mem a (vpn va 0))) :=
  At.root.concat (table_eq_some.mpr ⟨vpn_lt va 0, h, .inl rfl, rfl⟩)

theorem PageTables.at_of_pdpte (h : PageTables m a) (ht : At table m.mem a [i] t)
    (hp : Pte.present (m.mem t (vpn va 1)) = true) :
    At table m.mem a [i, vpn va 1] (Pte.addr (m.mem t (vpn va 1))) :=
  ht.concat (table_eq_some.mpr ⟨vpn_lt va 1, hp,
    .inr ⟨by simp, h.noGiB _ _ _ ht (vpn_lt va 1) hp⟩, rfl⟩)

theorem at_of_pde {j : Nat} (ht : At table m.mem a [i, j] t)
    (hp : Pte.present (m.mem t (vpn va 2)) = true) (hh : Pte.huge (m.mem t (vpn va 2)) = false) :
    At table m.mem a [i, j, vpn va 2] (Pte.addr (m.mem t (vpn va 2))) :=
  ht.concat (table_eq_some.mpr ⟨vpn_lt va 2, hp, .inr ⟨by simp, hh⟩, rfl⟩)

theorem PageTables.resolvePhysFlags (h : PageTables m a) (va : Nat) :
    (m.resolvePhysFlags a va).map Prod.snd = leafEntry m a va := by
  simp only [Machine.resolvePhysFlags, leafEntry]
  by_cases h0 : Pte.present (m.mem a (vpn va 0)) = true
  case neg => simp [h0]
  have hpdpt := at_of_pml4e h0
  generalize Pte.addr (m.mem a (vpn va 0)) = pdpt at *
  by_cases h1 : Pte.present (m.mem pdpt (vpn va 1)) = true
  case neg => simp [h0, h1]
  have hh1 := h.noGiB _ _ _ hpdpt (vpn_lt va 1) h1
  simp only [h0, h1, hh1]
  generalize Pte.addr (m.mem pdpt (vpn va 1)) = pd
  generalize m.mem pd (vpn va 2) = pde
  generalize m.mem (Pte.addr pde) (vpn va 3) = pte
  cases Pte.present pde <;> cases Pte.huge pde <;> cases Pte.present pte <;> simp

theorem resolvePhys_eq (m : Machine) (a va : Nat) :
    m.resolvePhys a va = (m.resolvePhysFlags a va).map Prod.fst := by
  simp only [Machine.resolvePhys, Machine.resolvePhysFlags]
  split_ifs <;> rfl

theorem PageTables.resolvePhys_none (h : PageTables m a) :
    m.resolvePhys a va = none ↔ leafEntry m a va = none := by
  rw [resolvePhys_eq, ← h.resolvePhysFlags, Option.map_eq_none_iff, Option.map_eq_none_iff]

theorem leafEntry_congr (hmem : ∀ q, IsTable m a q → m'.mem q = m.mem q) :
    leafEntry m' a va = leafEntry m a va := by
  simp only [leafEntry, hmem a ⟨[], .root⟩]
  by_cases h0 : Pte.present (m.mem a (vpn va 0)) = true
  case neg => simp [h0]
  have hpdpt := at_of_pml4e h0
  rw [hmem _ ⟨_, hpdpt⟩]
  generalize Pte.addr (m.mem a (vpn va 0)) = pdpt at *
  by_cases h1 : Pte.present (m.mem pdpt (vpn va 1)) = true
  case neg => simp [h1]
  by_cases hh1 : Pte.huge (m.mem pdpt (vpn va 1)) = true
  case pos => simp [hh1]
  have hpd := hpdpt.concat (table_eq_some.mpr
    ⟨vpn_lt va 1, h1, .inr ⟨by simp, by simpa using hh1⟩, rfl⟩)
  rw [hmem _ ⟨_, hpd⟩]
  generalize Pte.addr (m.mem pdpt (vpn va 1)) = pd at *
  by_cases h2 : Pte.present (m.mem pd (vpn va 2)) = true
  case neg => simp [h2]
  by_cases hh2 : Pte.huge (m.mem pd (vpn va 2)) = true
  case pos => simp [hh2]
  rw [hmem _ ⟨_, at_of_pde hpd h2 (by simpa using hh2)⟩]

/-! ### Entries that stay -/

/-- The entry leads to the same page with the same rights, but that it may be open to user mode
now. -/
structure Widened (e e' : Nat) : Prop where
  present : Pte.present e' = Pte.present e
  huge : Pte.huge e' = Pte.huge e
  addr : Pte.addr e' = Pte.addr e
  writable : Pte.writable e' = Pte.writable e
  user : Pte.user e = true → Pte.user e' = true

theorem Widened.refl (e : Nat) : Widened e e := ⟨rfl, rfl, rfl, rfl, id⟩

theorem Widened.trans {e'' : Nat} (h : Widened e e') (h' : Widened e' e'') : Widened e e'' :=
  ⟨h'.present.trans h.present, h'.huge.trans h.huge, h'.addr.trans h.addr,
    h'.writable.trans h.writable, h'.user ∘ h.user⟩

theorem Widened.table (h : Widened e e') (d i : Nat) : table d i e' = table d i e := by
  simp [Paging.table, h.present, h.huge, h.addr]

/-- The present entries of the tables of `a` stay. -/
structure Keeps (m m' : Machine) (a : Nat) : Prop where
  tables : PageTables m' a
  entry : ∀ q j, IsTable m a q → Pte.present (m.mem q j) = true → Widened (m.mem q j) (m'.mem q j)

theorem at_of_entries (hentry : ∀ q j, IsTable m a q → Pte.present (m.mem q j) = true →
    Widened (m.mem q j) (m'.mem q j)) (h : At table m.mem a π q) : At table m'.mem a π q := by
  induction π using List.reverseRecOn generalizing q with
  | nil => exact h
  | append_singleton π i ih =>
    obtain ⟨t, ht, hq⟩ := h.of_concat
    have hp := (table_eq_some.mp hq).2.1
    exact (ih ht).concat (((hentry t i ⟨π, ht⟩ hp).table _ _).trans hq)

theorem Keeps.isTable (h : Keeps m m' a) (hq : IsTable m a q) : IsTable m' a q :=
  hq.imp fun _ hπ => at_of_entries h.entry hπ

theorem Keeps.refl (h : PageTables m a) : Keeps m m a := ⟨h, fun _ _ _ _ => .refl _⟩

theorem Keeps.trans (h : Keeps m m₁ a) (h' : Keeps m₁ m' a) : Keeps m m' a := by
  refine ⟨h'.tables, fun q j hq hp => ?_⟩
  have hfirst := h.entry q j hq hp
  exact hfirst.trans (h'.entry q j (h.isTable hq) (hfirst.present.trans hp))

/-- A page that was mapped stays mapped, with the same rights for stores at least. -/
theorem Keeps.leafEntry (h : Keeps m m' a) (ht : PageTables m a) (hl : leafEntry m a va = some e) :
    ∃ e', leafEntry m' a va = some e' ∧ Widened e e' := by
  simp only [Paging.leafEntry] at hl ⊢
  by_cases h0 : Pte.present (m.mem a (vpn va 0)) = true
  case neg => simp [h0] at hl
  have hpdpt := at_of_pml4e h0
  have he0 := h.entry a _ ⟨[], .root⟩ h0
  rw [he0.present, he0.addr]
  generalize Pte.addr (m.mem a (vpn va 0)) = pdpt at *
  by_cases h1 : Pte.present (m.mem pdpt (vpn va 1)) = true
  case neg => simp [h0, h1] at hl
  have hh1 := ht.noGiB _ _ _ hpdpt (vpn_lt va 1) h1
  have hpd := ht.at_of_pdpte hpdpt h1
  have he1 := h.entry pdpt _ ⟨_, hpdpt⟩ h1
  rw [he1.present, he1.huge, he1.addr]
  simp only [h0, h1, hh1] at hl ⊢
  generalize Pte.addr (m.mem pdpt (vpn va 1)) = pd at *
  by_cases h2 : Pte.present (m.mem pd (vpn va 2)) = true
  case neg => simp [h2] at hl
  have he2 := h.entry pd _ ⟨_, hpd⟩ h2
  rw [he2.present, he2.huge, he2.addr]
  cases hh2 : Pte.huge (m.mem pd (vpn va 2)) with
  | true =>
    obtain rfl : m.mem pd (vpn va 2) = e := by simpa [h2, hh2] using hl
    exact ⟨_, by simp [h2], he2⟩
  | false =>
    have hpt := at_of_pde hpd h2 hh2
    generalize Pte.addr (m.mem pd (vpn va 2)) = pt at *
    by_cases h3 : Pte.present (m.mem pt (vpn va 3)) = true
    case neg => simp [h2, hh2, h3] at hl
    have he3 := h.entry pt _ ⟨_, hpt⟩ h3
    obtain rfl : m.mem pt (vpn va 3) = e := by simpa [h2, hh2, h3] using hl
    exact ⟨_, by simp [h2, h3, he3.present], he3⟩

/-! ### The edits of `map_into` -/

theorem PageTables.of_at_iff (h : PageTables m a) (hwf : m'.buddy.pool.Wf)
    (hsub : ∀ x, m'.buddy.pool.AvailAt x → m.buddy.pool.AvailAt x)
    (hat : ∀ {π q}, At table m'.mem a π q ↔ At table m.mem a π q)
    (hpdpt : ∀ i q j, At table m.mem a [i] q →
      Pte.present (m'.mem q j) = Pte.present (m.mem q j) ∧
      Pte.huge (m'.mem q j) = Pte.huge (m.mem q j)) : PageTables m' a where
  wf := hwf
  small x hx := h.small x (hsub x hx)
  held := by
    rintro q ⟨π, hq⟩ hx
    exact h.held q ⟨π, hat.mp hq⟩ (hsub q hx)
  level hπ hπ' := h.level (hat.mp hπ) (hat.mp hπ')
  noGiB := by
    intro i q j hq hj hp
    obtain ⟨hpresent, hhuge⟩ := hpdpt i q j (hat.mp hq)
    rw [hhuge]
    exact h.noGiB i q j (hat.mp hq) hj (hpresent.symm.trans hp)

theorem PageTables.keeps_of_spares (h : PageTables m a) (hs : Spares (IsTable m a) m m')
    (hsub : ∀ x, m'.buddy.pool.AvailAt x → m.buddy.pool.AvailAt x) : Keeps m m' a := by
  have hat : ∀ {π q}, At table m'.mem a π q ↔ At table m.mem a π q := fun {π q} => by
    rw [At, At, walk_congr fun ρ i t _ ht => by rw [hs.mem t ⟨ρ, ht⟩]]
  refine ⟨h.of_at_iff hs.wf hsub hat fun i q j hq => ?_, fun q j hq _ => ?_⟩
  · rw [hs.mem q ⟨_, hq⟩]
    exact ⟨rfl, rfl⟩
  · rw [hs.mem q hq]
    exact .refl _

theorem PageTables.keeps_orUser (h : PageTables m a) (t i : Nat) :
    Keeps m (m.write t i (m.mem t i ||| pteUser)) a := by
  have hw : ∀ q j, Widened (m.mem q j) ((m.write t i (m.mem t i ||| pteUser)).mem q j) := by
    intro q j
    rw [mem_write]
    split
    · next heq =>
      obtain ⟨rfl, rfl⟩ := heq
      exact ⟨present_or_user _, huge_or_user _, addr_or_user _, writable_or_user _,
        fun _ => user_or_user _⟩
    · exact .refl _
  have hat : ∀ {π q}, At table (m.write t i (m.mem t i ||| pteUser)).mem a π q ↔
      At table m.mem a π q := fun {π q} => by
    rw [At, At, walk_of_next fun d q j => (hw q j).table d j]
  exact ⟨h.of_at_iff h.wf (fun _ => id) hat fun _ q j _ => ⟨(hw q j).present, (hw q j).huge⟩,
    fun q j _ _ => hw q j⟩

theorem PageTables.keeps_leaf (h : PageTables m a) (ht : At table m.mem a ρ t) (hρ : ρ.length = 3)
    (habs : Pte.present (m.mem t i) = false) (v : Nat) : Keeps m (m.write t i v) a := by
  have hmem : ∀ q j, q ≠ t ∨ j ≠ i → (m.write t i v).mem q j = m.mem q j := fun q j hne => by
    rw [mem_write, if_neg (by tauto)]
  have hupper : ∀ {π q}, At table m.mem a π q → π.length < 3 → q ≠ t := by
    rintro π q hq hlen rfl
    have := h.level hq ht
    omega
  have hat : ∀ {π q}, At table (m.write t i v).mem a π q ↔ At table m.mem a π q := fun {π q} => by
    rw [At, At, walk_congr fun ρ' j s _ hs => ?_]
    by_cases hlen : ρ'.length < 3
    · rw [hmem s j (.inl (hupper hs hlen))]
    · simp [table, hlen, show ρ'.length ≠ 0 by omega]
  refine ⟨h.of_at_iff h.wf (fun _ => id) hat fun i' q j hq => ?_, fun q j _ hp => ?_⟩
  · rw [hmem q j (.inl (hupper hq (by simp)))]
    exact ⟨rfl, rfl⟩
  · rw [hmem q j]
    · exact .refl _
    · by_contra hne
      push Not at hne
      obtain ⟨rfl, rfl⟩ := hne
      rw [hp] at habs
      cases habs

/-- An absent entry of an upper table may lead to a page without present entries that was no table
before. -/
theorem PageTables.keeps_link {v : Nat} (h : PageTables m a) (ht : At table m.mem a ρ t)
    (hρ : ρ.length < 3) (hi : i < 512) (habs : Pte.present (m.mem t i) = false)
    (hp : Pte.present v = true) (hh : Pte.huge v = false) (hn : Pte.addr v = n)
    (hfresh : ¬ IsTable m a n) (hheld : ¬ m.buddy.pool.AvailAt n)
    (hblank : ∀ j < 512, Pte.present (m.mem n j) = false) :
    Keeps m (m.write t i v) a ∧ At table (m.write t i v).mem a (ρ ++ [i]) n := by
  have hmem : ∀ q j, q ≠ t ∨ j ≠ i → (m.write t i v).mem q j = m.mem q j := fun q j hne => by
    rw [mem_write, if_neg (by tauto)]
  have hcell : (m.write t i v).mem t i = v := by rw [mem_write, if_pos ⟨rfl, rfl⟩]
  have hnt : n ≠ t := fun hnt => hfresh (hnt ▸ ⟨ρ, ht⟩)
  have hentry : ∀ q j, IsTable m a q → Pte.present (m.mem q j) = true →
      Widened (m.mem q j) ((m.write t i v).mem q j) := by
    intro q j _ hq
    rw [hmem q j]
    · exact .refl _
    · by_contra hne
      push Not at hne
      obtain ⟨rfl, rfl⟩ := hne
      rw [hq] at habs
      cases habs
  -- nothing but the new table is reached that was not reached before
  have hback : ∀ {π q}, At table (m.write t i v).mem a π q →
      At table m.mem a π q ∨ q = n ∧ π.length = ρ.length + 1 := by
    intro π
    induction π using List.reverseRecOn with
    | nil => exact fun hq => .inl hq
    | append_singleton π j ih =>
      intro q hq
      obtain ⟨s, hs, hsq⟩ := hq.of_concat
      rcases ih hs with hold | ⟨rfl, -⟩
      · by_cases hsi : s = t ∧ j = i
        · obtain ⟨rfl, rfl⟩ := hsi
          rw [hcell] at hsq
          obtain ⟨-, -, -, rfl⟩ := table_eq_some.mp hsq
          exact .inr ⟨hn, by simp [h.level hold ht]⟩
        · rw [hmem s j (by tauto)] at hsq
          exact .inl (hold.concat hsq)
      · rw [hmem s j (.inl hnt), table_eq_some] at hsq
        rw [hblank j hsq.1] at hsq
        cases hsq.2.1
  refine ⟨⟨⟨h.wf, h.small, ?_, ?_, ?_⟩, hentry⟩, (at_of_entries hentry ht).concat ?_⟩
  · rintro q ⟨π, hq⟩
    rcases hback hq with hq | ⟨rfl, -⟩
    · exact h.held q ⟨π, hq⟩
    · exact hheld
  · intro π π' q hq hq'
    rcases hback hq with hq | ⟨rfl, hlen⟩ <;> rcases hback hq' with hq' | ⟨hqn, hlen'⟩
    · exact h.level hq hq'
    · exact absurd ⟨π, hqn ▸ hq⟩ hfresh
    · exact absurd ⟨π', hq'⟩ hfresh
    · rw [hlen, hlen']
  · intro i' q j hq hj hpq
    by_cases hqt : q = t ∧ j = i
    · obtain ⟨rfl, rfl⟩ := hqt
      rw [hcell]
      exact hh
    · rw [hmem q j (by tauto)] at hpq ⊢
      rcases hback hq with hq | ⟨rfl, -⟩
      · exact h.noGiB i' q j hq hj hpq
      · rw [hblank j hj] at hpq
        cases hpq
  · rw [hcell]
    refine table_eq_some.mpr ⟨hi, hp, ?_, hn⟩
    rcases Nat.eq_zero_or_pos ρ.length with h0 | h0
    · exact .inl h0
    · exact .inr ⟨hρ, hh⟩

theorem PageTables.linkTable {fill : Option (Nat → Nat)} {res : Except String Nat}
    (h : PageTables m a) (ht : At table m.mem a ρ t) (hρ : ρ.length < 3) (hi : i < 512)
    (habs : Pte.present (m.mem t i) = false)
    (hfill : ∀ j < 512, Pte.present (tableEntries fill j) = false)
    (hl : m.linkTable t i fill = (res, m')) :
    Keeps m m' a ∧ ∀ n, res = .ok n →
      At table m'.mem a (ρ ++ [i]) n ∧ ∀ j < 512, Pte.present (m'.mem n j) = false := by
  unfold Machine.linkTable at hl
  split at hl
  · next m₁ ha =>
    cases hl
    have htook := allocZeroedPage_took h.wf ha
    exact ⟨h.keeps_of_spares (htook.spares h.guarded) htook.sub, fun n hn => by cases hn⟩
  next n m₁ ha =>
  obtain ⟨rfl, rfl⟩ := Prod.mk.inj hl
  have htook := allocZeroedPage_took h.wf ha
  obtain ⟨hfree, htaken⟩ := htook.page n rfl
  have hn : ¬ IsTable m a n := fun hn => h.held n hn hfree
  have haddr : Pte.addr n = n := Pte.addr_of_dvd (allocZeroedPage_some h.wf ha).page_dvd
    (h.small n hfree)
  have htaking := htook.spares h.guarded
  obtain ⟨hspares, hbuddy, hnew⟩ := fillTable_spares htaking.toGuarded hn fill
  generalize (m₁.zeroPage n).fillTable n fill = m₂ at *
  have hfirst : Keeps m m₂ a := h.keeps_of_spares (htaking.trans hspares) fun x hx =>
    htook.sub x (hbuddy ▸ hx)
  have hmem : ∀ q, IsTable m a q → m₂.mem q = m.mem q := (htaking.trans hspares).mem
  have hat : ∀ {π q}, At table m₂.mem a π q ↔ At table m.mem a π q := fun {π q} => by
    rw [At, At, walk_congr fun ρ i t _ ht => by rw [hmem t ⟨ρ, ht⟩]]
  obtain ⟨hp, hh, -, hto⟩ := link_entry haddr
  obtain ⟨hsecond, hnewAt⟩ := hfirst.tables.keeps_link (hat.mpr ht) hρ hi
    (by rw [hmem t ⟨ρ, ht⟩]; exact habs) hp hh hto
    (fun hreach => hn (Exists.imp (fun _ => hat.mp) hreach)) (hbuddy ▸ htaken)
    (fun j hj => by rw [hnew]; exact hfill j hj)
  refine ⟨hfirst.trans hsecond, fun n' hn' => ?_⟩
  obtain rfl := Except.ok.inj hn'
  refine ⟨hnewAt, fun j hj => ?_⟩
  have hnt : ¬ (n = t ∧ j = i) := fun hnt => hn ⟨ρ, hnt.1 ▸ ht⟩
  rw [mem_write, if_neg hnt, hnew]
  exact hfill j hj

/-- From the table `t` on, with the given number of levels below it, the walk for `va` ends at an
absent entry. -/
def endsEarly (m : Machine) (va : Nat) : Nat → Nat → Prop
  | 0, t => Pte.present (m.mem t (vpn va 3)) = false
  | levels + 1, t =>
    let e := m.mem t (vpn va (2 - levels))
    Pte.present e = true → (levels = 0 → Pte.huge e = false) ∧ endsEarly m va levels (Pte.addr e)

theorem endsEarly_of_leafEntry (h : leafEntry m a va = none) : endsEarly m va 3 a := by
  simp only [leafEntry] at h
  simp only [endsEarly]
  split_ifs at h with h0 h1 hh1 h2 hh2 h3 <;> simp_all

theorem endsEarly_of_blank {levels : Nat} (h : ∀ j < 512, Pte.present (m.mem t j) = false) :
    endsEarly m va levels t := by
  cases levels with
  | zero => exact h _ (vpn_lt va 3)
  | succ levels =>
    intro hp
    rw [h _ (vpn_lt va _)] at hp
    cases hp

theorem present_split {split : Nat → Nat → Nat} {cond : Prop} [Decidable cond]
    (hsplit : ∀ j < 512, Pte.present (split e j) = Pte.present e) (he : Pte.present e = false) :
    ∀ j < 512, Pte.present (tableEntries (if cond then some (split e) else none) j) = false := by
  intro j hj
  split
  · rw [tableEntries_some, hsplit j hj, he]
  · rw [tableEntries_none]
    decide

theorem PageTables.mapPdpt {res : Except String Nat} (h : PageTables m a)
    (hends : endsEarly m virt 3 a) (hm : m.mapPdpt a virt = (res, m')) :
    Keeps m m' a ∧ ∀ t, res = .ok t →
      At table m'.mem a [vpn virt 0] t ∧ endsEarly m' virt 2 t := by
  unfold Machine.mapPdpt at hm
  dsimp only at hm
  split at hm
  · next hp =>
    cases hm
    refine ⟨.refl h, fun t ht => ?_⟩
    obtain rfl := Except.ok.inj ht
    exact ⟨at_of_pml4e hp, (hends hp).2⟩
  · next hp =>
    obtain ⟨hkeeps, hnew⟩ := h.linkTable (ρ := []) .root (by simp) (vpn_lt virt 0)
      (by simpa using hp)
      (fun _ _ => by rw [tableEntries_none]; decide) hm
    exact ⟨hkeeps, fun t ht => ⟨(hnew t ht).1, endsEarly_of_blank (hnew t ht).2⟩⟩

theorem PageTables.mapPd {res : Except String Nat} {pdpt : Nat} (h : PageTables m a)
    (hpdpt : At table m.mem a [vpn virt 0] pdpt) (hends : endsEarly m virt 2 pdpt)
    (hm : m.mapPd pdpt virt = (res, m')) :
    Keeps m m' a ∧ ∀ t, res = .ok t →
      At table m'.mem a [vpn virt 0, vpn virt 1] t ∧ endsEarly m' virt 1 t := by
  unfold Machine.mapPd at hm
  dsimp only at hm
  by_cases hp : Pte.present (m.mem pdpt (vpn virt 1)) = true
  · rw [if_pos (by simp [hp, h.noGiB _ _ _ hpdpt (vpn_lt virt 1) hp])] at hm
    cases hm
    refine ⟨.refl h, fun t ht => ?_⟩
    obtain rfl := Except.ok.inj ht
    exact ⟨h.at_of_pdpte hpdpt hp, (hends hp).2⟩
  · rw [if_neg (by simp [hp])] at hm
    obtain ⟨hkeeps, hnew⟩ := h.linkTable (ρ := [vpn virt 0]) hpdpt (by simp) (vpn_lt virt 1)
      (by simpa using hp) (present_split (fun j hj => (splitPdpte_spec hj).2.1) (by simpa using hp))
        hm
    exact ⟨hkeeps, fun t ht => ⟨(hnew t ht).1, endsEarly_of_blank (hnew t ht).2⟩⟩

theorem PageTables.mapPt {res : Except String Nat} {pd : Nat} (h : PageTables m a)
    (hpd : At table m.mem a [vpn virt 0, vpn virt 1] pd) (hends : endsEarly m virt 1 pd)
    (hm : m.mapPt pd virt = (res, m')) :
    Keeps m m' a ∧ ∀ t, res = .ok t →
      At table m'.mem a (dir virt) t ∧ Pte.present (m'.mem t (vpn virt 3)) = false := by
  unfold Machine.mapPt at hm
  dsimp only at hm
  by_cases hp : Pte.present (m.mem pd (vpn virt 2)) = true
  · obtain ⟨hh, hpt⟩ := hends hp
    rw [if_pos (by simp [hp, hh rfl])] at hm
    obtain ⟨rfl, rfl⟩ := Prod.mk.inj hm
    have hkeeps := h.keeps_orUser pd (vpn virt 2)
    refine ⟨hkeeps, fun t ht => ?_⟩
    obtain rfl := Except.ok.inj ht
    refine ⟨at_of_entries hkeeps.entry (at_of_pde hpd hp (hh rfl)), ?_⟩
    rw [mem_write, if_neg]
    · exact hpt
    · rintro ⟨hpd', hidx⟩
      rw [endsEarly, hpd', hidx, hp] at hpt
      cases hpt
  · rw [if_neg (by simp [hp])] at hm
    obtain ⟨hkeeps, hnew⟩ := h.linkTable (ρ := [vpn virt 0, vpn virt 1]) hpd (by simp)
      (vpn_lt virt 2) (by simpa using hp)
      (present_split (fun j hj => (splitPde_spec hj).2) (by simpa using hp)) hm
    exact ⟨hkeeps, fun t ht => ⟨(hnew t ht).1, (hnew t ht).2 _ (vpn_lt virt 3)⟩⟩

theorem PageTables.mapInto {res : Except String Unit} {phys flags : Nat} (h : PageTables m a)
    (hnone : leafEntry m a virt = none) (hm : m.mapInto a virt phys flags = (res, m')) :
    Keeps m m' a := by
  unfold Machine.mapInto at hm
  split at hm
  · next h₁ =>
    cases hm
    exact (h.mapPdpt (endsEarly_of_leafEntry hnone) h₁).1
  next pdpt m₁ h₁ =>
  obtain ⟨hk₁, hdown⟩ := h.mapPdpt (endsEarly_of_leafEntry hnone) h₁
  obtain ⟨hpdpt, hends⟩ := hdown pdpt rfl
  split at hm
  · next h₂ =>
    cases hm
    exact hk₁.trans (hk₁.tables.mapPd hpdpt hends h₂).1
  next pd m₂ h₂ =>
  obtain ⟨hk₂, hdown⟩ := hk₁.tables.mapPd hpdpt hends h₂
  obtain ⟨hpd, hends⟩ := hdown pd rfl
  have hk₂ := hk₁.trans hk₂
  split at hm
  · next h₃ =>
    cases hm
    exact hk₂.trans (hk₂.tables.mapPt hpd hends h₃).1
  next pt m₃ h₃ =>
  obtain ⟨hk₃, hdown⟩ := hk₂.tables.mapPt hpd hends h₃
  obtain ⟨hpt, habs⟩ := hdown pt rfl
  cases hm
  exact (hk₂.trans hk₃).trans (hk₃.tables.keeps_leaf hpt rfl habs _)

/-! ### The loop -/

theorem PageTables.handleDemandPage {res : Bool} (h : PageTables m a)
    (hnone : leafEntry m a p = none) (halign : p % pageSize = 0)
    (hm : m.handleDemandPage a p = (res, m')) : Keeps m m' a := by
  unfold Machine.handleDemandPage at hm
  rw [halign, Nat.sub_zero] at hm
  split at hm
  · cases hm
    exact .refl h
  split at hm
  · next m₁ ha =>
    cases hm
    have htook := allocPage_took h.wf ha
    exact h.keeps_of_spares (htook.spares h.guarded) htook.sub
  next v _ phys m₁ ha =>
  have htook := allocPage_took h.wf ha
  have hphys : ¬ IsTable m a phys := fun hn => h.held phys hn (htook.page phys rfl).1
  have htaking := htook.spares h.guarded
  have hspares := htaking.trans (htaking.spares_writePage hphys fun _ => 0)
  have hfirst : Keeps m (m₁.zeroPage phys) a := h.keeps_of_spares hspares htook.sub
  have hnone' : leafEntry (m₁.zeroPage phys) a p = none := (leafEntry_congr hspares.mem).trans hnone
  dsimp only at hm
  split at hm
  all_goals
    next hmap =>
    cases hm
    exact hfirst.trans (hfirst.tables.mapInto hnone' hmap)

theorem PageTables.ensurePage {res : Bool} (h : PageTables m a) (halign : p % pageSize = 0)
    (hm : m.ensurePage a p = (res, m')) : Keeps m m' a := by
  unfold Machine.ensurePage at hm
  split at hm
  · cases hm
    exact .refl h
  next hnone =>
  have hnone : leafEntry m a p = none := h.resolvePhys_none.mp (by simpa using hnone)
  split at hm
  all_goals
    next hd =>
    cases hm
    exact h.handleDemandPage hnone halign hd

/-- The entry that maps the address allows the access. -/
def Allows (m : Machine) (a va : Nat) (wantWrite : Bool) : Prop :=
  ∃ e, leafEntry m a va = some e ∧ Pte.user e = true ∧ (wantWrite = true → Pte.writable e = true)

theorem PageTables.pageAllows_iff (h : PageTables m a) :
    m.pageAllows a p w = true ↔ Allows m a p w := by
  simp only [Machine.pageAllows, Allows, ← h.resolvePhysFlags]
  cases m.resolvePhysFlags a p <;> cases w <;> simp

theorem Keeps.allows (h : Keeps m m' a) (ht : PageTables m a) (hal : Allows m a va w) :
    Allows m' a va w := by
  obtain ⟨e, he, hu, hw⟩ := hal
  obtain ⟨e', he', hwide⟩ := h.leafEntry ht he
  exact ⟨e', he', hwide.user hu, fun hww => hwide.writable.trans (hw hww)⟩

theorem PageTables.validPages {res : Bool} (h : PageTables m a)
    (hpages : ∀ p ∈ pages, p % pageSize = 0) (hm : m.validPages a w pages = (res, m')) :
    Keeps m m' a ∧ (res = true → ∀ p ∈ pages, Allows m' a p w) := by
  induction pages generalizing m with
  | nil =>
    cases hm
    exact ⟨.refl h, nofun⟩
  | cons page pages ih =>
    obtain ⟨halign, hpages⟩ := List.forall_mem_cons.mp hpages
    unfold Machine.validPages at hm
    split at hm
    · next hens =>
      cases hm
      exact ⟨h.ensurePage halign hens, nofun⟩
    next m₁ hens =>
    have hk₁ := h.ensurePage halign hens
    split at hm
    · next hal =>
      obtain ⟨hk₂, hrest⟩ := ih hk₁.tables hpages hm
      refine ⟨hk₁.trans hk₂, fun hres => List.forall_mem_cons.mpr ⟨?_, hrest hres⟩⟩
      exact hk₂.allows hk₁.tables (hk₁.tables.pageAllows_iff.mp hal)
    · cases hm
      exact ⟨hk₁, nofun⟩

theorem leafEntry_pageAlignDown (m : Machine) (a va : Nat) :
    leafEntry m a (pageAlignDown va) = leafEntry m a va := by
  have hpath := path_pageAlignDown va
  simp only [path, List.cons.injEq] at hpath
  obtain ⟨h0, h1, h2, h3, -⟩ := hpath
  simp only [leafEntry, h0, h1, h2, h3]

theorem pagesFrom_aligned (hp : p ∈ pagesFrom (pageAlignDown addr) (addr + len)) :
    p % pageSize = 0 := by
  obtain ⟨k, rfl, -⟩ := mem_pagesFrom.mp hp
  have hpage : pageSize = 4096 := rfl
  simp only [pageAlignDown, hpage]
  omega

/-- A range that passed is in the user half and accessible, in the tables as the call leaves
them. -/
theorem userRangeValid_sound (h : PageTables m a)
    (hm : m.userRangeValid a addr len w = (true, m')) (x : Nat) (hlo : addr ≤ x)
    (hhi : x < addr + len) : x < 2 ^ 47 ∧ Allows m' a x w := by
  unfold Machine.userRangeValid at hm
  split_ifs at hm with h0 h1 h2 h3
  case pos => omega
  case neg =>
    have hend : addr + len - 1 < 2 ^ 47 := by
      simp only [isUserAddr, Bool.or_eq_true, Bool.not_eq_true', decide_eq_false_iff_not] at h2
      omega
    obtain ⟨-, hall⟩ := h.validPages (fun p => pagesFrom_aligned) hm
    have hal := hall rfl _ (pageAlignDown_mem_pagesFrom hlo hhi)
    rw [Allows, leafEntry_pageAlignDown] at hal
    exact ⟨by omega, hal⟩
  all_goals cases hm

/-- An address space without tables at 0x201000, and 24 free pages. -/
def blankSpace (recs : List VmaRec) : Machine where
  buddy := (Buddy.init 0x200000 32).addRegion 0x208000 0x18000
  mem := fun _ _ => 0
  pageRefc := fun _ => 0
  kernelPml4 := 0x200000
  vmas := recs

theorem blankSpace_gains : Buddy.Gains (Buddy.init 0x200000 32) (blankSpace []).buddy
    fun x => 0x208000 ≤ x ∧ x < 0x208000 + 0x18000 :=
  Buddy.addRegion_spec (Pool.wf_empty _ _ _) (by decide) (by decide) (by decide) (by
    rintro x _ (⟨o, a, hm, -⟩ | ⟨p, hm, -⟩)
    · cases hm
    · cases hm)

theorem blankSpace_avail {recs : List VmaRec} {x : Nat}
    (h : (blankSpace recs).buddy.pool.AvailAt x) : 0x208000 ≤ x ∧ x < 0x220000 := by
  rcases h with hf | ⟨p, hm, -⟩
  · rcases blankSpace_gains.sub x hf with ⟨o, a, hm, -⟩ | h
    · cases hm
    · omega
  · rw [show (blankSpace recs).buddy.pool.qContents = [] from blankSpace_gains.queue] at hm
    cases hm

theorem blankSpace_at {recs : List VmaRec} (h : At table (blankSpace recs).mem a π q) :
    π = [] ∧ q = a := by
  induction π using List.reverseRecOn generalizing q with
  | nil => exact ⟨rfl, (Option.some.inj h).symm⟩
  | append_singleton π i _ =>
    obtain ⟨t, -, ht⟩ := h.of_concat
    rw [show (blankSpace recs).mem t i = 0 from rfl, table_zero] at ht
    cases ht

theorem blankSpace_treeShaped (recs : List VmaRec) : TreeShaped (blankSpace recs) 0x201000 where
  wf := blankSpace_gains.wf
  small x hx := by
    have := blankSpace_avail hx
    omega
  placed hq hq' := by rw [(blankSpace_at hq).1, (blankSpace_at hq').1]
  held := by
    rintro q ⟨π, hq⟩ hx
    obtain ⟨-, rfl⟩ := blankSpace_at hq
    have := blankSpace_avail hx
    omega

theorem blankSpace_noGiB (recs : List VmaRec) : NoGiB (blankSpace recs) a :=
  fun _ _ _ hq => absurd (blankSpace_at hq).1 nofun

/-- A buffer that crosses a page border, in a region of which no page is mapped yet. -/
theorem userRangeValid_sound_two_pages :
    let m := blankSpace [⟨0x201000, 0x400000, 0x402000, 7⟩]
    (m.userRangeValid 0x201000 0x400ff8 16 true).1 = true ∧ leafEntry m 0x201000 0x400ff8 = none ∧
      Allows (m.userRangeValid 0x201000 0x400ff8 16 true).2 0x201000 0x400ff8 true ∧
      Allows (m.userRangeValid 0x201000 0x400ff8 16 true).2 0x201000 0x401007 true := by
  have hok : ((blankSpace [⟨0x201000, 0x400000, 0x402000, 7⟩]).userRangeValid 0x201000 0x400ff8 16
      true).1 = true := by decide
  have hsound := userRangeValid_sound ((blankSpace_treeShaped
    [⟨0x201000, 0x400000, 0x402000, 7⟩]).pageTables
    (blankSpace_noGiB _))
    (Prod.ext hok rfl)
  exact ⟨hok, by decide, (hsound 0x400ff8 (by decide) (by decide)).2,
    (hsound 0x401007 (by decide) (by decide)).2⟩

end Rynex.Paging
