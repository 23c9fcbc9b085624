import Rynex.Paging.Frame

/-! One whole address space, kernel half included: its tables as a tree, what the processor makes
of each address, and what the edits of `map_into` and `sys_munmap` do to both. -/

namespace Rynex.Paging

open Rynex.Memory Rynex.Lib Rynex.Lib.Radix

variable {m m' m₁ : Machine} {a p q s t i n va va' : Nat} {π ρ : List Nat}

/-! ### Tables and views -/

/-- The table that entry `e` at index `i` of a table at depth `d` leads to. -/
def table (d i e : Nat) : Option Nat :=
  if i < 512 && Pte.present e && (d = 0 || d < 3 && !Pte.huge e) then some (Pte.addr e) else none

/-- The page at `q` is a table of the address space. -/
def IsTable (m : Machine) (a q : Nat) : Prop := ∃ π, At table m.mem a π q

/-- What the processor makes of `va` from the table `t` on, with the given number of levels below
it: the page, whether a store is allowed, and whether user mode is. -/
def look (m : Machine) (va : Nat) : Nat → Nat → Bool → Bool → Option (Nat × Bool × Bool)
  | 0, t, w, u =>
    let e := m.mem t (vpn va 3)
    if Pte.present e then some (Pte.addr e, w && Pte.writable e, u && Pte.user e) else none
  | levels + 1, t, w, u =>
    let d := 2 - levels
    let e := m.mem t (vpn va d)
    if !Pte.present e then none
    else if levels ≠ 2 && Pte.huge e then
      let size := 2 ^ (39 - 9 * d)
      some (Pte.addr e - Pte.addr e % size + pageAlignDown (va % size), w && Pte.writable e,
        u && Pte.user e)
    else look m va levels (Pte.addr e) (w && Pte.writable e) (u && Pte.user e)

def view (m : Machine) (a va : Nat) : Option (Nat × Bool × Bool) := look m va 3 a true true

def plainWay (m : Machine) (va : Nat) : Nat → Nat → Bool
  | 0, _ => true
  | levels + 1, t =>
    let e := m.mem t (vpn va (2 - levels))
    (levels = 2 || !Pte.huge e) && (!Pte.present e || plainWay m va levels (Pte.addr e))

theorem table_eq_some {d e : Nat} : table d i e = some p ↔
    i < 512 ∧ Pte.present e = true ∧ (d = 0 ∨ d < 3 ∧ Pte.huge e = false) ∧ Pte.addr e = p := by
  simp [table, and_assoc]

theorem table_absent {d e : Nat} (h : Pte.present e = false) : table d i e = none := by
  simp [table, h]

theorem table_leaf (i e : Nat) : table 3 i e = none := by simp [table]

theorem table_zero (d i : Nat) : table d i 0 = none := table_absent (by simp [Pte.present])

theorem way_isTable {levels : Nat} (ht : At table m.mem a π t) (hlen : π.length + levels = 3)
    (hq : q ∈ way m va levels t) : IsTable m a q := by
  induction levels generalizing π t with
  | zero =>
    obtain rfl : q = t := by simpa [way] using hq
    exact ⟨π, ht⟩
  | succ levels ih =>
    simp only [way, List.mem_cons] at hq
    rcases hq with rfl | hq
    · exact ⟨π, ht⟩
    split at hq
    case isFalse => cases hq
    case isTrue hgo =>
      simp only [Bool.and_eq_true, Bool.or_eq_true, decide_eq_true_eq, Bool.not_eq_true'] at hgo
      have hd : 2 - levels = π.length := by omega
      rw [hd] at hgo hq
      refine ih (ht.concat (table_eq_some.mpr ⟨vpn_lt va _, hgo.1, ?_, rfl⟩)) (by simp; omega) hq
      rcases hgo.2 with h2 | hh
      · exact .inl (by omega)
      · exact .inr ⟨by omega, hh⟩

theorem look_congr {levels : Nat} {w u : Bool} (h : ∀ q ∈ way m va levels t, m'.mem q = m.mem q) :
    look m' va levels t w u = look m va levels t w u := by
  induction levels generalizing t w u with
  | zero => simp only [look, h t (by simp [way])]
  | succ levels ih =>
    have ht := h t (by simp [way])
    simp only [look, ht]
    by_cases hp : Pte.present (m.mem t (vpn va (2 - levels))) = true
    case neg => simp [hp]
    split
    · rfl
    split
    · rfl
    next hhuge =>
    refine ih fun q hq => h q ?_
    simp only [way, List.mem_cons]
    right
    rw [if_pos]
    · exact hq
    · by_cases h2 : levels = 2 <;> simp_all

theorem path_snoc (h : ρ <+: path va) (hlt : ρ.length < 4) :
    ρ ++ [vpn va ρ.length] <+: path va := by
  rw [List.prefix_iff_eq_take] at h
  generalize ρ.length = d at h hlt
  subst h
  interval_cases d <;> simp [path]

/-- Two machines agree on `va` if at each table on the way they read the same entry there, or are
known to agree from there on. -/
theorem view_of_entries (hentry : ∀ levels ρ s, At table m.mem a ρ s → ρ <+: path va →
      ρ.length + levels = 3 → m'.mem s (vpn va ρ.length) = m.mem s (vpn va ρ.length) ∨
        ∀ w u, look m' va levels s w u = look m va levels s w u) :
    view m' a va = view m a va := by
  suffices hlook : ∀ levels (ρ : List Nat) s w u, At table m.mem a ρ s → ρ <+: path va →
      ρ.length + levels = 3 → look m' va levels s w u = look m va levels s w u from
    hlook 3 [] a true true .root List.nil_prefix rfl
  intro levels
  induction levels with
  | zero =>
    intro ρ s w u hs hpre hρ
    rcases hentry 0 ρ s hs hpre hρ with heq | hknown
    · simp only [look, show ρ.length = 3 by omega ▸ heq]
    · exact hknown w u
  | succ levels ih =>
    intro ρ s w u hs hpre hρ
    rcases hentry (levels + 1) ρ s hs hpre hρ with heq | hknown
    case inr => exact hknown w u
    have hd : 2 - levels = ρ.length := by omega
    simp only [look, hd, heq]
    split
    · rfl
    split
    · rfl
    next hp hh =>
    refine ih (ρ ++ [vpn va ρ.length]) _ _ _ (hs.concat
      (table_eq_some.mpr ⟨vpn_lt va _, ?_, ?_, rfl⟩))
      (path_snoc hpre (by omega)) (by simp; omega)
    · simpa using hp
    · by_cases h2 : levels = 2
      · exact .inl (by omega)
      · exact .inr ⟨by omega, by simpa [h2] using hh⟩

/-! ### The invariant -/

/-- The tables of the address space `a` form a tree, the allocator holds none of them for others,
and below a page directory entry without the user bit there is no user page. -/
structure Space (m : Machine) (a : Nat) : Prop where
  wf : m.buddy.pool.Wf
  small : ∀ x, m.buddy.pool.AvailAt x → x < 2 ^ 52
  root : pageSize ∣ a
  placed : ∀ {π π' t}, At table m.mem a π t → At table m.mem a π' t → π = π'
  held : ∀ t, IsTable m a t → ¬ m.buddy.pool.AvailAt t
  strict : ∀ {π pd k pt}, π.length = 2 → At table m.mem a π pd →
    table 2 k (m.mem pd k) = some pt → Pte.user (m.mem pd k) = false →
    ∀ l, Pte.present (m.mem pt l) = true → Pte.user (m.mem pt l) = false

/-- The entry `e` of a table at depth `d`, above the page tables: above the page directories a
present one lets user mode through and is no 1 GiB page, and an absent one has no huge bit that
`map_into` would act on. -/
def gate (d e : Nat) : Bool :=
  if Pte.present e then d = 2 || Pte.user e && (d = 0 || !Pte.huge e) else !Pte.huge e

/-- The user half is open to user mode down to the page directories. -/
def Open (m : Machine) (a : Nat) : Prop :=
  ∀ π q k, At table m.mem a π q → π.length < 3 → (π ++ [k]).headD 0 < 256 →
    gate π.length (m.mem q k) = true

theorem Open.congr (h : Open m a) (hat : ∀ π q, At table m'.mem a π q → At table m.mem a π q)
    (hmem : ∀ π q k, At table m.mem a π q → π.length < 3 →
      gate π.length (m.mem q k) = true → gate π.length (m'.mem q k) = true) : Open m' a :=
  fun π q k hq hlen hk =>
    hmem π q k (hat π q hq) hlen (h π q k (hat π q hq) hlen hk)

theorem Space.guarded (h : Space m a) : Guarded (IsTable m a) m := ⟨h.wf, h.held⟩

theorem Space.page_dvd (h : Space m a) (hq : IsTable m a q) : pageSize ∣ q := by
  obtain ⟨π, hq⟩ := hq
  rcases List.eq_nil_or_concat π with rfl | ⟨ρ, i, rfl⟩
  · exact Option.some.inj hq ▸ h.root
  · obtain ⟨t, -, ht⟩ := At.of_concat (List.concat_eq_append ▸ hq)
    rw [← (table_eq_some.mp ht).2.2.2]
    exact Pte.page_dvd_addr _

theorem Space.spares (h : Space m a) (hs : Spares (IsTable m a) m m')
    (hsmall : ∀ x, m'.buddy.pool.AvailAt x → x < 2 ^ 52) :
    Space m' a ∧ (∀ π q, At table m'.mem a π q ↔ At table m.mem a π q) ∧
      ∀ va, view m' a va = view m a va := by
  have hat : ∀ π q, At table m'.mem a π q ↔ At table m.mem a π q := fun π q => by
    rw [At, At, walk_congr fun ρ i t _ ht => ?_]
    rw [hs.mem t ⟨ρ, ht⟩]
  refine ⟨⟨hs.wf, hsmall, h.root, fun h₁ h₂ => h.placed ((hat _ _).mp h₁) ((hat _ _).mp h₂), ?_,
    ?_⟩,
    hat, fun va => look_congr fun q hq => hs.mem q (way_isTable .root rfl hq)⟩
  · rintro t ⟨π, ht⟩
    exact hs.held t ⟨π, (hat _ _).mp ht⟩
  · intro π pd k pt hlen hpd hpt hu l hl
    have hpd := (hat _ _).mp hpd
    rw [hs.mem pd ⟨π, hpd⟩] at hpt hu
    have hptm : At table m.mem a (π ++ [k]) pt := hpd.concat (hlen ▸ hpt)
    rw [hs.mem pt ⟨_, hptm⟩] at hl ⊢
    exact h.strict hlen hpd hpt hu l hl

/-! ### A new table -/

/-- The empty table `n` is put under the absent entry `i` of the table `t` at `ρ`. -/
structure Linked (m m' : Machine) (a : Nat) (ρ : List Nat) (t i n : Nat) : Prop where
  at_table : At table m.mem a ρ t
  short : ρ.length < 3
  index : i < 512
  absent : Pte.present (m.mem t i) = false
  fresh : ¬ IsTable m a n
  same : ∀ q j, q ≠ n → ¬ (q = t ∧ j = i) → m'.mem q j = m.mem q j
  empty : ∀ j, m'.mem n j = 0
  present : Pte.present (m'.mem t i) = true
  plain : Pte.huge (m'.mem t i) = false
  user : Pte.user (m'.mem t i) = true
  addr : Pte.addr (m'.mem t i) = n

namespace Linked

variable (h : Linked m m' a ρ t i n)

include h

theorem ne (hq : At table m.mem a π q) : q ≠ n := fun heq => h.fresh ⟨π, heq ▸ hq⟩

theorem at_old (hq : At table m.mem a π q) : At table m'.mem a π q := by
  induction π using List.reverseRecOn generalizing q with
  | nil => exact hq
  | append_singleton π j ih =>
    obtain ⟨s, hs, hj⟩ := hq.of_concat
    refine (ih hs).concat ?_
    rw [h.same s j (h.ne hs) fun heq => ?_]
    · exact hj
    · rw [heq.1, heq.2, table_absent h.absent] at hj
      cases hj

theorem at_new : At table m'.mem a (ρ ++ [i]) n :=
  (h.at_old h.at_table).concat
    (table_eq_some.mpr ⟨h.index, h.present, .inr ⟨h.short, h.plain⟩, h.addr⟩)

theorem at_cases (hplaced : ∀ {π π' t}, At table m.mem a π t → At table m.mem a π' t → π = π')
    (hq : At table m'.mem a π q) : At table m.mem a π q ∨ π = ρ ++ [i] ∧ q = n := by
  induction π using List.reverseRecOn generalizing q with
  | nil => exact .inl hq
  | append_singleton π j ih =>
    obtain ⟨s, hs, hj⟩ := hq.of_concat
    rcases ih hs with hs | ⟨-, rfl⟩
    · by_cases heq : s = t ∧ j = i
      · obtain ⟨rfl, rfl⟩ := heq
        obtain rfl := hplaced hs h.at_table
        exact .inr ⟨rfl, h.addr ▸ (table_eq_some.mp hj).2.2.2.symm⟩
      · rw [h.same s j (h.ne hs) heq] at hj
        exact .inl (hs.concat hj)
    · rw [h.empty, table_zero] at hj
      cases hj

theorem view_eq (hplaced : ∀ {π π' t}, At table m.mem a π t → At table m.mem a π' t → π = π') :
    view m' a va = view m a va := by
  refine view_of_entries fun levels π s hs _ hlen => ?_
  by_cases heq : s = t ∧ vpn va π.length = i
  · right
    intro w u
    obtain ⟨rfl, rfl⟩ := heq
    obtain rfl := hplaced hs h.at_table
    have hshort := h.short
    obtain ⟨levels, rfl⟩ : ∃ k, levels = k + 1 := ⟨levels - 1, by omega⟩
    have hnone : ∀ w u, look m' va levels n w u = none := fun w u => by
      cases levels <;> simp [look, h.empty, Pte.present]
    have hd : 2 - levels = π.length := by omega
    simp [look, hd, h.absent, h.present, h.plain, h.addr, hnone]
  · exact .inl (h.same s _ (h.ne hs) heq)

theorem opened (hplaced : ∀ {π π' t}, At table m.mem a π t → At table m.mem a π' t → π = π')
    (ho : Open m a) : Open m' a := by
  intro π q k hq hlen hk
  rcases h.at_cases hplaced hq with hq | ⟨-, rfl⟩
  · by_cases heq : q = t ∧ k = i
    · simp [gate, heq.1, heq.2, h.present, h.user, h.plain]
    · rw [h.same q k (h.ne hq) heq]
      exact ho π q k hq hlen hk
  · simp [gate, h.empty, Pte.present, Pte.huge]

end Linked

theorem link_entry (hn : Pte.addr n = n) : let e := n ||| ptePresent ||| pteWritable ||| pteUser
    Pte.present e = true ∧ Pte.huge e = false ∧ Pte.user e = true ∧ Pte.addr e = n := by
  have hbit : ∀ i, ¬ (12 ≤ i ∧ i < 52) → n.testBit i = false := fun i => Pte.testBit_page hn
  have h7 : ptePresent ||| (pteWritable ||| pteUser) = Pte.flags 7 := by decide
  intro e
  have he : e = n ||| Pte.flags 7 := by rw [← h7, ← Nat.lor_assoc, ← Nat.lor_assoc]
  rw [he, Pte.present_or_flags hn, Pte.huge_or_flags hn, Pte.user_or_flags hn, Pte.addr_or_flags hn]
  exact ⟨by decide, by decide, by decide, rfl⟩

theorem Space.of_linked (h : Space m a) (hl : Linked m m' a ρ t i n) (hwf : m'.buddy.pool.Wf)
    (hsub : ∀ x, m'.buddy.pool.AvailAt x → m.buddy.pool.AvailAt x)
    (hn : ¬ m'.buddy.pool.AvailAt n) : Space m' a := by
  have hcases : ∀ {π q}, At table m'.mem a π q → At table m.mem a π q ∨ π = ρ ++ [i] ∧ q = n :=
    fun hq => hl.at_cases h.placed hq
  refine ⟨hwf, fun x hx => h.small x (hsub x hx), h.root, fun h₁ h₂ => ?_, ?_, ?_⟩
  · rcases hcases h₁ with h₁ | ⟨rfl, rfl⟩ <;> rcases hcases h₂ with h₂ | ⟨rfl, hq⟩
    · exact h.placed h₁ h₂
    · exact absurd hq (hl.ne h₁)
    · exact absurd rfl (hl.ne h₂)
    · rfl
  · rintro q ⟨π, hq⟩
    rcases hcases hq with hq | ⟨-, rfl⟩
    · exact fun hx => h.held q ⟨π, hq⟩ (hsub q hx)
    · exact hn
  · intro π pd k pt hlen hpd hpt hu l hp
    rcases hcases hpd with hpd | ⟨-, rfl⟩
    · have hne : ¬ (pd = t ∧ k = i) := by
        rintro ⟨rfl, rfl⟩
        rw [hl.user] at hu
        cases hu
      rw [hl.same pd k (hl.ne hpd) hne] at hpt hu
      have hptm : At table m.mem a (π ++ [k]) pt := hpd.concat (hlen ▸ hpt)
      have hpt_ne : ¬ (pt = t ∧ l = i) := by
        rintro ⟨rfl, -⟩
        have hlen' := congrArg List.length (h.placed hptm hl.at_table)
        have hshort := hl.short
        simp at hlen'
        omega
      rw [hl.same pt l (hl.ne hptm) hpt_ne] at hp ⊢
      exact h.strict hlen hpd hpt hu l hp
    · rw [hl.empty, table_zero] at hpt
      cases hpt

/-- What a stage of `map_into` leaves: the invariant, the old tables and every view. -/
structure Grown (m m' : Machine) (a : Nat) : Prop where
  space : Space m' a
  at_old : ∀ {π q}, At table m.mem a π q → At table m'.mem a π q
  view : ∀ va, view m' a va = view m a va
  opened : Open m a → Open m' a

theorem Grown.refl (h : Space m a) : Grown m m a := ⟨h, id, fun _ => rfl, id⟩

theorem Grown.trans (h : Grown m m₁ a) (h' : Grown m₁ m' a) : Grown m m' a :=
  ⟨h'.space, fun hq => h'.at_old (h.at_old hq), fun va => (h'.view va).trans (h.view va),
    fun ho => h'.opened (h.opened ho)⟩

theorem Space.linkTable {res : Except String Nat} (h : Space m a) (ht : At table m.mem a ρ t)
    (hshort : ρ.length < 3) (hi : i < 512) (habs : Pte.present (m.mem t i) = false)
    (hl : m.linkTable t i none = (res, m')) :
    Grown m m' a ∧ ∀ n, res = .ok n → Linked m m' a ρ t i n := by
  unfold Machine.linkTable at hl
  split at hl
  · next m₁ ha =>
    cases hl
    have htook := allocZeroedPage_took h.wf ha
    have hs := htook.spares h.guarded
    obtain ⟨hspace, hat, hview⟩ := h.spares hs fun x hx => h.small x (htook.sub x hx)
    refine ⟨⟨hspace, (hat _ _).mpr, hview, fun ho => ho.congr (fun _ _ => (hat _ _).mp) ?_⟩, nofun⟩
    exact fun π q k hq _ hg => by rwa [hs.mem q ⟨π, hq⟩]
  next n m₁ ha =>
  cases hl
  have halloc := allocZeroedPage_some h.wf ha
  have hn : Pte.addr n = n := Pte.addr_of_dvd halloc.page_dvd (h.small n halloc.avail)
  have hfresh : ¬ IsTable m a n := fun hT => h.held n hT halloc.avail
  have htn : t ≠ n := by rintro rfl; exact hfresh ⟨ρ, ht⟩
  obtain ⟨hpres, hplain, huser, haddr⟩ := link_entry hn
  set m' := ((m₁.zeroPage n).fillTable n none).write t i
    (n ||| ptePresent ||| pteWritable ||| pteUser) with hm'
  have hmem : ∀ q j, m'.mem q j =
      if q = t ∧ j = i then n ||| ptePresent ||| pteWritable ||| pteUser
      else if q = n then 0 else m.mem q j := by
    intro q j
    simp only [hm', Machine.fillTable, Machine.zeroPage, Machine.writePage, Machine.write,
      halloc.mem]
    by_cases hq : q = t
    · subst hq
      by_cases hj : j = i <;> simp [hj, htn]
    · rw [if_neg fun heq => hq heq.1, Function.update_of_ne hq]
      by_cases hqn : q = n
      · rw [if_pos hqn, hqn, Function.update_self]
      · rw [if_neg hqn, Function.update_of_ne hqn, Function.update_of_ne hqn]
  have hl : Linked m m' a ρ t i n := by
    constructor
    case at_table => exact ht
    case short => exact hshort
    case index => exact hi
    case absent => exact habs
    case fresh => exact hfresh
    case same => exact fun q j hq hqt => by rw [hmem, if_neg hqt, if_neg hq]
    case empty => exact fun j => by rw [hmem, if_neg fun heq => htn heq.1.symm, if_pos rfl]
    case present => rwa [hmem, if_pos ⟨rfl, rfl⟩]
    case plain => rwa [hmem, if_pos ⟨rfl, rfl⟩]
    case user => rwa [hmem, if_pos ⟨rfl, rfl⟩]
    case addr => rwa [hmem, if_pos ⟨rfl, rfl⟩]
  have hspace := h.of_linked hl halloc.grants.wf (fun x hx => (halloc.grants.sub x hx).1)
    halloc.not_avail
  refine ⟨⟨hspace, hl.at_old, fun va => hl.view_eq h.placed, hl.opened h.placed⟩, ?_⟩
  rintro _ ⟨⟩
  exact hl

/-! ### The user bit of a page directory entry -/

theorem testBit_or_user (e i : Nat) : (e ||| pteUser).testBit i =
    (e.testBit i || decide (i = 2)) := by
  rw [Nat.testBit_or, pteUser, Nat.one_shiftLeft, Nat.testBit_two_pow]
  simp [eq_comm]

theorem present_or_user (e : Nat) : Pte.present (e ||| pteUser) = Pte.present e := by
  rw [Pte.present_eq, Pte.present_eq, testBit_or_user]; simp

theorem writable_or_user (e : Nat) : Pte.writable (e ||| pteUser) = Pte.writable e := by
  rw [Pte.writable_eq, Pte.writable_eq, testBit_or_user]; simp

theorem huge_or_user (e : Nat) : Pte.huge (e ||| pteUser) = Pte.huge e := by
  rw [Pte.huge_eq, Pte.huge_eq, testBit_or_user]; simp

theorem user_or_user (e : Nat) : Pte.user (e ||| pteUser) = true := by
  rw [Pte.user_eq, testBit_or_user]; simp

theorem addr_or_user (e : Nat) : Pte.addr (e ||| pteUser) = Pte.addr e := by
  refine Nat.eq_of_testBit_eq fun i => ?_
  rw [Pte.testBit_addr, Pte.testBit_addr, testBit_or_user]
  by_cases h : i = 2 <;> simp [h]

theorem table_or_user (d i e : Nat) : table d i (e ||| pteUser) = table d i e := by
  simp [table, present_or_user, huge_or_user, addr_or_user]

theorem mem_write (m : Machine) (t i v q j : Nat) :
    (m.write t i v).mem q j = if q = t ∧ j = i then v else m.mem q j := by
  simp only [Machine.write]
  by_cases hq : q = t
  · subst hq
    by_cases hj : j = i <;> simp [hj]
  · simp [hq]

/-- Below a page directory entry that lacks the user bit there are no user pages, so the bit may
be set. -/
theorem Space.openPde {pd k pt : Nat} (h : Space m a) (hlen : π.length = 2)
    (hpd : At table m.mem a π pd) (hpt : table 2 k (m.mem pd k) = some pt) :
    Grown m (m.write pd k (m.mem pd k ||| pteUser)) a := by
  set m' := m.write pd k (m.mem pd k ||| pteUser) with hm'
  have hmem : ∀ q j, m'.mem q j = if q = pd ∧ j = k then m.mem pd k ||| pteUser else m.mem q j :=
    fun q j => mem_write m pd k _ q j
  have hat : ∀ π q, At table m'.mem a π q ↔ At table m.mem a π q := fun π q => by
    rw [At, At, walk_of_next fun d q j => ?_]
    rw [hmem]
    split_ifs with heq
    · rw [heq.1, heq.2, table_or_user]
    · rfl
  have hptm : At table m.mem a (π ++ [k]) pt := hpd.concat (hlen ▸ hpt)
  -- a page table is no page directory
  have hdeep : ∀ {ρ q}, At table m.mem a ρ q → ρ.length ≠ 2 → q ≠ pd := by
    rintro ρ q hq hρ rfl
    exact hρ (h.placed hq hpd ▸ hlen)
  refine ⟨⟨h.wf, h.small, h.root, fun h₁ h₂ => h.placed ((hat _ _).mp h₁) ((hat _ _).mp h₂), ?_,
    ?_⟩,
    (hat _ _).mpr, fun va => ?_, fun ho => ho.congr (fun _ _ => (hat _ _).mp) fun ρ q j hq hρ hg =>
      ?_⟩
  · rintro q ⟨ρ, hq⟩
    exact h.held q ⟨ρ, (hat _ _).mp hq⟩
  · intro ρ pd' k' pt' hlen' hpd' hpt' hu l hl
    have hpd' := (hat _ _).mp hpd'
    rw [hmem] at hpt' hu
    split_ifs at hpt' hu with heq
    · rw [user_or_user] at hu
      cases hu
    · have hpt'm := hpd'.concat (hlen' ▸ hpt')
      have hne : ¬ (pt' = pd ∧ l = k) := fun heq => hdeep hpt'm (by simp; omega) heq.1
      rw [hmem, if_neg hne] at hl ⊢
      exact h.strict hlen' hpd' hpt' hu l hl
  · refine view_of_entries fun levels ρ s hs _ hρ => ?_
    by_cases heq : s = pd ∧ vpn va ρ.length = k
    · right
      intro w u
      obtain ⟨rfl, hk⟩ := heq
      obtain rfl := h.placed hs hpd
      obtain rfl : levels = 1 := by omega
      rw [hlen] at hk
      obtain ⟨-, hpres, hplain | ⟨-, hplain⟩, haddr⟩ := table_eq_some.mp hpt
      · omega
      have hne : ∀ j, ¬ (pt = s ∧ j = k) := fun j heq => hdeep hptm (by simp; omega) heq.1
      simp only [look, hmem, hk, and_self, if_true, present_or_user, hpres, huge_or_user, hplain,
        addr_or_user, haddr, if_neg (hne _), writable_or_user, user_or_user]
      cases hu : Pte.user (m.mem s k)
      · cases hl : Pte.present (m.mem pt (vpn va 3))
        · simp
        · simp [h.strict hlen hpd hpt hu _ hl]
      · simp
    · left
      rw [hmem, if_neg heq]
  · rw [hmem]
    split_ifs with heq
    · obtain ⟨rfl, -⟩ := heq
      obtain rfl := h.placed hq hpd
      simp [gate, hlen, present_or_user, (table_eq_some.mp hpt).2.1]
    · exact hg

/-! ### A leaf entry -/

/-- A leaf entry is written, below a page directory entry with the user bit unless it is cleared:
every other page looks as before. -/
theorem Space.setLeaf {pd pt v : Nat} (h : Space m a)
    (hpd : At table m.mem a [vpn va' 0, vpn va' 1] pd)
    (hpt : table 2 (vpn va' 2) (m.mem pd (vpn va' 2)) = some pt)
    (hu : Pte.present v = true → Pte.user (m.mem pd (vpn va' 2)) = true) :
    Space (m.write pt (vpn va' 3) v) a ∧ (Open m a → Open (m.write pt (vpn va' 3) v) a) ∧
      ∀ va, path va ≠ path va' → view (m.write pt (vpn va' 3) v) a va = view m a va := by
  set m' := m.write pt (vpn va' 3) v with hm'
  have hmem : ∀ q j, m'.mem q j = if q = pt ∧ j = vpn va' 3 then v else m.mem q j :=
    fun q j => mem_write m pt _ v q j
  have hptm : At table m.mem a (dir va') pt := hpd.concat hpt
  have hpos : ∀ {ρ}, At table m.mem a ρ pt → ρ = dir va' := fun hq => h.placed hq hptm
  have hat : ∀ π q, At table m'.mem a π q ↔ At table m.mem a π q := fun π q => by
    rw [At, At, walk_congr fun ρ i t _ ht => ?_]
    rw [hmem]
    split_ifs with heq
    · obtain ⟨rfl, rfl⟩ := heq
      rw [hpos ht, show (dir va').length = 3 from rfl, table_leaf, table_leaf]
    · rfl
  refine ⟨⟨h.wf, h.small, h.root, fun h₁ h₂ => h.placed ((hat _ _).mp h₁) ((hat _ _).mp h₂), ?_,
    ?_⟩,
    fun ho => ho.congr (fun _ _ => (hat _ _).mp) fun ρ q j hq hρ hg => ?_, fun va hva => ?_⟩
  · rintro q ⟨ρ, hq⟩
    exact h.held q ⟨ρ, (hat _ _).mp hq⟩
  · intro ρ pd' k pt' hlen hpd₀ hpt' hu' l hl
    have hpd' := (hat _ _).mp hpd₀
    have hne : ¬ (pd' = pt ∧ k = vpn va' 3) := by
      rintro ⟨rfl, -⟩
      rw [hpos hpd'] at hlen
      cases hlen
    rw [hmem, if_neg hne] at hpt' hu'
    have hpt'm := hpd'.concat (hlen ▸ hpt')
    rw [hmem] at hl ⊢
    split_ifs at hl ⊢ with heq
    · -- the entry is the one written, so its page directory entry is the one of `va'`
      obtain ⟨rfl, -⟩ := heq
      have hpath : ρ ++ [k] = [vpn va' 0, vpn va' 1] ++ [vpn va' 2] := hpos hpt'm
      obtain ⟨rfl, hk⟩ := List.append_inj' hpath rfl
      obtain rfl := List.singleton_inj.mp hk
      obtain rfl := hpd'.unique hpd
      rw [hu hl] at hu'
      cases hu'
    · exact h.strict hlen hpd' hpt' hu' l hl
  · rw [hmem, if_neg]
    · exact hg
    rintro ⟨rfl, -⟩
    rw [hpos hq] at hρ
    exact absurd hρ (by simp [dir])
  · refine view_of_entries fun levels ρ s hs hpre hρ => .inl ?_
    rw [hmem, if_neg]
    rintro ⟨rfl, hl⟩
    obtain rfl := hpos hs
    refine hva (((path_snoc hpre (by simp [dir])).eq_of_length rfl).symm.trans ?_)
    rw [hl]
    rfl

/-! ### `map_into` -/

theorem plainWay_three : plainWay m va 3 t = (!Pte.present (m.mem t (vpn va 0)) ||
    plainWay m va 2 (Pte.addr (m.mem t (vpn va 0)))) := by
  simp [plainWay]

theorem plainWay_two : plainWay m va 2 t = (!Pte.huge (m.mem t (vpn va 1)) &&
    (!Pte.present (m.mem t (vpn va 1)) || plainWay m va 1 (Pte.addr (m.mem t (vpn va 1))))) := by
  simp [plainWay]

theorem plainWay_one : plainWay m va 1 t = !Pte.huge (m.mem t (vpn va 2)) := by
  simp [plainWay]

theorem plainWay_empty {levels : Nat} (h : ∀ j, m.mem t j = 0) : plainWay m va levels t = true := by
  cases levels <;> simp [plainWay, h, Pte.huge, Pte.present]

/-- One stage: from the table at `ρ` on the way to `va` to the next one. -/
structure Stage (m m' : Machine) (a va : Nat) (ρ : List Nat) (res : Except String Nat) : Prop where
  grown : Grown m m' a
  leads : ∀ t', res = .ok t' → At table m'.mem a (ρ ++ [vpn va ρ.length]) t' ∧
    plainWay m' va (2 - ρ.length) t' = true

theorem Stage.of_link {res : Except String Nat} (h : Space m a) (ht : At table m.mem a ρ t)
    (hshort : ρ.length < 3) (habs : Pte.present (m.mem t (vpn va ρ.length)) = false)
    (hl : m.linkTable t (vpn va ρ.length) none = (res, m')) : Stage m m' a va ρ res := by
  obtain ⟨hgrown, hlinked⟩ := h.linkTable ht hshort (vpn_lt va _) habs hl
  exact ⟨hgrown, fun n hn => ⟨(hlinked n hn).at_new, plainWay_empty (hlinked n hn).empty⟩⟩

theorem mapPdpt_stage {res : Except String Nat} (h : Space m a) (hplain : plainWay m va 3 a = true)
    (hm : m.mapPdpt a va = (res, m')) : Stage m m' a va [] res := by
  unfold Machine.mapPdpt at hm
  rw [plainWay_three] at hplain
  simp only at hm
  split_ifs at hm with hp
  · cases hm
    refine ⟨.refl h, ?_⟩
    rintro _ ⟨⟩
    exact ⟨At.root.concat (table_eq_some.mpr ⟨vpn_lt va 0, hp, .inl rfl,
      rfl⟩), by simpa [hp] using hplain⟩
  · exact .of_link h .root (by simp) (by simpa using hp) hm

theorem mapPd_stage {res : Except String Nat} (h : Space m a)
    (ht : At table m.mem a [vpn va 0] t) (hplain : plainWay m va 2 t = true)
    (hm : m.mapPd t va = (res, m')) : Stage m m' a va [vpn va 0] res := by
  unfold Machine.mapPd at hm
  rw [plainWay_two, Bool.and_eq_true, Bool.not_eq_true'] at hplain
  simp only [hplain.1, Bool.not_false, Bool.and_true, Bool.false_eq_true, if_false] at hm
  split_ifs at hm with hp
  · cases hm
    refine ⟨.refl h, ?_⟩
    rintro _ ⟨⟩
    exact ⟨ht.concat (table_eq_some.mpr ⟨vpn_lt va 1, hp, .inr ⟨by simp, hplain.1⟩, rfl⟩),
      by simpa [hp] using hplain.2⟩
  · exact .of_link h ht (by simp) (by simpa using hp) hm

theorem mapPt_stage {res : Except String Nat} (h : Space m a)
    (ht : At table m.mem a [vpn va 0, vpn va 1] t) (hplain : plainWay m va 1 t = true)
    (hm : m.mapPt t va = (res, m')) : Grown m m' a ∧ ∀ pt, res = .ok pt →
      table 2 (vpn va 2) (m'.mem t (vpn va 2)) = some pt ∧
        Pte.user (m'.mem t (vpn va 2)) = true := by
  unfold Machine.mapPt at hm
  rw [plainWay_one, Bool.not_eq_true'] at hplain
  simp only [hplain, Bool.not_false, Bool.and_true, Bool.false_eq_true, if_false] at hm
  split_ifs at hm with hp
  · cases hm
    have hpt := table_eq_some.mpr ⟨vpn_lt va 2, hp, .inr ⟨show 2 < 3 by decide, hplain⟩, rfl⟩
    refine ⟨h.openPde rfl ht hpt, ?_⟩
    rintro _ ⟨⟩
    rw [mem_write, if_pos ⟨rfl, rfl⟩, table_or_user]
    exact ⟨hpt, user_or_user _⟩
  · obtain ⟨hgrown, hlinked⟩ := h.linkTable ht (by simp) (vpn_lt va 2) (by simpa using hp) hm
    refine ⟨hgrown, fun pt hres => ?_⟩
    have hl := hlinked pt hres
    exact ⟨table_eq_some.mpr ⟨vpn_lt va 2, hl.present, .inr ⟨by decide, hl.plain⟩, hl.addr⟩,
      hl.user⟩

/-- `map_into` on a way without huge pages changes the view of its own page only. -/
theorem Space.mapInto {res : Except String Unit} {phys flags : Nat} (h : Space m a)
    (hplain : plainWay m va 3 a = true) (hm : m.mapInto a va phys flags = (res, m')) :
    Space m' a ∧ (Open m a → Open m' a) ∧
      ∀ va', path va' ≠ path va → view m' a va' = view m a va' := by
  unfold Machine.mapInto at hm
  split at hm
  · next e m₁ h₁ =>
    cases hm
    have hs := mapPdpt_stage h hplain h₁
    exact ⟨hs.grown.space, hs.grown.opened, fun va' _ => hs.grown.view va'⟩
  next pdpt m₁ h₁ =>
  obtain ⟨hg₁, hl₁⟩ := mapPdpt_stage h hplain h₁
  obtain ⟨hpdpt, hplain₁⟩ := hl₁ pdpt rfl
  split at hm
  · next e m₂ h₂ =>
    cases hm
    have hg := hg₁.trans (mapPd_stage hg₁.space hpdpt hplain₁ h₂).grown
    exact ⟨hg.space, hg.opened, fun va' _ => hg.view va'⟩
  next pd m₂ h₂ =>
  obtain ⟨hg₂, hl₂⟩ := mapPd_stage hg₁.space hpdpt hplain₁ h₂
  obtain ⟨hpd, hplain₂⟩ := hl₂ pd rfl
  split at hm
  · next e m₃ h₃ =>
    cases hm
    have hg := (hg₁.trans hg₂).trans (mapPt_stage hg₂.space hpd hplain₂ h₃).1
    exact ⟨hg.space, hg.opened, fun va' _ => hg.view va'⟩
  next pt m₃ h₃ =>
  obtain ⟨hg₃, hl₃⟩ := mapPt_stage hg₂.space hpd hplain₂ h₃
  obtain ⟨hpt, hu⟩ := hl₃ pt rfl
  cases hm
  obtain ⟨hspace, hopen, hview⟩ := hg₃.space.setLeaf (v := phys ||| flags ||| ptePresent)
    (hg₃.at_old hpd) hpt fun _ => hu
  have hg := (hg₁.trans hg₂).trans hg₃
  exact ⟨hspace, fun ho => hopen (hg.opened ho),
    fun va' hva' => (hview va' hva').trans (hg.view va')⟩

end Rynex.Paging
