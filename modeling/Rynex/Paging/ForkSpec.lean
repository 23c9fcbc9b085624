import Rynex.Paging.Sharing

/-! What `cow_fork_pml4` does: the new PML4 leads to the tables of the old one, every page below it
is counted once more, no user page stays writable, and nothing else changes. -/

namespace Rynex.Paging

open Rynex.Memory Rynex.Lib Rynex.Lib.Radix

variable {m m' m₁ m₂ : Machine} {n p q t c d h i j k : Nat} {S T : Nat → Prop} {π σ : List Nat}

/-! ### Counting up -/

theorem refcGet_refcInc (m : Machine) (p q : Nat) : (m.refcInc p).refcGet q =
    if Machine.refcIdx q = Machine.refcIdx p ∧ Machine.refcIdx p < maxRefcPages then
      min (m.refcGet p + 1) u8Max else m.refcGet q := by
  simp only [Machine.refcGet, Machine.refcInc]
  by_cases hidx : Machine.refcIdx q = Machine.refcIdx p
  · rw [hidx]
    by_cases hlt : Machine.refcIdx p < maxRefcPages
    · simp [hlt, Buddy.setAt_self hlt]
    · simp [hlt]
  · simp [hidx, Buddy.setAt_ne hidx]

theorem pteRefcGet_pteRefcInc (b : Buddy) (p q : Nat) : (b.pteRefcInc p).pteRefcGet q =
    if b.physToIdx q = b.physToIdx p ∧ b.physToIdx p < maxRefcPages then
      min (b.pteRefcGet p + 1) u16Max else b.pteRefcGet q := by
  have hrefc : (b.pteRefcInc p).pteRefc =
      Buddy.setAt b.pteRefc (b.physToIdx p) (min (b.pteRefc (b.physToIdx p) + 1) u16Max) := rfl
  simp only [Buddy.pteRefcGet, Buddy.physToIdx_pteRefcInc, hrefc]
  by_cases hidx : b.physToIdx q = b.physToIdx p
  · rw [hidx]
    by_cases hlt : b.physToIdx p < maxRefcPages
    · simp [hlt, Buddy.setAt_self hlt]
    · simp [hlt]
  · simp [hidx, Buddy.setAt_ne hidx]

/-- `m'` is `m` after pages were counted up and entries of the tables in `S` were made read-only.
The page `n` is a table under construction. -/
structure Shares (n : Nat) (m m' : Machine) (S : Nat → Prop) : Prop where
  pool : m'.buddy.pool = m.buddy.pool
  steady : Steady m.buddy m'.buddy
  kernel : m'.kernelPml4 = m.kernelPml4
  entry : ∀ q j, q ≠ n → m'.mem q j = m.mem q j ∨ m'.mem q j = Pte.readOnly (m.mem q j)
  out : ∀ q, ¬ S q → m'.mem q = m.mem q
  rise : ∀ d q k, k ≤ u8Max → k ≤ cnt m d q → k ≤ cnt m' d q

/-- The count of the page at depth `d` went up, to two at least, unless it is stuck. -/
def Visited (m m' : Machine) (d p : Nat) : Prop :=
  ∀ k < u8Max, k ≤ max 1 (cnt m d p) → k + 1 ≤ cnt m' d p

theorem Shares.refl (n : Nat) (m : Machine) (S : Nat → Prop) : Shares n m m S :=
  ⟨rfl, Steady.refl _, rfl, fun _ _ _ => .inl rfl, fun _ _ => rfl, fun _ _ _ _ => id⟩

theorem Shares.trans (h : Shares n m m₁ S) (h' : Shares n m₁ m' S) : Shares n m m' S := by
  refine ⟨h'.pool.trans h.pool, h.steady.trans h'.steady, h'.kernel.trans h.kernel,
    fun q j hq => ?_, fun q hq => (h'.out q hq).trans (h.out q hq),
    fun d q k hk hle => h'.rise d q k hk (h.rise d q k hk hle)⟩
  rcases h.entry q j hq with h₁ | h₁
  · rw [← h₁]; exact h'.entry q j hq
  · rcases h'.entry q j hq with h₂ | h₂
    · exact .inr (h₂.trans h₁)
    · refine .inr (h₂.trans ?_)
      rw [h₁, Pte.readOnly_readOnly]

theorem Shares.mono (h : Shares n m m' S) (hST : ∀ q, S q → T q) : Shares n m m' T :=
  { h with out := fun q hq => h.out q fun hs => hq (hST q hs) }

theorem Shares.next_eq (h : Shares n m m' S) (hq : q ≠ n) :
    next d j (m'.mem q j) = next d j (m.mem q j) := by
  rcases h.entry q j hq with he | he
  · rw [he]
  · rw [he, next_readOnly]

theorem Shares.not_writable (h : Shares n m m' S) (hq : q ≠ n)
    (hw : Pte.writable (m.mem q j) = false) : Pte.writable (m'.mem q j) = false := by
  rcases h.entry q j hq with he | he
  · rw [he]; exact hw
  · rw [he]; exact Pte.writable_readOnly _

theorem Visited.after (hv : Visited m₁ m' d p) (h : Shares n m m₁ S) : Visited m m' d p := by
  intro k hk hle
  refine hv k hk ?_
  rcases le_max_iff.mp hle with h1 | hc
  · exact le_max_of_le_left h1
  · exact le_max_of_le_right (h.rise d p k hk.le hc)

theorem Visited.before (hv : Visited m m₁ d p) (h : Shares n m₁ m' S) : Visited m m' d p :=
  fun k hk hle => h.rise d p (k + 1) hk (hv k hk hle)

theorem steady_markPageUsed (b : Buddy) (p : Nat) : Steady b (b.markPageUsed p) := by
  refine ⟨rfl, rfl, fun i hi => ?_, fun _ => id⟩
  change (if b.physToIdx p ≠ u64Max then Buddy.setAt b.used (b.physToIdx p) true else b.used) i =
    true
  split
  · exact Buddy.setAt_of_imp (P := (· = true)) rfl hi
  · exact hi

theorem shares_refcInc (n : Nat) (m : Machine) (p : Nat) (S : Nat → Prop) :
    Shares n m (m.refcInc p) S := by
  refine ⟨rfl, Steady.refl _, rfl, fun _ _ _ => .inl rfl, fun _ _ => rfl, fun d q k hk hle => ?_⟩
  by_cases hd : d ≤ 3
  · simpa only [cnt, hd, if_true, Machine.buddy_refcInc] using hle
  simp only [cnt, hd, if_false, refcGet_refcInc] at hle ⊢
  by_cases hidx : Machine.refcIdx q = Machine.refcIdx p ∧ Machine.refcIdx p < maxRefcPages
  · have heq : m.refcGet q = m.refcGet p := by simp only [Machine.refcGet, hidx.1]
    rw [if_pos hidx]
    omega
  · rwa [if_neg hidx]

theorem shares_pteRefcInc (n : Nat) (m : Machine) (p : Nat) (S : Nat → Prop) :
    Shares n m (m.pteRefcInc p) S := by
  refine ⟨rfl, ⟨rfl, rfl, fun _ => id, fun _ => id⟩, rfl, fun _ _ _ => .inl rfl, fun _ _ => rfl,
    fun d q k hk hle => ?_⟩
  by_cases hd : d ≤ 3
  · simp only [cnt, hd, if_true, Machine.pteRefcInc, Machine.setBuddy, pteRefcGet_pteRefcInc]
      at hle ⊢
    by_cases hidx : m.buddy.physToIdx q = m.buddy.physToIdx p ∧
        m.buddy.physToIdx p < maxRefcPages
    · have heq : m.buddy.pteRefcGet q = m.buddy.pteRefcGet p := by
        simp only [Buddy.pteRefcGet, hidx.1]
      rw [if_pos hidx]
      simp only [u8Max, u16Max] at hk ⊢
      omega
    · rwa [if_neg hidx]
  · simp only [cnt, hd, if_false] at hle ⊢
    exact hle

theorem shares_markPageUsed (n : Nat) (m : Machine) (p : Nat) (S : Nat → Prop) :
    Shares n m (m.markPageUsed p) S :=
  ⟨rfl, steady_markPageUsed m.buddy p, rfl, fun _ _ _ => .inl rfl, fun _ _ => rfl,
    fun _ _ _ _ => id⟩

theorem shares_readOnly (n : Nat) (m : Machine) (j : Nat) (ht : S t) :
    Shares n m (m.write t j (Pte.readOnly (m.mem t j))) S := by
  refine ⟨rfl, Steady.refl _, rfl, fun q i _ => ?_, fun q hq => ?_, fun _ _ _ _ => id⟩
  · by_cases hqi : q = t ∧ i = j
    · obtain ⟨rfl, rfl⟩ := hqi
      exact .inr (by simp [Machine.write])
    · refine .inl ?_
      by_cases hq : q = t
      · subst hq
        simp [Machine.write, Function.update_of_ne fun hi => hqi ⟨rfl, hi⟩]
      · simp [Machine.write, Function.update_of_ne hq]
  · have hqt : q ≠ t := fun h => hq (h ▸ ht)
    simp [Machine.write, Function.update_of_ne hqt]

theorem shares_forkShareRefc (n : Nat) (m : Machine) (p : Nat) (S : Nat → Prop) :
    Shares n m (m.forkShareRefc p) S := by
  simp only [Machine.forkShareRefc]
  have hmark := shares_markPageUsed n m p S
  split
  · exact (hmark.trans (shares_refcInc n _ p S)).trans (shares_refcInc n _ p S)
  · exact hmark.trans (shares_refcInc n _ p S)

theorem shares_forkSharePteRefc (n : Nat) (m : Machine) (p : Nat) (S : Nat → Prop) :
    Shares n m (m.forkSharePteRefc p) S := by
  simp only [Machine.forkSharePteRefc]
  have hmark := shares_markPageUsed n m p S
  split
  · exact (hmark.trans (shares_pteRefcInc n _ p S)).trans (shares_pteRefcInc n _ p S)
  · exact hmark.trans (shares_pteRefcInc n _ p S)

theorem visited_forkShareRefc (hd : 3 < d) (hp : Machine.refcIdx p < maxRefcPages) :
    Visited m (m.forkShareRefc p) d p := by
  intro k hk hle
  have hmark : (m.markPageUsed p).refcGet p = m.refcGet p := rfl
  simp only [cnt, Nat.not_le.mpr hd, if_false, Machine.forkShareRefc, hmark] at hle ⊢
  simp only [u8Max] at hk
  split
  · next h0 => simp [refcGet_refcInc, hp, hmark, h0, u8Max]; omega
  · next h0 => simp [refcGet_refcInc, hp, hmark, u8Max]; omega

theorem visited_forkSharePteRefc (hd : d ≤ 3) (hp : m.buddy.physToIdx p < maxRefcPages) :
    Visited m (m.forkSharePteRefc p) d p := by
  intro k hk hle
  have hmark : (m.markPageUsed p).buddy.pteRefcGet p = m.buddy.pteRefcGet p := rfl
  have hidx : (m.markPageUsed p).buddy.physToIdx p = m.buddy.physToIdx p := rfl
  simp only [cnt, hd, if_true, Machine.forkSharePteRefc, hmark] at hle ⊢
  simp only [u8Max] at hk
  split
  · next h0 =>
    simp [Machine.pteRefcInc, Machine.setBuddy, pteRefcGet_pteRefcInc, hp, hidx, hmark, h0, u16Max]
    omega
  · next h0 =>
    simp [Machine.pteRefcInc, Machine.setBuddy, pteRefcGet_pteRefcInc, hp, hidx, hmark, u16Max]
    omega

/-! ### Walking the tables -/

/-- The tables of the address space `r`. -/
def TableOf (m : Machine) (r q : Nat) : Prop := ∃ π, π.length ≤ 3 ∧ At next m.mem r π q

/-- The pages below the table `t` at depth `d` have slots for their counts, the tables among them
are in `S`, and the page under construction is not among them. -/
structure Sound (n : Nat) (S : Nat → Prop) (m : Machine) (d t : Nat) : Prop where
  fresh : ∀ π, walk next m.mem d t π ≠ some n
  table : ∀ π p, d + π.length ≤ 3 → walk next m.mem d t π = some p →
    S p ∧ m.buddy.physToIdx p < maxRefcPages
  data : ∀ π p, d + π.length = 4 → walk next m.mem d t π = some p →
    Machine.refcIdx p < maxRefcPages

theorem walk_cons (hc : next d j (m.mem t j) = some c) :
    walk next m.mem d t (j :: π) = walk next m.mem (d + 1) c π := by
  rw [walk, hc, Option.bind_some]

theorem Sound.child (hs : Sound n S m d t) (hc : next d j (m.mem t j) = some c) :
    Sound n S m (d + 1) c := by
  refine ⟨fun π hn => hs.fresh (j :: π) ((walk_cons hc).trans hn), fun π p hlen hp => ?_,
    fun π p hlen hp => ?_⟩
  · refine hs.table (j :: π) p ?_ ((walk_cons hc).trans hp)
    rw [List.length_cons]; omega
  · refine hs.data (j :: π) p ?_ ((walk_cons hc).trans hp)
    rw [List.length_cons]; omega

theorem Sound.ne (hs : Sound n S m d t) (hq : walk next m.mem d t π = some q) : q ≠ n :=
  fun hqn => hs.fresh π (hqn ▸ hq)

theorem Shares.walk_eq (h : Shares n m m' T) (hs : Sound n S m d t) :
    walk next m'.mem d t π = walk next m.mem d t π := by
  induction π generalizing d t with
  | nil => simp
  | cons j π ih =>
    simp only [walk, h.next_eq (hs.ne walk_nil)]
    cases hc : next d j (m.mem t j) with
    | none => rfl
    | some c => exact ih (hs.child hc)

theorem Sound.of_shares (hs : Sound n S m d t) (h : Shares n m m' T) : Sound n S m' d t := by
  refine ⟨fun π => ?_, fun π p hlen hp => ?_, fun π p hlen hp => ?_⟩
  · rw [h.walk_eq hs]; exact hs.fresh π
  · rw [h.walk_eq hs] at hp
    rw [Buddy.physToIdx_congr h.steady.base]
    exact hs.table π p hlen hp
  · rw [h.walk_eq hs] at hp
    exact hs.data π p hlen hp

/-- `m'` is `m` after the entries of `t` with index in `J` were shared, with all that is below
them. -/
structure Forked (n : Nat) (S : Nat → Prop) (m m' : Machine) (d t : Nat) (J : Nat → Prop) :
    Prop where
  shares : Shares n m m' S
  visited : ∀ π p, π ≠ [] → J (π.headD 0) → walk next m.mem d t π = some p →
    Visited m m' (d + π.length) p
  closed : ∀ σ i q p, d + σ.length = 3 → J ((σ ++ [i]).headD 0) → walk next m.mem d t σ = some q →
    next 3 i (m.mem q i) = some p → Pte.writable (m'.mem q i) = false

theorem Forked.of_shares (h : Shares n m m' S) : Forked n S m m' d t fun _ => False :=
  ⟨h, fun _ _ _ hJ => hJ.elim, fun _ _ _ _ _ hJ => hJ.elim⟩

theorem Forked.mono {J : Nat → Prop} (h : Forked n S m m' d t J) (hST : ∀ q, S q → T q) :
    Forked n T m m' d t J :=
  { h with shares := h.shares.mono hST }

theorem Forked.trans {J K : Nat → Prop} (hs : Sound n T m d t) (h : Forked n S m m₁ d t J)
    (h' : Forked n S m₁ m' d t K) : Forked n S m m' d t fun j => J j ∨ K j := by
  have hwalk : ∀ π, walk next m₁.mem d t π = walk next m.mem d t π := fun π => h.shares.walk_eq hs
  refine ⟨h.shares.trans h'.shares, fun π p hπ hJ hp => ?_, fun σ i q p hlen hJ hq hp => ?_⟩
  · rcases hJ with hJ | hK
    · exact (h.visited π p hπ hJ hp).before h'.shares
    · exact (h'.visited π p hπ hK ((hwalk π).trans hp)).after h.shares
  · have hqn : q ≠ n := hs.ne hq
    rcases hJ with hJ | hK
    · exact h'.shares.not_writable hqn (h.closed σ i q p hlen hJ hq hp)
    · exact h'.closed σ i q p hlen hK ((hwalk σ).trans hq) ((h.shares.next_eq hqn).trans hp)

theorem forked_foldl {f : Machine → Nat → Machine} (js : List Nat)
    (hstep : ∀ m, Sound n S m d t → ∀ j ∈ js, Forked n S m (f m j) d t (· = j))
    (hs : Sound n S m d t) : Forked n S m (js.foldl f m) d t (· ∈ js) := by
  induction js generalizing m with
  | nil => exact ⟨Shares.refl _ _ _, by simp, by simp⟩
  | cons j js ih =>
    have hfirst := hstep m hs j List.mem_cons_self
    have hrest := ih (fun m hs i hi => hstep m hs i (List.mem_cons_of_mem _ hi))
      (hs.of_shares hfirst.shares)
    simpa only [List.mem_cons, List.foldl_cons] using Forked.trans hs hfirst hrest

theorem Forked.of_none (hlt : d < 3) (hnone : next d j (m.mem t j) = none)
    (hshares : Shares n m m' S) : Forked n S m m' d t (· = j) := by
  have hwalk : ∀ π, walk next m.mem d t (j :: π) = none := fun π => by rw [walk, hnone]; rfl
  refine ⟨hshares, fun π p hπ hJ hp => ?_, fun σ i q p hlen hJ hq _ => ?_⟩
  · obtain ⟨k, π, rfl⟩ := List.exists_cons_of_ne_nil hπ
    obtain rfl : k = j := hJ
    cases (hwalk π).symm.trans hp
  · cases σ with
    | nil => simp only [List.length_nil] at hlen; omega
    | cons k σ =>
      obtain rfl : k = j := hJ
      cases (hwalk σ).symm.trans hq

/-- An entry that leads to a table is shared when the table is counted and its entries are. -/
theorem Forked.of_child (hs : Sound n S m d t) (hd : d < 3) (hc : next d j (m.mem t j) = some c)
    (h : Forked n S (m.forkSharePteRefc c) m' (d + 1) c (· ∈ List.range 512)) :
    Forked n S m m' d t (· = j) := by
  have hcount : Shares n m (m.forkSharePteRefc c) S := shares_forkSharePteRefc n m c _
  have hmem : (m.forkSharePteRefc c).mem = m.mem := by
    simp only [Machine.forkSharePteRefc]; split <;> rfl
  have hindex : ∀ {i e p}, next (d + 1) i e = some p → i ∈ List.range 512 := by
    intro i e p hp
    have hl := (next_eq_some.mp hp).2.1
    rw [List.mem_range]
    obtain rfl | rfl | rfl : d = 0 ∨ d = 1 ∨ d = 2 := by omega
    all_goals simp [leads] at hl; exact hl.1
  refine ⟨hcount.trans h.shares, fun π p hπ hJ hp => ?_, fun σ i q p hlen hJ hq hp => ?_⟩
  · obtain ⟨k, π, rfl⟩ := List.exists_cons_of_ne_nil hπ
    obtain rfl : k = j := hJ
    rw [walk_cons hc] at hp
    rw [List.length_cons, show d + (π.length + 1) = d + 1 + π.length by omega]
    cases π with
    | nil =>
      obtain rfl : c = p := by simpa using hp
      refine (visited_forkSharePteRefc hd ?_).before h.shares
      exact (hs.table [k] c (by simpa using hd) (by rw [walk_cons hc]; simp)).2
    | cons i π =>
      refine (h.visited (i :: π) p (by simp) ?_ (by rw [hmem]; exact hp)).after hcount
      obtain ⟨c', hc', -⟩ := Option.bind_eq_some_iff.mp hp
      exact hindex hc'
  · cases σ with
    | nil => simp only [List.length_nil] at hlen; omega
    | cons k σ =>
      obtain rfl : k = j := hJ
      rw [walk_cons hc] at hq
      rw [List.length_cons] at hlen
      refine h.closed σ i q p (by omega) ?_ (by rw [hmem]; exact hq) (by rw [hmem]; exact hp)
      cases σ with
      | nil =>
        obtain rfl : d = 2 := by simpa using hlen
        exact hindex hp
      | cons k' σ =>
        obtain ⟨c', hc', -⟩ := Option.bind_eq_some_iff.mp hq
        exact hindex hc'

theorem Forked.of_leaf (hshares : Shares n m m' S)
    (h : ∀ p, next 3 j (m.mem t j) = some p →
      Visited m m' 4 p ∧ Pte.writable (m'.mem t j) = false) : Forked n S m m' 3 t (· = j) := by
  refine ⟨hshares, fun π p hπ hJ hp => ?_, fun σ i q p hlen hJ hq hp => ?_⟩
  · obtain ⟨k, π, rfl⟩ := List.exists_cons_of_ne_nil hπ
    obtain rfl : k = j := hJ
    obtain ⟨c, hc, hp⟩ := Option.bind_eq_some_iff.mp hp
    cases π with
    | nil =>
      obtain rfl : c = p := by simpa using hp
      exact (h c hc).1
    | cons k' π => simp [walk, next_deep] at hp
  · obtain rfl : σ = [] := by simpa using hlen
    obtain rfl : i = j := hJ
    obtain rfl : t = q := by simpa using hq
    exact (h p hp).2

theorem forkEntry_leaf (hs : Sound n S m 3 t) :
    Forked n S m (m.forkEntry 0 t j) 3 t (· = j) := by
  have hself : S t := (hs.table [] t (by simp) walk_nil).1
  have hcount := shares_forkShareRefc n m (Pte.addr (m.mem t j)) S
  have hmem : (m.forkShareRefc (Pte.addr (m.mem t j))).mem = m.mem := by
    simp only [Machine.forkShareRefc]; split <;> rfl
  have hvisit : ∀ p, next 3 j (m.mem t j) = some p →
      Visited m (m.forkShareRefc (Pte.addr (m.mem t j))) 4 p := by
    intro p hp
    obtain rfl : Pte.addr (m.mem t j) = p := (next_eq_some.mp hp).2.2
    exact visited_forkShareRefc (by decide) (hs.data [j] _ rfl (by rw [walk_cons hp]; simp))
  simp only [Machine.forkEntry]
  split
  · next hpres =>
    refine Forked.of_leaf (Shares.refl _ _ _) fun p hp => ?_
    simp [(next_eq_some.mp hp).1] at hpres
  split
  · next huser =>
    refine Forked.of_leaf (Shares.refl _ _ _) fun p hp => ?_
    have hl := (next_eq_some.mp hp).2.1
    simp_all [leads]
  split
  · next hw =>
    refine Forked.of_leaf hcount fun p hp => ⟨hvisit p hp, ?_⟩
    rw [hmem]
    simpa using hw
  · have hro := shares_readOnly n (m.forkShareRefc (Pte.addr (m.mem t j))) j hself
    rw [hmem] at hro
    refine Forked.of_leaf (hcount.trans hro) fun p hp => ⟨(hvisit p hp).before hro, ?_⟩
    simp [Machine.write]

theorem forkEntry_spec (hlevel : h + d = 3) (hd : 1 ≤ d) (hs : Sound n S m d t) (hj : j < 512) :
    Forked n S m (m.forkEntry h t j) d t (· = j) := by
  induction h generalizing m d t j with
  | zero =>
    obtain rfl : d = 3 := by omega
    exact forkEntry_leaf hs
  | succ h ih =>
    have hself : S t := (hs.table [] t (by simp; omega) walk_nil).1
    have hleads : leads d j (m.mem t j) = !Pte.huge (m.mem t j) := by
      obtain rfl | rfl : d = 1 ∨ d = 2 := by omega
      all_goals simp [leads, hj]
    simp only [Machine.forkEntry]
    split
    · next hpres =>
      refine Forked.of_none (by omega) ?_ (Shares.refl _ _ _)
      simp_all [next]
    next hpres =>
    split
    · next hhuge =>
      refine Forked.of_none (by omega) (by simp [next, hleads, hhuge]) ?_
      split
      · have hmem : (m.forkShareRefc (Pte.addr (m.mem t j))).mem = m.mem := by
          simp only [Machine.forkShareRefc]; split <;> rfl
        have hro := shares_readOnly n (m.forkShareRefc (Pte.addr (m.mem t j))) j hself
        rw [hmem] at hro
        exact (shares_forkShareRefc n m _ _).trans hro
      · exact Shares.refl _ _ _
    · next hhuge =>
      have hc : next d j (m.mem t j) = some (Pte.addr (m.mem t j)) := by
        rw [next_eq_some, hleads]
        simp_all
      have hchild := (hs.child hc).of_shares
        (shares_forkSharePteRefc n m (Pte.addr (m.mem t j)) S)
      refine Forked.of_child hs (by omega) hc ?_
      exact forked_foldl (List.range 512)
        (fun m hm i hi => ih (by omega) (by omega) hm (List.mem_range.mp hi)) hchild

/-! ### The new PML4 -/

/-- The entries of `r` with index in `J` were shared with the new PML4 `n`. The write bit of an
entry above the leaf tables is of no account. -/
structure RootForked (n : Nat) (S : Nat → Prop) (m m' : Machine) (r : Nat) (J : Nat → Prop) :
    Prop where
  forked : Forked n (fun q => q = n ∨ S q) m m' 0 r J
  shared : ∀ k, J k → Pte.present (m.mem r k) = true →
    m'.mem n k = m.mem r k ∨ m'.mem n k = Pte.readOnly (m.mem r k)
  rest : ∀ k, (J k → Pte.present (m.mem r k) = false) → m'.mem n k = m.mem n k

variable {r : Nat}

theorem RootForked.trans {J K : Nat → Prop} (hs : Sound n S m 0 r) (h : RootForked n S m m₁ r J)
    (h' : RootForked n S m₁ m' r K) : RootForked n S m m' r fun j => J j ∨ K j := by
  have hrn : r ≠ n := hs.ne walk_nil
  have hentry := fun k => h.forked.shares.entry r k hrn
  have hpres : ∀ k, Pte.present (m₁.mem r k) = Pte.present (m.mem r k) := fun k => by
    rcases hentry k with he | he <;> simp [he]
  refine ⟨Forked.trans hs h.forked h'.forked, fun k hJK hp => ?_, fun k hJK => ?_⟩
  · by_cases hK : K k
    · rcases h'.shared k hK ((hpres k).trans hp) with he | he
      · rw [he]; exact hentry k
      · rcases hentry k with hr | hr
        · exact .inr (by rw [he, hr])
        · exact .inr (by rw [he, hr, Pte.readOnly_readOnly])
    · rw [h'.rest k fun hk => absurd hk hK]
      exact h.shared k (hJK.resolve_right hK) hp
  · rw [h'.rest k fun hK => (hpres k).trans (hJK (.inr hK)), h.rest k fun hJ => hJK (.inl hJ)]

theorem rootForked_foldl {f : Machine → Nat → Machine} (js : List Nat) {P : Machine → Prop}
    (hP : ∀ m m', P m → Steady m.buddy m'.buddy → P m')
    (hstep : ∀ m, Sound n S m 0 r → P m → ∀ j ∈ js, RootForked n S m (f m j) r (· = j))
    (hs : Sound n S m 0 r) (hm : P m) : RootForked n S m (js.foldl f m) r (· ∈ js) := by
  induction js generalizing m with
  | nil =>
    refine ⟨⟨Shares.refl _ _ _, by simp, by simp⟩, by simp, fun _ _ => rfl⟩
  | cons j js ih =>
    have hfirst := hstep m hs hm j List.mem_cons_self
    have hrest := ih (fun m hs hm i hi => hstep m hs hm i (List.mem_cons_of_mem _ hi))
      (hs.of_shares hfirst.forked.shares) (hP _ _ hm hfirst.forked.shares.steady)
    simpa only [List.mem_cons, List.foldl_cons] using RootForked.trans hs hfirst hrest

/-- The loop of `cow_fork_pml4` over the old PML4, when its tables are live. -/
theorem forkPml4e_spec (hs : Sound n S m 0 r) (hn : ¬ S n)
    (hlive : Pte.present (m.mem r i) = true → m.liveTable (Pte.addr (m.mem r i)) = true)
    (hi : i < 256) : RootForked n S m (Machine.forkPml4e r n m i) r (· = i) := by
  have hrn : r ≠ n := hs.ne walk_nil
  unfold Machine.forkPml4e
  simp only
  split
  · next hp =>
    have hp : Pte.present (m.mem r i) = false := by simpa using hp
    refine ⟨Forked.of_none (by decide) (by simp [next, hp]) (Shares.refl _ _ _), fun k hk hpk => ?_,
      fun _ _ => rfl⟩
    rw [hk, hp] at hpk
    cases hpk
  next hp =>
  have hp : Pte.present (m.mem r i) = true := by simpa using hp
  rw [if_neg (by simp [hlive hp])]
  generalize hm₁ : m.write n i (m.mem r i) = m₁
  have hother : ∀ q, q ≠ n → m₁.mem q = m.mem q := fun q hq => by
    simp [← hm₁, Machine.write, Function.update_of_ne hq]
  have hwrite : Shares n m m₁ fun q => q = n ∨ S q := by
    refine ⟨by rw [← hm₁]; rfl, by rw [← hm₁]; exact Steady.refl _, by rw [← hm₁]; rfl,
      fun q j hq => .inl (by rw [hother q hq]), fun q hq => hother q fun h => hq (.inl h),
      fun d q k _ hle => by rw [← hm₁]; exact hle⟩
  have hs₁ : Sound n S m₁ 0 r := hs.of_shares hwrite
  have hc : next 0 i (m₁.mem r i) = some (Pte.addr (m.mem r i)) := by
    rw [hother r hrn, next_eq_some]
    exact ⟨hp, by simpa [leads] using hi, rfl⟩
  have hchild := (hs₁.child hc).of_shares
    (shares_forkSharePteRefc n m₁ (Pte.addr (m.mem r i)) S)
  have hbelow : Forked n S m₁ _ 0 r (· = i) := Forked.of_child hs₁ (by decide) hc
    (forked_foldl (List.range 512)
      (fun m hm j hj => forkEntry_spec (h := 2) rfl (by decide) hm (List.mem_range.mp hj)) hchild)
  -- the loops below do not write to the new PML4
  have hpage := hbelow.shares.out n hn
  refine ⟨?_, fun k hk _ => .inl ?_, fun k hk => ?_⟩
  · have := Forked.trans hs (Forked.of_shares hwrite) (hbelow.mono fun q => .inr)
    simpa only [false_or] using this
  · rw [hpage, hk, ← hm₁]; simp [Machine.write]
  · have hki : k ≠ i := fun h => by
      subst h
      cases hp.symm.trans (hk rfl)
    rw [hpage, ← hm₁]
    simp [Machine.write, Function.update_of_ne hki]

theorem copyKernel_spec (js : List Nat) (hk : m.kernelPml4 ≠ n) :
    ∃ words, js.foldl (fun m i => m.write n i (m.mem m.kernelPml4 i)) m = m.writePage n words ∧
      ∀ k, words k = if k ∈ js then m.mem m.kernelPml4 k else m.mem n k := by
  induction js generalizing m with
  | nil => exact ⟨m.mem n, by simp [Machine.writePage], by simp⟩
  | cons i js ih =>
    have hker : (m.write n i (m.mem m.kernelPml4 i)).mem m.kernelPml4 = m.mem m.kernelPml4 := by
      simp [Machine.write, Function.update_of_ne hk]
    obtain ⟨words, hfold, hwords⟩ := ih (m := m.write n i (m.mem m.kernelPml4 i)) hk
    refine ⟨words, ?_, fun k => ?_⟩
    · rw [List.foldl_cons, hfold]
      simp [Machine.writePage, Machine.write]
    · rw [hwords k, Machine.kernelPml4_write, hker]
      by_cases hki : k = i
      · subst hki; simp [Machine.write]
      · simp [Machine.write, hki]

theorem forkRoot_spec (hk : m.kernelPml4 ≠ n) (hS : S n) :
    Shares n m (m.forkRoot n) S ∧
      ∀ i < 256, (m.forkRoot n).mem n i = if i < 2 then m.mem m.kernelPml4 i else 0 := by
  obtain ⟨words, hfold, hwords⟩ := copyKernel_spec (m := (m.zeroPage n).markPageUsed n)
    (List.range 2 ++ List.range' 256 256) hk
  have heq : m.forkRoot n = ((m.zeroPage n).markPageUsed n).writePage n words := hfold
  have hker : (m.zeroPage n).mem m.kernelPml4 = m.mem m.kernelPml4 := by
    simp [Machine.zeroPage, Machine.writePage, Function.update_of_ne hk]
  have hother : ∀ q, q ≠ n → (m.forkRoot n).mem q = m.mem q := fun q hq => by
    simp [heq, Machine.writePage, Machine.zeroPage, Machine.markPageUsed, Machine.setBuddy,
      Function.update_of_ne hq]
  refine ⟨⟨by rw [heq]; rfl, by rw [heq]; exact steady_markPageUsed m.buddy n, by rw [heq]; rfl,
    fun q j hq => .inl (by rw [hother q hq]), fun q hq => hother q fun h => hq (h ▸ hS),
    fun d q k _ hle => by rw [heq]; exact hle⟩, fun i hi => ?_⟩
  have hmem : (m.forkRoot n).mem n i = words i := by simp [heq, Machine.writePage]
  rw [hmem, hwords i]
  have hout : i ∈ List.range 2 ++ List.range' 256 256 ↔ i < 2 := by
    simp [List.mem_range'_1]; omega
  simp only [hout]
  split
  · exact congrFun hker i
  · simp [Machine.markPageUsed, Machine.setBuddy, Machine.zeroPage, Machine.writePage]

/-- `m'` is `m` after `cow_fork_pml4` made the address space `n` from `r`. -/
structure Cloned (m m' : Machine) (roots : Finset Nat) (r n : Nat) : Prop where
  fork : Fork next m.mem m'.mem roots r n
  shares : Shares n m m' fun q => q = n ∨ TableOf m r q
  visited : ∀ π p, π ≠ [] → At next m.mem r π p → Visited m m' π.length p
  closed : ∀ π t i p, π.length = 3 → At next m.mem r π t → next 3 i (m.mem t i) = some p →
    Pte.writable (m'.mem t i) = false
  kernel : ∀ i < 2, Pte.present (m.mem r i) = true → Pte.present (m'.mem n i) = true

variable {roots : Finset Nat}

theorem sound_root (hs : Sharing m roots) (hr : r ∈ roots) (hn : Fresh next m.mem roots n) :
    Sound n (TableOf m r) m 0 r := by
  refine ⟨hn r hr, fun π p hlen hp => ?_, fun π p hlen hp => hs.tracked r hr π p (by omega) hp⟩
  have hlive := liveTable_iff.mp (hs.live r hr π p (by omega) hp)
  exact ⟨⟨π, by omega, hp⟩, physToIdx_lt hs.limit_le hlive.1 hlive.2.1⟩

theorem clone_spec (hs : Sharing m roots) (hr : r ∈ roots) (hn : Fresh next m.mem roots n)
    (hk : m.kernelPml4 ≠ n) :
    Cloned m ((List.range 256).foldl (Machine.forkPml4e r n) (m.forkRoot n)) roots r n := by
  obtain ⟨honly, htop⟩ := forkRoot_spec (S := (· = n)) hk rfl
  have hroot : Shares n m (m.forkRoot n) fun q => q = n ∨ TableOf m r q := honly.mono fun _ => .inl
  have hsound := sound_root hs hr hn
  have hrn : r ≠ n := hsound.ne walk_nil
  have hsound₁ := hsound.of_shares hroot
  have htable : ∀ q, TableOf m r q → (m.forkRoot n).liveTable q = true := fun q hq => by
    obtain ⟨π, hlen, hq⟩ := hq
    exact hroot.steady.liveTable (hs.live r hr π q hlen hq)
  -- the tables of `r` stay live throughout the loop, so that no entry is dropped
  have hloop := rootForked_foldl (f := Machine.forkPml4e r n) (List.range 256)
    (P := fun m' => ∀ q, TableOf m r q → m'.liveTable q = true)
    (fun _ _ hlive hsteady q hq => hsteady.liveTable (hlive q hq))
    (fun m' hm' hlive i hi => forkPml4e_spec hm' (fun ⟨π, _, hq⟩ => hn r hr π hq)
      (fun hp => hlive _ (hm'.table [i] _ (by simp) (by
        rw [walk_cons (c := Pte.addr (m'.mem r i))
          (next_eq_some.mpr ⟨hp, by simpa [leads] using hi, rfl⟩)]
        simp)).1) (List.mem_range.mp hi)) hsound₁ htable
  generalize (List.range 256).foldl (Machine.forkPml4e r n) (m.forkRoot n) = m' at hloop ⊢
  have hshares : Shares n m m' fun q => q = n ∨ TableOf m r q := hroot.trans hloop.forked.shares
  have hr₁ : (m.forkRoot n).mem r = m.mem r := honly.out r hrn
  have hwalk : ∀ π, walk next (m.forkRoot n).mem 0 r π = walk next m.mem 0 r π := fun π =>
    hroot.walk_eq hsound
  have hindex : ∀ {i π p}, At next m.mem r (i :: π) p → i ∈ List.range 256 := by
    intro i π p hp
    obtain ⟨c, hc, -⟩ := Option.bind_eq_some_iff.mp hp
    simpa [leads] using (next_eq_some.mp hc).2.1
  refine ⟨⟨hr, hn, fun d q j hq => hshares.next_eq hq, fun j => ?_⟩, hshares,
    fun π p hπ hp => ?_, fun π t i p hlen ht hp => ?_, fun i hi hp => ?_⟩
  · by_cases hj : j < 256
    · cases hp : Pte.present (m.mem r j) with
      | true =>
        rcases hloop.shared j (List.mem_range.mpr hj) (by rw [hr₁]; exact hp) with he | he
        · rw [he, hr₁]
        · rw [he, hr₁, next_readOnly]
      | false =>
        -- an entry that `r` lacks is one that the kernel lacks
        have hnone : Pte.present ((m.forkRoot n).mem n j) = false := by
          rw [htop j hj]
          split
          · next h2 =>
            cases hkp : Pte.present (m.mem m.kernelPml4 j) with
            | false => rfl
            | true => cases hp.symm.trans (hs.kernel r hr j h2 hkp)
          · rfl
        rw [hloop.rest j fun _ => by rw [hr₁]; exact hp]
        simp [next, hp, hnone]
    · simp [next, leads, hj]
  · obtain ⟨i, π, rfl⟩ := List.exists_cons_of_ne_nil hπ
    have hv := hloop.forked.visited (i :: π) p hπ (hindex hp) ((hwalk _).trans hp)
    rw [Nat.zero_add] at hv
    exact hv.after hroot
  · have htn : t ≠ n := hsound.ne ht
    cases π with
    | nil => simp at hlen
    | cons k π =>
      exact hloop.forked.closed (k :: π) i t p (by omega) (hindex ht) ((hwalk _).trans ht)
        ((hroot.next_eq htn).trans hp)
  · rcases hloop.shared i (List.mem_range.mpr (by omega)) (by rw [hr₁]; exact hp) with he | he
    · rw [he, hr₁]; exact hp
    · rw [he, hr₁, Pte.present_readOnly]; exact hp

theorem Sharing.clone (hs : Sharing m roots) (h : Cloned m m' roots r n)
    (hcard : roots.card < u8Max) (hheld : ¬ m.buddy.pool.AvailAt n) (hlive : m.liveTable n = true)
    (hk : m.kernelPml4 ≠ n) : Sharing m' (insert n roots) := by
  have hpool := h.shares.pool
  have hkmem : ∀ i, Pte.present (m'.mem m.kernelPml4 i) = Pte.present (m.mem m.kernelPml4 i) :=
    fun i => by rcases h.shares.entry m.kernelPml4 i hk with he | he <;> simp [he]
  have hne : ∀ r' ∈ roots, ∀ π q, At next m.mem r' π q → q ≠ n := fun r' hr' π q hq hqn =>
    h.fork.fresh r' hr' π (hqn ▸ hq)
  constructor
  case wf => exact hpool ▸ hs.wf
  case limit_le =>
    simpa only [Buddy.limit, h.shares.steady.base, h.shares.steady.pages] using hs.limit_le
  case placed => exact h.fork.placed hs.placed
  case held =>
    intro r' hr' π q hq
    rw [hpool]
    rcases h.fork.at_insert hr' hq with ⟨-, rfl, -⟩ | ⟨s, hs', -, hq⟩
    · exact hheld
    · exact hs.held s hs' π q hq
  case live =>
    intro r' hr' π q hlen hq
    rcases h.fork.at_insert hr' hq with ⟨-, rfl, -⟩ | ⟨s, hs', -, hq⟩
    · exact h.shares.steady.liveTable hlive
    · exact h.shares.steady.liveTable (hs.live s hs' π q hlen hq)
  case tracked =>
    intro r' hr' π q hlen hq
    rcases h.fork.at_insert hr' hq with ⟨rfl, -, -⟩ | ⟨s, hs', -, hq⟩
    · cases hlen
    · exact hs.tracked s hs' π q hlen hq
  case counted =>
    exact h.fork.counted hs.counted hcard h.shares.rise fun π q k hπ hq hk hle =>
      h.visited π q hπ hq k hk hle
  case writable =>
    intro r' hr' π t i p hlen ht hp hw
    have hclosed : ¬ At next m.mem r π t := by
      intro hat
      have hp' : next 3 i (m.mem t i) = some p :=
        (h.shares.next_eq (hne r h.fork.root π t hat)).symm.trans hp
      cases hw.symm.trans (h.closed π t i p hlen hat hp')
    rcases Finset.mem_insert.mp hr' with rfl | hr'
    · rcases h.fork.at_new ht with ⟨rfl, -⟩ | ⟨-, ht⟩
      · cases hlen
      · exact absurd ht hclosed
    have ht₀ := h.fork.at_old hr' ht
    have htn := hne r' hr' π t ht₀
    have hp₀ : next 3 i (m.mem t i) = some p := (h.shares.next_eq htn).symm.trans hp
    have hw₀ : Pte.writable (m.mem t i) = true := by
      rcases h.shares.entry t i htn with he | he
      · rw [← he]; exact hw
      · rw [he, Pte.writable_readOnly] at hw; cases hw
    have hsole := hs.writable r' hr' π t i p hlen ht₀ hp₀ hw₀
    intro r'' hr'' hp''
    rcases Finset.mem_insert.mp hr'' with rfl | hr''
    · -- the new space reaches the page only if the old one does, and then it is not writable
      rcases h.fork.at_new hp'' with ⟨hnil, -⟩ | ⟨-, hp''⟩
      · simp at hnil
      · obtain rfl := hsole r h.fork.root hp''
        exact absurd ht₀ hclosed
    · exact hsole r'' hr'' (h.fork.at_old hr'' hp'')
  case kernel =>
    intro r' hr' i hi hki
    rw [h.shares.kernel, hkmem] at hki
    rcases Finset.mem_insert.mp hr' with rfl | hr'
    · exact h.kernel i hi (hs.kernel r h.fork.root i hi hki)
    · have hold := hs.kernel r' hr' i hi hki
      rcases h.shares.entry r' i (hne r' hr' [] r' walk_nil) with he | he <;> simpa [he] using hold
  case kernel_fresh =>
    intro r' hr' π hq
    rw [h.shares.kernel] at hq
    rcases h.fork.at_insert hr' hq with ⟨-, hkn, -⟩ | ⟨s, hs', -, hq⟩
    · exact hk hkn
    · exact hs.kernel_fresh s hs' π hq
  case kernel_held => rw [hpool, h.shares.kernel]; exact hs.kernel_held

theorem cowForkPml4_cloned (hs : Sharing m roots) (hr : r ∈ roots) (hcard : roots.card < u8Max)
    (h : m.cowForkPml4 r = (some n, m')) :
    Sharing m' (insert n roots) ∧ ∃ m₁, Allocated m m₁ n ∧ Cloned m₁ m' roots r n := by
  unfold Machine.cowForkPml4 at h
  split at h
  · cases h
  next new m₁ halloc =>
  have ha := allocZeroedPage_some hs.wf halloc
  cases h
  have hfresh : Fresh next m₁.mem roots n := fun r' hr' π hat =>
    hs.fresh ha.avail r' hr' π ((hs.walk_alloc ha hr').symm.trans hat)
  have hk : m₁.kernelPml4 ≠ n := ha.kernel ▸ hs.kernel_ne_alloc ha
  have hclone := clone_spec (hs.alloc ha) hr hfresh hk
  exact ⟨(hs.alloc ha).clone hclone hcard ha.not_avail (ha.liveTable hs.limit_le) hk, m₁, ha,
    hclone⟩

theorem cowForkPml4_walks (hs : Sharing m roots) (hr : r ∈ roots) (hcard : roots.card < u8Max)
    (h : m.cowForkPml4 r = (some n, m')) :
    (∀ r' ∈ roots, ∀ π, walk next m'.mem 0 r' π = walk next m.mem 0 r' π) ∧
      ∀ π, π ≠ [] → walk next m'.mem 0 n π = walk next m.mem 0 r π := by
  obtain ⟨-, m₁, ha, hclone⟩ := cowForkPml4_cloned hs hr hcard h
  exact ⟨fun r' hr' π => (hclone.fork.walk hr').trans (hs.walk_alloc ha hr'),
    fun π hπ => (hclone.fork.walk_new hπ).trans (hs.walk_alloc ha hr)⟩

/-- The old address spaces read what they read before the fork, and the new one reads what its
parent reads. -/
theorem cowForkPml4_spec (hs : Sharing m roots) (hr : r ∈ roots) (hcard : roots.card < u8Max)
    (h : m.cowForkPml4 r = (some n, m')) :
    n ≠ 0 ∧ n ∉ roots ∧ Sharing m' (insert n roots) ∧
      (∀ r' ∈ roots, ∀ va, userWord m' r' va = userWord m r' va) ∧
      ∀ va, userWord m' n va = userWord m r va := by
  obtain ⟨hs', m₁, ha, hclone⟩ := cowForkPml4_cloned hs hr hcard h
  obtain ⟨hold, hchild⟩ := cowForkPml4_walks hs hr hcard h
  -- no data page is written
  have hdata : ∀ r' ∈ roots, ∀ va p, At next m.mem r' (path va) p → m'.mem p = m.mem p := by
    intro r' hr' va p hp
    have hp₁ : At next m₁.mem r' (path va) p := (hs.walk_alloc ha hr').trans hp
    have hpn : p ≠ n := hs.ne_alloc ha hr' hp
    rw [hclone.shares.out p, ha.mem_ne hpn]
    rintro (rfl | ⟨π, hlen, hp'⟩)
    · exact hpn rfl
    · have := congrArg List.length ((hs.alloc ha).placed r' hr' r hr _ _ p hp₁ hp')
      rw [length_path] at this
      omega
  have hword : ∀ r' ∈ roots, ∀ va j,
      (walk next m.mem 0 r' (path va)).map (fun p => m'.mem p j) =
        content next m.mem r' (path va) j := by
    intro r' hr' va j
    rw [content]
    cases hp : walk next m.mem 0 r' (path va) with
    | none => rfl
    | some p => exact congrArg some (congrFun (hdata r' hr' va p hp) j)
  refine ⟨ha.grants.nonzero, hclone.fork.not_mem, hs', fun r' hr' va => ?_, fun va => ?_⟩
  · rw [userWord, content, hold r' hr']
    exact hword r' hr' va _
  · rw [userWord, content, hchild _ (by simp [path])]
    exact hword r hr va _

end Rynex.Paging
