import Mathlib

/-! Radix trees in a memory of pages, with pages shared between several roots. `next d i e` is
the page that the entry `e` at index `i` of a table at depth `d` leads to, if it leads to one.
The operations are those of copy-on-write sharing: putting a fresh copy of a page in place of a
shared one under one root, and making a new root over the tables of an old one. -/

namespace Rynex.Lib.Radix

variable {P I E : Type*} (next : Nat → I → E → Option P)

/-- The page that the index path leads to from the table `t` at depth `d`. -/
def walk (mem : P → I → E) : Nat → P → List I → Option P
  | _, t, [] => some t
  | d, t, i :: π => (next d i (mem t i)).bind fun c => walk mem (d + 1) c π

/-- The path leads from the root `r` to the page `p`. -/
def At (mem : P → I → E) (r : P) (π : List I) (p : P) : Prop := walk next mem 0 r π = some p

variable {next} {mem mem' : P → I → E} {r r' t p : P} {π ρ : List I} {i j : I} {d : Nat}

@[simp] theorem walk_nil : walk next mem d t [] = some t := by simp [walk]

theorem walk_append :
    walk next mem d t (π ++ ρ) = (walk next mem d t π).bind fun c =>
      walk next mem (d + π.length) c ρ := by
  induction π generalizing d t with
  | nil => simp
  | cons i π ih =>
    simp only [List.cons_append, walk, List.length_cons]
    cases next d i (mem t i) with
    | none => rfl
    | some c =>
      simp only [Option.bind_some, ih]
      rw [Nat.add_right_comm, Nat.add_assoc]

theorem walk_concat :
    walk next mem d t (π ++ [i]) = (walk next mem d t π).bind fun c =>
      next (d + π.length) i (mem c i) := by
  rw [walk_append]
  congr 1
  funext c
  simp [walk]

theorem At.root : At next mem r [] r := walk_nil

theorem At.concat (h : At next mem r π t) (hp : next π.length i (mem t i) = some p) :
    At next mem r (π ++ [i]) p := by
  rw [At, walk_concat, h]
  simpa using hp

theorem At.of_concat (h : At next mem r (π ++ [i]) p) :
    ∃ t, At next mem r π t ∧ next π.length i (mem t i) = some p := by
  rw [At, walk_concat] at h
  obtain ⟨t, ht, hp⟩ := Option.bind_eq_some_iff.mp h
  exact ⟨t, ht, by simpa using hp⟩

theorem At.unique {q : P} (h : At next mem r π p) (h' : At next mem r π q) : p = q :=
  Option.some.inj (h.symm.trans h')

theorem walk_congr (h : ∀ ρ i t, (ρ ++ [i]) <+: π → At next mem r ρ t →
      next ρ.length i (mem' t i) = next ρ.length i (mem t i)) :
    walk next mem' 0 r π = walk next mem 0 r π := by
  induction π using List.reverseRecOn with
  | nil => simp
  | append_singleton π i ih =>
    have ih := ih fun ρ j t hpre => h ρ j t (hpre.trans (List.prefix_append π [i]))
    rw [walk_concat, walk_concat, ih]
    cases hw : walk next mem 0 r π with
    | none => rfl
    | some t => simpa using h π i t (List.prefix_refl _) hw

theorem walk_of_next (h : ∀ d q j, next d j (mem' q j) = next d j (mem q j)) :
    walk next mem' 0 r π = walk next mem 0 r π :=
  walk_congr fun ρ i t _ _ => h ρ.length t i

variable (next) in
/-- Entry `j` of the page at the end of the path. -/
def content (mem : P → I → E) (r : P) (π : List I) (j : I) : Option E :=
  (walk next mem 0 r π).map fun p => mem p j

/-! ### Positions -/

variable (next) in
/-- Each page stands at one path at most, whatever roots lead to it. -/
def Placed (mem : P → I → E) (roots : Finset P) : Prop :=
  ∀ r ∈ roots, ∀ r' ∈ roots, ∀ π π' p, At next mem r π p → At next mem r' π' p → π = π'

variable (next) in
/-- No root leads to the page. -/
def Fresh (mem : P → I → E) (roots : Finset P) (p : P) : Prop :=
  ∀ r ∈ roots, ∀ π, ¬ At next mem r π p

variable (next) in
/-- Of the roots, only `r` leads to `p` along `π`. -/
def Sole (mem : P → I → E) (roots : Finset P) (r : P) (π : List I) (p : P) : Prop :=
  ∀ r' ∈ roots, At next mem r' π p → r' = r

variable {roots : Finset P}

open Classical in
variable (next) in
/-- How many of the roots lead to `p` along `π`. -/
noncomputable def owners (mem : P → I → E) (roots : Finset P) (π : List I) (p : P) : Nat :=
  (roots.filter fun r => At next mem r π p).card

variable (next) in
/-- `cnt`, which depends on the depth, counts the owners of each page below the roots; a page
with one owner need not be counted. -/
def Counted (mem : P → I → E) (roots : Finset P) (cnt : Nat → P → Nat) : Prop :=
  ∀ r ∈ roots, ∀ π p, π ≠ [] → At next mem r π p →
    owners next mem roots π p ≤ max 1 (cnt π.length p)

open Classical in
theorem owners_le : owners next mem roots π p ≤ roots.card := Finset.card_filter_le _ _

open Classical in
theorem sole_of_owners_le (hr : r ∈ roots) (h : At next mem r π p)
    (hle : owners next mem roots π p ≤ 1) : Sole next mem roots r π p := by
  intro r' hr' h'
  refine Finset.card_le_one.mp hle r' ?_ r ?_
  · exact Finset.mem_filter.mpr ⟨hr', h'⟩
  · exact Finset.mem_filter.mpr ⟨hr, h⟩

theorem Counted.sole {cnt : Nat → P → Nat} (hc : Counted next mem roots cnt) (hr : r ∈ roots)
    (hπ : π ≠ []) (h : At next mem r π p) (hcnt : cnt π.length p ≤ 1) :
    Sole next mem roots r π p :=
  sole_of_owners_le hr h ((hc r hr π p hπ h).trans (max_le (le_refl 1) hcnt))

theorem sole_root : Sole next mem roots r [] r := fun r' _ h => by
  simpa [At] using h

theorem walk_write_leaf (hr : r ∈ roots)
    (hleaf : ∀ r ∈ roots, ∀ π j e, At next mem r π p → next π.length j e = none)
    (hmem : ∀ q, q ≠ p → mem' q = mem q) : walk next mem' 0 r π = walk next mem 0 r π := by
  refine walk_congr fun ρ i t _ ht => ?_
  by_cases htp : t = p
  · subst htp
    rw [hleaf r hr ρ i _ ht, hleaf r hr ρ i _ ht]
  · rw [hmem t htp]

/-! ### A fresh copy under one root -/

/-- The root `r` alone leads along `ρ` to the table `t`, whose entry at `i` led to `c`. In `mem'`
that entry leads to the page `n`, which was fresh and holds what `c` holds. -/
structure Relink (next : Nat → I → E → Option P) (mem mem' : P → I → E) (roots : Finset P)
    (r : P) (ρ : List I) (i : I) (t c n : P) : Prop where
  root : r ∈ roots
  table : At next mem r ρ t
  sole : Sole next mem roots r ρ t
  child : At next mem r (ρ ++ [i]) c
  fresh : Fresh next mem roots n
  link : next ρ.length i (mem' t i) = some n
  copy : ∀ j, mem' n j = mem c j
  other : ∀ q j, q ≠ n → (q = t → j ≠ i) → mem' q j = mem q j

section Relink

variable {c n : P} (h : Relink next mem mem' roots r ρ i t c n) (hp : Placed next mem roots)

include h hp

open Classical in
/-- After a relink, `r` finds the copy where the old page was, and every other walk is as it
was. -/
theorem Relink.walk (hr' : r' ∈ roots) :
    walk next mem' 0 r' π = if r' = r ∧ π = ρ ++ [i] then some n else walk next mem 0 r' π := by
  induction π using List.reverseRecOn with
  | nil => simp
  | append_singleton π j ih =>
    rw [walk_concat, ih]
    by_cases hcopy : r' = r ∧ π = ρ ++ [i]
    · -- below the copy, the entries are those of the old page
      obtain ⟨rfl, rfl⟩ := hcopy
      rw [if_pos ⟨rfl, rfl⟩, if_neg (by simp), walk_concat, h.child]
      simp [h.copy]
    rw [if_neg hcopy]
    cases hw : Radix.walk next mem 0 r' π with
    | none =>
      rw [if_neg, walk_concat, hw]
      · rfl
      rintro ⟨rfl, heq⟩
      obtain ⟨rfl, -⟩ := List.append_inj' heq rfl
      cases hw.symm.trans h.table
    | some q =>
      have hq : At next mem r' π q := hw
      simp only [Option.bind_some, Nat.zero_add]
      by_cases hlink : q = t ∧ j = i
      · obtain ⟨rfl, rfl⟩ := hlink
        have hπ : π = ρ := hp r' hr' r h.root π ρ q hq h.table
        subst hπ
        rw [if_pos ⟨h.sole r' hr' hq, rfl⟩, h.link]
      · rw [if_neg, walk_concat, hw, h.other q j (fun hn => h.fresh r' hr' π (hn ▸ hq))
          fun ht hj => hlink ⟨ht, hj⟩]
        · simp
        rintro ⟨rfl, heq⟩
        obtain ⟨rfl, hj⟩ := List.append_inj' heq rfl
        exact hlink ⟨hq.unique h.table, by simpa using hj⟩

theorem Relink.at_iff (hr' : r' ∈ roots) {q : P} :
    At next mem' r' π q ↔
      (r' = r ∧ π = ρ ++ [i] ∧ q = n) ∨ (¬ (r' = r ∧ π = ρ ++ [i]) ∧ At next mem r' π q) := by
  rw [At, h.walk hp hr']
  split
  · next hc => simp [hc, eq_comm]
  · next hc => simp [hc, At]; tauto

theorem Relink.placed : Placed next mem' roots := by
  intro r₁ h₁ r₂ h₂ π₁ π₂ q hq₁ hq₂
  rcases (h.at_iff hp h₁).mp hq₁ with ⟨-, rfl, rfl⟩ | ⟨-, hq₁⟩
  · rcases (h.at_iff hp h₂).mp hq₂ with ⟨-, rfl, -⟩ | ⟨-, hq₂⟩
    · rfl
    · exact absurd hq₂ (h.fresh r₂ h₂ π₂)
  · rcases (h.at_iff hp h₂).mp hq₂ with ⟨-, rfl, rfl⟩ | ⟨-, hq₂⟩
    · exact absurd hq₁ (h.fresh r₁ h₁ π₁)
    · exact hp r₁ h₁ r₂ h₂ π₁ π₂ q hq₁ hq₂

theorem Relink.sole_copy : Sole next mem' roots r (ρ ++ [i]) n := by
  intro r' hr' hn
  rcases (h.at_iff hp hr').mp hn with ⟨rfl, -, -⟩ | ⟨-, hn⟩
  · rfl
  · exact absurd hn (h.fresh r' hr' _)

theorem Relink.at_copy : At next mem' r (ρ ++ [i]) n :=
  (h.at_iff hp h.root).mpr (.inl ⟨rfl, rfl, rfl⟩)

theorem Relink.entry {q : P} (hr' : r' ∈ roots) (hq : At next mem' r' π q)
    (hne : ¬ (r' = r ∧ π = ρ ∧ j = i)) :
    ∃ q', At next mem r' π q' ∧ mem' q j = mem q' j := by
  rcases (h.at_iff hp hr').mp hq with ⟨rfl, rfl, rfl⟩ | ⟨-, hq⟩
  · exact ⟨c, h.child, h.copy j⟩
  · refine ⟨q, hq, h.other q j (fun hn => h.fresh r' hr' π (hn ▸ hq)) fun ht hj => hne ?_⟩
    subst ht hj
    have hπ : π = ρ := hp r' hr' r h.root π ρ q hq h.table
    subst hπ
    exact ⟨h.sole r' hr' hq, rfl, rfl⟩

theorem Relink.content (hr' : r' ∈ roots) (hπ : π ≠ ρ) :
    content next mem' r' π j = content next mem r' π j := by
  rw [Radix.content, Radix.content, h.walk hp hr']
  split
  · next hc =>
    obtain ⟨rfl, rfl⟩ := hc
    rw [show Radix.walk next mem 0 r' (ρ ++ [i]) = some c from h.child]
    exact congrArg some (h.copy j)
  · cases hw : Radix.walk next mem 0 r' π with
    | none => rfl
    | some q =>
      refine congrArg some (h.other q j (fun hn => h.fresh r' hr' π (hn ▸ hw)) fun ht => ?_)
      exact absurd (hp r' hr' r h.root π ρ q hw (ht ▸ h.table)) hπ

open Classical in
theorem Relink.owners_old :
    owners next mem' roots (ρ ++ [i]) c + 1 = owners next mem roots (ρ ++ [i]) c := by
  have hne : c ≠ n := fun hcn => h.fresh r h.root _ (hcn ▸ h.child)
  have hmem : r ∈ roots.filter fun r' => At next mem r' (ρ ++ [i]) c :=
    Finset.mem_filter.mpr ⟨h.root, h.child⟩
  rw [owners, owners, ← Finset.card_erase_add_one hmem]
  congr 2
  ext r'
  simp only [Finset.mem_filter, Finset.mem_erase]
  constructor
  · rintro ⟨hr', hat⟩
    rcases (h.at_iff hp hr').mp hat with ⟨-, -, hcn⟩ | ⟨hout, hat⟩
    · exact absurd hcn hne
    · exact ⟨fun hr => hout ⟨hr, rfl⟩, hr', hat⟩
  · rintro ⟨hr, hr', hat⟩
    exact ⟨hr', (h.at_iff hp hr').mpr (.inr ⟨fun hc => hr hc.1, hat⟩)⟩

open Classical in
/-- One may be taken from the count of the old page. -/
theorem Relink.counted {cnt cnt' : Nat → P → Nat} (hc : Counted next mem roots cnt)
    (hold : cnt (ρ.length + 1) c ≤ cnt' (ρ.length + 1) c + 1)
    (hcnt : ∀ r' ∈ roots, ∀ π q, π ≠ [] → At next mem r' π q → q ≠ c →
      cnt π.length q ≤ cnt' π.length q) :
    Counted next mem' roots cnt' := by
  intro r' hr' π q hπ hq
  rcases (h.at_iff hp hr').mp hq with ⟨rfl, rfl, rfl⟩ | ⟨hout, hq⟩
  · refine le_max_of_le_left (Finset.card_le_one.mpr fun r₁ h₁ r₂ h₂ => ?_)
    rw [Finset.mem_filter] at h₁ h₂
    rw [h.sole_copy hp r₁ h₁.1 h₁.2, h.sole_copy hp r₂ h₂.1 h₂.2]
  have hqn : q ≠ n := fun hn => h.fresh r' hr' π (hn ▸ hq)
  have hle := hc r' hr' π q hπ hq
  by_cases hqc : q = c
  · subst hqc
    obtain rfl : π = ρ ++ [i] := hp r' hr' r h.root _ _ q hq h.child
    have hown := h.owners_old hp
    rw [List.length_append, List.length_singleton] at hle ⊢
    omega
  · have hpath : owners next mem' roots π q ≤ owners next mem roots π q := by
      refine Finset.card_le_card fun r₁ h₁ => ?_
      rw [Finset.mem_filter] at h₁ ⊢
      rcases (h.at_iff hp h₁.1).mp h₁.2 with ⟨-, -, hn⟩ | ⟨-, hat⟩
      · exact absurd hn hqn
      · exact ⟨h₁.1, hat⟩
    have hd := hcnt r' hr' π q hπ hq hqc
    omega

end Relink

/-! ### A new root over the tables of an old one -/

/-- In `mem'` the page `n`, which was fresh, is a root with the same tables below it as `r`. -/
structure Fork (next : Nat → I → E → Option P) (mem mem' : P → I → E) (roots : Finset P)
    (r n : P) : Prop where
  root : r ∈ roots
  fresh : Fresh next mem roots n
  same : ∀ d q j, q ≠ n → next d j (mem' q j) = next d j (mem q j)
  top : ∀ j, next 0 j (mem' n j) = next 0 j (mem r j)

section Fork

variable {n : P} (h : Fork next mem mem' roots r n)

include h

theorem Fork.walk (hr' : r' ∈ roots) : walk next mem' 0 r' π = walk next mem 0 r' π :=
  walk_congr fun ρ i t _ ht => h.same ρ.length t i fun hn => h.fresh r' hr' ρ (hn ▸ ht)

theorem Fork.walk_new (hπ : π ≠ []) : Radix.walk next mem' 0 n π = Radix.walk next mem 0 r π := by
  induction π using List.reverseRecOn with
  | nil => exact absurd rfl hπ
  | append_singleton π j ih =>
    rw [walk_concat, walk_concat]
    by_cases hnil : π = []
    · subst hnil
      simpa using h.top j
    · rw [ih hnil]
      cases hw : Radix.walk next mem 0 r π with
      | none => rfl
      | some q => exact h.same _ q j fun hn => h.fresh r h.root π (hn ▸ hw)

theorem Fork.at_new {q : P} (hq : At next mem' n π q) :
    π = [] ∧ q = n ∨ π ≠ [] ∧ At next mem r π q := by
  by_cases hπ : π = []
  · subst hπ
    exact .inl ⟨rfl, (Option.some.inj hq).symm⟩
  · exact .inr ⟨hπ, (h.walk_new hπ).symm.trans hq⟩

theorem Fork.at_old {q : P} (hr' : r' ∈ roots) (hq : At next mem' r' π q) : At next mem r' π q :=
  (h.walk hr').symm.trans hq

theorem Fork.not_mem : n ∉ roots := fun hn => h.fresh n hn [] walk_nil

theorem Fork.at_insert [DecidableEq P] {q : P} (hr' : r' ∈ insert n roots)
    (hq : At next mem' r' π q) :
    π = [] ∧ q = n ∧ r' = n ∨ ∃ r₀ ∈ roots, (r' = n → r₀ = r) ∧ At next mem r₀ π q := by
  rcases Finset.mem_insert.mp hr' with rfl | hr'
  · rcases h.at_new hq with ⟨hπ, hqn⟩ | ⟨-, hq⟩
    · exact .inl ⟨hπ, hqn, rfl⟩
    · exact .inr ⟨r, h.root, fun _ => rfl, hq⟩
  · exact .inr ⟨r', hr', fun hn => absurd (hn ▸ hr') h.not_mem, h.at_old hr' hq⟩

theorem Fork.placed [DecidableEq P] (hp : Placed next mem roots) :
    Placed next mem' (insert n roots) := by
  intro r₁ h₁ r₂ h₂ π₁ π₂ q hq₁ hq₂
  rcases h.at_insert h₁ hq₁ with ⟨rfl, rfl, -⟩ | ⟨s₁, hs₁, -, hq₁⟩
  · rcases h.at_insert h₂ hq₂ with ⟨rfl, -, -⟩ | ⟨s₂, hs₂, -, hq₂⟩
    · rfl
    · exact absurd hq₂ (h.fresh s₂ hs₂ π₂)
  · rcases h.at_insert h₂ hq₂ with ⟨-, rfl, -⟩ | ⟨s₂, hs₂, -, hq₂⟩
    · exact absurd hq₁ (h.fresh s₁ hs₁ π₁)
    · exact hp s₁ hs₁ s₂ hs₂ π₁ π₂ q hq₁ hq₂

open Classical in
theorem Fork.owners_eq [DecidableEq P] {q : P} (hπ : π ≠ []) :
    owners next mem' (insert n roots) π q =
      owners next mem roots π q + if At next mem r π q then 1 else 0 := by
  have hold : roots.filter (fun r' => At next mem' r' π q) =
      roots.filter fun r' => At next mem r' π q :=
    Finset.filter_congr fun r' hr' => by rw [At, At, h.walk hr']
  have hnew : At next mem' n π q ↔ At next mem r π q := by rw [At, At, h.walk_new hπ]
  have hout : n ∉ roots.filter fun r' => At next mem r' π q := fun hn =>
    h.not_mem (Finset.mem_filter.mp hn).1
  rw [owners, owners, Finset.filter_insert, hold]
  by_cases hq : At next mem r π q
  · rw [if_pos (hnew.mpr hq), if_pos hq, Finset.card_insert_of_notMem hout]
  · rw [if_neg (fun hn => hq (hnew.mp hn)), if_neg hq, Nat.add_zero]

theorem Fork.counted [DecidableEq P] {cnt cnt' : Nat → P → Nat} {K : Nat}
    (hc : Counted next mem roots cnt) (hK : roots.card < K)
    (hmono : ∀ d q k, k ≤ K → k ≤ cnt d q → k ≤ cnt' d q)
    (hrise : ∀ π q k, π ≠ [] → At next mem r π q → k < K → k ≤ max 1 (cnt π.length q) →
      k + 1 ≤ cnt' π.length q) :
    Counted next mem' (insert n roots) cnt' := by
  intro r' hr' π q hπ hq
  obtain ⟨s, hs, hq⟩ : ∃ s ∈ roots, At next mem s π q := by
    rcases h.at_insert hr' hq with ⟨rfl, -, -⟩ | ⟨s, hs, -, hq⟩
    · exact absurd rfl hπ
    · exact ⟨s, hs, hq⟩
  have hle := hc s hs π q hπ hq
  have hcard : owners next mem roots π q ≤ roots.card := owners_le
  rw [h.owners_eq hπ]
  split
  · next hqr => exact le_max_of_le_right (hrise π q _ hπ hqr (by omega) hle)
  · rcases le_max_iff.mp hle with h1 | hcnt
    · exact le_max_of_le_left h1
    · exact le_max_of_le_right (hmono _ q _ (by omega) hcnt)

end Fork

end Rynex.Lib.Radix
