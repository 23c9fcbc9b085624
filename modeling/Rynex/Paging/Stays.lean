import Rynex.Paging.Translate

/-! What the fault handler does to the translations of a tree-shaped address space whose tables may
be shared with others: tables that are copied or put under absent entries change none of them, and
a leaf entry that is written changes that of its own page. -/

namespace Rynex.Paging

open Rynex.Memory Rynex.Lib Rynex.Lib.Radix

variable {m m' m₁ : Machine} {a c i n q s t va virt : Nat} {π ρ : List Nat}

/-! ### Steps that keep all translations -/

theorem translation_eq (m : Machine) (a va : Nat) :
    translation m a va = (view m a va).map fun v => (v.1, v.2.1) := by
  simp only [translation, view, look]
  split
  · rfl
  split
  · simp
  split
  · next hh => simp_all
  split
  · simp_all
  split
  · simp_all
  · simp_all
    split <;> simp_all

theorem frameAt_eq_translation (m : Machine) (a va : Nat) :
    frameAt m a va = (translation m a va).map Prod.fst := by
  rw [translation_eq, frameAt, Option.map_map]
  rfl

theorem frameAt_eq_none : frameAt m a va = none ↔ view m a va = none := by
  simp [frameAt]

theorem translation_eq_none : translation m a va = none ↔ view m a va = none := by
  simp [translation_eq]

/-- `m'` comes from `m` by steps after which the tables of `a` are a tree still, and translate each
address as before. -/
structure Stays (m m' : Machine) (a : Nat) : Prop where
  tree : TreeShaped m' a
  same : ∀ va, translation m' a va = translation m a va
  vmas : m'.vmas = m.vmas

theorem Stays.refl (h : TreeShaped m a) : Stays m m a := ⟨h, fun _ => rfl, rfl⟩

theorem Stays.trans (h : Stays m m₁ a) (h' : Stays m₁ m' a) : Stays m m' a :=
  ⟨h'.tree, fun va => (h'.same va).trans (h.same va), h'.vmas.trans h.vmas⟩

theorem Stays.none (h : Stays m m' a) (hva : translation m a va = none) :
    translation m' a va = none := (h.same va).trans hva

/-- The leaf entry of `va`, when there is a page table for it. -/
def leafOf (m : Machine) (a va : Nat) : Option Nat := content table m.mem a (dir va) (vpn va 3)

/-- Steps that keep the leaf entries as well. -/
structure Faithful (m m' : Machine) (a : Nat) : Prop extends Stays m m' a where
  leaf : ∀ va, leafOf m' a va = leafOf m a va

theorem Faithful.refl (h : TreeShaped m a) : Faithful m m a := ⟨.refl h, fun _ => rfl⟩

theorem Faithful.trans (h : Faithful m m₁ a) (h' : Faithful m₁ m' a) : Faithful m m' a :=
  ⟨h.toStays.trans h'.toStays, fun va => (h'.leaf va).trans (h.leaf va)⟩

theorem leafOf_of_at (h : At table m.mem a (dir va) t) :
    leafOf m a va = some (m.mem t (vpn va 3)) := by
  rw [leafOf, content, show walk table m.mem 0 a (dir va) = some t from h]
  rfl

theorem frameAt_of_leaf {e : Nat} (h : leafOf m a va = some e) (hp : Pte.present e = true) :
    frameAt m a va = some (Pte.addr e) := by
  obtain ⟨t, ht, rfl⟩ := Option.map_eq_some_iff.mp h
  rw [frameAt_of_dir ht, translate, if_pos hp]

theorem TreeShaped.guarded (h : TreeShaped m a) : Guarded (IsTable m a) m := ⟨h.wf, h.held⟩

theorem TreeShaped.spares (h : TreeShaped m a) (hs : Spares (IsTable m a) m m')
    (hsub : ∀ x, m'.buddy.pool.AvailAt x → m.buddy.pool.AvailAt x) (hvmas : m'.vmas = m.vmas) :
    Faithful m m' a ∧ ∀ {π q}, At table m'.mem a π q ↔ At table m.mem a π q := by
  have hwalk : ∀ π, walk table m'.mem 0 a π = walk table m.mem 0 a π := fun π =>
    walk_congr fun ρ i t _ ht => by rw [hs.mem t ⟨ρ, ht⟩]
  have hat : ∀ {π q}, At table m'.mem a π q ↔ At table m.mem a π q := fun {π q} => by
    rw [At, At, hwalk]
  refine ⟨⟨⟨⟨hs.wf, fun x hx => h.small x (hsub x hx),
    fun h₁ h₂ => h.placed (hat.mp h₁) (hat.mp h₂), ?_⟩, fun va => ?_, hvmas⟩, fun va => ?_⟩, hat⟩
  · rintro t ⟨π, ht⟩
    exact hs.held t ⟨π, hat.mp ht⟩
  · rw [translation_eq, translation_eq]
    exact congrArg _ (look_congr fun q hq => hs.mem q (way_isTable .root rfl hq))
  · rw [leafOf, leafOf, content, content, hwalk]
    cases hw : walk table m.mem 0 a (dir va) with
    | none => rfl
    | some t => exact congrArg some (congrFun (hs.mem t ⟨_, hw⟩) _)

theorem TreeShaped.took {res : Option Nat} (h : TreeShaped m a) (ht : Took m m' res)
    (hvmas : m'.vmas = m.vmas) :
    Faithful m m' a ∧ ∀ {π q}, At table m'.mem a π q ↔ At table m.mem a π q :=
  h.spares (ht.spares h.guarded) ht.sub hvmas

theorem allocPage_vmas {res : Option Nat} (h : m.allocPage = (res, m')) : m'.vmas = m.vmas := by
  cases h; rfl

theorem allocZeroedPage_vmas {res : Option Nat} (h : m.allocZeroedPage = (res, m')) :
    m'.vmas = m.vmas := by
  unfold Machine.allocZeroedPage at h
  split at h <;> cases h <;> rfl

/-! ### Demand paging -/

theorem linkTable_vmas {fill : Option (Nat → Nat)} {res : Except String Nat}
    (h : m.linkTable t i fill = (res, m')) : m'.vmas = m.vmas := by
  unfold Machine.linkTable at h
  split at h
  · next hm =>
    cases h
    exact allocZeroedPage_vmas hm
  · next hm =>
    have hvmas := allocZeroedPage_vmas hm
    cases h
    cases fill <;> exact hvmas

/-- A new table under an absent entry, without a present entry of its own. -/
theorem TreeShaped.linkAbsent {fill : Option (Nat → Nat)} {res : Except String Nat}
    (h : TreeShaped m a) (ht : At table m.mem a ρ t) (hshort : ρ.length < 3) (hi : i < 512)
    (habs : Pte.present (m.mem t i) = false)
    (hfill : ∀ j < 512, Pte.present (newWords fill j) = false)
    (hl : m.linkTable t i fill = (res, m')) :
    Stays m m' a ∧ ∀ n, res = .ok n → At table m'.mem a (ρ ++ [i]) n := by
  cases res with
  | error e =>
    have hvmas := linkTable_vmas hl
    unfold Machine.linkTable at hl
    split at hl
    · next m₁ ha =>
      cases hl
      exact ⟨(h.took (allocZeroedPage_took h.wf ha) hvmas).1.toStays, nofun⟩
    · cases hl
  | ok n =>
    have hbelow : ∀ j, table (ρ.length + 1) j (newWords fill j) = none := fun j => by
      by_cases hj : j < 512
      · exact table_absent (hfill j hj)
      · simp [table, hj]
    obtain ⟨hsame, hat, hnew, hold⟩ := h.linkTable ht hshort hi (table_absent habs) hbelow
      (fun va _ => (entryFrame_absent (hfill _ (vpn_lt va _))).trans (entryFrame_absent habs).symm)
        hl
    refine ⟨⟨hsame.tree, fun va => ?_, linkTable_vmas hl⟩, fun _ hn => by cases hn; exact hat⟩
    rw [translation_eq, translation_eq]
    refine congrArg _ (view_of_entries fun levels π s hs _ hlen => ?_)
    by_cases heq : s = t ∧ vpn va π.length = i
    · -- there was no page, and there is none
      obtain ⟨rfl, hi⟩ := heq
      obtain rfl := h.placed hs ht
      obtain ⟨k, rfl⟩ : ∃ k, levels = k + 1 := ⟨levels - 1, by omega⟩
      refine .inr fun w u => ?_
      have hd : 2 - k = π.length := by omega
      have hlink : table π.length i (m'.mem s i) = some n := by
        obtain ⟨s', hs', hlink⟩ := hat.of_concat
        rwa [hs'.unique (hsame.at_old hs)] at hlink
      obtain ⟨-, hp, hplain, haddr⟩ := table_eq_some.mp hlink
      have hgo : (decide (k ≠ 2) && Pte.huge (m'.mem s i)) = false := by
        rcases hplain with h0 | ⟨-, hh⟩
        · simp [show k = 2 by omega]
        · simp [hh]
      have hdead : ∀ w u, look m' va k n w u = none := fun w u => by
        cases k with
        | zero => simp [look, hnew, hfill _ (vpn_lt va 3)]
        | succ k => simp [look, hnew, hfill _ (vpn_lt va _)]
      simp only [look, hd, hi, habs, hp, hgo, haddr, hdead, Bool.not_true, Bool.not_false,
        Bool.false_eq_true, if_true, if_false]
    · exact .inl (hold s _ ⟨π, hs⟩ heq)

theorem TreeShaped.stays_orUser (h : TreeShaped m a) (t i : Nat) :
    Stays m (m.write t i (m.mem t i ||| pteUser)) a := by
  refine ⟨(h.orUser t i).tree, fun va => ?_, rfl⟩
  have hentry : ∀ q j, Pte.present ((m.write t i (m.mem t i ||| pteUser)).mem q j) =
        Pte.present (m.mem q j) ∧
      Pte.huge ((m.write t i (m.mem t i ||| pteUser)).mem q j) = Pte.huge (m.mem q j) ∧
      Pte.writable ((m.write t i (m.mem t i ||| pteUser)).mem q j) = Pte.writable (m.mem q j) ∧
      Pte.addr ((m.write t i (m.mem t i ||| pteUser)).mem q j) = Pte.addr (m.mem q j) := by
    intro q j
    rw [mem_write]
    split_ifs with heq
    · obtain ⟨rfl, rfl⟩ := heq
      exact ⟨present_or_user _, huge_or_user _, writable_or_user _, addr_or_user _⟩
    · exact ⟨rfl, rfl, rfl, rfl⟩
  simp only [translation, hentry]

theorem frameAt_of_at {levels : Nat} (ht : At table m.mem a ρ t) (hpre : ρ <+: path va)
    (hlen : ρ.length + levels = 3) : frameAt m a va = translate m va levels t := by
  induction ρ using List.reverseRecOn generalizing levels t with
  | nil =>
    obtain rfl : levels = 3 := by simpa using hlen
    obtain rfl : a = t := Option.some.inj ht
    exact frameAt_eq m a va
  | append_singleton ρ i ih =>
    simp only [List.length_append, List.length_singleton] at hlen
    obtain ⟨s, hs, hi⟩ := ht.of_concat
    have hpre' : ρ <+: path va := (List.prefix_append ρ [i]).trans hpre
    have hi' : i = vpn va ρ.length := by
      have hboth := List.prefix_of_prefix_length_le hpre (path_snoc hpre' (by omega)) (by simp)
      simpa using hboth.eq_of_length (by simp)
    rw [ih hs hpre' (show ρ.length + (levels + 1) = 3 by omega)]
    exact translate_table (d := ρ.length) (by omega) (hi' ▸ hi)

theorem not_huge_of_none {k : Nat} (ht : At table m.mem a ρ t) (hpre : ρ <+: path va)
    (hlen : ρ.length + (k + 1) = 3) (hk : k ≠ 2) (hnone : translation m a va = none)
    (hp : Pte.present (m.mem t (vpn va ρ.length)) = true) :
    Pte.huge (m.mem t (vpn va ρ.length)) = false := by
  rw [translation_eq_none, ← frameAt_eq_none, frameAt_of_at ht hpre hlen] at hnone
  by_contra hh
  rw [Bool.not_eq_false] at hh
  simp [translate, show 2 - k = ρ.length by omega, hp, hk, hh] at hnone

theorem present_newWords_none (j : Nat) : Pte.present (newWords none j) = false :=
  show Pte.present 0 = false by decide

theorem mapPdpt_demand {res : Except String Nat} (h : TreeShaped m a)
    (hm : m.mapPdpt a virt = (res, m')) :
    Stays m m' a ∧ ∀ t, res = .ok t → At table m'.mem a [vpn virt 0] t := by
  unfold Machine.mapPdpt at hm
  simp only at hm
  split at hm
  next hp =>
    cases hm
    refine ⟨.refl h, fun t ht => ?_⟩
    cases ht
    exact At.root.concat (table_eq_some.mpr ⟨vpn_lt virt 0, hp, .inl rfl, rfl⟩)
  next hp =>
    exact h.linkAbsent .root (by simp) (vpn_lt virt 0) (by simpa using hp)
      (fun j _ => present_newWords_none j) hm

theorem mapPd_demand {res : Except String Nat} (h : TreeShaped m a)
    (ht : At table m.mem a [vpn virt 0] t) (hnone : translation m a virt = none)
    (hm : m.mapPd t virt = (res, m')) :
    Stays m m' a ∧ ∀ n, res = .ok n → At table m'.mem a [vpn virt 0, vpn virt 1] n := by
  unfold Machine.mapPd at hm
  simp only at hm
  split at hm
  next hgo =>
    simp only [Bool.and_eq_true, Bool.not_eq_true'] at hgo
    cases hm
    refine ⟨.refl h, fun n hn => ?_⟩
    cases hn
    exact ht.concat (table_eq_some.mpr ⟨vpn_lt virt 1, hgo.1, .inr ⟨by simp, hgo.2⟩, rfl⟩)
  next hstop =>
  have habs : Pte.present (m.mem t (vpn virt 1)) = false := by
    by_contra hp
    have hp : Pte.present (m.mem t (vpn virt 1)) = true := by simpa using hp
    have hh := not_huge_of_none (k := 1) ht (by simp [path]) rfl (by decide) hnone hp
    exact hstop (by simpa [hp] using hh)
  refine h.linkAbsent ht (by simp) (vpn_lt virt 1) habs (fun j hj => ?_) hm
  split
  · rw [newWords_some]
    exact (splitPdpte_spec hj).2.1.trans habs
  · exact present_newWords_none j

theorem mapPt_demand {res : Except String Nat} (h : TreeShaped m a)
    (ht : At table m.mem a [vpn virt 0, vpn virt 1] t) (hnone : translation m a virt = none)
    (hm : m.mapPt t virt = (res, m')) :
    Stays m m' a ∧ ∀ n, res = .ok n → At table m'.mem a (dir virt) n := by
  unfold Machine.mapPt at hm
  simp only at hm
  split at hm
  next hgo =>
    simp only [Bool.and_eq_true, Bool.not_eq_true'] at hgo
    cases hm
    refine ⟨h.stays_orUser t _, fun n hn => ?_⟩
    cases hn
    exact (h.orUser t (vpn virt 2)).at_old
      (ht.concat (table_eq_some.mpr ⟨vpn_lt virt 2, hgo.1, .inr ⟨by simp, hgo.2⟩, rfl⟩))
  next hstop =>
  have habs : Pte.present (m.mem t (vpn virt 2)) = false := by
    by_contra hp
    have hp : Pte.present (m.mem t (vpn virt 2)) = true := by simpa using hp
    have hh := not_huge_of_none (k := 0) ht (by simp [path]) rfl (by decide) hnone hp
    exact hstop (by simpa [hp] using hh)
  refine h.linkAbsent ht (by simp) (vpn_lt virt 2) habs (fun j hj => ?_) hm
  split
  · rw [newWords_some]
    exact (splitPde_spec hj).2.trans habs
  · exact present_newWords_none j

theorem mapInto_demand {res : Except String Unit} {phys flags : Nat} (h : TreeShaped m a)
    (hnone : translation m a virt = none) (hm : m.mapInto a virt phys flags = (res, m')) :
    (∀ e, res = .error e → Stays m m' a) ∧
    (∀ u, res = .ok u → ∃ m₁ t, Stays m m₁ a ∧ At table m₁.mem a (dir virt) t ∧
      m' = m₁.write t (vpn virt 3) (phys ||| flags ||| ptePresent)) := by
  unfold Machine.mapInto at hm
  split at hm
  next e m₁ h₁ =>
    cases hm
    exact ⟨fun _ _ => (mapPdpt_demand h h₁).1, nofun⟩
  next pdpt m₁ h₁ =>
  obtain ⟨s₁, hpdpt⟩ := mapPdpt_demand h h₁
  split at hm
  next e m₂ h₂ =>
    cases hm
    exact ⟨fun _ _ => s₁.trans (mapPd_demand s₁.tree (hpdpt _ rfl) (s₁.none hnone) h₂).1, nofun⟩
  next pd m₂ h₂ =>
  obtain ⟨s₂, hpd⟩ := mapPd_demand s₁.tree (hpdpt _ rfl) (s₁.none hnone) h₂
  have s₁₂ := s₁.trans s₂
  split at hm
  next e m₃ h₃ =>
    cases hm
    exact ⟨fun _ _ => s₁₂.trans (mapPt_demand s₂.tree (hpd _ rfl) (s₁₂.none hnone) h₃).1, nofun⟩
  next pt m₃ h₃ =>
  obtain ⟨s₃, hpt⟩ := mapPt_demand s₂.tree (hpd _ rfl) (s₁₂.none hnone) h₃
  cases hm
  exact ⟨nofun, fun _ _ => ⟨m₃, pt, s₁₂.trans s₃, hpt _ rfl, rfl⟩⟩

/-! ### Copies of shared tables -/

theorem TreeShaped.placed_singleton (h : TreeShaped m a) : Placed table m.mem {a} := by
  intro r hr r' hr' π π' p hp hp'
  obtain rfl := Finset.mem_singleton.mp hr
  obtain rfl := Finset.mem_singleton.mp hr'
  exact h.placed hp hp'

section Copied

variable (hl : Relink table m.mem m'.mem {a} a ρ i t c n) (h : TreeShaped m a)
  (hpresent : Pte.present (m'.mem t i) = Pte.present (m.mem t i))
  (hhuge : Pte.huge (m'.mem t i) = Pte.huge (m.mem t i))
  (hwritable : Pte.writable (m'.mem t i) = Pte.writable (m.mem t i))
  (huser : Pte.user (m'.mem t i) = Pte.user (m.mem t i))

include hl h

theorem relink_entry_cases {j : Nat} (hs : At table m.mem a π s) :
    (s = t ∧ j = i ∧ π = ρ) ∨
    (m'.mem (if s = c then n else s) j = m.mem s j ∧
      ∀ q, table π.length j (m.mem s j) = some q → q ≠ c) := by
  have hct : At table m.mem a (ρ ++ [i]) c := hl.child
  by_cases hsc : s = c
  · subst hsc
    refine .inr ⟨by rw [if_pos rfl, hl.copy], fun q hq => ?_⟩
    rintro rfl
    have := congrArg List.length (h.placed hs (hs.concat hq))
    simp at this
  by_cases hlink : s = t ∧ j = i
  · obtain ⟨rfl, rfl⟩ := hlink
    exact .inl ⟨rfl, rfl, h.placed hs hl.table⟩
  · refine .inr ⟨?_, fun q hq => ?_⟩
    · rw [if_neg hsc]
      exact hl.other s j (fun hn => hl.fresh a (Finset.mem_singleton_self a) π (hn ▸ hs))
        fun ht hj => hlink ⟨ht, hj⟩
    · rintro rfl
      obtain ⟨rfl, hj⟩ := List.append_inj' (h.placed (hs.concat hq) hct) rfl
      exact hlink ⟨hs.unique hl.table, by simpa using hj⟩

include hpresent hhuge hwritable huser

theorem relink_look {levels : Nat} {w u : Bool} (hs : At table m.mem a π s)
    (hlen : π.length + levels = 3) :
    look m' va levels (if s = c then n else s) w u = look m va levels s w u := by
  have hlinked : table ρ.length i (m.mem t i) = some c := by
    obtain ⟨t', ht', hc⟩ := At.of_concat (show At table m.mem a (ρ ++ [i]) c from hl.child)
    rwa [ht'.unique hl.table] at hc
  induction levels generalizing π s w u with
  | zero =>
    rcases relink_entry_cases hl h (j := vpn va 3) hs with ⟨rfl, rfl, rfl⟩ | ⟨he, -⟩
    · rw [show π.length = 3 by omega, table_leaf] at hlinked
      cases hlinked
    · simp only [look, he]
  | succ levels ih =>
    have hd : 2 - levels = π.length := by omega
    simp only [look, hd]
    -- from an entry that leads on, the rest is known
    have hgo : ∀ {w u}, Pte.present (m.mem s (vpn va π.length)) = true →
        ¬ ((decide (levels ≠ 2) && Pte.huge (m.mem s (vpn va π.length))) = true) →
        look m' va levels (if Pte.addr (m.mem s (vpn va π.length)) = c then n
          else Pte.addr (m.mem s (vpn va π.length))) w u =
        look m va levels (Pte.addr (m.mem s (vpn va π.length))) w u := fun {w u} hp hh => by
      refine ih (hs.concat (table_eq_some.mpr ⟨vpn_lt va _, hp, ?_, rfl⟩)) (by simp; omega)
      by_cases h2 : levels = 2
      · exact .inl (by omega)
      · exact .inr ⟨by omega, by simpa [h2] using hh⟩
    rcases relink_entry_cases hl h (j := vpn va π.length) hs with ⟨rfl, hi, rfl⟩ | ⟨he, hne⟩
    · -- the entry that was relinked
      obtain ⟨-, hp, hplain, hc⟩ := table_eq_some.mp hlinked
      obtain ⟨-, -, -, hn⟩ := table_eq_some.mp hl.link
      have hst : s ≠ c := by
        rintro rfl
        have := congrArg List.length (h.placed hl.table hl.child)
        simp at this
      have hstop : ¬ ((decide (levels ≠ 2) && Pte.huge (m.mem s i)) = true) := by
        rcases hplain with h0 | ⟨-, hh⟩
        · simp [show levels = 2 by omega]
        · simp [hh]
      have hgo := hgo (w := w && Pte.writable (m.mem s i)) (u := u && Pte.user (m.mem s i))
        (by rw [hi]; exact hp) (by rw [hi]; exact hstop)
      simp only [hi, hc, if_true] at hgo
      simp only [if_neg hst, hi, hpresent, hhuge, hwritable, huser, hp, hn, hc, Bool.not_true,
        Bool.false_eq_true, if_false, if_neg hstop, hgo]
    · simp only [he]
      split
      · rfl
      split
      · rfl
      next hp hh =>
      have hp : Pte.present (m.mem s (vpn va π.length)) = true := by simpa using hp
      rw [← hgo hp hh, if_neg]
      refine hne _ (table_eq_some.mpr ⟨vpn_lt va _, hp, ?_, rfl⟩)
      by_cases h2 : levels = 2
      · exact .inl (by omega)
      · exact .inr ⟨by omega, by simpa [h2] using hh⟩

end Copied

theorem TreeShaped.cowTable {res : Option Nat} (h : TreeShaped m a) (ht : At table m.mem a ρ t)
    (hshort : ρ.length < 3) (hc : table ρ.length i (m.mem t i) = some c)
    (hm : m.cowTable t i = (res, m')) :
    Faithful m m' a ∧ ∀ c', res = some c' → At table m'.mem a (ρ ++ [i]) c' := by
  have hchild : At table m.mem a (ρ ++ [i]) c := ht.concat hc
  obtain ⟨hi, hp, hplain, rfl⟩ := table_eq_some.mp hc
  unfold Machine.cowTable at hm
  simp only at hm
  split at hm
  case isFalse =>
    cases hm
    exact ⟨.refl h, fun c' hc' => by cases hc'; exact hchild⟩
  split at hm
  · next m₁ ha =>
    cases hm
    exact ⟨(h.took (allocZeroedPage_took h.wf ha) (allocZeroedPage_vmas ha)).1, nofun⟩
  next n m₁ ha =>
  have hvmas := allocZeroedPage_vmas ha
  cases hm
  have halloc := allocZeroedPage_some h.wf ha
  have hn : Pte.addr n = n := Pte.addr_of_dvd halloc.page_dvd (h.small n halloc.avail)
  have hne : ∀ {π q}, At table m.mem a π q → q ≠ n := fun hq hqn =>
    h.held n ⟨_, hqn ▸ hq⟩ halloc.avail
  set c := Pte.addr (m.mem t i)
  set m' := ((m₁.copyPage c n).pteRefcDec c).write t i (n ||| Pte.flags (m.mem t i)) with hm'
  have hmem : ∀ q j, m'.mem q j = if q = t ∧ j = i then n ||| Pte.flags (m.mem t i)
      else if q = n then m.mem c j else m.mem q j := by
    intro q j
    rw [hm', mem_write]
    have hcopy : ((m₁.copyPage c n).pteRefcDec c).mem = Function.update m₁.mem n (m₁.mem c) := rfl
    rw [hcopy, halloc.mem, Function.update_of_ne (hne hchild), Function.update_idem]
    split_ifs with h₁ h₂
    · rfl
    · rw [h₂, Function.update_self]
    · rw [Function.update_of_ne h₂]
  have hentry : m'.mem t i = n ||| Pte.flags (m.mem t i) := by rw [hmem, if_pos ⟨rfl, rfl⟩]
  have hcopied : ∀ j, m'.mem n j = m.mem c j := fun j => by
    rw [hmem, if_neg fun heq => hne ht heq.1.symm, if_pos rfl]
  have hl : Relink table m.mem m'.mem {a} a ρ i t c n := by
    constructor
    case root => exact Finset.mem_singleton_self a
    case table => exact ht
    case sole => exact fun r hr _ => Finset.mem_singleton.mp hr
    case child => exact hchild
    case fresh =>
      intro r hr π hπ
      obtain rfl := Finset.mem_singleton.mp hr
      exact hne hπ rfl
    case link =>
      rw [hentry]
      exact table_eq_some.mpr ⟨hi, by rw [Pte.present_or_flags hn, hp],
        by rwa [Pte.huge_or_flags hn], Pte.addr_or_flags hn _⟩
    case copy => exact hcopied
    case other =>
      intro q j hq hqt
      rw [hmem, if_neg fun heq => hqt heq.1 heq.2, if_neg hq]
  have hpl := h.placed_singleton
  have hroot := Finset.mem_singleton_self a
  have hsub : ∀ x, m'.buddy.pool.AvailAt x → m.buddy.pool.AvailAt x := fun x hx =>
    (halloc.grants.sub x hx).1
  have hnot : ¬ m'.buddy.pool.AvailAt n := halloc.not_avail
  refine ⟨⟨⟨⟨halloc.grants.wf, fun x hx => h.small x (hsub x hx), fun h₁ h₂ => ?_, ?_⟩,
    fun va => ?_, hvmas⟩, fun va => ?_⟩, fun c' hc' => ?_⟩
  · exact hl.placed hpl a hroot a hroot _ _ _ h₁ h₂
  · rintro q ⟨π, hq⟩ hx
    rcases (hl.at_iff hpl hroot).mp hq with ⟨-, -, rfl⟩ | ⟨-, hq⟩
    · exact hnot hx
    · exact h.held q ⟨π, hq⟩ (hsub q hx)
  · have hac : a ≠ c := by
      rintro hac
      have := h.placed (show At table m.mem a [] c from hac ▸ .root) hchild
      simp at this
    rw [translation_eq, translation_eq]
    have hlook : look m' va 3 (if a = c then n else a) true true = look m va 3 a true true :=
      relink_look hl h (by rw [hentry, Pte.present_or_flags hn])
        (by rw [hentry, Pte.huge_or_flags hn]) (by rw [hentry, Pte.writable_or_flags hn])
        (by rw [hentry, Pte.user_or_flags hn]) .root rfl
    rw [if_neg hac] at hlook
    exact congrArg _ hlook
  · refine hl.content hpl hroot fun hρ => ?_
    rw [← hρ, length_dir] at hshort
    omega
  · cases hc'
    exact hl.at_copy hpl

/-! ### Write faults -/

/-- What a step does away from the page of `virt`. -/
structure Elsewhere (m m' : Machine) (a virt : Nat) : Prop where
  tree : TreeShaped m' a
  same : ∀ va, pageOf va ≠ pageOf virt → translation m' a va = translation m a va
  vmas : m'.vmas = m.vmas

theorem Stays.elsewhere (h : Stays m m' a) (virt : Nat) : Elsewhere m m' a virt :=
  ⟨h.tree, fun va _ => h.same va, h.vmas⟩

theorem Stays.setLeaf (h : Stays m m₁ a) (ht : At table m₁.mem a (dir virt) t) (v : Nat) :
    Elsewhere m (m₁.write t (vpn virt 3) v) a virt ∧
      leafOf (m₁.write t (vpn virt 3) v) a virt = some v := by
  obtain ⟨htree, hat, -, -⟩ := h.tree.setLeaf ht v
  refine ⟨⟨htree, fun va hva => ?_, h.vmas⟩, ?_⟩
  · rw [← h.same va, translation_eq, translation_eq, h.tree.setLeaf_view ht v hva]
  · rw [leafOf_of_at (hat ht), mem_write, if_pos ⟨rfl, rfl⟩]

theorem TreeShaped.cowWalkPte {res : Option Nat} (h : TreeShaped m a)
    (hm : m.cowWalkPte a virt = (res, m')) :
    Faithful m m' a ∧ ∀ pt, res = some pt → At table m'.mem a (dir virt) pt := by
  unfold Machine.cowWalkPte at hm
  split at hm
  · cases hm
    exact ⟨.refl h, nofun⟩
  next hp =>
  have hpdpte := table_eq_some.mpr
    ⟨vpn_lt virt 0, show Pte.present (m.mem a (vpn virt 0)) = true by simpa using hp, .inl rfl, rfl⟩
  split at hm
  · next m₁ h₁ =>
    cases hm
    exact ⟨(h.cowTable .root (by simp) hpdpte h₁).1, nofun⟩
  next pdpt m₁ h₁ =>
  obtain ⟨f₁, hpdpt⟩ := h.cowTable .root (by simp) hpdpte h₁
  have hpdpt := hpdpt pdpt rfl
  simp only at hm
  split at hm
  · cases hm
    exact ⟨f₁, nofun⟩
  next hp₁ =>
  simp only [Bool.or_eq_true, Bool.not_eq_true', not_or, Bool.not_eq_false, Bool.not_eq_true] at hp₁
  have hpde : table 1 (vpn virt 1) (m₁.mem pdpt (vpn virt 1)) = some _ :=
    table_eq_some.mpr ⟨vpn_lt virt 1, hp₁.1, .inr ⟨by decide, hp₁.2⟩, rfl⟩
  split at hm
  · next m₂ h₂ =>
    cases hm
    exact ⟨f₁.trans (f₁.tree.cowTable hpdpt (by simp) hpde h₂).1, nofun⟩
  next pd m₂ h₂ =>
  obtain ⟨f₂, hpd⟩ := f₁.tree.cowTable hpdpt (by simp) hpde h₂
  have hpd := hpd pd rfl
  split at hm
  · cases hm
    exact ⟨f₁.trans f₂, nofun⟩
  next hp₂ =>
  simp only [Bool.or_eq_true, Bool.not_eq_true', not_or, Bool.not_eq_false, Bool.not_eq_true] at hp₂
  have hpte : table 2 (vpn virt 2) (m₂.mem pd (vpn virt 2)) = some _ :=
    table_eq_some.mpr ⟨vpn_lt virt 2, hp₂.1, .inr ⟨by decide, hp₂.2⟩, rfl⟩
  obtain ⟨f₃, hpt⟩ := f₂.tree.cowTable hpd (by simp) hpte hm
  exact ⟨(f₁.trans f₂).trans f₃, hpt⟩

theorem TreeShaped.reserveMeta (h : TreeShaped m a) (virt p : Nat) :
    Faithful m (m.reserveMeta virt p) a ∧
      ∀ {π q}, At table (m.reserveMeta virt p).mem a π q ↔ At table m.mem a π q := by
  have hbuddy : (m.reserveMeta virt p).buddy.pool.Wf ∧
      ∀ x, (m.reserveMeta virt p).buddy.pool.AvailAt x → m.buddy.pool.AvailAt x := by
    unfold Machine.reserveMeta
    split
    · exact Buddy.reserve_sub h.wf
    · exact ⟨h.wf, fun _ hx => hx⟩
  have hvmas : (m.reserveMeta virt p).vmas = m.vmas := by
    unfold Machine.reserveMeta; split <;> rfl
  exact h.spares ⟨⟨hbuddy.1, fun q hq hx => h.held q hq (hbuddy.2 q hx)⟩,
    fun q _ => by rw [Machine.mem_reserveMeta]⟩ hbuddy.2 hvmas

/-- A write fault that is resolved found a present entry without the write bit, and leaves one with
it; one that is not changes no translation. -/
theorem TreeShaped.cowRemapIn {done : Bool} (h : TreeShaped m a)
    (hm : m.cowRemapIn a virt = (done, m')) :
    Elsewhere m m' a virt ∧ (done = false → Stays m m' a) ∧
    (done = true → ∃ e e',
      (leafOf m a virt = some e ∧ Pte.present e = true ∧ Pte.writable e = false) ∧
      leafOf m' a virt = some e' ∧ Pte.present e' = true ∧ Pte.writable e' = true ∧
      Pte.user e' = Pte.user e) := by
  unfold Machine.cowRemapIn at hm
  split at hm
  · next m₁ h₁ =>
    cases hm
    have hs := (h.cowWalkPte h₁).1.toStays
    exact ⟨hs.elsewhere virt, fun _ => hs, nofun⟩
  next pt m₁ h₁ =>
  obtain ⟨f₁, hpt⟩ := h.cowWalkPte h₁
  have hpt := hpt pt rfl
  have hleaf := (f₁.leaf virt).symm.trans (leafOf_of_at hpt)
  simp only at hm
  generalize m₁.mem pt (vpn virt 3) = e at hm hleaf
  split at hm
  · cases hm
    exact ⟨f₁.toStays.elsewhere virt, fun _ => f₁.toStays, nofun⟩
  next hp =>
  split at hm
  · cases hm
    exact ⟨f₁.toStays.elsewhere virt, fun _ => f₁.toStays, nofun⟩
  next hw =>
  have hp : Pte.present e = true := by simpa using hp
  have hfound : leafOf m a virt = some e ∧ Pte.present e = true ∧ Pte.writable e = false :=
    ⟨hleaf, hp, by simpa using hw⟩
  split at hm
  · cases hm
    obtain ⟨hel, hnew⟩ := f₁.toStays.setLeaf hpt (Pte.addr e ||| Pte.flags e ||| pteWritable)
    refine ⟨hel, nofun, fun _ => ⟨e, _, hfound, hnew, ?_, Pte.writable_or_writable _, ?_⟩⟩
    · rw [Pte.present_or_writable, Pte.present_or_flags (Pte.addr_addr e), hp]
    · rw [Pte.user_or_writable, Pte.user_or_flags (Pte.addr_addr e)]
  have hcount : Spares (IsTable m₁ a) m₁ (m₁.refcDec (Pte.addr e)) :=
    ⟨⟨f₁.tree.wf, f₁.tree.held⟩, fun _ _ => rfl⟩
  have hdec := f₁.trans (f₁.tree.spares hcount (fun _ hx => hx) rfl).1
  obtain ⟨fr, hr⟩ := hdec.tree.reserveMeta virt (Pte.addr e)
  have f₂ := hdec.trans fr
  split at hm
  · next m₃ h₃ =>
    cases hm
    have hs := f₂.toStays.trans
      (f₂.tree.took (allocZeroedPage_took f₂.tree.wf h₃) (allocZeroedPage_vmas h₃)).1.toStays
    exact ⟨hs.elsewhere virt, fun _ => hs, nofun⟩
  next n m₃ h₃ =>
  have htook := allocZeroedPage_took f₂.tree.wf h₃
  obtain ⟨f₃, hat₃⟩ := f₂.tree.took htook (allocZeroedPage_vmas h₃)
  have halloc := allocZeroedPage_some f₂.tree.wf h₃
  have hn : Pte.addr n = n := Pte.addr_of_dvd halloc.page_dvd (f₂.tree.small n halloc.avail)
  -- the copy is no table
  have hfresh : ¬ IsTable m₃ a n := by
    rintro ⟨π, hπ⟩
    exact f₂.tree.held n ⟨π, hat₃.mp hπ⟩ halloc.avail
  obtain ⟨f₄, hat₄⟩ := f₃.tree.spares (f₃.tree.guarded.spares_writePage hfresh
    (m₃.mem (Pte.addr e)))
    (fun _ hx => hx) rfl
  obtain ⟨f₅, hat₅⟩ := f₄.tree.reserveMeta virt n
  have hs := (((f₂.trans f₃).trans f₄).trans f₅).toStays
  cases hm
  obtain ⟨hel, hnew⟩ := hs.setLeaf (hat₅.mpr (hat₄.mpr (hat₃.mpr (hr.mpr hpt))))
    (n ||| Pte.flags e ||| pteWritable)
  refine ⟨hel, nofun, fun _ => ⟨e, _, hfound, hnew, ?_, Pte.writable_or_writable _, ?_⟩⟩
  · rw [Pte.present_or_writable, Pte.present_or_flags hn, hp]
  · rw [Pte.user_or_writable, Pte.user_or_flags hn]

/-! ### Faults on pages that are not present -/

theorem pageOf_align (va : Nat) : pageOf (va - va % pageSize) = pageOf va := by
  simp only [pageOf, pageSize]
  omega

theorem leafOf_page (m : Machine) (a : Nat) (h : pageOf va = pageOf virt) :
    leafOf m a va = leafOf m a virt := by
  obtain ⟨h0, h1, h2, h3⟩ : vpn va 0 = vpn virt 0 ∧ vpn va 1 = vpn virt 1 ∧
      vpn va 2 = vpn virt 2 ∧ vpn va 3 = vpn virt 3 := by
    simpa [path] using path_eq_iff.mpr h
  rw [leafOf, leafOf, dir, dir, h0, h1, h2, h3]

theorem Elsewhere.page (h : Elsewhere m m' a virt) (hva : pageOf va = pageOf virt) :
    Elsewhere m m' a va :=
  ⟨h.tree, fun x hx => h.same x (hva ▸ hx), h.vmas⟩

theorem allocPage_page_dvd {p : Nat} (hwf : m.buddy.pool.Wf) (h : m.allocPage = (some p, m')) :
    pageSize ∣ p := by
  rcases hb : m.buddy.alloc 0 with ⟨res, b⟩
  simp only [Machine.allocPage, hb, Prod.mk.injEq] at h
  obtain ⟨rfl, -⟩ := h
  exact (Buddy.alloc_some hwf hb).1.fits.page_dvd

/-- The page at `va` is `p`, which reads as zero, under the flags of the region. -/
structure ZeroPage (m : Machine) (a va flags p : Nat) : Prop where
  leaf : leafOf m a va = some (p ||| flags ||| ptePresent)
  zero : ∀ j, m.mem p j = 0
  page : pageSize ∣ p ∧ p < 2 ^ 52

theorem TreeShaped.handleDemandPage {cr2 : Nat} {done : Bool} (h : TreeShaped m a)
    (hnone : translation m a cr2 = none) (hm : m.handleDemandPage a cr2 = (done, m')) :
    Elsewhere m m' a cr2 ∧ (done = false → Stays m m' a) ∧
    (done = true → ∃ vma p, m.vmaFind a cr2 = some vma ∧ ZeroPage m' a cr2 vma.flags p) := by
  unfold Machine.handleDemandPage at hm
  split at hm
  · cases hm
    exact ⟨(Stays.refl h).elsewhere _, fun _ => .refl h, nofun⟩
  next vma hvma =>
  split at hm
  · next m₁ h₁ =>
    cases hm
    have hs := (h.took (allocPage_took h.wf h₁) (allocPage_vmas h₁)).1.toStays
    exact ⟨hs.elsewhere _, fun _ => hs, nofun⟩
  next p m₁ h₁ =>
  have htook := allocPage_took h.wf h₁
  obtain ⟨hfree, htaken⟩ := htook.page p rfl
  obtain ⟨f₁, hat₁⟩ := h.took htook (allocPage_vmas h₁)
  have hfresh : ¬ IsTable m₁ a p := fun ⟨π, hπ⟩ => h.held p ⟨π, hat₁.mp hπ⟩ hfree
  have hcleared : Spares (IsTable m₁ a) m₁ (m₁.zeroPage p) :=
    f₁.tree.guarded.spares_writePage hfresh _
  obtain ⟨f₂, hat₂⟩ := f₁.tree.spares hcleared (fun _ hx => hx) rfl
  have s₂ := (f₁.trans f₂).toStays
  simp only at hm
  have hpg := pageOf_align cr2
  generalize cr2 - cr2 % pageSize = pg at hm hpg
  have hnone₂ : translation (m₁.zeroPage p) a pg = none := by
    rw [s₂.same, translation_eq_none, ← frameAt_eq_none, frameAt_page m a hpg, frameAt_eq_none,
      ← translation_eq_none]
    exact hnone
  -- `map_into` writes tables, and the page is none
  have hspares : ∀ {res m'}, (m₁.zeroPage p).mapInto a pg p vma.flags = (res, m') →
      m'.mem p = (m₁.zeroPage p).mem p := fun hmap => by
    refine (mapInto_spares (T := (· = p)) ⟨s₂.tree.wf, ?_⟩ (fun q hq => ⟨?_, ?_⟩) hmap).mem p rfl
    · rintro _ rfl
      exact htaken
    · rintro rfl
      obtain ⟨π, hπ⟩ := way_isTable (a := a) .root rfl hq
      exact hfresh ⟨π, hat₂.mp hπ⟩
    · exact s₂.tree.held q (way_isTable .root rfl hq)
  split at hm
  · next e m₃ h₃ =>
    cases hm
    have hs := s₂.trans ((mapInto_demand s₂.tree hnone₂ h₃).1 e rfl)
    exact ⟨hs.elsewhere _, fun _ => hs, nofun⟩
  next u m₃ h₃ =>
  cases hm
  obtain ⟨m₄, t, s₃, ht, rfl⟩ := (mapInto_demand s₂.tree hnone₂ h₃).2 u rfl
  obtain ⟨hel, hleaf⟩ := (s₂.trans s₃).setLeaf ht (p ||| vma.flags ||| ptePresent)
  refine ⟨hel.page hpg.symm, nofun, fun _ => ⟨vma, p, hvma, ?_, fun j => ?_, ?_⟩⟩
  · rw [leafOf_page _ _ hpg.symm, hleaf]
  · have hzero : (m₁.zeroPage p).mem p = fun _ => 0 := Function.update_self _ _ _
    rw [hspares h₃, hzero]
  · exact ⟨allocPage_page_dvd h.wf h₁, h.small p hfree⟩

end Rynex.Paging
