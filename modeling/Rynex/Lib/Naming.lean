import Mathlib

/-! Directories: nodes that name other nodes in slots. In a sound naming every node but the root
has exactly one name. A step that has taken the name of a node away, or has made a node and not
named it yet, has the node in hand. -/

namespace Rynex.Lib

variable {ι κ ν : Type*} {root : ι} {hand live : Set ι} {edge edge' : ι → κ → Option (ι × ν)}

/-- `edge d k` is what slot `k` of node `d` names, and under which name. -/
structure Naming (root : ι) (hand live : Set ι) (edge : ι → κ → Option (ι × ν)) : Prop where
  root_live : root ∈ live
  in_hand : ∀ n ∈ hand, n ∈ live ∧ n ≠ root
  target : ∀ d ∈ live, ∀ k n v, edge d k = some (n, v) → n ∈ live ∧ n ≠ root ∧ n ∉ hand
  unique : ∀ d ∈ live, ∀ d' ∈ live, ∀ k k' n v v', edge d k = some (n, v) →
    edge d' k' = some (n, v') → d = d' ∧ k = k'
  names : ∀ d ∈ live, ∀ k k' n n' v, edge d k = some (n, v) → edge d k' = some (n', v) → k = k'
  named : ∀ n ∈ live, n ≠ root → n ∉ hand → ∃ d ∈ live, ∃ k v, edge d k = some (n, v)

namespace Naming

theorem congr (h : Naming root hand live edge) (heq : ∀ d ∈ live, edge' d = edge d) :
    Naming root hand live edge' := by
  constructor
  case root_live => exact h.root_live
  case in_hand => exact h.in_hand
  case target => exact fun d hd k n v he => h.target d hd k n v (heq d hd ▸ he)
  case unique =>
    exact fun d hd d' hd' k k' n v v' he he' =>
      h.unique d hd d' hd' k k' n v v' (heq d hd ▸ he) (heq d' hd' ▸ he')
  case names =>
    exact fun d hd k k' n n' v he he' => h.names d hd k k' n n' v (heq d hd ▸ he) (heq d hd ▸ he')
  case named =>
    intro n hn hroot hhand
    obtain ⟨d, hd, k, v, he⟩ := h.named n hn hroot hhand
    exact ⟨d, hd, k, v, heq d hd ▸ he⟩

/-- A node that names nothing comes to life. -/
theorem make {n : ι} (h : Naming root hand live edge) (hn : n ∉ live)
    (hother : ∀ d ∈ live, edge' d = edge d) (hnone : ∀ k, edge' n k = none) :
    Naming root (insert n hand) (insert n live) edge' := by
  have hold : ∀ d ∈ insert n live, ∀ k m, edge' d k = some m → d ∈ live ∧ edge d k = some m := by
    rintro d (rfl | hd) k m he
    · rw [hnone k] at he; cases he
    · exact ⟨hd, hother d hd ▸ he⟩
  have hroot : n ≠ root := fun heq => hn (heq ▸ h.root_live)
  constructor
  case root_live => exact .inr h.root_live
  case in_hand =>
    rintro m (rfl | hm)
    · exact ⟨.inl rfl, hroot⟩
    · exact ⟨.inr (h.in_hand m hm).1, (h.in_hand m hm).2⟩
  case target =>
    intro d hd k m v he
    obtain ⟨hd, he⟩ := hold d hd k _ he
    obtain ⟨hm, hmr, hmh⟩ := h.target d hd k m v he
    refine ⟨.inr hm, hmr, ?_⟩
    rintro (rfl | hmem)
    · exact hn hm
    · exact hmh hmem
  case unique =>
    intro d hd d' hd' k k' m v v' he he'
    obtain ⟨hd, he⟩ := hold d hd k _ he
    obtain ⟨hd', he'⟩ := hold d' hd' k' _ he'
    exact h.unique d hd d' hd' k k' m v v' he he'
  case names =>
    intro d hd k k' m m' v he he'
    exact h.names d (hold d hd k _ he).1 k k' m m' v (hold d hd k _ he).2 (hold d hd k' _ he').2
  case named =>
    rintro m (rfl | hm) hmr hmh
    · exact absurd (Set.mem_insert m hand) hmh
    · obtain ⟨d, hd, k, v, he⟩ := h.named m hm hmr fun hmem => hmh (.inr hmem)
      exact ⟨d, .inr hd, k, v, (hother d hd).symm ▸ he⟩

theorem drop {n : ι} (h : Naming root hand live edge) (hn : n ∈ hand)
    (hnone : ∀ k, edge n k = none) :
    Naming root (hand \ {n}) (live \ {n}) edge := by
  constructor
  case root_live => exact ⟨h.root_live, fun heq => (h.in_hand n hn).2 heq.symm⟩
  case in_hand =>
    rintro m ⟨hm, hmn⟩
    exact ⟨⟨(h.in_hand m hm).1, hmn⟩, (h.in_hand m hm).2⟩
  case target =>
    rintro d ⟨hd, -⟩ k m v he
    obtain ⟨hm, hmr, hmh⟩ := h.target d hd k m v he
    refine ⟨⟨hm, ?_⟩, hmr, fun hmem => hmh hmem.1⟩
    rintro rfl
    exact hmh hn
  case unique => exact fun d hd d' hd' => h.unique d hd.1 d' hd'.1
  case names => exact fun d hd => h.names d hd.1
  case named =>
    rintro m ⟨hm, hmn⟩ hmr hmh
    obtain ⟨d, hd, k, v, he⟩ := h.named m hm hmr fun hmem => hmh ⟨hmem, hmn⟩
    refine ⟨d, ⟨hd, ?_⟩, k, v, he⟩
    rintro rfl
    rw [hnone k] at he
    cases he

variable [DecidableEq ι] [DecidableEq κ]

/-- Slot `k` of node `d` is set. -/
def setEdge (edge : ι → κ → Option (ι × ν)) (d : ι) (k : κ) (e : Option (ι × ν)) :
    ι → κ → Option (ι × ν) :=
  Function.update edge d (Function.update (edge d) k e)

theorem setEdge_cases (edge : ι → κ → Option (ι × ν)) (d : ι) (k : κ) (e : Option (ι × ν)) (d' : ι)
    (k' : κ) : d' = d ∧ k' = k ∧ setEdge edge d k e d' k' = e ∨
      ¬ (d' = d ∧ k' = k) ∧ setEdge edge d k e d' k' = edge d' k' := by
  by_cases hd : d' = d
  · subst hd
    by_cases hk : k' = k
    · subst hk; exact .inl ⟨rfl, rfl, by simp [setEdge]⟩
    · exact .inr ⟨fun h => hk h.2, by simp [setEdge, Function.update_of_ne hk]⟩
  · exact .inr ⟨fun h => hd h.1, by simp [setEdge, Function.update_of_ne hd]⟩

/-- A node in hand is named in a free slot, by a name that the directory does not use. -/
theorem attach {n d : ι} {k : κ} {v : ν} (h : Naming root hand live edge) (hn : n ∈ hand)
    (hd : d ∈ live) (hfree : edge d k = none) (hname : ∀ k' n', edge d k' ≠ some (n', v)) :
    Naming root (hand \ {n}) live (setEdge edge d k (some (n, v))) := by
  have hcases : ∀ d' k' m v', setEdge edge d k (some (n, v)) d' k' = some (m, v') →
      (d' = d ∧ k' = k ∧ m = n ∧ v' = v) ∨ edge d' k' = some (m, v') := by
    intro d' k' m v' he
    rcases setEdge_cases edge d k (some (n, v)) d' k' with ⟨rfl, rfl, heq⟩ | ⟨-, heq⟩
    · rw [heq] at he
      cases he
      exact .inl ⟨rfl, rfl, rfl, rfl⟩
    · exact .inr (heq ▸ he)
  -- nobody else names a node in hand
  have hnot : ∀ d' ∈ live, ∀ k' v', edge d' k' ≠ some (n, v') := fun d' hd' k' v' he =>
    (h.target d' hd' k' n v' he).2.2 hn
  constructor
  case root_live => exact h.root_live
  case in_hand => exact fun m hm => h.in_hand m hm.1
  case target =>
    intro d' hd' k' m v' he
    rcases hcases d' k' m v' he with ⟨-, -, rfl, -⟩ | he
    · exact ⟨(h.in_hand m hn).1, (h.in_hand m hn).2, fun hmem => hmem.2 rfl⟩
    · obtain ⟨hm, hmr, hmh⟩ := h.target d' hd' k' m v' he
      exact ⟨hm, hmr, fun hmem => hmh hmem.1⟩
  case unique =>
    intro d₁ hd₁ d₂ hd₂ k₁ k₂ m v₁ v₂ he₁ he₂
    rcases hcases d₁ k₁ m v₁ he₁ with ⟨rfl, rfl, rfl, -⟩ | he₁' <;>
      rcases hcases d₂ k₂ m v₂ he₂ with ⟨rfl, rfl, hm, -⟩ | he₂'
    · exact ⟨rfl, rfl⟩
    · exact absurd he₂' (hnot d₂ hd₂ k₂ v₂)
    · exact absurd (hm ▸ he₁') (hnot d₁ hd₁ k₁ v₁)
    · exact h.unique d₁ hd₁ d₂ hd₂ k₁ k₂ m v₁ v₂ he₁' he₂'
  case names =>
    intro d' hd' k₁ k₂ m₁ m₂ v' he₁ he₂
    rcases hcases d' k₁ m₁ v' he₁ with ⟨rfl, rfl, -, rfl⟩ | he₁' <;>
      rcases hcases d' k₂ m₂ v' he₂ with ⟨hd₂, rfl, -, hv⟩ | he₂'
    · rfl
    · exact absurd he₂' (hname k₂ m₂)
    · rw [hd₂, hv] at he₁'
      exact absurd he₁' (hname k₁ m₁)
    · exact h.names d' hd' k₁ k₂ m₁ m₂ v' he₁' he₂'
  case named =>
    intro m hm hmr hmh
    by_cases hmn : m = n
    · subst hmn
      exact ⟨d, hd, k, v, by simp [setEdge]⟩
    · obtain ⟨d', hd', k', v', he⟩ := h.named m hm hmr fun hmem => hmh ⟨hmem, hmn⟩
      refine ⟨d', hd', k', v', ?_⟩
      rcases setEdge_cases edge d k (some (n, v)) d' k' with ⟨rfl, rfl, -⟩ | ⟨-, heq⟩
      · rw [hfree] at he; cases he
      · rw [heq, he]

/-- The name of a node is taken away. -/
theorem detach {n d : ι} {k : κ} {v : ν} (h : Naming root hand live edge) (hd : d ∈ live)
    (he : edge d k = some (n, v)) : Naming root (insert n hand) live (setEdge edge d k none) := by
  have hcases : ∀ d' k' m, setEdge edge d k none d' k' = some m →
      ¬ (d' = d ∧ k' = k) ∧ edge d' k' = some m := by
    intro d' k' m he'
    rcases setEdge_cases edge d k none d' k' with ⟨rfl, rfl, heq⟩ | ⟨hne, heq⟩
    · rw [heq] at he'; cases he'
    · exact ⟨hne, heq ▸ he'⟩
  obtain ⟨hn, hnr, -⟩ := h.target d hd k n v he
  constructor
  case root_live => exact h.root_live
  case in_hand =>
    rintro m (rfl | hm)
    · exact ⟨hn, hnr⟩
    · exact h.in_hand m hm
  case target =>
    intro d' hd' k' m v' he'
    obtain ⟨hne, he'⟩ := hcases d' k' _ he'
    obtain ⟨hm, hmr, hmh⟩ := h.target d' hd' k' m v' he'
    refine ⟨hm, hmr, ?_⟩
    rintro (rfl | hmem)
    · exact hne (h.unique d' hd' d hd k' k m v' v he' he)
    · exact hmh hmem
  case unique =>
    intro d₁ hd₁ d₂ hd₂ k₁ k₂ m v₁ v₂ he₁ he₂
    exact h.unique d₁ hd₁ d₂ hd₂ k₁ k₂ m v₁ v₂ (hcases _ _ _ he₁).2 (hcases _ _ _ he₂).2
  case names =>
    intro d' hd' k₁ k₂ m₁ m₂ v' he₁ he₂
    exact h.names d' hd' k₁ k₂ m₁ m₂ v' (hcases _ _ _ he₁).2 (hcases _ _ _ he₂).2
  case named =>
    intro m hm hmr hmh
    obtain ⟨d', hd', k', v', he'⟩ := h.named m hm hmr fun hmem => hmh (.inr hmem)
    refine ⟨d', hd', k', v', ?_⟩
    rcases setEdge_cases edge d k none d' k' with ⟨rfl, rfl, -⟩ | ⟨-, heq⟩
    · rw [he] at he'
      cases he'
      exact absurd (Set.mem_insert _ _) hmh
    · rw [heq, he']

end Naming

end Rynex.Lib
