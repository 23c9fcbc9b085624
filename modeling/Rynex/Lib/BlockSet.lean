import Rynex.Lib.Block

/-! Sets of disjoint aligned blocks of orders up to a greatest one. A set is canonical when no two
buddies below the greatest order are both in it, and then it is determined by the points that it
covers: it is the decomposition of those points into blocks that are as large as they can be. -/

namespace Rynex.Lib.Block

variable {w a a' o o' x y : Nat}

theorem covers_iff_div (ha : size w o ∣ a) : Covers w a o x ↔ x / size w o = a / size w o := by
  have hpos := size_pos w o
  obtain ⟨k, rfl⟩ := ha
  rw [Nat.mul_div_cancel_left k hpos, Nat.div_eq_iff hpos, Covers, Nat.mul_comm]
  omega

theorem Covers.nested (ha : size w o ∣ a) (ha' : size w o' ∣ a') (hle : o ≤ o')
    (h : Covers w a o x) (h' : Covers w a' o' x) (hy : Covers w a o y) : Covers w a' o' y := by
  rw [covers_iff_div ha] at h hy
  rw [covers_iff_div ha'] at h' ⊢
  obtain ⟨k, hk⟩ : size w o ∣ size w o' := size_dvd_size hle
  calc y / size w o' = y / size w o / k := by rw [hk, Nat.div_div_eq_div_mul]
    _ = x / size w o / k := by rw [hy, h]
    _ = x / size w o' := by rw [hk, Nat.div_div_eq_div_mul]
    _ = a' / size w o' := h'

theorem Covers.buddy (ha : size w o ∣ a) (ha' : size w o' ∣ a') (hlt : o < o')
    (h : Covers w a' o' a) : Covers w a' o' (a ^^^ size w o) := by
  obtain ⟨hdvd, hjoin⟩ := join_buddy ha
  exact Covers.nested hdvd ha' hlt ((hjoin a).mpr (.inl (covers_self _ _ _))) h
    ((hjoin _).mpr (.inr (covers_self _ _ _)))

/-- The blocks `L o a`, of order `o` at `a`, are aligned, disjoint and of orders up to `top`, and
no two buddies of an order below `top` are both there. -/
structure Canonical (w top : Nat) (L : Nat → Nat → Prop) : Prop where
  order_le : ∀ {o a}, L o a → o ≤ top
  aligned : ∀ {o a}, L o a → size w o ∣ a
  exclusive : ∀ {o a o' a' x}, L o a → L o' a' → Covers w a o x → Covers w a' o' x →
    o = o' ∧ a = a'
  merged : ∀ {o a}, o < top → L o a → ¬ L o (a ^^^ size w o)

/-- A block of the set covers `x`. -/
def Covered (w : Nat) (L : Nat → Nat → Prop) (x : Nat) : Prop := ∃ o a, L o a ∧ Covers w a o x

variable {top : Nat} {L L' : Nat → Nat → Prop}

theorem Canonical.not_covers (h : Canonical w top L) (ha' : size w o' ∣ a') (htop : o' ≤ top)
    (hfull : ∀ x, Covers w a' o' x → Covered w L x) (hlt : o < o') (hL : L o a) :
    ¬ Covers w a' o' a := by
  -- the buddy of `a` is covered as well: by a smaller block, by itself or by a larger block
  induction o using Nat.strong_induction_on generalizing a with
  | _ o ih =>
    intro hcov
    have ha := h.aligned hL
    obtain ⟨p, b, hb, hpb⟩ := hfull _ (Covers.buddy ha ha' hlt hcov)
    rcases Nat.lt_trichotomy p o with hp | rfl | hp
    · exact ih p hp (by omega) hb (Covers.nested (h.aligned hb) ha' (by omega) hpb
        (Covers.buddy ha ha' hlt hcov) (covers_self _ _ _))
    · have hself := covers_unique (h.aligned hb) (size_dvd_buddy ha) hpb (covers_self _ _ _)
      exact h.merged (by omega) hL (hself ▸ hb)
    · have hback : Covers w b p a := by
        have := Covers.buddy (size_dvd_buddy ha) (h.aligned hb) hp hpb
        rwa [Nat.xor_assoc, Nat.xor_self, Nat.xor_zero] at this
      have := (h.exclusive hb hL hback (covers_self _ _ _)).1
      omega

theorem Canonical.subset (h : Canonical w top L) (h' : Canonical w top L')
    (hsame : ∀ x, Covered w L x ↔ Covered w L' x) (hL : L o a) : L' o a := by
  have hself := covers_self w a o
  obtain ⟨p, b, hb, hcov⟩ := (hsame a).mp ⟨o, a, hL, hself⟩
  rcases Nat.lt_trichotomy p o with hp | rfl | hp
  · have hin : Covers w a o b := Covers.nested (h'.aligned hb) (h.aligned hL) (by omega) hcov hself
      (covers_self _ _ _)
    exact absurd hin (h'.not_covers (h.aligned hL) (h.order_le hL)
      (fun x hx => (hsame x).mp ⟨o, a, hL, hx⟩) hp hb)
  · rwa [covers_unique (h.aligned hL) (h'.aligned hb) hself hcov]
  · exact absurd hcov (h.not_covers (h'.aligned hb) (h'.order_le hb)
      (fun x hx => (hsame x).mpr ⟨p, b, hb, hx⟩) hp hL)

theorem Canonical.unique (h : Canonical w top L) (h' : Canonical w top L')
    (hsame : ∀ x, Covered w L x ↔ Covered w L' x) (o a : Nat) : L o a ↔ L' o a :=
  ⟨h.subset h' hsame, h'.subset h fun x => (hsame x).symm⟩

end Rynex.Lib.Block
