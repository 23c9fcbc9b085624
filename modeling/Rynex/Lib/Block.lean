import Mathlib

/-! Blocks of power-of-two size at aligned addresses: a block of order `o` over units of `2 ^ w`
bytes, the points it covers, and the buddy arithmetic that joins two halves into the block of the
next order. -/

namespace Rynex.Lib.Block

variable {w a b o x : Nat}

/-- The size of a block of order `o` over units of `2 ^ w`. -/
def size (w o : Nat) : Nat := 2 ^ (w + o)

theorem size_pos (w o : Nat) : 0 < size w o := Nat.two_pow_pos _

theorem size_succ (w o : Nat) : size w (o + 1) = size w o + size w o := by
  simp only [size, ← Nat.add_assoc, Nat.pow_succ]; omega

theorem size_dvd_size {o o' : Nat} (h : o ≤ o') : size w o ∣ size w o' :=
  Nat.pow_dvd_pow 2 (by omega)

theorem size_le_size {o o' : Nat} (h : o ≤ o') : size w o ≤ size w o' :=
  Nat.le_of_dvd (size_pos w o') (size_dvd_size h)

/-- The block of order `o` at `a` covers `x`. -/
def Covers (w a o x : Nat) : Prop := a ≤ x ∧ x < a + size w o

instance : Decidable (Covers w a o x) := inferInstanceAs (Decidable (_ ∧ _))

theorem covers_self (w a o : Nat) : Covers w a o a := by
  have := size_pos w o
  exact ⟨Nat.le_refl a, by omega⟩

theorem covers_succ : Covers w a (o + 1) x ↔ Covers w a o x ∨ Covers w (a + size w o) o x := by
  simp only [Covers, size_succ]; omega

theorem covers_unique {a' : Nat} (ha : size w o ∣ a) (ha' : size w o ∣ a')
    (h : Covers w a o x) (h' : Covers w a' o x) : a = a' := by
  obtain ⟨k, rfl⟩ := ha
  obtain ⟨k', rfl⟩ := ha'
  simp only [Covers] at h h'
  have hle : k ≤ k' := Nat.lt_succ_iff.mp (Nat.lt_of_mul_lt_mul_left
    (show size w o * k < size w o * (k' + 1) by
      rw [Nat.mul_add_one]; omega))
  have hge : k' ≤ k := Nat.lt_succ_iff.mp (Nat.lt_of_mul_lt_mul_left
    (show size w o * k' < size w o * (k + 1) by
      rw [Nat.mul_add_one]; omega))
  rw [Nat.le_antisymm hle hge]

theorem covers_unit {p : Nat} (ha : size w o ∣ a) (hp : size w 0 ∣ p) (h : Covers w a o x)
    (hx : Covers w p 0 x) : Covers w a o p := by
  obtain ⟨k, rfl⟩ := Nat.dvd_trans (size_dvd_size (Nat.zero_le o)) ha
  obtain ⟨j, rfl⟩ := hp
  refine ⟨Nat.mul_le_mul_left _ (Nat.lt_succ_iff.mp ?_), hx.1.trans_lt h.2⟩
  refine Nat.lt_of_mul_lt_mul_left (h.1.trans_lt (hx.2.trans_le ?_))
  rw [Nat.mul_succ]

theorem buddy_cases (h : size w o ∣ a) :
    (size w (o + 1) ∣ a ∧ a ^^^ size w o = a + size w o) ∨
    (∃ c, a = c + size w o ∧ size w (o + 1) ∣ c ∧ a ^^^ size w o = c) := by
  obtain ⟨n, rfl⟩ := h
  have hxor : (size w o * n) ^^^ size w o = size w o * (n ^^^ 1) := by
    have := Nat.shiftLeft_xor_distrib (a := n) (b := 1) (i := w + o)
    simpa [Nat.shiftLeft_eq, size, Nat.mul_comm] using this.symm
  rw [hxor, size_succ, ← Nat.two_mul, Nat.mul_comm 2]
  rcases Nat.even_or_odd n with heven | hodd
  · left
    refine ⟨Nat.mul_dvd_mul_left _ heven.two_dvd, ?_⟩
    rw [Nat.xor_one_of_even heven, Nat.mul_add_one]
  · right
    obtain ⟨k, rfl⟩ := hodd
    refine ⟨size w o * (2 * k), by rw [Nat.mul_add_one], ⟨k, by rw [Nat.mul_assoc]⟩, ?_⟩
    rw [Nat.xor_one_of_odd ⟨k, rfl⟩, Nat.add_sub_cancel]

theorem join_buddy (h : size w o ∣ a) :
    size w (o + 1) ∣ min a (a ^^^ size w o) ∧
    ∀ x, Covers w (min a (a ^^^ size w o)) (o + 1) x ↔
      Covers w a o x ∨ Covers w (a ^^^ size w o) o x := by
  have hpos := size_pos w o
  rcases buddy_cases h with ⟨hdvd, hx⟩ | ⟨c, rfl, hdvd, hx⟩
  · rw [hx, Nat.min_eq_left (by omega)]
    exact ⟨hdvd, fun x => covers_succ⟩
  · rw [hx, Nat.min_eq_right (by omega)]
    exact ⟨hdvd, fun x => by rw [covers_succ, or_comm]⟩

theorem size_dvd_buddy (h : size w o ∣ a) : size w o ∣ a ^^^ size w o := by
  rcases buddy_cases h with ⟨_, hx⟩ | ⟨c, rfl, hdvd, hx⟩
  · rw [hx]; exact Nat.dvd_add h (Nat.dvd_refl _)
  · rw [hx]; exact Nat.dvd_trans (size_dvd_size (Nat.le_succ o)) hdvd

theorem buddy_of_dvd (h : size w (o + 1) ∣ a) : a ^^^ size w o = a + size w o := by
  rcases buddy_cases (Nat.dvd_trans (size_dvd_size (Nat.le_succ o)) h) with ⟨_, hx⟩ |
    ⟨c, rfl, hc, _⟩
  · exact hx
  · have hle := Nat.le_of_dvd (size_pos w o) ((Nat.dvd_add_right hc).mp h)
    have := size_pos w o
    rw [size_succ] at hle
    omega

theorem size_dvd_half {o' : Nat} (h : size w o' ∣ a) (hlt : o < o') : size w o ∣ a + size w o :=
  Nat.dvd_add (Nat.dvd_trans (size_dvd_size (Nat.le_of_lt hlt)) h) (Nat.dvd_refl _)

end Rynex.Lib.Block
