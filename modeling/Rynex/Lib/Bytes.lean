import Mathlib

/-! Memory as bytes at 64-bit addresses, which wrap around. A word of `n` bytes has its lowest byte
at its own address. -/

namespace Rynex.Lib

abbrev Addr := BitVec 64

abbrev Bytes := Addr → BitVec 8

namespace Bytes

variable {m m' : Bytes} {p q base a : Addr} {n k i j : Nat}

/-- The address is among the `n` from `p` on. -/
def Within (p : Addr) (n : Nat) (a : Addr) : Prop := (a - p).toNat < n

instance (p : Addr) (n : Nat) (a : Addr) : Decidable (Within p n a) :=
  inferInstanceAs (Decidable (_ < _))

def read (m : Bytes) (p : Addr) (n : Nat) : BitVec (8 * n) :=
  BitVec.ofFnLE fun i => (m (p + BitVec.ofNat 64 (i / 8))).getLsbD (i % 8)

def write (m : Bytes) (p : Addr) (n : Nat) (v : BitVec (8 * n)) : Bytes := fun a =>
  if Within p n a then v.extractLsb' (8 * (a - p).toNat) 8 else m a

theorem write_of_not_within {v : BitVec (8 * n)} (h : ¬ Within p n a) : m.write p n v a = m a :=
  if_neg h

theorem within_add_ofNat (h : i < n) : Within p n (p + BitVec.ofNat 64 i) := by
  have : (p + BitVec.ofNat 64 i - p).toNat = i % 2 ^ 64 := by
    rw [add_sub_cancel_left, BitVec.toNat_ofNat]
  rw [Within, this]
  exact (Nat.mod_le _ _).trans_lt h

theorem read_congr (h : ∀ a, Within p n a → m a = m' a) : m.read p n = m'.read p n := by
  unfold read
  congr 1
  funext i
  rw [h _ (within_add_ofNat (by omega))]

theorem read_write_self (v : BitVec (8 * n)) (hn : n ≤ 2 ^ 64) : (m.write p n v).read p n = v := by
  refine BitVec.eq_of_getLsbD_eq fun i hi => ?_
  have hbyte : i / 8 < n := by omega
  have hdist : (p + BitVec.ofNat 64 (i / 8) - p).toNat = i / 8 := by
    rw [add_sub_cancel_left, BitVec.toNat_ofNat, Nat.mod_eq_of_lt (by omega)]
  have hbit : i % 8 < 8 := Nat.mod_lt _ (by decide)
  simp only [read, BitVec.getLsbD_ofFnLE, hi, dif_pos, write, within_add_ofNat hbyte, if_pos,
    hdist, BitVec.getLsbD_extractLsb', hbit, decide_true, Bool.true_and, Nat.div_add_mod]

/-- Two ranges have no address in common. -/
def Apart (p : Addr) (n : Nat) (q : Addr) (k : Nat) : Prop := ∀ a, Within p n a → ¬ Within q k a

theorem apart_of_le (h : n ≤ (q - p).toNat) (h' : k ≤ (p - q).toNat) : Apart p n q k := by
  intro a ha hq
  simp only [Within, BitVec.toNat_sub] at ha hq h h'
  omega

theorem read_write_apart {v : BitVec (8 * k)} (h : Apart p n q k) :
    (m.write q k v).read p n = m.read p n :=
  read_congr fun _ ha => write_of_not_within (h _ ha)

/-! ### Records of words at fixed offsets from a base -/

theorem within_offset (h : i + n ≤ 2 ^ 64) :
    Within (base + BitVec.ofNat 64 i) n a ↔ i ≤ (a - base).toNat ∧ (a - base).toNat < i + n := by
  simp only [Within, BitVec.toNat_sub, BitVec.toNat_add, BitVec.toNat_ofNat]
  omega

theorem apart_offsets (hi : i + n ≤ 2 ^ 64) (hj : j + k ≤ 2 ^ 64) (h : i + n ≤ j ∨ j + k ≤ i) :
    Apart (base + BitVec.ofNat 64 i) n (base + BitVec.ofNat 64 j) k := by
  intro a ha hq
  have hleft := (within_offset hi).mp ha
  have hright := (within_offset hj).mp hq
  omega

/-- A word of a record. -/
structure Field where
  off : Nat
  size : Nat
  word : BitVec (8 * size)

/-- The words of a record, written one after another. -/
def store (m : Bytes) (base : Addr) (fs : List Field) : Bytes :=
  fs.foldl (fun m f => m.write (base + BitVec.ofNat 64 f.off) f.size f.word) m

theorem store_of_not_within {fs : List Field} (hn : n ≤ 2 ^ 64)
    (hfs : ∀ f ∈ fs, f.off + f.size ≤ n) (h : ¬ Within base n a) : m.store base fs a = m a := by
  induction fs generalizing m with
  | nil => rfl
  | cons f fs ih =>
    have hf := hfs f List.mem_cons_self
    have hnot : ¬ Within (base + BitVec.ofNat 64 f.off) f.size a := fun hw =>
      h (((within_offset (hf.trans hn)).mp hw).2.trans_le hf)
    exact (ih fun g hg => hfs g (List.mem_cons_of_mem _ hg)).trans (write_of_not_within hnot)

/-- The words of a record do not overlap. -/
def Field.Disjoint (f g : Field) : Prop := f.off + f.size ≤ g.off ∨ g.off + g.size ≤ f.off

theorem read_store_apart {fs : List Field} (hi : i + k ≤ 2 ^ 64)
    (hfs : ∀ f ∈ fs, f.off + f.size ≤ 2 ^ 64 ∧ (i + k ≤ f.off ∨ f.off + f.size ≤ i)) :
    (m.store base fs).read (base + BitVec.ofNat 64 i) k =
      m.read (base + BitVec.ofNat 64 i) k := by
  induction fs generalizing m with
  | nil => rfl
  | cons f fs ih =>
    obtain ⟨hend, hdis⟩ := hfs f List.mem_cons_self
    exact (ih fun g hg => hfs g (List.mem_cons_of_mem _ hg)).trans
      (read_write_apart (apart_offsets hi hend hdis))

theorem read_store {fs : List Field} {f : Field} (hend : ∀ f ∈ fs, f.off + f.size ≤ 2 ^ 64)
    (hdis : fs.Pairwise Field.Disjoint) (hf : f ∈ fs) :
    (m.store base fs).read (base + BitVec.ofNat 64 f.off) f.size = f.word := by
  induction fs generalizing m with
  | nil => exact absurd hf List.not_mem_nil
  | cons g fs ih =>
    obtain ⟨hg, hfs⟩ := List.pairwise_cons.mp hdis
    have hend' : ∀ f ∈ fs, f.off + f.size ≤ 2 ^ 64 := fun f hf => hend f (List.mem_cons_of_mem _ hf)
    rcases List.mem_cons.mp hf with rfl | hf
    · have hself := hend f List.mem_cons_self
      refine (read_store_apart hself fun g hmem => ⟨hend' g hmem, hg g hmem⟩).trans ?_
      exact read_write_self _ (by omega)
    · exact ih hend' hfs hf

end Bytes

end Rynex.Lib
