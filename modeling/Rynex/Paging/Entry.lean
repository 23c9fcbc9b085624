import Mathlib

/-! Page-table entries as the 64-bit words of `paging.rs`: the flag bits, the address field, and
what clearing the write bit or putting another address under the same flags does to them. -/

namespace Rynex.Paging

def ptePresent : Nat := 1 <<< 0
def pteWritable : Nat := 1 <<< 1
def pteUser : Nat := 1 <<< 2
def pteHuge : Nat := 1 <<< 7

def pteAddrMask : Nat := 0x000FFFFFFFFFF000

/-- `!mask` on a `u64`. -/
def complement (mask : Nat) : Nat := (2 ^ 64 - 1) ^^^ mask

namespace Pte

def present (e : Nat) : Bool := e &&& ptePresent != 0
def writable (e : Nat) : Bool := e &&& pteWritable != 0
def user (e : Nat) : Bool := e &&& pteUser != 0
def huge (e : Nat) : Bool := e &&& pteHuge != 0

/-- `e & PTE_ADDR_MASK`. -/
def addr (e : Nat) : Nat := e &&& pteAddrMask

/-- `e & !PTE_ADDR_MASK`. -/
def flags (e : Nat) : Nat := e &&& complement pteAddrMask

/-- `e & !PTE_WRITABLE`. -/
def readOnly (e : Nat) : Nat := e &&& complement pteWritable

/-! ### Bits -/

theorem and_bit (e k : Nat) : (e &&& 1 <<< k != 0) = e.testBit k := by
  rw [Nat.one_shiftLeft, Nat.and_two_pow]
  cases e.testBit k <;> simp

theorem present_eq (e : Nat) : present e = e.testBit 0 := and_bit e 0
theorem writable_eq (e : Nat) : writable e = e.testBit 1 := and_bit e 1
theorem user_eq (e : Nat) : user e = e.testBit 2 := and_bit e 2
theorem huge_eq (e : Nat) : huge e = e.testBit 7 := and_bit e 7

theorem testBit_addrMask (i : Nat) :
    pteAddrMask.testBit i = (decide (12 ≤ i) && decide (i < 52)) := by
  have hmask : pteAddrMask = (2 ^ 40 - 1) <<< 12 := by decide
  rw [hmask, Nat.testBit_shiftLeft, Nat.testBit_two_pow_sub_one]
  by_cases h : 12 ≤ i
  · simp [h]; omega
  · simp [h]

theorem testBit_complement (mask i : Nat) :
    (complement mask).testBit i = (decide (i < 64) ^^ mask.testBit i) := by
  rw [complement, Nat.testBit_xor, Nat.testBit_two_pow_sub_one]

theorem testBit_addr (e i : Nat) :
    (addr e).testBit i = (e.testBit i && (decide (12 ≤ i) && decide (i < 52))) := by
  rw [addr, Nat.testBit_and, testBit_addrMask]

theorem testBit_flags (e i : Nat) :
    (flags e).testBit i =
      (e.testBit i && (decide (i < 64) ^^ (decide (12 ≤ i) && decide (i < 52)))) := by
  rw [flags, Nat.testBit_and, testBit_complement, testBit_addrMask]

theorem testBit_readOnly (e i : Nat) :
    (readOnly e).testBit i = (e.testBit i && (decide (i < 64) ^^ decide (i = 1))) := by
  rw [readOnly, Nat.testBit_and, testBit_complement]
  congr 2
  rw [pteWritable, Nat.one_shiftLeft, Nat.testBit_two_pow]
  simp [eq_comm]

/-! ### Clearing the write bit -/

@[simp] theorem present_readOnly (e : Nat) : present (readOnly e) = present e := by
  rw [present_eq, present_eq, testBit_readOnly]; simp

@[simp] theorem user_readOnly (e : Nat) : user (readOnly e) = user e := by
  simp [user_eq, testBit_readOnly]

@[simp] theorem huge_readOnly (e : Nat) : huge (readOnly e) = huge e := by
  simp [huge_eq, testBit_readOnly]

@[simp] theorem writable_readOnly (e : Nat) : writable (readOnly e) = false := by
  simp [writable_eq, testBit_readOnly]

@[simp] theorem readOnly_readOnly (e : Nat) : readOnly (readOnly e) = readOnly e := by
  refine Nat.eq_of_testBit_eq fun i => ?_
  rw [testBit_readOnly, testBit_readOnly, Bool.and_assoc, Bool.and_self]

@[simp] theorem addr_readOnly (e : Nat) : addr (readOnly e) = addr e := by
  refine Nat.eq_of_testBit_eq fun i => ?_
  rw [testBit_addr, testBit_addr, testBit_readOnly]
  by_cases h : 12 ≤ i ∧ i < 52
  · simp [h, show i < 64 by omega, show i ≠ 1 by omega]
  · rcases not_and_or.mp h with h | h <;> simp [h]

/-! ### Page addresses -/

theorem addr_addr (e : Nat) : addr (addr e) = addr e := by
  refine Nat.eq_of_testBit_eq fun i => ?_
  rw [testBit_addr, testBit_addr]
  cases e.testBit i <;> simp

theorem addr_lt (e : Nat) : addr e < 2 ^ 52 :=
  Nat.lt_of_le_of_lt Nat.and_le_right (by decide)

theorem page_dvd_addr (e : Nat) : 4096 ∣ addr e := by
  refine Nat.dvd_of_mod_eq_zero (Nat.eq_of_testBit_eq fun i => ?_)
  rw [show (4096 : Nat) = 2 ^ 12 by rfl, Nat.testBit_mod_two_pow, testBit_addr, Nat.zero_testBit]
  by_cases h : i < 12
  · simp [show ¬ 12 ≤ i by omega]
  · simp [h]

theorem addr_of_dvd {p : Nat} (hp : 4096 ∣ p) (hlt : p < 2 ^ 52) : addr p = p := by
  obtain ⟨k, rfl⟩ := hp
  refine Nat.eq_of_testBit_eq fun i => ?_
  rw [testBit_addr]
  by_cases hlow : 12 ≤ i
  · by_cases hhigh : i < 52
    · simp [hlow, hhigh]
    · rw [Nat.testBit_lt_two_pow (hlt.trans_le (Nat.pow_le_pow_right (by decide) (by omega)))]
      simp
  · rw [show 4096 * k = 2 ^ 12 * k by rfl, Nat.testBit_two_pow_mul]
    simp [hlow]

section Relink

variable {p : Nat} (hp : addr p = p) (e : Nat)

include hp

theorem testBit_page {i : Nat} (h : ¬ (12 ≤ i ∧ i < 52)) : p.testBit i = false := by
  rw [← hp, testBit_addr]
  rcases not_and_or.mp h with h | h <;> simp [h]

@[simp] theorem addr_or_flags : addr (p ||| flags e) = p := by
  conv_rhs => rw [← hp]
  refine Nat.eq_of_testBit_eq fun i => ?_
  rw [testBit_addr, testBit_addr, Nat.testBit_or, testBit_flags]
  by_cases h : 12 ≤ i ∧ i < 52
  · simp [h, show i < 64 by omega]
  · rcases not_and_or.mp h with h | h <;> simp [h]

theorem testBit_or_flags {i : Nat} (hi : i < 64) (h : ¬ (12 ≤ i ∧ i < 52)) :
    (p ||| flags e).testBit i = e.testBit i := by
  rw [Nat.testBit_or, testBit_page hp h, testBit_flags]
  rcases not_and_or.mp h with h | h <;> simp [h, hi]

@[simp] theorem present_or_flags : present (p ||| flags e) = present e := by
  rw [present_eq, present_eq, testBit_or_flags hp e (by decide) (by decide)]

@[simp] theorem writable_or_flags : writable (p ||| flags e) = writable e := by
  rw [writable_eq, writable_eq, testBit_or_flags hp e (by decide) (by decide)]

@[simp] theorem user_or_flags : user (p ||| flags e) = user e := by
  rw [user_eq, user_eq, testBit_or_flags hp e (by decide) (by decide)]

@[simp] theorem huge_or_flags : huge (p ||| flags e) = huge e := by
  rw [huge_eq, huge_eq, testBit_or_flags hp e (by decide) (by decide)]

end Relink

/-! ### Setting the write bit -/

theorem testBit_or_writable (e i : Nat) :
    (e ||| pteWritable).testBit i = (e.testBit i || decide (i = 1)) := by
  rw [Nat.testBit_or, pteWritable, Nat.one_shiftLeft, Nat.testBit_two_pow]
  simp [eq_comm]

@[simp] theorem addr_or_writable (e : Nat) : addr (e ||| pteWritable) = addr e := by
  refine Nat.eq_of_testBit_eq fun i => ?_
  rw [testBit_addr, testBit_addr, testBit_or_writable]
  by_cases h : i = 1
  · simp [h]
  · simp [h]

@[simp] theorem present_or_writable (e : Nat) : present (e ||| pteWritable) = present e := by
  rw [present_eq, present_eq, testBit_or_writable]; simp

@[simp] theorem user_or_writable (e : Nat) : user (e ||| pteWritable) = user e := by
  rw [user_eq, user_eq, testBit_or_writable]; simp

@[simp] theorem huge_or_writable (e : Nat) : huge (e ||| pteWritable) = huge e := by
  rw [huge_eq, huge_eq, testBit_or_writable]; simp

@[simp] theorem writable_or_writable (e : Nat) : writable (e ||| pteWritable) = true := by
  rw [writable_eq, testBit_or_writable]; simp

end Pte

end Rynex.Paging
