import Mathlib
import Rynex.Lib.Ring

/-! The keyboard's ring of characters and the counter `KEY_COUNT` beside it. A press into a full
ring takes the place of the oldest character, but the counter goes up all the same. -/

namespace Rynex.Console

open Lib

def bufferSize : Nat := 256

/-- `RING_BUF`, `RING_HEAD`, `RING_TAIL` and the 64-bit `KEY_COUNT`. -/
structure Keyboard where
  buf : Nat → UInt8
  head : Nat
  tail : Nat
  keyCount : Nat

namespace Keyboard

def init : Keyboard := ⟨fun _ => 0, 0, 0, 0⟩

def next (k : Keyboard) : Nat := (k.head + 1) % bufferSize

def ringPush (k : Keyboard) (c : UInt8) : Keyboard :=
  if k.next ≠ k.tail then
    { k with buf := Function.update k.buf k.head c, head := k.next }
  else
    { k with tail := (k.tail + 1) % bufferSize, buf := Function.update k.buf k.head c,
             head := k.next }

def ringPop (k : Keyboard) : Option UInt8 × Keyboard :=
  if k.head = k.tail then (none, k)
  else (some (k.buf k.tail), { k with tail := (k.tail + 1) % bufferSize })

def pushChar (k : Keyboard) (c : UInt8) : Keyboard :=
  { k.ringPush c with keyCount := (k.keyCount + 1) % 2 ^ 64 }

def popChar (k : Keyboard) : Option UInt8 × Keyboard :=
  match k.ringPop with
  | (none, k) => (none, k)
  | (some c, k) => (some c, { k with keyCount := (k.keyCount + (2 ^ 64 - 1)) % 2 ^ 64 })

def hasPendingInput (k : Keyboard) : Bool := decide (0 < k.keyCount)

/-- A character reaches the ring, or a reader takes one. -/
inductive Event where
  | press (c : UInt8)
  | read

def step (k : Keyboard) : Event → Keyboard
  | .press c => k.pushChar c
  | .read => k.popChar.2

def chars (k : Keyboard) : List UInt8 :=
  Ring.window k.buf bufferSize k.tail ((k.head + bufferSize - k.tail) % bufferSize)

def overflows (k : Keyboard) : Event → Bool
  | .press _ => k.next == k.tail
  | .read => false

def dropped (k : Keyboard) : List Event → Nat
  | [] => 0
  | e :: es => (k.overflows e).toNat + dropped (k.step e) es

/-- Both indices lie in the ring, and the counter is the number of characters in it and of those
dropped so far. -/
structure Counts (k : Keyboard) (d : Nat) : Prop where
  head : k.head < bufferSize
  tail : k.tail < bufferSize
  count : k.keyCount = (k.chars.length + d) % 2 ^ 64

@[simp] theorem length_chars (k : Keyboard) :
    k.chars.length = (k.head + bufferSize - k.tail) % bufferSize := Ring.length_window

theorem counts_init : Counts init 0 := ⟨by decide, by decide, by simp [init, bufferSize]⟩

variable {k : Keyboard} {d : Nat}

theorem Counts.pushChar (h : Counts k d) (c : UInt8) :
    Counts (k.pushChar c) (d + (k.overflows (.press c)).toNat) := by
  obtain ⟨hhead, htail, hcount⟩ := h
  simp only [length_chars] at hcount
  unfold bufferSize at *
  by_cases hfull : k.next = k.tail
  · have hover : k.overflows (.press c) = true := by simp [overflows, hfull]
    have hpush : k.pushChar c = ⟨Function.update k.buf k.head c, k.next, (k.tail + 1) % 256,
        (k.keyCount + 1) % 2 ^ 64⟩ := by
      simp [Keyboard.pushChar, ringPush, hfull, bufferSize]
    rw [hover, hpush]
    unfold next bufferSize at *
    refine ⟨Nat.mod_lt _ (by decide), Nat.mod_lt _ (by decide), ?_⟩
    simp only [length_chars, bufferSize, Bool.toNat_true]
    -- the ring has 255 characters before and after
    omega
  · have hover : k.overflows (.press c) = false := by simp [overflows, hfull]
    have hpush : k.pushChar c = ⟨Function.update k.buf k.head c, k.next, k.tail,
        (k.keyCount + 1) % 2 ^ 64⟩ := by
      simp [Keyboard.pushChar, ringPush, hfull]
    rw [hover, hpush]
    unfold next bufferSize at *
    refine ⟨Nat.mod_lt _ (by decide), htail, ?_⟩
    simp only [length_chars, bufferSize, Bool.toNat_false]
    omega

theorem popChar_of_empty (h : k.chars = []) (hk : Counts k d) : k.popChar = (none, k) := by
  have hlen : k.chars.length = 0 := by rw [h]; rfl
  have heq : k.head = k.tail := by
    have hhead := hk.head
    have htail := hk.tail
    simp only [length_chars] at hlen
    unfold bufferSize at *
    omega
  simp [popChar, ringPop, heq]

theorem popChar_of_cons {c : UInt8} {cs : List UInt8} (h : k.chars = c :: cs)
    (hk : Counts k d) :
    k.popChar.1 = some c ∧ k.popChar.2.chars = cs ∧ Counts k.popChar.2 d := by
  obtain ⟨hhead, htail, hcount⟩ := hk
  have hlen : (k.head + bufferSize - k.tail) % bufferSize = cs.length + 1 := by
    rw [← length_chars, h, List.length_cons]
  have hne : k.head ≠ k.tail := by
    intro heq
    rw [heq, Nat.add_sub_cancel_left, Nat.mod_self] at hlen
    omega
  have hpop : k.popChar = (some (k.buf k.tail), { k with
      tail := (k.tail + 1) % bufferSize
      keyCount := (k.keyCount + (2 ^ 64 - 1)) % 2 ^ 64 }) := by
    simp [popChar, ringPop, hne]
  have hrest : (k.head + bufferSize - (k.tail + 1) % bufferSize) % bufferSize = cs.length := by
    unfold bufferSize at *
    omega
  unfold chars at h
  rw [hlen, Ring.window_succ, Nat.mod_eq_of_lt htail] at h
  obtain ⟨hc, hcs⟩ := List.cons.inj h
  rw [hpop]
  refine ⟨congrArg some hc, ?_, hhead, Nat.mod_lt _ (by decide), ?_⟩
  · simpa only [chars, hrest, Ring.window_mod_start] using hcs
  · rw [length_chars, hlen] at hcount
    simp only [length_chars, hrest]
    omega

theorem Counts.popChar (h : Counts k d) : Counts k.popChar.2 d := by
  cases hc : k.chars with
  | nil => rw [popChar_of_empty hc h]; exact h
  | cons c cs => exact (popChar_of_cons hc h).2.2

theorem Counts.step (h : Counts k d) (e : Event) :
    Counts (k.step e) (d + (k.overflows e).toNat) := by
  cases e with
  | press c => exact h.pushChar c
  | read => exact h.popChar

theorem Counts.run (es : List Event) (h : Counts k d) :
    Counts (es.foldl Keyboard.step k) (d + dropped k es) := by
  induction es generalizing k d with
  | nil => exact h
  | cons e es ih =>
    have hrest := ih (h.step e)
    rwa [Nat.add_assoc] at hrest

/-- Reads drop nothing, and `n` of them leave what follows the first `n` characters. -/
theorem Counts.drain (n : Nat) (h : Counts k d) :
    Counts ((List.replicate n Event.read).foldl Keyboard.step k) d ∧
      ((List.replicate n Event.read).foldl Keyboard.step k).chars = k.chars.drop n := by
  induction n generalizing k with
  | zero => exact ⟨h, rfl⟩
  | succ n ih =>
    obtain ⟨hcounts, hchars⟩ := ih h.popChar
    refine ⟨hcounts, hchars.trans ?_⟩
    cases hc : k.chars with
    | nil => rw [popChar_of_empty hc h, hc, List.drop_nil, List.drop_nil]
    | cons c cs => rw [(popChar_of_cons hc h).2.1, List.drop_succ_cons]

theorem popChar_isSome (h : Counts k d) : k.popChar.1.isSome = !k.chars.isEmpty := by
  cases hc : k.chars with
  | nil => rw [popChar_of_empty hc h]; rfl
  | cons c cs => rw [(popChar_of_cons hc h).1]; rfl

theorem Counts.exact_iff (h : Counts k d) : k.keyCount = k.chars.length ↔ 2 ^ 64 ∣ d := by
  have hlt : k.chars.length < 256 := by
    rw [length_chars]
    exact Nat.mod_lt _ (by decide)
  rw [h.count]
  omega

/-- After any run the counter is right exactly if the number of dropped characters is a multiple
of `2 ^ 64`, and exactly then `has_pending_input` tells, now and after any further reads, whether
`pop_char` gives a character. -/
theorem key_count_exact_iff (es : List Event) :
    let k := es.foldl step init
    (k.keyCount = k.chars.length ↔ 2 ^ 64 ∣ dropped init es) ∧
      ((∀ n, let late := (List.replicate n Event.read).foldl step k
        late.hasPendingInput = late.popChar.1.isSome) ↔ 2 ^ 64 ∣ dropped init es) := by
  intro k
  have hk : Counts k (dropped init es) := by
    simpa using counts_init.run es
  refine ⟨hk.exact_iff, ⟨fun hall => ?_, fun hdvd n => ?_⟩⟩
  · -- once every character has been read the counter is what was dropped
    obtain ⟨hempty, hchars⟩ := hk.drain k.chars.length
    have hpend := hall k.chars.length
    have hcount := hempty.count
    rw [List.drop_length] at hchars
    simp only [popChar_isSome hempty, hchars, hasPendingInput] at hpend
    rw [hchars, List.length_nil, Nat.zero_add] at hcount
    have hzero : ¬0 < dropped init es % 2 ^ 64 := by
      rw [← hcount]
      simpa using hpend
    omega
  · obtain ⟨hlate, -⟩ := hk.drain n
    simp only [popChar_isSome hlate, hasPendingInput, hlate.exact_iff.mpr hdvd]
    cases ((List.replicate n Event.read).foldl step k).chars with
    | nil => rfl
    | cons c cs => simp only [List.length_cons, Nat.zero_lt_succ, decide_true, List.isEmpty_cons,
        Bool.not_false]

/-- 256 presses and 255 reads: the ring is empty and the counter says one. -/
theorem overflow_leaves_pending :
    let k := (List.replicate 255 Event.read).foldl step
      ((List.replicate 256 (Event.press 97)).foldl step init)
    k.hasPendingInput = true ∧ k.popChar.1 = none ∧ k.keyCount = 1 ∧ k.chars = [] := by
  decide +kernel

end Keyboard

end Rynex.Console
