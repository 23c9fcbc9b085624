import Mathlib

/-! Output to the terminal. `write_output` collects an escape sequence in a buffer of its own and
hands it to the console whole; the console parses it again. The buffer is local to the call, so a
sequence that a call leaves unfinished is lost. -/

namespace Rynex.Console

/-! ### The text console -/

def vgaWidth : Nat := 80

def vgaHeight : Nat := 25

/-- The character and the attribute of each cell, the cursor and the two colours. -/
structure Vga where
  cells : Nat → UInt8 × UInt8
  col : Nat
  row : Nat
  fg : UInt8
  bg : UInt8

namespace Vga

def colorAttr (v : Vga) : UInt8 := (v.bg <<< 4) ||| v.fg

/-- Every row moves up by one and the last one is blank. -/
def scroll (v : Vga) : Vga :=
  { v with
    cells := fun i =>
      if i < (vgaHeight - 1) * vgaWidth then v.cells (i + vgaWidth)
      else if i < vgaHeight * vgaWidth then (32, 0x0F) else v.cells i }

def newline (v : Vga) : Vga :=
  if vgaHeight ≤ v.row + 1 then { v.scroll with col := 0, row := vgaHeight - 1 }
  else { v with col := 0, row := v.row + 1 }

def put (v : Vga) (c : UInt8) : Vga :=
  let drawn := { v with
    cells := Function.update v.cells (v.row * vgaWidth + v.col) (c, v.colorAttr)
    col := v.col + 1 }
  if vgaWidth ≤ drawn.col then drawn.newline else drawn

def writeChar (v : Vga) (c : Char) : Vga :=
  v.put (if c.toNat < 0x80 then UInt8.ofNat c.toNat else 63)

def blankFrom (v : Vga) (start : Nat) : Vga :=
  { v with
    cells := fun i =>
      if start ≤ i ∧ i < vgaHeight * vgaWidth then (32, v.colorAttr) else v.cells i }

def backspace (v : Vga) : Vga :=
  if 0 < v.col then
    { v with
      col := v.col - 1
      cells := Function.update v.cells (v.row * vgaWidth + (v.col - 1)) (32, v.colorAttr) }
  else v

def resetColor (v : Vga) : Vga := { v with fg := 7, bg := 0 }

/-- One parameter of a colour sequence; its value is taken modulo `2 ^ 16`. -/
def sgr (v : Vga) (p : List UInt8) : Vga :=
  let num := p.foldl (fun num b =>
    if 48 ≤ b.toNat ∧ b.toNat ≤ 57 then (num * 10 + (b.toNat - 48)) % 2 ^ 16 else num) 0
  if p = [] then v
  else if num = 0 then v.resetColor
  else if num = 1 then { v with fg := v.fg ||| 8 }
  else if num = 7 then { v with fg := v.bg, bg := v.fg }
  else if 30 ≤ num ∧ num ≤ 37 then { v with fg := UInt8.ofNat (num - 30) }
  else if num = 39 then { v with fg := 7 }
  else if 40 ≤ num ∧ num ≤ 47 then { v with bg := UInt8.ofNat (num - 40) }
  else if num = 49 then { v with bg := 0 }
  else if 90 ≤ num ∧ num ≤ 97 then { v with fg := UInt8.ofNat (num - 90) ||| 8 }
  else if 100 ≤ num ∧ num ≤ 107 then { v with bg := UInt8.ofNat (num - 100) ||| 8 }
  else v

def parseSgr (v : Vga) (params : List UInt8) : Vga :=
  if params = [] then v.resetColor else (params.splitOn 59).foldl sgr v

def isFinal (n : Nat) : Bool := decide (0x40 ≤ n ∧ n ≤ 0x7E)

/-- The parameters, the final byte and what follows a sequence, after its `[`. A sequence that ends
early counts as a colour sequence. -/
def readCsi (params : List UInt8) : List Char → List UInt8 × Nat × List Char
  | [] => (params, 109, [])
  | c :: cs =>
    if isFinal c.toNat then (params, c.toNat, cs)
    else if params.length < 64 ∧ c.toNat < 0x80 then
      readCsi (params ++ [UInt8.ofNat c.toNat]) cs
    else readCsi params cs

def csi (v : Vga) (params : List UInt8) (final : Nat) : Vga :=
  if final = 109 then v.parseSgr params
  else if final = 74 then
    if params = [] ∨ params = [48] then v.blankFrom (v.row * vgaWidth + v.col)
    else if params = [50] then v.blankFrom 0
    else v
  else if final = 72 then { v with col := 0, row := 0 }
  else v

def plain (v : Vga) (c : Char) : Vga :=
  if c = '\n' then v.newline
  else if c = '\r' then { v with col := 0 }
  else if c = '\x08' then v.backspace
  else if c = '\t' then (List.replicate (4 - v.col % 4) ' ').foldl writeChar v
  else v.writeChar c

/-- The loop of `write_str`, which takes at least one character in each of its `fuel` turns. -/
def writeLoop : Nat → Vga → List Char → Vga
  | fuel + 1, v, c :: cs =>
    if c = '\x1b' ∧ cs.head? = some '[' then
      let seq := readCsi [] (cs.drop 1)
      writeLoop fuel (v.csi seq.1 seq.2.1) seq.2.2
    else writeLoop fuel (v.plain c) cs
  | _, v, _ => v

def writeStr (v : Vga) (s : List Char) : Vga := writeLoop s.length v s

end Vga

/-! ### The terminal -/

/-- A console: what it makes of a string and of a character. -/
structure Screen (σ : Type) where
  writeStr : σ → List Char → σ
  writeChar : σ → Char → σ

def vgaScreen : Screen Vga := ⟨Vga.writeStr, Vga.writeChar⟩

namespace Screen

variable {σ : Type} (screen : Screen σ)

def putCharRaw (s : σ) (c : UInt8) : σ :=
  if c = 10 then screen.writeStr s ['\n']
  else if c = 13 then screen.writeStr s ['\r']
  else if c = 9 then screen.writeStr s [' ', ' ', ' ', ' ']
  else if c = 8 ∨ c = 0x7F then screen.writeStr s ['\x08', ' ', '\x08']
  else if 0x20 ≤ c.toNat ∧ c.toNat ≤ 0x7E then screen.writeChar s (Char.ofNat c.toNat)
  else s

def fromUtf8 (bytes : List UInt8) : Option (List Char) :=
  (String.fromUTF8? ⟨bytes.toArray⟩).map String.toList

def escBufSize : Nat := 64

/-- With `c` at its end the sequence is handed to the console. -/
def completes (esc : List UInt8) (c : UInt8) : Bool :=
  (decide (3 ≤ esc.length) && Vga.isFinal c.toNat) || decide (escBufSize ≤ esc.length)

/-- The bytes of an unfinished sequence after one more byte. -/
def escStep (esc : List UInt8) (c : UInt8) : List UInt8 :=
  if esc ≠ [] then (if completes (esc ++ [c]) c then [] else esc ++ [c])
  else if c = 0x1B then [c] else []

def show1 (s : σ) (esc : List UInt8) (c : UInt8) : σ :=
  if esc ≠ [] then
    if completes (esc ++ [c]) c then
      match fromUtf8 (esc ++ [c]) with
      | some text => screen.writeStr s text
      | none => s
    else s
  else if c = 0x1B then s
  else screen.putCharRaw s c

def writeStep (st : σ × List UInt8) (c : UInt8) : σ × List UInt8 :=
  (screen.show1 st.1 st.2 c, escStep st.2 c)

def writeOutput (s : σ) (data : List UInt8) : σ := (data.foldl screen.writeStep (s, [])).1

/-- The unfinished sequence that a call with `data` leaves behind. -/
def pending (data : List UInt8) : List UInt8 := data.foldl escStep []

/-! ### One call and two -/

variable {screen}

theorem foldl_writeStep_snd (data : List UInt8) (s : σ) (esc : List UInt8) :
    (data.foldl screen.writeStep (s, esc)).2 = data.foldl escStep esc := by
  induction data generalizing s esc with
  | nil => rfl
  | cons c data ih => exact ih _ _

theorem writeOutput_append (s : σ) (a b : List UInt8) :
    screen.writeOutput s (a ++ b) =
      (b.foldl screen.writeStep (screen.writeOutput s a, pending a)).1 := by
  rw [writeOutput, List.foldl_append, pending, ← foldl_writeStep_snd a s []]
  rfl

theorem writeOutput_split {a : List UInt8} (h : pending a = []) (s : σ) (b : List UInt8) :
    screen.writeOutput s (a ++ b) = screen.writeOutput (screen.writeOutput s a) b := by
  rw [writeOutput_append, h]
  rfl

/-- The buffer of the sequence does not fill up before it is handed over. -/
theorem length_escStep (esc : List UInt8) (c : UInt8) : (escStep esc c).length < escBufSize := by
  unfold escStep
  split_ifs with hesc hdone
  · decide
  · simp only [completes, Bool.or_eq_true, decide_eq_true_eq, not_or] at hdone
    omega
  · exact (by decide : (1 : Nat) < escBufSize)
  · decide

theorem length_pending (a : List UInt8) : (pending a).length < escBufSize := by
  have hnil : ([] : List UInt8).length < escBufSize := by decide
  refine List.foldlRecOn a escStep (motive := fun esc => esc.length < escBufSize) hnil ?_
  intro esc _ c _
  exact length_escStep esc c

end Screen

/-! ### On the text console the loss shows -/

open Screen

theorem put_cursor (v : Vga) (c : UInt8) : (v.put c).col ≠ v.col := by
  unfold Vga.put
  simp only
  split_ifs with hwrap
  · unfold Vga.newline
    unfold vgaWidth at hwrap
    split_ifs
    · simp only; omega
    · simp only; omega
  · simp only; omega

theorem put_not_home (v : Vga) (c : UInt8) : (v.put c).col ≠ 0 ∨ (v.put c).row ≠ 0 := by
  unfold Vga.put
  simp only
  split_ifs with hwrap
  · right
    unfold Vga.newline
    split_ifs
    · exact (by decide : vgaHeight - 1 ≠ 0)
    · exact Nat.succ_ne_zero _
  · exact .inl (Nat.succ_ne_zero _)

theorem writeOutput_home (v : Vga) :
    vgaScreen.writeOutput v [0x1B, 91, 72] = { v with col := 0, row := 0 } := by
  have htext : fromUtf8 [0x1B, 91, 72] = some ['\x1b', '[', 'H'] := rfl
  have hdone : completes [0x1B, 91, 72] 72 = true := rfl
  have hopen : completes [0x1B, 91] 91 = false := rfl
  simp only [writeOutput, List.foldl_cons, List.foldl_nil, writeStep, show1, escStep, ne_eq,
    not_true_eq_false, if_false, if_true, List.cons_ne_nil, not_false_eq_true, List.cons_append,
    List.nil_append, hopen, hdone, Bool.false_eq_true, htext]
  rfl

/-- A digit belongs to an unfinished sequence with room left, and is drawn otherwise. -/
theorem digit_shows_loss {a : List UInt8} (hne : pending a ≠ [])
    (hroom : (pending a).length + 1 < escBufSize) (v : Vga) :
    vgaScreen.writeOutput v (a ++ [48]) ≠ vgaScreen.writeOutput (vgaScreen.writeOutput v a)
      [48] := by
  have hopen : completes (pending a ++ [48]) 48 = false := by
    simp only [completes, List.length_append, List.length_singleton]
    rw [show Vga.isFinal (48 : UInt8).toNat = false from rfl, Bool.and_false, Bool.false_or]
    exact decide_eq_false (by omega)
  have hjoined : vgaScreen.writeOutput v (a ++ [48]) = vgaScreen.writeOutput v a := by
    rw [writeOutput_append]
    simp only [List.foldl_cons, List.foldl_nil, writeStep, show1, if_pos hne, hopen]
    rfl
  intro heq
  rw [hjoined] at heq
  exact put_cursor (vgaScreen.writeOutput v a) 48 (congrArg Vga.col heq).symm

/-- Of a full sequence the escape byte of a new one becomes the last byte: what was to move the
cursor home is drawn. -/
theorem home_shows_loss {a : List UInt8} (hlast : (pending a).length + 1 = escBufSize) (v : Vga) :
    vgaScreen.writeOutput v (a ++ [0x1B, 91, 72]) ≠
      vgaScreen.writeOutput (vgaScreen.writeOutput v a) [0x1B, 91, 72] := by
  have hne : pending a ≠ [] := by
    intro hnil
    rw [hnil] at hlast
    cases hlast
  have hdone : completes (pending a ++ [0x1B]) 0x1B = true := by
    simp only [completes, List.length_append, List.length_singleton, hlast, le_refl, decide_true,
      Bool.or_true]
  have hjoined : ∃ w : Vga, vgaScreen.writeOutput v (a ++ [0x1B, 91, 72]) = w.put 72 := by
    rw [writeOutput_append]
    refine ⟨(vgaScreen.putCharRaw (vgaScreen.show1 (vgaScreen.writeOutput v a) (pending a) 0x1B)
      91),
      ?_⟩
    simp only [List.foldl_cons, List.foldl_nil, writeStep, escStep, if_pos hne, hdone, if_true]
    rfl
  obtain ⟨w, hw⟩ := hjoined
  rw [hw, writeOutput_home]
  intro heq
  rcases put_not_home w 72 with hcol | hrow
  · exact hcol (congrArg Vga.col heq)
  · exact hrow (congrArg Vga.row heq)

/-- On the text console, from whatever it shows, output may be cut behind `a` before every `b`
exactly if `a` leaves no escape sequence unfinished. Then it may be so on every console. -/
theorem tty_write_split_iff (a : List UInt8) :
    (∀ v : Vga, (∀ b, vgaScreen.writeOutput v (a ++ b) =
        vgaScreen.writeOutput (vgaScreen.writeOutput v a) b) ↔ pending a = []) ∧
      ∀ (σ : Type) (screen : Screen σ) (s : σ) (b : List UInt8), pending a = [] →
        screen.writeOutput s (a ++ b) = screen.writeOutput (screen.writeOutput s a) b := by
  refine ⟨fun v => ⟨fun hall => ?_, fun hnil b => writeOutput_split hnil v b⟩,
    fun σ screen s b hnil => writeOutput_split hnil s b⟩
  by_contra hne
  have hlength := length_pending a
  by_cases hroom : (pending a).length + 1 < escBufSize
  · exact digit_shows_loss hne hroom v (hall _)
  · exact home_shows_loss (by omega) v (hall _)

/-- The sequence that clears the screen, cut behind its first two bytes, is drawn in part. -/
theorem split_clear_is_drawn :
    let v : Vga := ⟨fun _ => (32, 0x0F), 0, 0, 7, 0⟩
    (vgaScreen.writeOutput v [0x1B, 91, 50, 74]).col = 0 ∧
      (vgaScreen.writeOutput (vgaScreen.writeOutput v [0x1B, 91]) [50, 74]).col = 2 ∧
      (vgaScreen.writeOutput (vgaScreen.writeOutput v [0x1B, 91]) [50, 74]).cells 0 = (50, 7) :=
  ⟨rfl, rfl, rfl⟩

end Rynex.Console
