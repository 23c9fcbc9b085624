import Mathlib

/-! The texts of procfs: each read renders the whole text into the caller's buffer, as far as it
fits, and then moves the part from the offset on to the front. -/

namespace Rynex.Fs.ProcFs

/-- What the texts show. `comm` is `pid_comm`, with its default for a pid without a task. -/
structure ProcState where
  ticks : Nat
  totalPages : Nat
  freePages : Nat
  comm : Nat → List UInt8

def ascii (s : String) : List UInt8 := s.toList.map fun c => UInt8.ofNat c.toNat

def procUptime : Nat := 2
def procMeminfo : Nat := 3
def procVersion : Nat := 4
def pidStatIno : Nat := 0x200000
def pidCmdlineIno : Nat := 0x300000

/-- `if n < buf.len() { buf[n] = c; n += 1; }`, in a buffer of `cap` bytes. -/
def put (cap : Nat) (out : List UInt8) (c : UInt8) : List UInt8 :=
  if out.length < cap then out ++ [c] else out

def puts (cap : Nat) (out s : List UInt8) : List UInt8 := s.foldl (put cap) out

/-- The slice copies: as much of `s` as there is room for. -/
def copy (cap : Nat) (out s : List UInt8) : List UInt8 := out ++ s.take (cap - out.length)

/-- The digits of a 64-bit number, lowest first; none for 0. -/
def digits : Nat → Nat → List UInt8
  | 0, _ => []
  | k + 1, v => if v = 0 then [] else UInt8.ofNat (48 + v % 10) :: digits k (v / 10)

def decimal (v : Nat) : List UInt8 := (digits 20 v).reverse

variable (st : ProcState) (cap : Nat)

def uptimeText : List UInt8 :=
  let secs := st.ticks / 100
  let frac := st.ticks % 100
  let out := if secs = 0 then put cap [] 48 else puts cap [] (decimal secs)
  let out := put cap out 46
  let out := put cap out (UInt8.ofNat (48 + frac / 10))
  let out := put cap out (UInt8.ofNat (48 + frac % 10))
  copy cap out (ascii " secs\n")

/-- `put_line` of `meminfo_text`. -/
def putLine (out : List UInt8) (tag : String) (v : Nat) : List UInt8 :=
  let out := puts cap out (ascii tag)
  let out := puts cap out (List.replicate (min (16 - tag.length) 8) 32)
  let out := puts cap out (if v = 0 then [48] else decimal v)
  puts cap out (ascii " kB\n")

def meminfoText : List UInt8 :=
  let out := putLine cap [] "MemTotal:" (st.totalPages * 4)
  let out := putLine cap out "MemFree:" (st.freePages * 4)
  putLine cap out "MemAvailable:" (st.freePages * 4)

def versionText : List UInt8 := copy cap [] (ascii "Rynex 0.0.1-alpha\n")

def statRest : List UInt8 := ascii
  ") S 1 1 1 0 -1 4202496 0 0 0 0 0 0 0 0 20 0 1 0 1 0 0 0 0 0 0 0 0 0 0 0 0 0 0 0 0 0 0 0 0 0 0 0 0 0 0 0 0\n"

/-- The name ends at its first zero byte. -/
def name (pid : Nat) : List UInt8 := (st.comm pid).takeWhile (· ≠ 0)

def statText (pid : Nat) : List UInt8 :=
  let out := puts cap [] (decimal pid)
  let out := puts cap out (ascii " (")
  let out := puts cap out (name st pid)
  puts cap out statRest

def cmdlineText (pid : Nat) : List UInt8 := put cap (puts cap [] (name st pid)) 0

/-- What `read` renders for an inode, unless it has no text. -/
def text (ino : Nat) : Option (List UInt8) :=
  if ino = procUptime then some (uptimeText st cap)
  else if ino = procMeminfo then some (meminfoText st cap)
  else if ino = procVersion then some (versionText cap)
  else if pidCmdlineIno ≤ ino then some (cmdlineText st cap (ino - pidCmdlineIno))
  else if pidStatIno ≤ ino then some (statText st cap (ino - pidStatIno))
  else none

/-- `read`: the bytes that it returns, or `not found`. -/
def read (ino offset : Nat) : Option (List UInt8) :=
  (text st cap ino).map fun content =>
    if content.length ≤ offset then []
    else (content.drop offset).take (min content.length (offset + cap) - offset)

/-- Sequential reads from `offset` on with buffers of these sizes, until one returns nothing: all
that they returned. There is no result if the buffers run out before. -/
def drain (ino : Nat) : Nat → List Nat → Option (List UInt8)
  | _, [] => none
  | offset, cap :: caps =>
    match read st cap ino offset with
    | none => none
    | some [] => some []
    | some piece => (drain ino (offset + piece.length) caps).map (piece ++ ·)

/-! ### What fits is the begin of the text -/

variable {st cap}

/-- A buffer that holds as much of `t` as it can. -/
def Holds (cap : Nat) (out t : List UInt8) : Prop := out = t.take cap

theorem Holds.put {out t : List UInt8} (h : Holds cap out t) (c : UInt8) :
    Holds cap (put cap out c) (t ++ [c]) := by
  unfold Holds at h ⊢
  subst h
  unfold ProcFs.put
  rcases Nat.lt_or_ge t.length cap with hlt | hge
  · rw [List.take_of_length_le hlt.le, if_pos hlt, List.take_of_length_le (by simp; omega)]
  · rw [if_neg (by simp; omega), List.take_append_of_le_length hge]

theorem Holds.puts {out t : List UInt8} (h : Holds cap out t) (s : List UInt8) :
    Holds cap (puts cap out s) (t ++ s) := by
  induction s generalizing out t with
  | nil => simpa [ProcFs.puts] using h
  | cons c s ih => simpa [ProcFs.puts] using ih (h.put c)

theorem Holds.copy {out t : List UInt8} (h : Holds cap out t) (s : List UInt8) :
    Holds cap (copy cap out s) (t ++ s) := by
  unfold Holds at h ⊢
  subst h
  rw [ProcFs.copy, List.take_append, List.length_take]
  congr 2
  omega

theorem holds_nil : Holds cap [] [] := by simp [Holds]

theorem Holds.putLine {out t : List UInt8} (h : Holds cap out t) (tag : String) (v : Nat) :
    Holds cap (putLine cap out tag v) (t ++ ascii tag ++ List.replicate (min (16 - tag.length) 8)
      32 ++
      (if v = 0 then [48] else decimal v) ++ ascii " kB\n") :=
  (((h.puts _).puts _).puts _).puts _

/-- A buffer gets as much as it holds of one text, whatever its size. -/
theorem exists_text (st : ProcState) (ino : Nat) :
    (∀ cap, text st cap ino = none) ∨
      ∃ t : List UInt8, ∀ cap, text st cap ino = some (t.take cap) := by
  unfold text
  split_ifs
  · have hsecs (cap : Nat) : Holds cap (if st.ticks / 100 = 0 then put cap [] 48
        else puts cap [] (decimal (st.ticks / 100)))
        (if st.ticks / 100 = 0 then [48] else decimal (st.ticks / 100)) := by
      split_ifs
      · exact holds_nil.put 48
      · exact holds_nil.puts _
    exact .inr ⟨_, fun cap => congrArg some (((((hsecs cap).put _).put _).put _).copy _)⟩
  · exact .inr ⟨_, fun cap => congrArg some (((holds_nil.putLine _ _).putLine _ _).putLine _ _)⟩
  · exact .inr ⟨_, fun cap => congrArg some (holds_nil.copy _)⟩
  · exact .inr ⟨_, fun cap => congrArg some ((holds_nil.puts _).put 0)⟩
  · exact .inr ⟨_, fun cap => congrArg some ((((holds_nil.puts _).puts _).puts _).puts _)⟩
  · exact .inl fun _ => rfl

/-- A read returns what lies behind the offset in the part of the text that its buffer holds. -/
theorem read_eq {st : ProcState} {ino : Nat} {t : List UInt8}
    (ht : ∀ cap, text st cap ino = some (t.take cap)) (cap offset : Nat) :
    read st cap ino offset = some ((t.take cap).drop offset) := by
  rw [read, ht, Option.map_some]
  congr 1
  split_ifs with hoff
  · rw [List.drop_eq_nil_of_le hoff]
  · refine List.take_of_length_le ?_
    simp only [List.length_drop, List.length_take]
    omega

/-- Each buffer is larger than the offset, until the whole text of `len` bytes is read. -/
def Climbs (len : Nat) : Nat → List Nat → Prop
  | _, [] => False
  | offset, cap :: caps => len ≤ offset ∨ offset < cap ∧ Climbs len (min len cap) caps

theorem drain_eq_iff {st : ProcState} {ino : Nat} {t : List UInt8}
    (ht : ∀ cap, text st cap ino = some (t.take cap)) (caps : List Nat) (offset : Nat) :
    drain st ino offset caps = some (t.drop offset) ↔ Climbs t.length offset caps := by
  induction caps generalizing offset with
  | nil => simp [drain, Climbs]
  | cons cap caps ih =>
    rw [drain, read_eq ht, Climbs]
    rcases Nat.lt_or_ge offset (min t.length cap) with hlt | hge
    · -- A piece comes, and the rest of the text is behind it.
      have hlen : ((t.take cap).drop offset).length = min t.length cap - offset := by
        simp only [List.length_drop, List.length_take]
        omega
      have hnext : offset + ((t.take cap).drop offset).length = min t.length cap := by omega
      have hsplit : t.drop offset = (t.take cap).drop offset ++ t.drop (min t.length cap) := by
        have hcap : t.drop (min t.length cap) = t.drop cap := by
          rcases Nat.le_total t.length cap with hle | hle
          · rw [min_eq_left hle, List.drop_eq_nil_of_le hle, List.drop_eq_nil_of_le le_rfl]
          · rw [min_eq_right hle]
        rw [hcap, ← List.drop_append_of_le_length (by rw [List.length_take]; omega),
          List.take_append_drop]
      obtain ⟨c, piece, hpiece⟩ : ∃ c piece, (t.take cap).drop offset = c :: piece :=
        List.exists_cons_of_ne_nil fun h0 => by rw [h0, List.length_nil] at hlen; omega
      rw [hsplit]
      rw [hpiece] at hnext ⊢
      simp only [hnext]
      have hclimb : (t.length ≤ offset ∨ offset < cap ∧ Climbs t.length (min t.length cap) caps) ↔
          Climbs t.length (min t.length cap) caps := by
        refine ⟨?_, fun h => .inr ⟨by omega, h⟩⟩
        rintro (hle | ⟨-, h⟩)
        · omega
        · exact h
      rw [hclimb, ← ih, Option.map_eq_some_iff]
      constructor
      · rintro ⟨rest, hrest, heq⟩
        rw [hrest, List.append_cancel_left heq]
      · intro h
        exact ⟨_, h, rfl⟩
    · have hnil : (t.take cap).drop offset = [] := List.drop_eq_nil_of_le (by
        rw [List.length_take]; omega)
      have hdone : (some [] = some (t.drop offset)) ↔ t.length ≤ offset := by
        rw [Option.some_inj, eq_comm, List.drop_eq_nil_iff]
      simp only [hnil, hdone]
      constructor
      · exact .inl
      · rintro (h | ⟨h, -⟩) <;> omega

end Rynex.Fs.ProcFs

namespace Rynex.Fs

open ProcFs

/-- Reading a procfs file piece by piece gives the text that one read with a large buffer returns,
exactly if each buffer is larger than the part that was read before. -/
theorem procfs_reads_whole_iff (st : ProcState) (ino : Nat) (t : List UInt8)
    (ht : ∃ n, ∀ cap ≥ n, ProcFs.read st cap ino 0 = some t) (caps : List Nat) :
    drain st ino 0 caps = some t ↔ Climbs t.length 0 caps := by
  obtain ⟨n, hn⟩ := ht
  rcases exists_text st ino with hnone | ⟨u, hu⟩
  · have := hn n le_rfl
    rw [ProcFs.read, hnone] at this
    cases this
  · have hlarge := hn (max n u.length) (le_max_left _ _)
    rw [read_eq hu, List.take_of_length_le (le_max_right _ _), List.drop_zero] at hlarge
    cases hlarge
    exact drain_eq_iff hu caps 0

def quiet : ProcState := ⟨0, 0, 0, fun _ => ascii "unknown         "⟩

theorem procfs_reads_whole_version :
    drain quiet procVersion 0 [5, 30, 1] = some (ascii "Rynex 0.0.1-alpha\n") := by
  refine (procfs_reads_whole_iff quiet procVersion (ascii "Rynex 0.0.1-alpha\n")
    ⟨18, fun cap hcap => ?_⟩
    _).mpr ?_
  · have hcopy : versionText cap = ascii "Rynex 0.0.1-alpha\n" :=
      List.take_of_length_le (l := ascii "Rynex 0.0.1-alpha\n") hcap
    have htext : text quiet cap procVersion = some (ascii "Rynex 0.0.1-alpha\n") :=
      congrArg some hcopy
    rw [ProcFs.read, htext, Option.map_some, if_neg (by decide), List.drop_zero]
    refine congrArg some (List.take_of_length_le ?_)
    rw [Nat.sub_zero, Nat.zero_add]
    exact le_min le_rfl hcap
  · exact .inr ⟨by decide, .inr ⟨by decide, .inl (by decide)⟩⟩

/-- Two buffers of ten bytes: the second read returns nothing, and eight bytes are missing. -/
theorem procfs_second_read_empty :
    drain quiet procVersion 0 [10, 10] = some (ascii "Rynex 0.0.") := by
  decide

end Rynex.Fs
