import Rynex.Lib.Queue

/-! The kernel log: a line is built from pieces, committed to a ring of 128 entries and printed by
`dump`. The abstract log keeps every committed line; `dump` prints the last of them. -/

namespace Rynex.Klog

open Rynex.Lib

def logMsgMax : Nat := 160

def logRingCap : Nat := 128

def levelNames : List String :=
  ["EMERG", "ALERT", "CRIT", "ERR", "WARNING", "NOTICE", "INFO", "DEBUG"]

def facNames : List String :=
  ["KERN", "SCHED", "MEM", "VFS", "TTY", "SYSCALL", "EXEC", "MM", "PAGING", "GDT", "IDT", "ELF",
    "IPC", "FORK"]

/-- An entry with the `len` bytes of its message that are in use. -/
structure LogEntry where
  level : UInt8
  facility : UInt8
  tick : UInt64
  msg : List UInt8

/-- The ring, and the line under construction with the `LINE_LEN` bytes of it in use. -/
structure State where
  ring : Nat → LogEntry
  ringHead : Nat
  ringLen : Nat
  lineActive : Bool
  lineLevel : UInt8
  lineFac : UInt8
  line : List UInt8

def boot : State := ⟨fun _ => ⟨0, 0, 0, []⟩, 0, 0, false, 0, 0, []⟩

/-! ### Pieces -/

def keeps (b : UInt8) : Bool := b != 10 && b != 13

def appendByte (line : List UInt8) (b : UInt8) : List UInt8 :=
  if keeps b then (if line.length < logMsgMax then line ++ [b] else line) else line

def appendBytes (line data : List UInt8) : List UInt8 := data.foldl appendByte line

/-- The loop over the decimal digits, from the last place of a buffer of `fuel` bytes. -/
def decLoop : Nat → Nat → List UInt8 → List UInt8
  | 0, _, buf => buf
  | fuel + 1, v, buf =>
    if 0 < v then decLoop fuel (v / 10) (UInt8.ofNat (v % 10 + 48) :: buf) else buf

/-- The bytes that `append_dec` and the serial port's `write_dec` produce. -/
def decBytes (v : UInt64) : List UInt8 :=
  if v.toNat = 0 then [48] else decLoop 20 v.toNat []

def hexDigits : List UInt8 := [48, 49, 50, 51, 52, 53, 54, 55, 56, 57, 65, 66, 67, 68, 69, 70]

def hexBytes (v : UInt64) : List UInt8 :=
  (List.range 16).map fun i => hexDigits.getD ((v.toNat >>> ((15 - i) * 4)) &&& 0xF) 0

/-! ### The calls -/

inductive Event where
  | begin (level facility : UInt8)
  | s (text : List UInt8)
  | dec (v : UInt64)
  | hex (v : UInt64)
  | finish (nowTick : UInt64)

namespace State

/-- A piece is appended to a line under construction, and to nothing else. -/
def append (k : State) (data : List UInt8) : State :=
  if k.lineActive then { k with line := appendBytes k.line data } else k

/-- The commit of `end()`. -/
def commit (k : State) (nowTick : UInt64) : State :=
  { k with
    lineActive := false
    ring := Function.update k.ring k.ringHead ⟨k.lineLevel, k.lineFac, nowTick, k.line⟩
    ringHead := (k.ringHead + 1) % logRingCap
    ringLen := if k.ringLen < logRingCap then k.ringLen + 1 else k.ringLen }

def step (k : State) : Event → State
  | .begin level facility =>
    { k with lineActive := true, lineLevel := level, lineFac := facility, line := [] }
  | .s text => k.append text
  | .dec v => k.append (decBytes v)
  | .hex v => k.append (hexBytes v)
  | .finish nowTick => if k.lineActive then k.commit nowTick else k

end State

def ascii (s : String) : List UInt8 := s.toList.map fun c => UInt8.ofNat c.toNat

def nameOf (names : List String) (n : UInt8) : List UInt8 :=
  ascii (names.getD (min n.toNat (names.length - 1)) "")

def printEntry (e : LogEntry) : List UInt8 :=
  ascii "[" ++ decBytes e.tick ++ ascii "][" ++ nameOf facNames e.facility ++ ascii "][" ++
    nameOf levelNames e.level ++ ascii "] " ++ e.msg ++ ascii "\n"

def printAll (entries : List LogEntry) : List UInt8 :=
  ascii "==== klog ring buffer (" ++ decBytes (UInt64.ofNat entries.length) ++
    ascii " entries) ====\n" ++ entries.flatMap printEntry ++ ascii "==== end of klog ring ====\n"

/-- The entries that `dump` walks, from `start` on. -/
def State.entries (k : State) : List LogEntry :=
  let start := (k.ringHead + logRingCap - k.ringLen) % logRingCap
  (List.range k.ringLen).map fun i => k.ring ((start + i) % logRingCap)

def State.dump (k : State) : List UInt8 := printAll k.entries

/-! ### The log as a list of lines -/

/-- The decimal digits of a number, the first one first. -/
def decimal (v : Nat) : List UInt8 :=
  if v = 0 then [48] else (Nat.digits 10 v).reverse.map fun d => UInt8.ofNat (d + 48)

def hexadecimal (v : Nat) : List UInt8 :=
  (List.range 16).map fun i => hexDigits.getD (v / 16 ^ (15 - i) % 16) 0

def text : Event → List UInt8
  | .s t => t
  | .dec v => decimal v.toNat
  | .hex v => hexadecimal v.toNat
  | _ => []

/-- All committed lines, and the line under construction as it was begun, with its whole text. -/
structure Journal where
  lines : List LogEntry
  pending : Option LogEntry

/-- A text without line ends, cut to the room that an entry has. -/
def cut (t : List UInt8) : List UInt8 := (t.filter keeps).take logMsgMax

def Journal.step (j : Journal) (e : Event) : Journal :=
  match e, j.pending with
  | .begin level facility, _ => { j with pending := some ⟨level, facility, 0, []⟩ }
  | .finish nowTick, some l => ⟨j.lines ++ [⟨l.level, l.facility, nowTick, cut l.msg⟩], none⟩
  | e, some l => { j with pending := some { l with msg := l.msg ++ text e } }
  | _, none => j

/-! ### The pieces -/

theorem appendByte_cut (t : List UInt8) (b : UInt8) : appendByte (cut t) b = cut (t ++ [b]) := by
  unfold appendByte cut
  rw [List.filter_append]
  by_cases hb : keeps b = true
  · rw [if_pos hb, List.filter_cons_of_pos hb, List.filter_nil, List.length_take]
    by_cases hroom : (t.filter keeps).length < logMsgMax
    · rw [if_pos (by omega), List.take_of_length_le hroom.le, List.take_of_length_le]
      simp only [List.length_append, List.length_singleton]
      omega
    · rw [if_neg (by omega), List.take_append_of_le_length (by omega)]
  · rw [if_neg hb, List.filter_cons_of_neg hb, List.filter_nil, List.append_nil]

theorem appendBytes_cut (t data : List UInt8) : appendBytes (cut t) data = cut (t ++ data) := by
  induction data generalizing t with
  | nil => rw [List.append_nil]; rfl
  | cons b data ih =>
    have hrest := ih (t ++ [b])
    rw [List.append_assoc, List.singleton_append] at hrest
    rw [← hrest, ← appendByte_cut]
    rfl

theorem decLoop_eq {fuel v : Nat} (hv : v < 10 ^ fuel) (buf : List UInt8) :
    decLoop fuel v buf =
      (Nat.digits 10 v).reverse.map (fun d => UInt8.ofNat (d + 48)) ++ buf := by
  induction fuel generalizing v buf with
  | zero =>
    obtain rfl : v = 0 := by simpa using hv
    rfl
  | succ fuel ih =>
    rw [decLoop]
    split_ifs with hpos
    · have hdiv : v / 10 < 10 ^ fuel := by
        rw [Nat.div_lt_iff_lt_mul (by decide)]
        exact hv
      rw [ih hdiv, Nat.digits_def' (by decide) hpos, List.reverse_cons, List.map_append,
        List.append_assoc]
      rfl
    · obtain rfl : v = 0 := by omega
      rfl

theorem decBytes_eq (v : UInt64) : decBytes v = decimal v.toNat := by
  have hv : v.toNat < 10 ^ 20 := v.toNat_lt.trans (by decide)
  rw [decBytes, decimal, decLoop_eq hv, List.append_nil]

theorem hexBytes_eq (v : UInt64) : hexBytes v = hexadecimal v.toNat := by
  refine List.map_congr_left fun i _ => ?_
  have hnibble : (v.toNat >>> ((15 - i) * 4)) &&& 0xF = v.toNat / 16 ^ (15 - i) % 16 := by
    rw [show 0xF = 2 ^ 4 - 1 from rfl, Nat.and_two_pow_sub_one_eq_mod, Nat.shiftRight_eq_div_pow,
      Nat.mul_comm, Nat.pow_mul]
  rw [hnibble]

/-! ### The ring -/

variable {k : State} {j : Journal}

def Builds (k : State) : Option LogEntry → Prop
  | none => k.lineActive = false
  | some l => k.lineActive = true ∧ k.lineLevel = l.level ∧ k.lineFac = l.facility ∧
      k.line = cut l.msg

/-- The ring holds the last lines of the journal. -/
structure Follows (k : State) (j : Journal) : Prop where
  head : k.ringHead < logRingCap
  len : k.ringLen = min j.lines.length logRingCap
  entries : k.entries = j.lines.drop (j.lines.length - logRingCap)
  builds : Builds k j.pending

theorem entries_eq (k : State) :
    k.entries = Ring.window k.ring logRingCap (k.ringHead + logRingCap - k.ringLen) k.ringLen :=
  Ring.window_mod_start

theorem commit_entries (hhead : k.ringHead < logRingCap) (hlen : k.ringLen ≤ logRingCap)
    (t : UInt64) :
    (k.commit t).entries = k.entries.drop (k.ringLen + 1 - logRingCap) ++
      [⟨k.lineLevel, k.lineFac, t, k.line⟩] := by
  rw [entries_eq, entries_eq]
  simp only [State.commit]
  by_cases hroom : k.ringLen < logRingCap
  · have hslot : (k.ringHead + logRingCap - k.ringLen + k.ringLen) % logRingCap = k.ringHead := by
      unfold logRingCap at *
      omega
    have hstart : ((k.ringHead + 1) % logRingCap + logRingCap - (k.ringLen + 1)) % logRingCap =
        (k.ringHead + logRingCap - k.ringLen) % logRingCap := by
      unfold logRingCap at *
      omega
    rw [if_pos hroom, Ring.window_congr hstart, Ring.window_push_at _ hroom hslot,
      Nat.sub_eq_zero_of_le (Nat.succ_le_of_lt hroom), List.drop_zero]
  · -- the oldest entry gives way
    have hfull : k.ringLen = logRingCap := by omega
    have hstart : ((k.ringHead + 1) % logRingCap + logRingCap - logRingCap) % logRingCap =
        (k.ringHead + 1) % logRingCap := by
      rw [Nat.add_sub_cancel, Nat.mod_mod]
    rw [if_neg hroom, hfull, Ring.window_congr hstart,
      Ring.window_overwrite _ (by decide) (Nat.mod_eq_of_lt hhead), Nat.add_sub_cancel,
      Nat.add_sub_cancel_left, List.drop_one]

theorem drop_last_append {α : Type*} (l : List α) (x : α) (cap : Nat) (hcap : 0 < cap) :
    (l ++ [x]).drop ((l ++ [x]).length - cap) =
      (l.drop (l.length - cap)).drop (min l.length cap + 1 - cap) ++ [x] := by
  rw [List.drop_drop, List.length_append, List.length_singleton,
    List.drop_append_of_le_length (by omega)]
  congr 2
  omega

theorem Follows.commit {l : LogEntry} (h : Follows k j) (hp : j.pending = some l) (t : UInt64) :
    Follows (k.commit t) ⟨j.lines ++ [⟨l.level, l.facility, t, cut l.msg⟩], none⟩ := by
  obtain ⟨hhead, hlen, hentries, hbuilds⟩ := h
  rw [hp] at hbuilds
  obtain ⟨-, hlevel, hfac, hline⟩ := hbuilds
  refine ⟨Nat.mod_lt _ (by decide), ?_, ?_, rfl⟩
  · simp only [State.commit, hlen, List.length_append, List.length_singleton]
    split_ifs <;> omega
  · rw [commit_entries hhead (by omega), hentries, hlevel, hfac, hline, hlen,
      drop_last_append _ _ _ (by decide)]

theorem Follows.append {l : LogEntry} (h : Follows k j) (hp : j.pending = some l)
    (data : List UInt8) :
    Follows (k.append data) { j with pending := some { l with msg := l.msg ++ data } } := by
  obtain ⟨hhead, hlen, hentries, hbuilds⟩ := h
  rw [hp] at hbuilds
  obtain ⟨hactive, hlevel, hfac, hline⟩ := hbuilds
  rw [State.append, if_pos hactive]
  refine ⟨hhead, hlen, hentries, hactive, hlevel, hfac, ?_⟩
  simp only [hline, appendBytes_cut]

theorem Follows.idle (h : Follows k j) (hp : j.pending = none) (data : List UInt8) :
    k.append data = k := by
  have hidle := h.builds
  rw [hp] at hidle
  rw [State.append, show k.lineActive = false from hidle]
  rfl

theorem Follows.step (h : Follows k j) (e : Event) : Follows (k.step e) (j.step e) := by
  cases e with
  | begin level facility =>
    exact ⟨h.head, h.len, h.entries, rfl, rfl, rfl, rfl⟩
  | finish t =>
    cases hp : j.pending with
    | none =>
      have hidle := h.builds
      rw [hp] at hidle
      have hstep : k.step (.finish t) = k := if_neg
        (by rw [show k.lineActive = false from hidle]; decide)
      simpa only [hstep, Journal.step, hp] using h
    | some l =>
      have hactive := h.builds
      rw [hp] at hactive
      have hstep : k.step (.finish t) = k.commit t := if_pos hactive.1
      simpa only [hstep, Journal.step, hp] using h.commit hp t
  | s data | dec v | hex v =>
    cases hp : j.pending with
    | none => simpa only [State.step, h.idle hp, Journal.step, hp] using h
    | some l =>
      simpa only [State.step, Journal.step, hp, text, decBytes_eq, hexBytes_eq] using h.append hp _

theorem Follows.run (es : List Event) (h : Follows k j) :
    Follows (es.foldl State.step k) (es.foldl Journal.step j) := by
  induction es generalizing k j with
  | nil => exact h
  | cons e es ih => exact ih (h.step e)

/-- After any calls `dump` prints the last 128 committed lines, oldest first: each with its tick,
the names of its facility and level, and its text without line ends, cut to 160 bytes. A number
above that of the last facility or level is printed under the last name. -/
theorem dump_prints_last_lines (es : List Event) :
    let lines := (es.foldl Journal.step ⟨[], none⟩).lines
    (es.foldl State.step boot).dump = printAll (lines.drop (lines.length - logRingCap)) := by
  have hboot : Follows boot ⟨[], none⟩ := ⟨by decide, rfl, rfl, rfl⟩
  rw [State.dump, (hboot.run es).entries]

/-- A line of facility 14 is printed as one of facility 13. -/
theorem unknown_facility_printed_as_last :
    ([Event.begin 7 14, .finish 0].foldl State.step boot).dump =
      ([Event.begin 7 13, .finish 0].foldl State.step boot).dump := by
  rfl

end Rynex.Klog
