import Rynex.Lib.Queue
import Rynex.Lib.Fallible

/-! The input buffer of the terminal: a ring of characters and the flag `line_ready`, which is meant
to say that a line is complete. Characters come out in the order in which they were accepted. The
flag follows the ring only as long as line ends come and go in canonical mode. -/

namespace Rynex.Console

open Rynex.Lib

def ttyBufferSize : Nat := 4096

def isig : UInt32 := 1

def icanon : UInt32 := 2

/-- The fields of `Termios` that the input side reads: `c_lflag` and `c_cc[VINTR]`. -/
structure Termios where
  lflag : UInt32
  vintr : UInt8

structure Tty where
  buf : Nat → UInt8
  head : Nat
  tail : Nat
  count : Nat
  lineReady : Bool
  termios : Termios

namespace Tty

/-- `TtyDevice::new`: canonical, with echo and signals, and `^C` as the interrupt character. -/
def new : Tty := ⟨fun _ => 0, 0, 0, 0, false, ⟨0x1B, 3⟩⟩

def isNewline (c : UInt8) : Bool := c == 10 || c == 13

def canonical (t : Tty) : Bool := t.termios.lflag &&& icanon != 0

def interrupts (t : Tty) (c : UInt8) : Bool :=
  t.termios.lflag &&& isig != 0 && (t.termios.vintr != 0 && c == t.termios.vintr)

def accepts (t : Tty) (c : UInt8) : Bool := !t.interrupts c && decide (t.count < ttyBufferSize)

def pushInput (t : Tty) (c : UInt8) : Tty :=
  if t.interrupts c then t
  else if ttyBufferSize ≤ t.count then t
  else
    { t with
      lineReady := t.lineReady || (t.canonical && isNewline c)
      buf := Function.update t.buf t.head c
      head := (t.head + 1) % ttyBufferSize
      count := t.count + 1 }

def advance (t : Tty) : Tty :=
  { t with tail := (t.tail + 1) % ttyBufferSize, count := t.count - 1 }

def hasLine (t : Tty) : Bool :=
  (List.range t.count).any fun i => isNewline (t.buf ((t.tail + i) % ttyBufferSize))

/-- The loop of `pop_input` for a buffer with `room` bytes left: what it reads. -/
def popLoop (canonical : Bool) : Nat → Tty → List UInt8 × Tty
  | 0, t => ([], t)
  | room + 1, t =>
    if t.count = 0 then ([], t)
    else
      let c := t.buf t.tail
      let t := t.advance
      if canonical && isNewline c then ([c], { t with lineReady := t.hasLine })
      else
        let rest := popLoop canonical room t
        (c :: rest.1, rest.2)

def popWith (canonical : Bool) (t : Tty) (room : Nat) : List UInt8 × Tty :=
  if t.count = 0 then ([], t)
  else if canonical && !t.lineReady then ([], t)
  else popLoop canonical room t

def popInput (t : Tty) (room : Nat) : List UInt8 × Tty := popWith t.canonical t room

/-- `TCFLSH`. -/
def flush (t : Tty) : Tty := { t with head := 0, tail := 0, count := 0, lineReady := false }

inductive Event where
  | key (c : UInt8)
  | read (room : Nat)
  | setTermios (termios : Termios)
  | flush

def step (t : Tty) : Event → Tty
  | .key c => t.pushInput c
  | .read room => (t.popInput room).2
  | .setTermios termios => { t with termios := termios }
  | .flush => t.flush

def contents (t : Tty) : List UInt8 := Ring.window t.buf ttyBufferSize t.tail t.count

/-- The indices agree. -/
structure Wf (t : Tty) : Prop where
  tail : t.tail < ttyBufferSize
  count : t.count ≤ ttyBufferSize
  head : t.head = (t.tail + t.count) % ttyBufferSize

/-! ### The ring -/

variable {t : Tty} {c : UInt8} {room : Nat}

@[simp] theorem length_contents (t : Tty) : t.contents.length = t.count := Ring.length_window

theorem hasLine_eq (t : Tty) : t.hasLine = t.contents.any isNewline := by
  rw [hasLine, contents, Ring.window, List.any_map]
  rfl

theorem pushInput_of_not_accepts (h : t.accepts c = false) : t.pushInput c = t := by
  unfold pushInput
  by_cases hint : t.interrupts c = true
  · exact if_pos hint
  · have hfull : ttyBufferSize ≤ t.count := by simpa [accepts, hint] using h
    rw [if_neg hint, if_pos hfull]

/-- A character that is accepted goes to the end of the ring. -/
theorem pushInput_spec (hwf : t.Wf) (h : t.accepts c = true) :
    (t.pushInput c).Wf ∧ (t.pushInput c).contents = t.contents ++ [c] ∧
      (t.pushInput c).lineReady = (t.lineReady || (t.canonical && isNewline c)) := by
  simp only [accepts, Bool.and_eq_true, Bool.not_eq_true', decide_eq_true_eq] at h
  have hpush : t.pushInput c = { t with
      lineReady := t.lineReady || (t.canonical && isNewline c)
      buf := Function.update t.buf t.head c
      head := (t.head + 1) % ttyBufferSize
      count := t.count + 1 } := by
    rw [pushInput, h.1, if_neg (by decide), if_neg (by omega)]
  rw [hpush]
  refine ⟨⟨hwf.tail, h.2, ?_⟩, Ring.window_push_at c h.2 hwf.head.symm, rfl⟩
  rw [hwf.head, Nat.mod_add_mod, Nat.add_assoc]

theorem contents_advance (h : t.count ≠ 0) (htail : t.tail < ttyBufferSize) :
    t.contents = t.buf t.tail :: t.advance.contents := by
  obtain ⟨n, hn⟩ := Nat.exists_eq_succ_of_ne_zero h
  simp only [contents, advance, hn, Nat.succ_eq_add_one, Nat.add_sub_cancel]
  rw [Ring.window_succ, Ring.window_mod_start, Nat.mod_eq_of_lt htail]

theorem Wf.advance (hwf : t.Wf) (h : t.count ≠ 0) : t.advance.Wf := by
  obtain ⟨htail, hcount, hhead⟩ := hwf
  refine ⟨Nat.mod_lt _ (by decide), (Nat.sub_le _ _).trans hcount, ?_⟩
  simp only [Tty.advance]
  rw [hhead, Nat.mod_add_mod, Nat.add_assoc, Nat.add_sub_cancel' (by omega)]

/-- What the loop leaves: the characters read come off the front, and the flag is computed anew
if a line end was read in canonical mode. -/
structure Reads (canonical : Bool) (t : Tty) (r : List UInt8 × Tty) : Prop where
  wf : r.2.Wf
  split : t.contents = r.1 ++ r.2.contents
  flag : r.2.lineReady =
    if canonical && r.1.any isNewline then r.2.contents.any isNewline else t.lineReady
  termios : r.2.termios = t.termios

theorem reads_nothing (canonical : Bool) (hwf : t.Wf) : Reads canonical t ([], t) :=
  ⟨hwf, rfl, by simp, rfl⟩

theorem popLoop_empty (canonical : Bool) (room : Nat) (h : t.count = 0) :
    popLoop canonical room t = ([], t) := by
  cases room with
  | zero => rfl
  | succ room => exact if_pos h

theorem popLoop_line {canonical : Bool} (h : t.count ≠ 0)
    (hline : (canonical && isNewline (t.buf t.tail)) = true) :
    popLoop canonical (room + 1) t =
      ([t.buf t.tail], { t.advance with lineReady := t.advance.hasLine }) := by
  simp only [popLoop, if_neg h, if_pos hline]

theorem popLoop_next {canonical : Bool} (h : t.count ≠ 0)
    (hline : (canonical && isNewline (t.buf t.tail)) = false) :
    popLoop canonical (room + 1) t = (t.buf t.tail :: (popLoop canonical room t.advance).1,
      (popLoop canonical room t.advance).2) := by
  simp only [popLoop, if_neg h, hline, Bool.false_eq_true, if_false]

theorem popLoop_reads (canonical : Bool) (room : Nat) (hwf : t.Wf) :
    Reads canonical t (popLoop canonical room t) := by
  induction room generalizing t with
  | zero => exact reads_nothing canonical hwf
  | succ room ih =>
    by_cases hzero : t.count = 0
    · rw [popLoop_empty canonical _ hzero]
      exact reads_nothing canonical hwf
    have hsplit := contents_advance hzero hwf.tail
    have hwf' := hwf.advance hzero
    cases hline : canonical && isNewline (t.buf t.tail) with
    | true =>
      rw [popLoop_line hzero hline]
      refine ⟨⟨hwf'.tail, hwf'.count, hwf'.head⟩, hsplit, ?_, rfl⟩
      simp only [List.any_cons, List.any_nil, Bool.or_false, hline, if_true]
      exact hasLine_eq t.advance
    | false =>
      rw [popLoop_next hzero hline]
      obtain ⟨hwf'', hrest, hflag, htermios⟩ := ih hwf'
      refine ⟨hwf'', ?_, ?_, htermios⟩
      · rw [hsplit, hrest, List.cons_append]
      · rw [hflag, List.any_cons, Bool.and_or_distrib_left, hline, Bool.false_or]
        rfl

theorem popWith_reads (canonical : Bool) (room : Nat) (hwf : t.Wf) :
    Reads canonical t (popWith canonical t room) := by
  unfold popWith
  split_ifs
  · exact reads_nothing canonical hwf
  · exact reads_nothing canonical hwf
  · exact popLoop_reads canonical room hwf

theorem contents_eq_nil (h : t.count = 0) : t.contents = [] :=
  List.eq_nil_of_length_eq_zero (by rw [length_contents, h])

theorem popLoop_raw (room : Nat) (hwf : t.Wf) :
    (popLoop false room t).1 = t.contents.take room := by
  induction room generalizing t with
  | zero => rfl
  | succ room ih =>
    by_cases hzero : t.count = 0
    · rw [popLoop_empty false _ hzero, contents_eq_nil hzero, List.take_nil]
    · rw [popLoop_next hzero (Bool.false_and _), contents_advance hzero hwf.tail,
        List.take_succ_cons, ih (hwf.advance hzero)]

theorem popWith_raw (room : Nat) (hwf : t.Wf) :
    (popWith false t room).2.contents = t.contents.drop room := by
  have hsplit := (popWith_reads false room hwf).split
  have hout : (popWith false t room).1 = t.contents.take room := by
    unfold popWith
    split_ifs with hzero hline
    · rw [contents_eq_nil hzero, List.take_nil]
    · simp at hline
    · exact popLoop_raw room hwf
  rw [hout] at hsplit
  exact (List.append_cancel_left (hsplit.symm.trans (List.take_append_drop room t.contents).symm))

theorem popLoop_ne_nil {canonical : Bool} (hroom : 0 < room) (h : t.count ≠ 0) :
    (popLoop canonical room t).1 ≠ [] := by
  obtain ⟨n, rfl⟩ := Nat.exists_eq_succ_of_ne_zero hroom.ne'
  cases hline : canonical && isNewline (t.buf t.tail) with
  | true =>
    rw [popLoop_line h hline]
    exact List.cons_ne_nil _ _
  | false =>
    rw [popLoop_next h hline]
    exact List.cons_ne_nil _ _

theorem Wf.step (hwf : t.Wf) (e : Event) : (t.step e).Wf := by
  cases e with
  | key c =>
    cases hacc : t.accepts c with
    | true => exact (pushInput_spec hwf hacc).1
    | false => rw [Tty.step, pushInput_of_not_accepts hacc]; exact hwf
  | read room => exact (popWith_reads _ room hwf).wf
  | setTermios termios => exact ⟨hwf.tail, hwf.count, hwf.head⟩
  | flush => exact ⟨Nat.zero_lt_succ _, Nat.zero_le _, rfl⟩

theorem wf_new : new.Wf := ⟨by decide, by decide, rfl⟩

/-! ### The order of the characters -/

/-- A terminal with the characters accepted and returned since it was last flushed. -/
structure History where
  tty : Tty
  accepted : List UInt8
  returned : List UInt8

def History.step (h : History) (e : Event) : History :=
  let next := h.tty.step e
  match e with
  | .key c => ⟨next, if h.tty.accepts c then h.accepted ++ [c] else h.accepted, h.returned⟩
  | .read room => ⟨next, h.accepted, h.returned ++ (h.tty.popInput room).1⟩
  | .setTermios _ => ⟨next, h.accepted, h.returned⟩
  | .flush => ⟨next, [], []⟩

/-- What was accepted has been returned, in its order, or is still buffered. -/
structure History.Ordered (h : History) : Prop where
  wf : h.tty.Wf
  order : h.accepted = h.returned ++ h.tty.contents

theorem History.Ordered.step {h : History} (ho : h.Ordered) (e : Event) : (h.step e).Ordered := by
  have htty : (h.step e).tty = h.tty.step e := by cases e <;> rfl
  refine ⟨htty ▸ ho.wf.step e, ?_⟩
  cases e with
  | key c =>
    cases hacc : h.tty.accepts c with
    | true =>
      have hcontents := (pushInput_spec ho.wf hacc).2.1
      simp only [History.step, hacc, if_true, Tty.step]
      rw [hcontents, ho.order, List.append_assoc]
    | false =>
      simp only [History.step, hacc, Tty.step, pushInput_of_not_accepts hacc]
      exact ho.order
  | read room =>
    have hsplit := (popWith_reads h.tty.canonical room ho.wf).split
    simp only [History.step, Tty.step, popInput]
    rw [List.append_assoc, ← hsplit]
    exact ho.order
  | setTermios termios => exact ho.order
  | flush => rfl

theorem History.Ordered.run (es : List Event) {h : History} (ho : h.Ordered) :
    (es.foldl History.step h).Ordered := by
  induction es generalizing h with
  | nil => exact ho
  | cons e es ih => exact ih (ho.step e)

/-! ### The flag -/

/-- A non-empty read in canonical mode returns data just if a line is buffered or the ring is
full. -/
def Served (t : Tty) : Prop :=
  ∀ room, 0 < room → ((popWith true t room).1 ≠ [] ↔ t.hasLine = true ∨ t.count = ttyBufferSize)

/-- The flag of a ring that is not empty says that it holds a line, and a full ring holds one. -/
structure Flagged (t : Tty) : Prop where
  wf : t.Wf
  flag : t.count ≠ 0 → t.lineReady = t.contents.any isNewline
  full : t.count = ttyBufferSize → t.contents.any isNewline = true

/-- The events that keep the flag right. A line end comes in canonical mode or finds the flag set;
another character neither finds the flag set on an empty ring nor fills the ring without a line in
it; a raw read leaves a line if there was one and characters are left. -/
def Harmless (t : Tty) : Event → Prop
  | .key c => t.accepts c = true →
      if isNewline c then t.canonical = true ∨ t.lineReady = true
      else (t.lineReady = true → t.hasLine = true) ∧
        (t.count + 1 = ttyBufferSize → t.hasLine = true)
  | .read room => t.canonical = true ∨ t.count ≤ room ∨
      (t.hasLine = true → (t.contents.drop room).any isNewline = true)
  | _ => True

theorem any_contents_count (h : t.contents.any isNewline = true) : t.count ≠ 0 := by
  intro hzero
  rw [contents_eq_nil hzero] at h
  cases h

theorem served_iff (t : Tty) : t.Served ↔
    ((t.count ≠ 0 ∧ t.lineReady = true) ↔
      t.contents.any isNewline = true ∨ t.count = ttyBufferSize) := by
  have hread : ∀ room, 0 < room →
      ((popWith true t room).1 ≠ [] ↔ t.count ≠ 0 ∧ t.lineReady = true) := by
    intro room hroom
    unfold popWith
    split_ifs with hzero hready
    · simp [hzero]
    · simp_all
    · simp only [Bool.true_and, Bool.not_eq_true', Bool.not_eq_false] at hready
      exact ⟨fun _ => ⟨hzero, hready⟩, fun _ => popLoop_ne_nil hroom hzero⟩
  rw [← hasLine_eq]
  constructor
  · intro h
    rw [← hread 1 Nat.one_pos, h 1 Nat.one_pos]
  · intro h room hroom
    rw [hread room hroom, h]

theorem Flagged.served (h : t.Flagged) : t.Served := by
  rw [served_iff]
  constructor
  · rintro ⟨hne, hready⟩
    exact .inl (by rw [← h.flag hne, hready])
  · rintro (hline | hfull)
    · exact ⟨any_contents_count hline, by rw [h.flag (any_contents_count hline), hline]⟩
    · have hline := h.full hfull
      exact ⟨any_contents_count hline, by rw [h.flag (any_contents_count hline), hline]⟩

/-- An accepted character is harmless just if it leaves the flag right. -/
theorem Flagged.key (h : t.Flagged) (hacc : t.accepts c = true) :
    (t.Harmless (.key c) → (t.pushInput c).Flagged) ∧
      (¬t.Harmless (.key c) → ¬(t.pushInput c).Served) := by
  obtain ⟨hwf, hcontents, hready⟩ := pushInput_spec h.wf hacc
  have hcount : (t.pushInput c).count = t.count + 1 := by
    rw [← length_contents, hcontents, List.length_append, length_contents]
    rfl
  have hflag : t.contents.any isNewline = true → t.lineReady = true := fun hline => by
    rw [h.flag (any_contents_count hline), hline]
  have hany : (t.pushInput c).contents.any isNewline =
      (t.contents.any isNewline || isNewline c) := by
    rw [hcontents, List.any_append]
    simp
  simp only [Harmless, hacc, true_implies, hasLine_eq]
  cases hc : isNewline c with
  | true =>
    rw [hc] at hready hany
    rw [Bool.or_true] at hany
    rw [Bool.and_true] at hready
    simp only [if_true]
    refine ⟨fun hok => ⟨hwf, fun _ => ?_, fun _ => hany⟩, fun hbad => ?_⟩
    · rw [hready, hany]
      rcases hok with hcan | hset
      · rw [hcan, Bool.or_true]
      · rw [hset, Bool.true_or]
    · rw [served_iff, hready, hany]
      simp_all
  | false =>
    rw [hc] at hready hany
    rw [Bool.or_false] at hany
    rw [Bool.and_false, Bool.or_false] at hready
    simp only [Bool.false_eq_true, if_false]
    refine ⟨fun hok => ⟨hwf, fun _ => ?_, fun hfull => ?_⟩, fun hbad hserved => hbad ?_⟩
    · rw [hready, hany, Bool.eq_iff_iff]
      exact ⟨hok.1, hflag⟩
    · rw [hany]
      exact hok.2 (hcount ▸ hfull)
    · rw [served_iff, hready, hany, hcount] at hserved
      have hlt : t.count < ttyBufferSize := by
        simp only [accepts, Bool.and_eq_true, decide_eq_true_eq] at hacc
        exact hacc.2
      refine ⟨fun hset => ?_, fun hlast => ?_⟩
      · rcases hserved.mp ⟨Nat.succ_ne_zero _, hset⟩ with hline | hlast
        · exact hline
        · -- the ring was not empty before its last place was taken
          have hne : t.count ≠ 0 := by
            unfold ttyBufferSize at hlast
            omega
          rw [← h.flag hne, hset]
      · have hset := (hserved.mpr (.inr hlast)).2
        have hne : t.count ≠ 0 := by
          unfold ttyBufferSize at hlast
          omega
        rw [← h.flag hne, hset]

/-- A ring that is full after a read was full before it and nothing was read. -/
theorem Reads.full {canonical : Bool} {r : List UInt8 × Tty} (hr : Reads canonical t r)
    (hwf : t.Wf) (hfull : r.2.count = ttyBufferSize) :
    t.count = ttyBufferSize ∧ r.2.contents = t.contents := by
  have hlen := congrArg List.length hr.split
  rw [List.length_append, length_contents, length_contents] at hlen
  have hcount := hwf.count
  have hnil : r.1 = [] := List.eq_nil_of_length_eq_zero (by omega)
  exact ⟨by omega, by rw [hr.split, hnil, List.nil_append]⟩

theorem Flagged.read_canonical (h : t.Flagged) (room : Nat) :
    (popWith true t room).2.Flagged := by
  have hr := popWith_reads true room h.wf
  refine ⟨hr.wf, fun hne => ?_, fun hfull => ?_⟩
  · rw [hr.flag, Bool.true_and]
    split_ifs with hline
    · rfl
    · have hpos : t.count ≠ 0 := by
        rw [← length_contents, hr.split, List.length_append, length_contents]
        omega
      rw [Bool.not_eq_true] at hline
      rw [h.flag hpos, hr.split, List.any_append, hline, Bool.false_or]
  · obtain ⟨hold, hsame⟩ := hr.full h.wf hfull
    rw [hsame]
    exact h.full hold

theorem Flagged.read_raw (h : t.Flagged) (room : Nat) :
    ((t.count ≤ room ∨ (t.hasLine = true → (t.contents.drop room).any isNewline = true)) →
        (popWith false t room).2.Flagged) ∧
      (¬(t.count ≤ room ∨ (t.hasLine = true → (t.contents.drop room).any isNewline = true)) →
        ¬(popWith false t room).2.Served) := by
  have hr := popWith_reads false room h.wf
  have hrest := popWith_raw room h.wf
  have hcount : (popWith false t room).2.count = t.count - room := by
    rw [← length_contents, hrest, List.length_drop, length_contents]
  have hready : (popWith false t room).2.lineReady = t.lineReady := hr.flag
  rw [hasLine_eq]
  refine ⟨fun hok => ⟨hr.wf, fun hne => ?_, fun hfull => ?_⟩, fun hbad hserved => hbad ?_⟩
  · have hkeeps := hok.resolve_left (by omega)
    rw [hready, h.flag (by omega), hrest, Bool.eq_iff_iff]
    refine ⟨hkeeps, fun hlater => ?_⟩
    obtain ⟨c, hc, hnl⟩ := List.any_eq_true.mp hlater
    exact List.any_eq_true.mpr ⟨c, List.mem_of_mem_drop hc, hnl⟩
  · obtain ⟨hold, hsame⟩ := hr.full h.wf hfull
    rw [hsame]
    exact h.full hold
  · by_cases hle : t.count ≤ room
    · exact .inl hle
    refine .inr fun hline => ?_
    rw [served_iff, hready, hcount, hrest, h.flag (by omega), hline] at hserved
    rcases hserved.mp ⟨by omega, rfl⟩ with hlater | hfull
    · exact hlater
    · obtain ⟨-, hsame⟩ := hr.full h.wf (hcount.trans hfull)
      rw [← hrest, hsame, hline]

theorem Flagged.step (h : t.Flagged) (e : Event) :
    (t.Harmless e → (t.step e).Flagged) ∧ (¬t.Harmless e → ¬(t.step e).Served) := by
  cases e with
  | key c =>
    cases hacc : t.accepts c with
    | true => exact h.key hacc
    | false =>
      rw [Tty.step, pushInput_of_not_accepts hacc]
      exact ⟨fun _ => h, fun hbad => absurd (fun ht => by rw [hacc] at ht; cases ht) hbad⟩
  | read room =>
    simp only [Harmless, Tty.step, popInput]
    cases hmode : t.canonical with
    | true => exact ⟨fun _ => h.read_canonical room, fun hbad => absurd (.inl rfl) hbad⟩
    | false => simpa using h.read_raw room
  | setTermios termios =>
    exact ⟨fun _ => ⟨⟨h.wf.tail, h.wf.count, h.wf.head⟩, h.flag, h.full⟩,
      fun hbad => absurd trivial hbad⟩
  | flush =>
    refine ⟨fun _ => ⟨⟨Nat.zero_lt_succ _, Nat.zero_le _, rfl⟩, fun hne => absurd rfl hne, ?_⟩,
      fun hbad => absurd trivial hbad⟩
    intro hfull
    cases hfull

theorem flagged_new : new.Flagged :=
  ⟨wf_new, fun hne => absurd rfl hne, fun hfull => by cases hfull⟩

/-- In every run the indices agree and characters come out in the order in which they were
accepted. A read in canonical mode is served as it should be in every state of the run exactly if
every event of the run is harmless where it happens. -/
theorem tty_input_iff (es : List Event) :
    (es.foldl History.step ⟨new, [], []⟩).Ordered ∧
      (Throughout (fun t e => some (step t e)) Served new es ↔
        Allowed (fun t e => some (step t e)) Harmless new es) := by
  refine ⟨History.Ordered.run es ⟨wf_new, rfl⟩, ?_⟩
  refine throughout_iff_allowed (I := Flagged) (fun _ h => h.served) (fun t e h hok => ?_)
    (fun t e h hbad t' hstep => ?_) flagged_new es
  · exact ⟨t.step e, rfl, (h.step e).1 hok⟩
  · obtain rfl := Option.some.inj hstep
    exact (h.step e).2 hbad

/-- A line typed in raw mode is not read after the switch to canonical mode. -/
theorem raw_line_not_served :
    let t := [Event.setTermios ⟨0, 3⟩, .key 10, .setTermios ⟨icanon, 3⟩].foldl step new
    t.canonical = true ∧ t.hasLine = true ∧ (t.popInput 16).1 = [] ∧
      ¬Throughout (fun t e => some (step t e)) Served new
        [Event.setTermios ⟨0, 3⟩, .key 10, .setTermios ⟨icanon, 3⟩] := by
  refine ⟨by decide, by decide, by decide, ?_⟩
  rintro ⟨-, _, ⟨⟩, -, _, ⟨⟩, hserved, -⟩
  have h := (hserved 1 Nat.one_pos).mpr (.inl (by decide))
  exact h (by decide)

end Tty

end Rynex.Console
