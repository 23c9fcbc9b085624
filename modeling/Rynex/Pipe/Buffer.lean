import Rynex.Pipe.Model
import Rynex.Lib.Run

/-! A pipe as a queue of bytes. The buffer is written up to its end and starts over only when it
has been emptied; `sys_write` reports the bytes that it dropped at the end as written. -/

namespace Rynex.Pipe

open Rynex.Lib

/-- The positions are in order and in the buffer. -/
def PipeSlot.Wf (slot : PipeSlot) : Prop := slot.rpos ≤ slot.wpos ∧ slot.wpos ≤ pipeBuf

namespace PipeSlot

variable {slot : PipeSlot} {c : UInt8} {bytes : List UInt8} {count : Nat}

theorem content_writeByte (h : slot.Wf) (hroom : slot.wpos < pipeBuf) :
    (slot.writeByte c).Wf ∧ (slot.writeByte c).wpos = slot.wpos + 1 ∧
      (slot.writeByte c).content = slot.content ++ [c] := by
  obtain ⟨hle, -⟩ := h
  rw [writeByte, if_pos hroom]
  refine ⟨⟨Nat.le_succ_of_le hle, hroom⟩, rfl, ?_⟩
  have hlen : slot.wpos + 1 - slot.rpos = slot.wpos - slot.rpos + 1 := by omega
  have hlast : slot.rpos + (slot.wpos - slot.rpos) = slot.wpos := by omega
  simp only [content, hlen, List.range'_1_concat, List.map_append, hlast, List.map_cons,
    List.map_nil, Function.update_self]
  congr 1
  refine List.map_congr_left fun i hi => Function.update_of_ne ?_ ..
  have := List.mem_range'_1.mp hi
  omega

theorem content_write (h : slot.Wf) (hroom : slot.wpos + bytes.length ≤ pipeBuf) :
    (bytes.foldl writeByte slot).Wf ∧
      (bytes.foldl writeByte slot).content = slot.content ++ bytes := by
  induction bytes generalizing slot with
  | nil => exact ⟨h, (List.append_nil _).symm⟩
  | cons c bytes ih =>
    rw [List.length_cons] at hroom
    obtain ⟨hwf, hpos, hcontent⟩ := content_writeByte (c := c) h (by omega)
    obtain ⟨hwf', hcontent'⟩ := ih hwf (by omega)
    refine ⟨hwf', ?_⟩
    rw [List.foldl_cons, hcontent', hcontent, List.append_assoc, List.singleton_append]

theorem length_content_write (h : slot.Wf) :
    (bytes.foldl writeByte slot).content.length =
      min pipeBuf (slot.wpos + bytes.length) - slot.rpos := by
  have hpos : (bytes.foldl writeByte slot).rpos = slot.rpos ∧
      (bytes.foldl writeByte slot).wpos = min pipeBuf (slot.wpos + bytes.length) := by
    induction bytes generalizing slot with
    | nil => exact ⟨rfl, (min_eq_right h.2).symm⟩
    | cons c bytes ih =>
      by_cases hroom : slot.wpos < pipeBuf
      · obtain ⟨hwf, hpos, -⟩ := content_writeByte (c := c) h hroom
        have hr : (slot.writeByte c).rpos = slot.rpos := by rw [writeByte, if_pos hroom]
        rw [List.foldl_cons, (ih hwf).1, (ih hwf).2, hr, hpos, List.length_cons]
        exact ⟨rfl, by congr 1; omega⟩
      · have hfull : slot.writeByte c = slot := by rw [writeByte, if_neg hroom]
        rw [List.foldl_cons, hfull, (ih h).1, (ih h).2, List.length_cons]
        exact ⟨rfl, by omega⟩
  rw [content, List.length_map, List.length_range', hpos.1, hpos.2]

theorem content_read (h : slot.Wf) (count : Nat) :
    (slot.readBytes count).2.Wf ∧
      slot.content = (slot.readBytes count).1 ++ (slot.readBytes count).2.content := by
  obtain ⟨hle, hcap⟩ := h
  simp only [readBytes]
  set n := min count (slot.wpos - slot.rpos) with hn
  have hsplit : slot.content = (List.range' slot.rpos n).map slot.buf ++
      (List.range' (slot.rpos + n) (slot.wpos - (slot.rpos + n))).map slot.buf := by
    rw [← List.map_append, List.range'_append_1, content]
    congr 2
    omega
  split
  next heq =>
    refine ⟨⟨le_rfl, Nat.zero_le _⟩, ?_⟩
    rw [hsplit, heq, Nat.sub_self]
    rfl
  next hne =>
    refine ⟨⟨?_, hcap⟩, hsplit⟩
    simp only
    omega

end PipeSlot

inductive Op where
  | write (t fd : Nat) (bytes : List UInt8) (valid : Bool)
  | read (t fd count : Nat) (valid : Bool)

/-- The system with the bytes that writes on pipe `p` reported and reads on it returned, which are
history. -/
structure Trace where
  sys : Sys
  reported : List UInt8
  returned : List UInt8

def Sys.pipeAt (s : Sys) (t fd : Nat) : Option Nat :=
  if t ≠ 0 && s.isOpen t fd then pipeIdxOf (s.tables t fd).inodeIdx else none

/-- A write counts with the first bytes of its buffer, as many as it returned. -/
def Trace.step (p : Nat) (tr : Trace) : Op → Trace
  | .write t fd bytes valid =>
    match tr.sys.sysWrite t fd bytes valid with
    | (.ret n _, s) => ⟨s, if tr.sys.pipeAt t fd = some p then tr.reported ++ bytes.take n.toNat
        else tr.reported, tr.returned⟩
    | (_, s) => { tr with sys := s }
  | .read t fd count valid =>
    match tr.sys.sysRead t fd count valid with
    | (.ret _ bytes, s) => ⟨s, tr.reported, if tr.sys.pipeAt t fd = some p then tr.returned ++ bytes
        else tr.returned⟩
    | (_, s) => { tr with sys := s }

/-- A write finds room for all its bytes between the write position and the end of the buffer. -/
def Trace.Fits (p : Nat) (tr : Trace) : Op → Prop
  | .write t fd bytes valid => tr.sys.pipeAt t fd = some p → valid = true →
      pipeIsWriteEnd (tr.sys.tables t fd).inodeIdx = true →
      (tr.sys.pipes p).wpos + bytes.length ≤ pipeBuf
  | .read _ _ _ _ => True

instance (p : Nat) (tr : Trace) : (op : Op) → Decidable (tr.Fits p op)
  | .write _ _ _ _ => inferInstanceAs (Decidable (_ → _ → _ → _))
  | .read _ _ _ _ => .isTrue trivial

/-- What is in the buffer is what was reported and not returned yet. -/
structure Trace.Queue (p : Nat) (tr : Trace) : Prop where
  wf : (tr.sys.pipes p).Wf
  fifo : tr.returned ++ (tr.sys.pipes p).content = tr.reported

variable {p : Nat} {tr : Trace}

theorem Sys.pipeAt_of_open {s : Sys} {t fd : Nat} (h : ¬ (t = 0 || !s.isOpen t fd) = true) :
    s.pipeAt t fd = pipeIdxOf (s.tables t fd).inodeIdx := by
  rw [pipeAt, if_pos (by simpa using h)]

theorem Sys.sysWrite_cases (s : Sys) (t fd : Nat) (bytes : List UInt8) (valid : Bool) :
    (∃ n ≤ 0, s.sysWrite t fd bytes valid = (.ret n [], s)) ∨
    s.sysWrite t fd bytes valid = (.file, s) ∨
    ∃ q, s.pipeAt t fd = some q ∧ valid = true ∧
      pipeIsWriteEnd (s.tables t fd).inodeIdx = true ∧ s.sysWrite t fd bytes valid =
        (.ret bytes.length [], s.setPipe q (bytes.foldl PipeSlot.writeByte (s.pipes q))) := by
  unfold Sys.sysWrite
  split
  · exact .inl ⟨0, le_rfl, rfl⟩
  split
  · exact .inl ⟨_, by decide, rfl⟩
  next hvalid =>
  split
  · exact .inl ⟨_, by decide, rfl⟩
  next hopen =>
  simp only [pipeAt_of_open hopen]
  split
  · exact .inr (.inl rfl)
  next q hq =>
  split
  next hend => exact .inr (.inr ⟨q, hq, by simpa using hvalid, hend, rfl⟩)
  · exact .inl ⟨_, by decide, rfl⟩

theorem Sys.sysRead_cases (s : Sys) (t fd count : Nat) (valid : Bool) :
    (∃ n, s.sysRead t fd count valid = (.ret n [], s)) ∨
    s.sysRead t fd count valid = (.file, s) ∨ s.sysRead t fd count valid = (.blocks, s) ∨
    ∃ q, s.pipeAt t fd = some q ∧ ∃ n, s.sysRead t fd count valid =
      (.ret n ((s.pipes q).readBytes count).1, s.setPipe q ((s.pipes q).readBytes count).2) := by
  unfold Sys.sysRead
  split
  · exact .inl ⟨_, rfl⟩
  split
  · exact .inl ⟨_, rfl⟩
  split
  · exact .inl ⟨_, rfl⟩
  next hopen =>
  simp only [pipeAt_of_open hopen]
  split
  · exact .inr (.inl rfl)
  next q hq =>
  split
  · exact .inl ⟨_, rfl⟩
  split
  · exact .inr (.inr (.inr ⟨q, hq, _, rfl⟩))
  split
  · exact .inl ⟨_, rfl⟩
  · exact .inr (.inr (.inl rfl))

theorem Trace.Queue.step {op : Op} (h : tr.Queue p) (hfits : tr.Fits p op) :
    (tr.step p op).Queue p := by
  cases op with
  | write t fd bytes valid =>
    rcases tr.sys.sysWrite_cases t fd bytes valid with
      ⟨n, hn, heq⟩ | heq | ⟨q, hq, hvalid, hend, heq⟩ <;> simp only [Trace.step, heq]
    · rw [Int.toNat_of_nonpos hn]
      exact ⟨h.wf, by simp [h.fifo]⟩
    · exact ⟨h.wf, h.fifo⟩
    · by_cases hqp : q = p
      · subst hqp
        obtain ⟨hwf, hcontent⟩ := PipeSlot.content_write h.wf (hfits hq hvalid hend)
        refine ⟨by simpa [Sys.setPipe] using hwf, ?_⟩
        simp only [Sys.setPipe, Function.update_self, hcontent, hq, if_true, Int.toNat_natCast,
          List.take_length, ← List.append_assoc, h.fifo]
      · have hpq : p ≠ q := fun heq => hqp heq.symm
        refine ⟨?_, ?_⟩ <;> simp [Sys.setPipe, Function.update_of_ne hpq, hq, hqp, h.wf, h.fifo]
  | read t fd count valid =>
    rcases tr.sys.sysRead_cases t fd count valid with
      ⟨n, heq⟩ | heq | heq | ⟨q, hq, n, heq⟩ <;> simp only [Trace.step, heq]
    · exact ⟨h.wf, by simp [h.fifo]⟩
    · exact ⟨h.wf, h.fifo⟩
    · exact ⟨h.wf, h.fifo⟩
    · by_cases hqp : q = p
      · subst hqp
        obtain ⟨hwf, hcontent⟩ := PipeSlot.content_read h.wf count
        refine ⟨by simpa [Sys.setPipe] using hwf, ?_⟩
        simp only [Sys.setPipe, Function.update_self, hq, if_true, List.append_assoc, ← hcontent,
          h.fifo]
      · have hpq : p ≠ q := fun heq => hqp heq.symm
        refine ⟨?_, ?_⟩ <;> simp [Sys.setPipe, Function.update_of_ne hpq, hq, hqp, h.wf, h.fifo]

/-- Over every run of reads and writes in which each write finds room for its bytes, a pipe is a
queue: the bytes that reads returned and those in the buffer are the bytes that writes reported,
in their order. -/
theorem pipe_is_fifo {s : Sys} (hr : (s.pipes p).rpos = 0) (hw : (s.pipes p).wpos = 0)
    {ops : List Op} (hops : Steps (Trace.step p) (Trace.Fits p) ⟨s, [], []⟩ ops) :
    let tr := ops.foldl (Trace.step p) ⟨s, [], []⟩
    tr.returned <+: tr.reported ∧ tr.returned ++ (tr.sys.pipes p).content = tr.reported := by
  intro tr
  have hstart : (Trace.mk s [] []).Queue p := by
    refine ⟨⟨by simp [hr], by simp [hw]⟩, ?_⟩
    simp [PipeSlot.content, hw]
  have h : tr.Queue p := Steps.invariant (I := Trace.Queue p)
    (fun _ _ h hok => h.step hok) hstart hops
  exact ⟨⟨_, h.fifo⟩, h.fifo⟩

/-- Task 1 with the read end of pipe 0 as descriptor 0 and the write end as descriptor 1. -/
def onePipe : Sys := ((Sys.boot fun t => if t ≤ 1 then .live else .empty).sysPipe 1 false).2.2

theorem pipe_is_fifo_onePipe :
    let tr := [Op.write 1 1 [7, 8, 9] true, .read 1 0 2 true].foldl (Trace.step 0) ⟨onePipe, [], []⟩
    tr.returned = [7, 8] ∧ tr.returned <+: tr.reported := by
  refine ⟨by decide, ?_⟩
  exact (pipe_is_fifo (by decide) (by decide)
    (show Steps (Trace.step 0) (Trace.Fits 0) ⟨onePipe, [], []⟩ _ by decide)).1

theorem onePipe_write {bytes : List UInt8} (hne : bytes ≠ []) :
    Trace.step 0 ⟨onePipe, [], []⟩ (.write 1 1 bytes true) =
      ⟨onePipe.setPipe 0 (bytes.foldl PipeSlot.writeByte (onePipe.pipes 0)), bytes, []⟩ := by
  have hopen : onePipe.isOpen 1 1 = true := by decide
  have hinode : (onePipe.tables 1 1).inodeIdx = 241 := by decide
  have hpipe : pipeIdxOf 241 = some 0 := by decide
  have hend : pipeIsWriteEnd 241 = true := by decide
  simp [Trace.step, Sys.sysWrite, Sys.pipeAt, hopen, hinode, hpipe, hend, hne]

/-- A write of one byte more than the buffer holds is reported as written in full, and the last
byte is nowhere. -/
theorem pipe_drops_reported_byte : ∃ ops : List Op,
    let tr := ops.foldl (Trace.step 0) ⟨onePipe, [], []⟩
    tr.reported.length = 4097 ∧ tr.returned = [] ∧ (tr.sys.pipes 0).content.length = 4096 := by
  refine ⟨[.write 1 1 (List.replicate 4097 7) true], ?_⟩
  have hlen : (List.replicate 4097 (7 : UInt8)).length = 4097 := List.length_replicate
  have hne : List.replicate 4097 (7 : UInt8) ≠ [] :=
    List.ne_nil_of_length_pos (by rw [hlen]; decide)
  have hwf : (onePipe.pipes 0).Wf := by unfold PipeSlot.Wf; decide
  simp only [List.foldl_cons, List.foldl_nil, onePipe_write hne, hlen, Sys.setPipe,
    Function.update_self, PipeSlot.length_content_write hwf]
  decide

end Rynex.Pipe
