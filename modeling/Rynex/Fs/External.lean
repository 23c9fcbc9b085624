import Rynex.Fs.Blocks

/-! Files made by `create_external_file`: `inode_read` serves them from the memory they were made
with, `inode_write` writes to the ramfs file that goes with them. -/

namespace Rynex.Fs

open Rynex.Lib

/-- The flat inode of an external file: the registered memory at `data_ptr`, the size field, the
vnode and the ramfs file it leads to. `written` is history: the bytes last written at each place. -/
structure ExternalFile where
  block : List UInt8
  size : Nat
  vnodeId : Nat
  disk : Disk
  written : ByteFile

/-- A write, with the pages that the allocator answers. -/
structure ExternalWrite where
  pos : Nat
  buf : List UInt8
  pages : Nat → Nat

namespace ExternalFile

/-- `create_external_file` over a ramfs file, whose first write may fail. -/
def create (block : List UInt8) (vnodeId : Nat) (disk : Disk) (pages : Nat → Nat) :
    ExternalFile where
  block := block
  size := block.length
  vnodeId := vnodeId
  disk := if block = [] then disk else (disk.write pages 0 block).2
  written := ByteFile.empty.write 0 block

/-- `inode_read`. There is no result if it leaves the registered memory. -/
def inodeRead (f : ExternalFile) (pos n : Nat) : Option (List UInt8) :=
  if f.size ≤ pos then some []
  else
    let toRead := min n (f.size - pos)
    if pos + toRead ≤ f.block.length then some ((f.block.drop pos).take toRead) else none

/-- `inode_write`, and the count that it returns. There is no result if it leaves the registered
memory. -/
def inodeWrite (f : ExternalFile) (w : ExternalWrite) : Option (Option Nat × ExternalFile) :=
  if f.vnodeId ≠ 0 then
    match f.disk.write w.pages w.pos w.buf with
    | (.ok n, disk) => some (some n, { f with
        disk := disk
        size := max f.size (w.pos + n)
        written := f.written.write w.pos (w.buf.take n) })
    | (.error _, disk) => some (none, { f with disk := disk })
  else if f.size < w.pos then some (none, f)
  else
    let toWrite := min w.buf.length (f.size - w.pos)
    if w.pos + toWrite ≤ f.block.length then
      some (some toWrite, { f with
        block := f.block.take w.pos ++ w.buf.take toWrite ++ f.block.drop (w.pos + toWrite)
        written := f.written.write w.pos (w.buf.take toWrite) })
    else none

def step (f : ExternalFile) (w : ExternalWrite) : Option ExternalFile :=
  (f.inodeWrite w).map Prod.snd

/-- Every read stays in the registered memory and returns the bytes last written. -/
def Coherent (f : ExternalFile) : Prop := ∀ pos n, f.inodeRead pos n = some (f.written.read pos n)

/-- The bytes last written are those of the registered memory. -/
structure Same (f : ExternalFile) : Prop where
  size : f.size = f.block.length
  byte : ∀ i < f.block.length, f.written.byte i = f.block.getD i 0

variable {f : ExternalFile}

theorem Same.coherent (h : f.Same) (hsize : f.written.size = f.size) : f.Coherent := by
  intro pos n
  have hblock := h.size
  rw [inodeRead, ByteFile.read, hsize]
  by_cases hpos : f.size ≤ pos
  · rw [if_pos hpos, Nat.sub_eq_zero_of_le hpos, Nat.zero_min]
    rfl
  · simp only [if_neg hpos, if_pos (show pos + min n (f.size - pos) ≤ f.block.length by omega)]
    congr 1
    refine List.ext_getElem ?_ fun j hj hj' => ?_
    · rw [List.length_take, List.length_drop, List.length_map, List.length_range]
      omega
    · rw [List.length_map, List.length_range] at hj'
      rw [List.getElem_take, List.getElem_drop, List.getElem_map, List.getElem_range,
        h.byte _ (by omega), List.getD_eq_getElem]

theorem Coherent.same (h : f.Coherent) (hsize : f.written.size = f.size)
    (hle : f.block.length ≤ f.size) : f.Same := by
  have hend : f.size ≤ f.block.length := by
    by_contra hlt
    have hread := h f.block.length 1
    rw [inodeRead, if_neg hlt] at hread
    simp only [show min 1 (f.size - f.block.length) = 1 by omega] at hread
    rw [if_neg (by omega)] at hread
    cases hread
  refine ⟨by omega, fun i hi => ?_⟩
  have hread := h i 1
  rw [inodeRead, if_neg (by omega), ByteFile.read, hsize] at hread
  simp only [show min 1 (f.size - i) = 1 by omega, show min (f.size - i) 1 = 1 by omega] at hread
  rw [if_pos (by omega), List.take_one_drop_eq_of_lt_length hi] at hread
  rw [List.getD_eq_getElem _ _ hi]
  simpa using hread.symm

structure Kept (block : List UInt8) (f : ExternalFile) : Prop where
  written : f.written.size = f.size
  length : f.block.length = block.length
  size : block.length ≤ f.size
  block : f.vnodeId ≠ 0 → f.block = block
  direct : f.vnodeId = 0 → f.Same

theorem Kept.step {block : List UInt8} (h : f.Kept block) (w : ExternalWrite) :
    ∃ f', f.step w = some f' ∧ f'.Kept block ∧ f'.vnodeId = f.vnodeId := by
  unfold ExternalFile.step inodeWrite
  split_ifs with hvnode hpos
  · cases hwrite : f.disk.write w.pages w.pos w.buf with
    | mk r disk =>
      cases r with
      | error e =>
        exact ⟨_, rfl, ⟨h.written, h.length, h.size, h.block, fun h0 => absurd h0 hvnode⟩, rfl⟩
      | ok n =>
        have hn : n = w.buf.length := by
          have := congrArg Prod.fst hwrite
          simp only [Disk.write] at this
          cases hr : (Disk.writeLoop w.pages _ w.buf w.pos).1 with
          | error e => rw [hr] at this; cases this
          | ok u => rw [hr] at this; cases this; rfl
        refine ⟨_, rfl, ⟨?_, h.length, h.size.trans (le_max_left _ _), h.block,
          fun h0 => absurd h0 hvnode⟩, rfl⟩
        simp [ByteFile.write, h.written, hn]
  · exact ⟨f, rfl, h, rfl⟩
  · have h0 : f.vnodeId = 0 := not_not.mp hvnode
    obtain ⟨hsize, hbyte⟩ := h.direct h0
    set k := min w.buf.length (f.size - w.pos) with hk
    have htake : (w.buf.take k).length = k := by rw [List.length_take]; omega
    have hlen : (f.block.take w.pos ++ w.buf.take k ++ f.block.drop (w.pos + k)).length =
        f.block.length := by
      simp only [List.length_append, htake, List.length_take, List.length_drop]
      omega
    -- the copy ends by the size, which is the length of the registered memory
    simp only [show w.pos + k ≤ f.block.length by omega, if_true]
    refine ⟨_, rfl, ⟨?_, hlen.trans h.length, h.size, fun hne => absurd h0 hne,
      fun _ => ⟨?_, fun i hi => ?_⟩⟩, rfl⟩
    · simp only [ByteFile.write, htake, h.written]
      omega
    · rw [hlen, hsize]
    · simp only [hlen] at hi
      simp only [ByteFile.write, htake]
      have hpre : (f.block.take w.pos).length = w.pos := by rw [List.length_take]; omega
      split_ifs with hin
      · rw [List.append_assoc, List.getD_append_right _ _ _ _ (by omega), hpre,
          List.getD_append _ _ _ _ (by omega)]
      · rw [hbyte i hi]
        rcases Nat.lt_or_ge i w.pos with hlt | hge
        · rw [List.append_assoc, List.getD_append _ _ _ _ (by omega)]
          simp [List.getD_eq_getElem?_getD, hlt]
        · rw [List.getD_append_right _ _ _ _ (by simp only [List.length_append]; omega)]
          simp only [List.length_append, hpre, htake, List.getD_eq_getElem?_getD,
            List.getElem?_drop]
          congr 2
          omega

theorem kept_create (block : List UInt8) (vnodeId : Nat) (disk : Disk) (pages : Nat → Nat) :
    (create block vnodeId disk pages).Kept block where
  written := by simp [create, ByteFile.write, ByteFile.empty]
  length := rfl
  size := le_rfl
  block _ := rfl
  direct _ := ⟨rfl, fun i hi => by
    change i < block.length at hi
    simp [create, ByteFile.write, hi]⟩

theorem Kept.run {block : List UInt8} (h : f.Kept block) (ws : List ExternalWrite) :
    ∃ f', ws.foldlM ExternalFile.step f = some f' ∧ f'.Kept block ∧ f'.vnodeId = f.vnodeId := by
  induction ws generalizing f with
  | nil => exact ⟨f, rfl, h, rfl⟩
  | cons w ws ih =>
    obtain ⟨f₁, hstep, h₁, hv₁⟩ := h.step w
    obtain ⟨f₂, hrun, h₂, hv₂⟩ := ih h₁
    exact ⟨f₂, by rw [List.foldlM_cons, hstep]; exact hrun, h₂, hv₂.trans hv₁⟩

end ExternalFile

open ExternalFile

/-- Any writes to an external file stay in the registered memory. Its reads after them are right
and stay in that memory exactly if the file has no vnode or the bytes last written are just those
that the memory was registered with. -/
theorem external_coherent_iff (block : List UInt8) (vnodeId : Nat) (disk : Disk)
    (pages : Nat → Nat) (ws : List ExternalWrite) :
    ∃ f, ws.foldlM step (create block vnodeId disk pages) = some f ∧
      (f.Coherent ↔ vnodeId = 0 ∨ f.written.size = block.length ∧
        ∀ i < block.length, f.written.byte i = block.getD i 0) := by
  obtain ⟨f, hrun, hkept, hvnode⟩ := (kept_create block vnodeId disk pages).run ws
  obtain rfl : f.vnodeId = vnodeId := hvnode
  refine ⟨f, hrun, ?_⟩
  by_cases h0 : f.vnodeId = 0
  · simp only [h0, true_or, iff_true]
    exact (hkept.direct h0).coherent hkept.written
  · simp only [h0, false_or]
    have hblock := hkept.block h0
    constructor
    · intro h
      obtain ⟨hsize, hbyte⟩ := h.same hkept.written (hkept.length ▸ hkept.size)
      rw [hblock] at hsize hbyte
      exact ⟨hkept.written.trans hsize, hbyte⟩
    · rintro ⟨hsize, hbyte⟩
      refine Same.coherent ⟨?_, ?_⟩ hkept.written
      · rw [hblock, ← hsize, hkept.written]
      · rwa [hblock]

/-- A file made from `A`: one write of `B` at its begin, and it still reads `A`; one write behind
its end, and a read leaves the registered memory. -/
theorem external_reads_stale :
    let f := create [65] 3 ⟨.empty, fun _ _ => 0⟩ fun i => i + 1
    (f.step ⟨0, [66], fun i => i + 1⟩).map (·.inodeRead 0 1) = some (some [65]) ∧
    (f.step ⟨0, [66], fun i => i + 1⟩).map (·.written.read 0 1) = some [66] ∧
    (f.step ⟨1, [66], fun i => i + 1⟩).map (·.inodeRead 0 2) = some none := by
  decide +kernel

end Rynex.Fs
