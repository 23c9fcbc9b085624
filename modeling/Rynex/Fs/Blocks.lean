import Rynex.Lib.Run
import Rynex.Fs.Ramfs

/-! The data of a ramfs file: a table of pages of 4096 bytes, some of which may be missing. -/

namespace Rynex.Fs

open Rynex.Lib

def ramfsBlock : Nat := 4096
def maxBlocksPerInode : Nat := 1024

/-- `size`, `blocks` and `block_count` of an inode. A page is given by its address; 0 is null. -/
structure RamFile where
  size : Nat
  blocks : Nat → Nat
  blockCount : Nat

def RamFile.empty : RamFile := ⟨0, fun _ => 0, 0⟩

/-- One file, and the bytes of all pages. -/
structure Disk where
  file : RamFile
  mem : Nat → Nat → UInt8

namespace Disk

/-- `ensure_block`, where the allocator answers `page`. The pointer that it returns is that of the
table. -/
def ensureBlock (s : Disk) (page idx : Nat) : Except String Disk :=
  if maxBlocksPerInode ≤ idx then .error "ramfs: too many blocks"
  else if s.file.blocks idx ≠ 0 then .ok s
  else if page = 0 then .error "ramfs: oom"
  else .ok {
    file := { s.file with
      blocks := Function.update s.file.blocks idx page
      blockCount := if s.file.blockCount ≤ idx then idx + 1 else s.file.blockCount }
    mem := Function.update s.mem page fun _ => 0 }

/-- The bytes are copied to the page. -/
def store (s : Disk) (page off : Nat) (bytes : List UInt8) : Disk :=
  { s with mem := Function.update s.mem page fun j =>
      if off ≤ j ∧ j < off + bytes.length then bytes.getD (j - off) 0 else s.mem page j }

/-- The loop of `write` over the rest of the buffer. A call asks for a page at most once for each
block; `pages` has the answers. -/
def writeLoop (pages : Nat → Nat) (s : Disk) (buf : List UInt8) (pos : Nat) :
    Except String Unit × Disk :=
  if _h : buf = [] then (.ok (), s)
  else
    match s.ensureBlock (pages (pos / ramfsBlock)) (pos / ramfsBlock) with
    | .error e => (.error e, s)
    | .ok s =>
      let chunk := min buf.length (ramfsBlock - pos % ramfsBlock)
      writeLoop pages
        (s.store (s.file.blocks (pos / ramfsBlock)) (pos % ramfsBlock) (buf.take chunk))
        (buf.drop chunk) (pos + chunk)
termination_by buf.length
decreasing_by
  have : 0 < buf.length := List.length_pos_iff.mpr ‹_›
  have := Nat.mod_lt pos (show 0 < ramfsBlock by decide)
  rw [List.length_drop]
  omega

def setSize (s : Disk) (size : Nat) : Disk := { s with file := { s.file with size := size } }

def writeEnd (offset : Nat) (buf : List UInt8) : Nat := (offset + buf.length) % 2 ^ 64

/-- `write` sets the size before it asks for a block. -/
def write (s : Disk) (pages : Nat → Nat) (offset : Nat) (buf : List UInt8) :
    Except String Nat × Disk :=
  let s := if s.file.size < writeEnd offset buf then s.setSize (writeEnd offset buf) else s
  let r := writeLoop pages s buf offset
  (r.1.map fun _ => buf.length, r.2)

/-- The loop of `read`, with `n` bytes to go. There is no result if it indexes out of the table. -/
def readLoop (s : Disk) (n pos : Nat) : Option (List UInt8) :=
  if _h : n = 0 then some []
  else if s.file.blockCount ≤ pos / ramfsBlock then some []
  else if maxBlocksPerInode ≤ pos / ramfsBlock then none
  else if s.file.blocks (pos / ramfsBlock) = 0 then some []
  else
    let chunk := min n (ramfsBlock - pos % ramfsBlock)
    (s.readLoop (n - chunk) (pos + chunk)).map fun rest =>
      (List.range chunk).map
        (fun j => s.mem (s.file.blocks (pos / ramfsBlock)) (pos % ramfsBlock + j)) ++ rest
termination_by n
decreasing_by
  have := Nat.mod_lt pos (show 0 < ramfsBlock by decide)
  omega

def read (s : Disk) (offset n : Nat) : Option (List UInt8) :=
  if s.file.size ≤ offset then some [] else s.readLoop (min (s.file.size - offset) n) offset

/-- The number of blocks that `truncate` computes. -/
def newBlocks (size : Nat) : Nat := (size + (ramfsBlock - 1)) % 2 ^ 64 / ramfsBlock

/-- `truncate`. There is no result if it indexes out of the table. -/
def truncate (s : Disk) (size : Nat) : Option Disk :=
  if newBlocks size < s.file.blockCount ∧ maxBlocksPerInode < s.file.blockCount then none
  else some { s with file := {
    size := size
    blocks := fun i =>
      if newBlocks size ≤ i ∧ i < s.file.blockCount then 0 else s.file.blocks i
    blockCount := newBlocks size } }

/-! ### What a write does -/

/-- The byte at a place of the file, 0 where there is no block. -/
def byteAt (s : Disk) (k : Nat) : UInt8 :=
  if s.file.blocks (k / ramfsBlock) = 0 then 0
  else s.mem (s.file.blocks (k / ramfsBlock)) (k % ramfsBlock)

/-- Each page is at one place of the table, below the count. -/
structure Sound (s : Disk) : Prop where
  distinct : ∀ i j, s.file.blocks i ≠ 0 → s.file.blocks i = s.file.blocks j → i = j
  below : ∀ i, s.file.blocks i ≠ 0 → i < s.file.blockCount
  count : s.file.blockCount ≤ maxBlocksPerInode

/-- The pages that the allocator answers are not in the table, and no two of them are the same. -/
structure Fresh (s : Disk) (pages : Nat → Nat) : Prop where
  unused : ∀ i, s.file.blocks i = 0 → pages i ≠ 0 → ∀ j, s.file.blocks j ≠ pages i
  distinct : ∀ i j, pages i ≠ 0 → pages i = pages j → i = j

variable {s s' : Disk} {pages : Nat → Nat} {idx pos page off : Nat} {buf bytes : List UInt8}

/-- What a write does to the table and the pages, whether it fails or not. -/
structure Touched (s : Disk) (pages : Nat → Nat) (s' : Disk) : Prop where
  blocks : ∀ i, s'.file.blocks i = s.file.blocks i ∨
    s.file.blocks i = 0 ∧ pages i ≠ 0 ∧ s'.file.blocks i = pages i
  below : (∀ i, s.file.blocks i ≠ 0 → i < s.file.blockCount) →
    ∀ i, s'.file.blocks i ≠ 0 → i < s'.file.blockCount
  count : s.file.blockCount ≤ maxBlocksPerInode → s'.file.blockCount ≤ maxBlocksPerInode
  mem : ∀ p ≠ 0, (∀ i, s'.file.blocks i ≠ p) → s'.mem p = s.mem p

theorem Touched.refl (s : Disk) (pages : Nat → Nat) : Touched s pages s :=
  ⟨fun _ => .inl rfl, id, id, fun _ _ _ => rfl⟩

theorem Touched.kept (h : Touched s pages s') {i : Nat} (hi : s.file.blocks i ≠ 0) :
    s'.file.blocks i = s.file.blocks i :=
  (h.blocks i).resolve_right fun h0 => hi h0.1

theorem Touched.trans {s'' : Disk} (h : Touched s pages s') (h' : Touched s' pages s'') :
    Touched s pages s'' where
  blocks i := by
    rcases h.blocks i with heq | ⟨hnull, hpage, heq⟩
    · rw [← heq]; exact h'.blocks i
    · exact .inr ⟨hnull, hpage, (h'.kept (by rwa [heq])).trans heq⟩
  below := h'.below ∘ h.below
  count := h'.count ∘ h.count
  mem p hne hp := by
    refine (h'.mem p hne hp).trans (h.mem p hne fun i hi => ?_)
    exact hp i ((h'.kept (by rwa [hi])).trans hi)

theorem touched_ensureBlock {idx : Nat} (h : s.ensureBlock (pages idx) idx = .ok s') :
    Touched s pages s' := by
  unfold ensureBlock at h
  by_cases hmax : maxBlocksPerInode ≤ idx
  · rw [if_pos hmax] at h; cases h
  rw [if_neg hmax] at h
  by_cases hnull : s.file.blocks idx = 0
  · rw [if_neg (not_not.mpr hnull)] at h
    by_cases hpage : pages idx = 0
    · rw [if_pos hpage] at h; cases h
    rw [if_neg hpage] at h
    cases h
    refine ⟨fun i => ?_, fun hb i hi => ?_, fun hc => ?_, fun p _ hp => ?_⟩
    · by_cases hi : i = idx
      · subst hi; exact .inr ⟨hnull, hpage, Function.update_self ..⟩
      · exact .inl (Function.update_of_ne hi ..)
    · simp only [Function.update_apply] at hi ⊢
      split_ifs at hi with hi'
      · split_ifs <;> omega
      · have := hb i hi
        split_ifs <;> omega
    · simp only
      split_ifs <;> omega
    · have := hp idx
      simp only [Function.update_self] at this
      exact Function.update_of_ne this.symm ..
  · rw [if_pos hnull] at h
    cases h
    exact .refl s pages

theorem touched_writeLoop (pages : Nat → Nat) (s : Disk) (buf : List UInt8) (pos : Nat) :
    Touched s pages (writeLoop pages s buf pos).2 := by
  fun_induction writeLoop pages s buf pos with
  | case1 s pos => exact .refl s pages
  | case2 s => exact .refl s pages
  | case3 s buf pos hne s₁ hensure chunk ih =>
    have hstore : Touched s₁ pages
        (s₁.store (s₁.file.blocks (pos / ramfsBlock)) (pos % ramfsBlock) (buf.take chunk)) :=
      ⟨fun _ => .inl rfl, id, id, fun p _ hp => Function.update_of_ne (hp _).symm ..⟩
    exact (touched_ensureBlock hensure).trans (hstore.trans ih)

theorem Touched.sound (ht : Touched s pages s') (h : s.Sound) (hf : s.Fresh pages) : s'.Sound := by
  refine ⟨fun i j hi heq => ?_, ht.below h.below, ht.count h.count⟩
  rcases ht.blocks i with hi' | ⟨hn, hp, hi'⟩ <;> rcases ht.blocks j with hj' | ⟨hn', hp', hj'⟩ <;>
    rw [hi', hj'] at heq
  · exact h.distinct i j (hi' ▸ hi) heq
  · exact absurd heq (hf.unused j hn' hp' i)
  · exact absurd heq.symm (hf.unused i hn hp j)
  · exact hf.distinct i j hp heq

theorem Touched.fresh (ht : Touched s pages s') (hf : s.Fresh pages) : s'.Fresh pages := by
  refine ⟨fun i hi hp j hj => ?_, hf.distinct⟩
  rcases ht.blocks j with hj' | ⟨-, hp', hj'⟩ <;> rw [hj'] at hj
  · refine hf.unused i ?_ hp j hj
    by_contra hne
    exact hne (ht.kept hne ▸ hi)
  · obtain rfl := hf.distinct j i hp' hj
    exact hp (hj' ▸ hi)

/-- A block that is there after `ensure_block` reads as before: a new one is cleared. -/
theorem byteAt_ensureBlock (hf : s.Fresh pages) (hok : s.ensureBlock (pages idx) idx = .ok s') :
    s'.file.blocks idx ≠ 0 ∧ s'.byteAt = s.byteAt := by
  unfold ensureBlock at hok
  by_cases hmax : maxBlocksPerInode ≤ idx
  · rw [if_pos hmax] at hok; cases hok
  rw [if_neg hmax] at hok
  by_cases hnull : s.file.blocks idx = 0
  · rw [if_neg (not_not.mpr hnull)] at hok
    by_cases hpage : pages idx = 0
    · rw [if_pos hpage] at hok; cases hok
    rw [if_neg hpage] at hok
    cases hok
    refine ⟨by simpa using hpage, ?_⟩
    funext k
    simp only [byteAt]
    by_cases hk : k / ramfsBlock = idx
    · simp [hk, hnull, hpage]
    · rw [Function.update_of_ne hk, Function.update_of_ne (hf.unused idx hnull hpage _)]
  · rw [if_pos hnull] at hok
    cases hok
    exact ⟨hnull, rfl⟩

theorem Sound.store (h : s.Sound) : (s.store page off bytes).Sound := ⟨h.distinct, h.below, h.count⟩

/-- A chunk that lies in one block changes its own bytes of the file. -/
theorem Sound.byteAt_store (h : s.Sound) (hpresent : s.file.blocks (pos / ramfsBlock) ≠ 0)
    (hlen : pos % ramfsBlock + bytes.length ≤ ramfsBlock) (k : Nat) :
    (s.store (s.file.blocks (pos / ramfsBlock)) (pos % ramfsBlock) bytes).byteAt k =
      if pos ≤ k ∧ k < pos + bytes.length then bytes.getD (k - pos) 0 else s.byteAt k := by
  unfold byteAt Disk.store ramfsBlock at *
  simp only [Function.update_apply]
  by_cases hk : k / 4096 = pos / 4096
  · have hcond : (pos % 4096 ≤ k % 4096 ∧ k % 4096 < pos % 4096 + bytes.length) ↔
        (pos ≤ k ∧ k < pos + bytes.length) := by omega
    have hsub : k % 4096 - pos % 4096 = k - pos := by omega
    simp only [hk, hpresent, if_false, if_true, hcond, hsub]
  · have hcond : ¬ (pos ≤ k ∧ k < pos + bytes.length) := by omega
    rw [if_neg hcond]
    by_cases hnull : s.file.blocks (k / 4096) = 0
    · simp [hnull]
    · have hne : s.file.blocks (k / 4096) ≠ s.file.blocks (pos / 4096) :=
        fun heq => hk (h.distinct _ _ hnull heq)
      simp [hnull, hne]

/-- The block cannot be had: the table has no place for it, or it is not there and there is no
page. -/
def Lacks (s : Disk) (pages : Nat → Nat) (i : Nat) : Prop :=
  maxBlocksPerInode ≤ i ∨ s.file.blocks i = 0 ∧ pages i = 0

/-- The blocks that a write from `pos` to `stop` stores to: those before the first that cannot be
had. -/
structure Reached (s : Disk) (pages : Nat → Nat) (pos stop i : Nat) : Prop where
  some : pos < stop
  low : pos / ramfsBlock ≤ i
  high : i * ramfsBlock < stop
  had : ∀ j, pos / ramfsBlock ≤ j → j ≤ i → ¬ s.Lacks pages j

theorem ensureBlock_error_iff : (∃ e, s.ensureBlock page idx = .error e) ↔
    maxBlocksPerInode ≤ idx ∨ s.file.blocks idx = 0 ∧ page = 0 := by
  unfold ensureBlock
  split_ifs <;> simp_all

theorem blocks_ensureBlock (hok : s.ensureBlock page idx = .ok s') {i : Nat} (hi : i ≠ idx) :
    s'.file.blocks i = s.file.blocks i := by
  unfold ensureBlock at hok
  split_ifs at hok <;> cases hok
  · rfl
  all_goals exact Function.update_of_ne hi ..

/-- What the loop of a write does, whether it fails or not. -/
structure Wrote (s : Disk) (pages : Nat → Nat) (pos : Nat) (buf : List UInt8) (s' : Disk) :
    Prop where
  present : ∀ i, s'.file.blocks i ≠ 0 ↔
    s.file.blocks i ≠ 0 ∨ s.Reached pages pos (pos + buf.length) i
  bytes : ∀ k, pos ≤ k → k < pos + buf.length →
    s.Reached pages pos (pos + buf.length) (k / ramfsBlock) → s'.byteAt k = buf.getD (k - pos) 0
  kept : ∀ k, ¬ (pos ≤ k ∧ k < pos + buf.length ∧
    s.Reached pages pos (pos + buf.length) (k / ramfsBlock)) → s'.byteAt k = s.byteAt k

/-- A write reaches its first block, if it can be had, and from the next one on what the rest of
the loop reaches. -/
theorem reached_iff {stop chunk i : Nat} (hlt : pos < stop)
    (hchunk : chunk = min (stop - pos) (ramfsBlock - pos % ramfsBlock))
    (hlacks : ∀ j, s'.Lacks pages j ↔ s.Lacks pages j) (hhad : ¬ s.Lacks pages (pos / ramfsBlock)) :
    s.Reached pages pos stop i ↔ i = pos / ramfsBlock ∨ s'.Reached pages (pos + chunk) stop i := by
  constructor
  · rintro ⟨-, hlow, hhigh, hall⟩
    by_cases hi : i = pos / ramfsBlock
    · exact .inl hi
    · refine .inr ⟨?_, ?_, hhigh, fun j hj hji => mt (hlacks j).mp (hall j ?_ hji)⟩
      all_goals simp only [ramfsBlock] at *; omega
  · rintro (rfl | ⟨hsome, hlow, hhigh, hall⟩)
    · refine ⟨hlt, le_rfl, ?_, fun j hj hji => ?_⟩
      · simp only [ramfsBlock]; omega
      · rwa [le_antisymm hji hj]
    · refine ⟨hlt, ?_, hhigh, fun j hj hji => ?_⟩
      · simp only [ramfsBlock] at *; omega
      · by_cases hj' : j = pos / ramfsBlock
        · rwa [hj']
        · exact mt (hlacks j).mpr (hall j (by simp only [ramfsBlock] at *; omega) hji)

theorem Sound.wrote (h : s.Sound) (hf : s.Fresh pages) :
    s.Wrote pages pos buf (writeLoop pages s buf pos).2 := by
  fun_induction writeLoop pages s buf pos with
  | case1 s pos =>
    have hnone (i : Nat) : ¬ s.Reached pages pos (pos + ([] : List UInt8).length) i :=
      fun hr => lt_irrefl pos hr.some
    exact ⟨fun i => (or_iff_left (hnone i)).symm, fun k _ _ hr => absurd hr (hnone _),
      fun _ _ => rfl⟩
  | case2 s buf pos hne e herror =>
    have hnone (i : Nat) : ¬ s.Reached pages pos (pos + buf.length) i := fun hr =>
      hr.had _ le_rfl hr.low (ensureBlock_error_iff.mp ⟨e, herror⟩)
    exact ⟨fun i => (or_iff_left (hnone i)).symm, fun k _ _ hr => absurd hr (hnone _),
      fun _ _ => rfl⟩
  | case3 s buf pos hne s₁ hensure chunk ih =>
    have ht := touched_ensureBlock hensure
    obtain ⟨hblock, hsame⟩ := byteAt_ensureBlock hf hensure
    have hsound := ht.sound h hf
    have hfresh := ht.fresh hf
    set s₂ := s₁.store (s₁.file.blocks (pos / ramfsBlock)) (pos % ramfsBlock) (buf.take chunk)
      with hs₂
    have hmod := Nat.mod_lt pos (show 0 < ramfsBlock by decide)
    have hpos : 0 < buf.length := List.length_pos_iff.mpr hne
    have hchunk : chunk = min buf.length (ramfsBlock - pos % ramfsBlock) := rfl
    have hlen : (buf.take chunk).length = chunk := by rw [List.length_take]; omega
    have hrest : pos + chunk + (buf.drop chunk).length = pos + buf.length := by
      rw [List.length_drop]; omega
    have hhad : ¬ s.Lacks pages (pos / ramfsBlock) := fun hl => by
      obtain ⟨e, he⟩ := ensureBlock_error_iff.mpr hl
      cases he.symm.trans hensure
    have hother (i : Nat) (hi : i ≠ pos / ramfsBlock) : s₂.file.blocks i = s.file.blocks i :=
      blocks_ensureBlock hensure hi
    have hlacks (j : Nat) : s₂.Lacks pages j ↔ s.Lacks pages j := by
      by_cases hj : j = pos / ramfsBlock
      · rw [hj]
        refine iff_of_false (fun hl => ?_) hhad
        exact hl.elim (fun hmax => hhad (.inl hmax)) fun hnull => hblock hnull.1
      · rw [Lacks, Lacks, hother j hj]
    have hreach (i : Nat) : s.Reached pages pos (pos + buf.length) i ↔
        i = pos / ramfsBlock ∨ s₂.Reached pages (pos + chunk) (pos + buf.length) i :=
      reached_iff (by omega) (by rw [Nat.add_sub_cancel_left]) hlacks hhad
    obtain ⟨hpresent, hbytes, hkept⟩ := ih hsound.store ⟨hfresh.unused, hfresh.distinct⟩
    rw [hrest] at hpresent hbytes hkept
    have hstore (k : Nat) : s₂.byteAt k =
        if pos ≤ k ∧ k < pos + chunk then (buf.take chunk).getD (k - pos) 0 else s.byteAt k := by
      rw [hs₂, hsound.byteAt_store hblock (by omega), hsame, hlen]
    constructor
    case present =>
      intro i
      rw [hpresent, hreach]
      by_cases hi : i = pos / ramfsBlock
      · rw [hi]
        exact iff_of_true (.inl hblock) (.inr (.inl rfl))
      · rw [hother i hi]
        simp [hi]
    case bytes =>
      intro k hk hlt hr
      by_cases hkc : k < pos + chunk
      · rw [hkept k (by omega), hstore, if_pos ⟨hk, hkc⟩, List.getD_eq_getElem?_getD,
          List.getElem?_take_of_lt (by omega), List.getD_eq_getElem?_getD]
      · have hblk : k / ramfsBlock ≠ pos / ramfsBlock := by unfold ramfsBlock at *; omega
        rw [hbytes k (by omega) hlt (((hreach _).mp hr).resolve_left hblk),
          List.getD_eq_getElem?_getD, List.getElem?_drop, List.getD_eq_getElem?_getD]
        congr 2
        omega
    case kept =>
      intro k hk
      rw [hkept k fun hin => hk ⟨by omega, hin.2.1, (hreach _).mpr (.inr hin.2.2)⟩, hstore, if_neg]
      intro hin
      exact hk ⟨hin.1, by omega, (hreach _).mpr (.inl (by unfold ramfsBlock at *; omega))⟩

theorem reached_of_limit {stop k : Nat} (hlimit : stop ≤ ramfsBlock * maxBlocksPerInode)
    (hpages : ∀ i, pages i ≠ 0) (hk : pos ≤ k) (hlt : k < stop) :
    s.Reached pages pos stop (k / ramfsBlock) := by
  refine ⟨by omega, Nat.div_le_div_right hk, by unfold ramfsBlock; omega, ?_⟩
  rintro j - hj (hmax | ⟨-, hpage⟩)
  · unfold ramfsBlock maxBlocksPerInode at *
    omega
  · exact hpages j hpage

theorem size_writeLoop (pages : Nat → Nat) (s : Disk) (buf : List UInt8) (pos : Nat) :
    (writeLoop pages s buf pos).2.file.size = s.file.size := by
  fun_induction writeLoop pages s buf pos with
  | case1 => rfl
  | case2 => rfl
  | case3 s buf pos hne s₁ hensure chunk ih =>
    rw [ih]
    unfold ensureBlock at hensure
    split_ifs at hensure <;> cases hensure <;> rfl

theorem size_write (s : Disk) (pages : Nat → Nat) (offset : Nat) (buf : List UInt8) :
    (s.write pages offset buf).2.file.size = max s.file.size (writeEnd offset buf) := by
  simp only [Disk.write, size_writeLoop]
  split_ifs with hlt
  · exact (max_eq_right hlt.le).symm
  · exact (max_eq_left (not_lt.mp hlt)).symm

theorem Fresh.write (hf : s.Fresh pages) (offset : Nat) (buf : List UInt8) :
    (s.write pages offset buf).2.Fresh pages := by
  refine (touched_writeLoop pages _ buf offset).fresh ?_
  split_ifs
  · exact ⟨hf.unused, hf.distinct⟩
  · exact hf

/-! ### The file as an array of bytes -/

theorem readLoop_eq (h : s.Sound) {n : Nat}
    (hpresent : ∀ k, pos ≤ k → k < pos + n → s.file.blocks (k / ramfsBlock) ≠ 0) :
    s.readLoop n pos = some ((List.range n).map fun j => s.byteAt (pos + j)) := by
  fun_induction readLoop s n pos with
  | case1 => rfl
  | case2 n pos hn hcount =>
    have := h.below _ (hpresent pos le_rfl (by omega))
    omega
  | case3 n pos hn hcount hmax =>
    have := h.count
    omega
  | case4 n pos hn _ _ hnull => exact absurd hnull (hpresent pos le_rfl (by omega))
  | case5 n pos hn hcount hmax hblock chunk ih =>
    have hmod := Nat.mod_lt pos (show 0 < ramfsBlock by decide)
    have hchunk : chunk = min n (ramfsBlock - pos % ramfsBlock) := rfl
    rw [ih fun k hk hlt => hpresent k (by omega) (by omega), Option.map_some]
    have hn' : n = chunk + (n - chunk) := by omega
    conv_rhs => rw [hn', List.range_add, List.map_append, List.map_map]
    congr 2
    · refine List.map_congr_left fun j hj => ?_
      have hj := List.mem_range.mp hj
      have hdiv : (pos + j) / ramfsBlock = pos / ramfsBlock := by unfold ramfsBlock at *; omega
      have hrem : (pos + j) % ramfsBlock = pos % ramfsBlock + j := by unfold ramfsBlock at *; omega
      rw [byteAt, hdiv, hrem, if_neg hblock]
    · refine List.map_congr_left fun j _ => ?_
      rw [Function.comp_apply, Nat.add_assoc]

end Disk

/-- A file as it should be: its size, and a byte at each place below. -/
structure ByteFile where
  size : Nat
  byte : Nat → UInt8

namespace ByteFile

def empty : ByteFile := ⟨0, fun _ => 0⟩

def write (a : ByteFile) (offset : Nat) (buf : List UInt8) : ByteFile where
  size := max a.size (offset + buf.length)
  byte := fun k =>
    if offset ≤ k ∧ k < offset + buf.length then buf.getD (k - offset) 0 else a.byte k

/-- What is cut off is 0 should the file grow again. -/
def truncate (a : ByteFile) (size : Nat) : ByteFile where
  size := size
  byte := fun k => if k < size then a.byte k else 0

def read (a : ByteFile) (offset n : Nat) : List UInt8 :=
  (List.range (min (a.size - offset) n)).map fun j => a.byte (offset + j)

end ByteFile

/-- The calls that change a file. A write has the pages that the allocator answers with. -/
inductive FileOp where
  | write (pages : Nat → Nat) (offset : Nat) (buf : List UInt8)
  | truncate (size : Nat)

def ByteFile.step (a : ByteFile) : FileOp → ByteFile
  | .write _ offset buf => a.write offset buf
  | .truncate size => a.truncate size

namespace Disk

def step (s : Disk) : FileOp → Disk
  | .write pages offset buf => (s.write pages offset buf).2
  | .truncate size => (s.truncate size).getD s

/-- The allocation succeeds, with pages that are not in use, and the file keeps to its limit of
4 MiB. -/
def Allocates (s : Disk) : FileOp → Prop
  | .write pages offset buf => (∀ i, pages i ≠ 0) ∧ s.Fresh pages ∧
      offset + buf.length ≤ ramfsBlock * maxBlocksPerInode
  | .truncate size => size ≤ ramfsBlock * maxBlocksPerInode

/-- A write does not start beyond the end of the file, and a truncation does not make the file
grow. -/
def Contiguous (s : Disk) : FileOp → Prop
  | .write _ offset _ => offset ≤ s.file.size
  | .truncate size => size ≤ s.file.size

/-- The file has all blocks below its size, and they hold the bytes. -/
structure Refines (s : Disk) (a : ByteFile) : Prop where
  sound : s.Sound
  size : s.file.size = a.size
  limit : a.size ≤ ramfsBlock * maxBlocksPerInode
  present : ∀ k < a.size, s.file.blocks (k / ramfsBlock) ≠ 0
  bytes : ∀ k < a.size, s.byteAt k = a.byte k

variable {s : Disk} {a : ByteFile}

theorem Refines.read (h : s.Refines a) (offset n : Nat) :
    s.read offset n = some (a.read offset n) := by
  unfold Disk.read ByteFile.read
  rw [h.size]
  split_ifs with hend
  · rw [Nat.sub_eq_zero_of_le hend, Nat.zero_min]
    rfl
  · rw [readLoop_eq h.sound fun k _ hlt => h.present k (by omega)]
    congr 1
    refine List.map_congr_left fun j hj => h.bytes _ ?_
    have := List.mem_range.mp hj
    omega

theorem Refines.write {pages : Nat → Nat} {offset : Nat} {buf : List UInt8} (h : s.Refines a)
    (halloc : s.Allocates (.write pages offset buf)) (hle : offset ≤ s.file.size) :
    (s.write pages offset buf).2.Refines (a.write offset buf) := by
  obtain ⟨hpages, hfresh, hlimit⟩ := halloc
  have hend : writeEnd offset buf = offset + buf.length :=
    Nat.mod_eq_of_lt (by unfold ramfsBlock maxBlocksPerInode at hlimit; omega)
  have hsize := size_write s pages offset buf
  -- but for the size the loop starts from the file as it was
  obtain ⟨n, hn⟩ : ∃ n, (s.write pages offset buf).2 =
      (writeLoop pages (s.setSize n) buf offset).2 := by
    unfold Disk.write
    split_ifs
    · exact ⟨_, rfl⟩
    · exact ⟨s.file.size, rfl⟩
  rw [hn] at hsize ⊢
  have hsound : (s.setSize n).Sound := ⟨h.sound.distinct, h.sound.below, h.sound.count⟩
  have hfresh₁ : (s.setSize n).Fresh pages := ⟨hfresh.unused, hfresh.distinct⟩
  have hw : (s.setSize n).Wrote pages offset buf _ := hsound.wrote hfresh₁
  have hlow := h.size ▸ hle
  have ht := touched_writeLoop pages (s.setSize n) buf offset
  refine ⟨ht.sound hsound hfresh₁, by rw [hsize, hend, h.size]; rfl, max_le h.limit hlimit,
    fun k hk => ?_, fun k hk => ?_⟩
  · by_cases hin : offset ≤ k ∧ k < offset + buf.length
    · exact (hw.present _).mpr (.inr (reached_of_limit hlimit hpages hin.1 hin.2))
    · simp only [ByteFile.write, lt_max_iff] at hk
      have hp := h.present k (by omega)
      rw [ht.kept hp]
      exact hp
  · simp only [ByteFile.write, lt_max_iff] at hk ⊢
    split_ifs with hin
    · exact hw.bytes k hin.1 hin.2 (reached_of_limit hlimit hpages hin.1 hin.2)
    · rw [hw.kept k fun hr => hin ⟨hr.1, hr.2.1⟩]
      exact h.bytes k (by omega)

theorem Refines.truncate {size : Nat} (h : s.Refines a) (hle : size ≤ s.file.size) :
    ((s.truncate size).getD s).Refines (a.truncate size) := by
  have hcount := h.sound.count
  have hlimit := h.limit
  have hsize := h.size ▸ hle
  have hnew : newBlocks size = (size + 4095) / 4096 := by
    unfold newBlocks ramfsBlock maxBlocksPerInode at *
    omega
  unfold Disk.truncate
  rw [if_neg (by omega), Option.getD_some]
  have hbelow {i : Nat} (hi : (if newBlocks size ≤ i ∧ i < s.file.blockCount then 0
      else s.file.blocks i) ≠ 0) : i < newBlocks size ∧ s.file.blocks i ≠ 0 := by
    split_ifs at hi with hcut
    · exact absurd rfl hi
    · have := h.sound.below i hi
      exact ⟨by omega, hi⟩
  have hkeep {k : Nat} (hk : k < size) : (if newBlocks size ≤ k / ramfsBlock ∧
      k / ramfsBlock < s.file.blockCount then 0 else s.file.blocks (k / ramfsBlock)) =
      s.file.blocks (k / ramfsBlock) := by
    rw [if_neg]
    unfold ramfsBlock
    omega
  refine ⟨⟨fun i j hi hij => ?_, fun i hi => (hbelow hi).1, ?_⟩, rfl, hsize.trans hlimit,
    fun k hk => ?_, fun k hk => ?_⟩
  · have hj := hbelow (hij ▸ hi)
    have hi' := hbelow hi
    simp only at hij
    rw [if_neg (by omega), if_neg (by omega)] at hij
    exact h.sound.distinct i j hi'.2 hij
  · unfold ramfsBlock maxBlocksPerInode at *
    simp only
    omega
  · simp only [ByteFile.truncate] at hk
    simp only [hkeep hk]
    exact h.present k (by omega)
  · simp only [ByteFile.truncate] at hk
    simp only [byteAt, hkeep hk, ByteFile.truncate, if_pos hk]
    exact h.bytes k (by omega)

theorem Refines.step {op : FileOp} (h : s.Refines a) (halloc : s.Allocates op)
    (hok : s.Contiguous op) : (s.step op).Refines (a.step op) := by
  cases op with
  | write pages offset buf => exact h.write halloc hok
  | truncate size => exact h.truncate hok

theorem Refines.run {ops : List FileOp} (h : s.Refines a)
    (hops : Steps Disk.step (fun s op => s.Allocates op ∧ s.Contiguous op) s ops) :
    (ops.foldl Disk.step s).Refines (ops.foldl ByteFile.step a) := by
  induction ops generalizing s a with
  | nil => exact h
  | cons op ops ih => exact ih (h.step hops.1.1 hops.1.2) hops.2

theorem refines_empty (mem : Nat → Nat → UInt8) : Refines ⟨.empty, mem⟩ .empty :=
  ⟨⟨nofun, nofun, Nat.zero_le _⟩, rfl, Nat.zero_le _, nofun, nofun⟩

end Disk

open Disk

/-- Over every run in which no write starts beyond the end of the file and no truncation makes it
grow, a file reads as the array of bytes does. -/
theorem file_is_byte_array (mem : Nat → Nat → UInt8) {ops : List FileOp}
    (hops : Steps Disk.step (fun s op => s.Allocates op ∧ s.Contiguous op) ⟨.empty, mem⟩ ops)
    (offset n : Nat) : (ops.foldl Disk.step ⟨.empty, mem⟩).read offset n =
      some ((ops.foldl ByteFile.step .empty).read offset n) :=
  ((refines_empty mem).run hops).read offset n

/-- A write over the end of a block, one in the first block, and a truncation. -/
theorem file_is_byte_array_cut :
    let ops : List FileOp := [.write (· + 1) 0 (List.replicate 4097 97), .write (· + 1) 1 [98],
      .truncate 2]
    (ops.foldl Disk.step ⟨.empty, fun _ _ => 7⟩).read 0 4 =
      some ((ops.foldl ByteFile.step .empty).read 0 4) := by
  intro ops
  have hpages (i : Nat) : i + 1 ≠ 0 := i.succ_ne_zero
  have hfresh : Fresh ⟨.empty, fun _ _ => 7⟩ (· + 1) :=
    ⟨fun i _ _ _ => (hpages i).symm, fun _ _ _ => Nat.succ.inj⟩
  have hsteps : Steps Disk.step (fun s op => s.Allocates op ∧ s.Contiguous op)
      ⟨.empty, fun _ _ => 7⟩ ops := by
    refine ⟨⟨⟨hpages, hfresh, ?_⟩, Nat.zero_le _⟩, ⟨⟨hpages, ?_, by decide⟩, ?_⟩,
      ⟨show 2 ≤ ramfsBlock * maxBlocksPerInode by decide, ?_⟩, trivial⟩
    · rw [List.length_replicate]; decide
    · exact hfresh.write 0 _
    · refine le_of_le_of_eq ?_ (size_write _ _ _ _).symm
      rw [writeEnd, List.length_replicate]; decide
    · refine le_of_le_of_eq ?_ (size_write _ _ _ _).symm
      exact le_max_of_le_right (by decide)
  exact file_is_byte_array _ hsteps 0 4

/-- A byte is written beyond a block that is never written: reading from the start stops there. -/
theorem hole_stops_read :
    (([.write (· + 1) 4096 [97]] : List FileOp).foldl Disk.step ⟨.empty, fun _ _ => 0⟩).read 0 1 =
      some [] ∧
    (([.write (· + 1) 4096 [97]] : List FileOp).foldl ByteFile.step .empty).read 0 1 = [0] := by
  refine ⟨?_, by decide⟩
  simp [Disk.step, Disk.write, writeLoop, ensureBlock, RamFile.empty, writeEnd, Disk.setSize,
    Disk.store, Disk.read, readLoop, ramfsBlock, maxBlocksPerInode]

/-! ### Writes that fail -/

namespace Disk

variable {s s' : Disk} {pos k n : Nat}

theorem readLoop_of_null (h : s.Sound) (hnull : s.file.blocks (pos / ramfsBlock) = 0) :
    s.readLoop n pos = some [] := by
  rw [readLoop]
  have := h.count
  split_ifs
  · rfl
  · rfl
  · omega
  · rfl

theorem read_one (h : s.Sound) (hk : k < s.file.size) :
    s.read k 1 = some (if s.file.blocks (k / ramfsBlock) = 0 then [] else [s.byteAt k]) := by
  rw [Disk.read, if_neg (not_le.mpr hk), min_eq_right (by omega)]
  split_ifs with hnull
  · exact readLoop_of_null h hnull
  · rw [readLoop_eq h fun j hj hlt => by rwa [show j = k by omega]]
    rfl

theorem readLoop_congr (h : s.Sound) (h' : s'.Sound) {size : Nat} (hle : pos + n ≤ size)
    (hnull : ∀ i, i * ramfsBlock < size → (s'.file.blocks i = 0 ↔ s.file.blocks i = 0))
    (hbyte : ∀ k < size, s'.byteAt k = s.byteAt k) : s'.readLoop n pos = s.readLoop n pos := by
  fun_induction readLoop s n pos with
  | case1 => rw [readLoop, dif_pos rfl]
  | case2 n pos hn hcount =>
    refine readLoop_of_null h' ((hnull _ (by unfold ramfsBlock; omega)).mpr ?_)
    by_contra hne
    exact absurd (h.below _ hne) (not_lt.mpr hcount)
  | case3 n pos hn hcount hmax =>
    have := h.count
    omega
  | case4 n pos hn _ _ hzero =>
    exact readLoop_of_null h' ((hnull _ (by unfold ramfsBlock; omega)).mpr hzero)
  | case5 n pos hn hcount hmax hblock chunk ih =>
    have hmod := Nat.mod_lt pos (show 0 < ramfsBlock by decide)
    have hchunk : chunk = min n (ramfsBlock - pos % ramfsBlock) := rfl
    have hblock' := mt (hnull _ (by unfold ramfsBlock; omega)).mp hblock
    have := h'.below _ hblock'
    have := h'.count
    rw [readLoop, dif_neg hn, if_neg (by omega), if_neg (by omega), if_neg hblock']
    simp only [← hchunk]
    rw [ih (by omega)]
    congr 2
    funext rest
    congr 1
    refine List.map_congr_left fun j hj => ?_
    have hj := List.mem_range.mp hj
    have hdiv : (pos + j) / ramfsBlock = pos / ramfsBlock := by unfold ramfsBlock at *; omega
    have hrem : (pos + j) % ramfsBlock = pos % ramfsBlock + j := by unfold ramfsBlock at *; omega
    have := hbyte (pos + j) (by omega)
    rwa [byteAt, byteAt, hdiv, hrem, if_neg hblock, if_neg hblock'] at this

/-- Two files of one size read alike exactly if they have the same blocks below it, and in them the
same bytes. -/
theorem read_eq_iff (h : s.Sound) (h' : s'.Sound) (hsize : s'.file.size = s.file.size) :
    (∀ offset n, s'.read offset n = s.read offset n) ↔
      (∀ i, i * ramfsBlock < s.file.size → (s'.file.blocks i = 0 ↔ s.file.blocks i = 0)) ∧
      ∀ k < s.file.size, s'.byteAt k = s.byteAt k := by
  constructor
  · intro hread
    have hone {k : Nat} (hk : k < s.file.size) :
        (s'.file.blocks (k / ramfsBlock) = 0 ↔ s.file.blocks (k / ramfsBlock) = 0) ∧
        s'.byteAt k = s.byteAt k := by
      have heq := hread k 1
      rw [read_one h hk, read_one h' (hsize ▸ hk)] at heq
      by_cases hnull : s.file.blocks (k / ramfsBlock) = 0 <;>
        by_cases hnull' : s'.file.blocks (k / ramfsBlock) = 0 <;>
          simp_all [byteAt]
    refine ⟨fun i hi => ?_, fun k hk => (hone hk).2⟩
    have := (hone hi).1
    rwa [Nat.mul_div_cancel _ (by decide)] at this
  · rintro ⟨hnull, hbyte⟩ offset n
    rw [Disk.read, Disk.read, hsize]
    split_ifs with hend
    · rfl
    · exact readLoop_congr h h' (by omega) hnull hbyte

end Disk

/-- A write that fails leaves the size and all reads as they were exactly if it ends below the size
and the blocks that it stores to, up to the first that cannot be had, were there and had the bytes
of the buffer. -/
theorem failed_write_unchanged_iff {s : Disk} (h : s.Sound) {pages : Nat → Nat}
    (hf : s.Fresh pages) (offset : Nat) (buf : List UInt8) :
    ∀ e, (s.write pages offset buf).1 = .error e →
      (((s.write pages offset buf).2.file.size = s.file.size ∧
          ∀ off n, (s.write pages offset buf).2.read off n = s.read off n) ↔
        writeEnd offset buf ≤ s.file.size ∧
        (∀ i, s.Reached pages offset (offset + buf.length) i → i * ramfsBlock < s.file.size →
          s.file.blocks i ≠ 0) ∧
        ∀ k < s.file.size, offset ≤ k → k < offset + buf.length →
          s.Reached pages offset (offset + buf.length) (k / ramfsBlock) →
          s.byteAt k = buf.getD (k - offset) 0) := by
  intro _ _
  rw [size_write, max_eq_left_iff]
  refine and_congr_right fun hle => ?_
  -- the size is as it was, so that the loop starts from the file itself
  have hwrite : (s.write pages offset buf).2 = (writeLoop pages s buf offset).2 := by
    rw [Disk.write, if_neg (not_lt.mpr hle)]
  have hw : s.Wrote pages offset buf _ := h.wrote hf
  rw [hwrite, read_eq_iff h ((touched_writeLoop pages s buf offset).sound h hf)
    (size_writeLoop pages s buf offset)]
  refine and_congr ⟨fun hnull i hr hi h0 => ?_, fun hthere i hi => ?_⟩
    ⟨fun hbyte k hk hlow hhigh hr => ?_, fun hbyte k hk => ?_⟩
  · exact (hw.present i).mpr (.inr hr) ((hnull i hi).mpr h0)
  · refine not_iff_not.mp ((hw.present i).trans (or_iff_left_of_imp fun hr => hthere i hr hi))
  · rw [← hbyte k hk, hw.bytes k hlow hhigh hr]
  · by_cases hin : offset ≤ k ∧ k < offset + buf.length ∧
        s.Reached pages offset (offset + buf.length) (k / ramfsBlock)
    · rw [hw.bytes k hin.1 hin.2.1 hin.2.2, hbyte k hk hin.1 hin.2.1 hin.2.2]
    · exact hw.kept k hin

/-- The first of two bytes is stored as it was, and there is no page for the second. -/
theorem failed_write_unchanged_second :
    let s : Disk := ⟨⟨4097, fun i => if i = 0 then 5 else 0, 1⟩, fun _ _ => 0⟩
    (s.write (fun _ => 0) 4095 [0, 0]).1 = .error "ramfs: oom" ∧
    (s.write (fun _ => 0) 4095 [0, 0]).2.file.size = s.file.size ∧
    ∀ off n, (s.write (fun _ => 0) 4095 [0, 0]).2.read off n = s.read off n := by
  intro s
  have hsound : s.Sound := by
    refine ⟨fun i j hi hij => ?_, fun i hi => ?_, by decide⟩ <;> simp only [s] at * <;> grind
  have hfail : (s.write (fun _ => 0) 4095 [0, 0]).1 = .error "ramfs: oom" := by
    simp [s, Disk.write, writeLoop, ensureBlock, writeEnd, Disk.store, ramfsBlock,
      maxBlocksPerInode, Except.map]
  have hblock (i : Nat) (hr : s.Reached (fun _ => 0) 4095 4097 i) : s.file.blocks i ≠ 0 := by
    intro h0
    exact hr.had i hr.low le_rfl (.inr ⟨h0, rfl⟩)
  refine ⟨hfail, (failed_write_unchanged_iff hsound ⟨fun _ _ h => absurd rfl h, fun _ _ h =>
    absurd rfl h⟩ 4095 [0, 0] _ hfail).mpr ⟨by decide, fun i hr _ => hblock i hr, ?_⟩⟩
  intro k _ hlow hhigh _
  have hk : k = 4095 ∨ k = 4096 := by simp at hhigh; omega
  rcases hk with rfl | rfl <;> rfl

/-- There is no page for the first byte of an empty file: the call fails, and the size is 1. -/
theorem failed_write_grows :
    let s : Disk := ⟨.empty, fun _ _ => 0⟩
    (s.write (fun _ => 0) 0 [97]).1 = .error "ramfs: oom" ∧
    (s.write (fun _ => 0) 0 [97]).2.file.size = 1 := by
  simp [Disk.write, writeLoop, ensureBlock, RamFile.empty, writeEnd, Disk.setSize, ramfsBlock,
    maxBlocksPerInode, Except.map]

end Rynex.Fs
