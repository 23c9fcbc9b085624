import Rynex.Fs.Blocks
import Rynex.Fs.Directory

/-! Directories and data of ramfs together: which pages belong to which file, and what keeps the
calls within the bounds of their tables. -/

namespace Rynex.Fs

open Rynex.Lib RamInode Ramfs

/-- `free_inode_blocks`. There is no result if it indexes out of the table. -/
def RamFile.freeBlocks (f : RamFile) : Option RamFile :=
  if maxBlocksPerInode < f.blockCount then none
  else some { f with
    blocks := fun i => if i < f.blockCount then 0 else f.blocks i
    blockCount := 0 }

/-- The inode table and the bytes of all pages. -/
structure RamStore where
  ram : Ramfs
  files : Nat → RamFile
  mem : Nat → Nat → UInt8

inductive StoreOp where
  | dir (op : RamOp)
  | lookup (parent : Nat) (name : List UInt8)
  | readdir (ino offset room : Nat)
  | read (ino offset n : Nat)
  | write (ino : Nat) (pages : Nat → Nat) (offset : Nat) (buf : List UInt8)
  | truncate (ino size : Nat)

namespace RamInode

/-- The search for a name stays in range up to its match: it indexes the table of entries, and
slices the names that are as long as the one searched for. -/
def searchOk (n : RamInode) (name : List UInt8) : Bool :=
  decide (∀ i < n.direntCount, (∀ j < i, (n.dirents j).matches name = false) →
    i < maxDirents ∧ ((n.dirents i).used → (n.dirents i).nameLen = name.length →
      (n.dirents i).nameLen ≤ maxName))

def gapOk (n : RamInode) : Bool :=
  decide (∀ i < n.direntCount, (∀ j < i, (n.dirents j).used) → i < maxDirents)

/-- `readdir` with so many entries of room stays in range: it indexes the table up to the entry that
fills the room, and slices the names of those that it copies. -/
def readdirOk (n : RamInode) (offset room : Nat) : Bool :=
  decide (∀ i < n.direntCount,
    ((List.range i).filter fun j => (n.dirents j).used && offset ≤ j).length < room →
    i < maxDirents ∧ ((n.dirents i).used → offset ≤ i → (n.dirents i).nameLen ≤ maxName))

end RamInode

namespace Ramfs

/-- The searches that the call makes stay in range. `mkdir` and `symlink` look at the count before
they index the table. -/
def inRange (fs : Ramfs) : RamOp → Bool
  | .create parent _ _ => (fs.getIno parent).all fun n => fs.allocInode.isNone || n.gapOk
  | .mkdir _ _ _ | .symlink _ _ _ => true
  | .remove parent name | .rmdir parent name => (fs.getIno parent).all (·.searchOk name)
  | .rename oldParent oldName newParent newName => (fs.getIno oldParent).all fun n =>
    n.searchOk oldName && (n.find oldName).all fun i =>
      ((fs.unset oldParent i).getIno newParent).all (·.searchOk newName)

/-- The inode that `alloc_inode` takes for the call. -/
def allocated (fs : Ramfs) : RamOp → Option Nat
  | .create parent _ _ | .mkdir parent _ _ | .symlink parent _ _ =>
    (fs.getIno parent).bind fun _ => fs.allocInode.map Prod.fst
  | _ => none

/-- The inode that the call gives up with its blocks. -/
def released (fs : Ramfs) : RamOp → Option Nat
  | .remove parent name | .rmdir parent name =>
    (fs.getIno parent).bind fun n => (n.find name).bind fun i =>
      if ((fs.unset parent i).getIno (n.dirents i).ino).isSome then some (n.dirents i).ino else none
  | .rename oldParent oldName newParent newName =>
    (fs.rename oldParent oldName newParent newName).2.1
  | _ => none

end Ramfs

namespace RamStore

def disk (s : RamStore) (ino : Nat) : Disk := ⟨s.files ino, s.mem⟩

def setDisk (s : RamStore) (ino : Nat) (d : Disk) : RamStore :=
  { s with files := Function.update s.files ino d.file, mem := d.mem }

def setFile (s : RamStore) (ino : Nat) (f : RamFile) : RamStore :=
  { s with files := Function.update s.files ino f }

/-- A call on a file that is not in use fails. -/
def onFile (s : RamStore) (ino : Nat) (call : Disk → Option Disk) : Option RamStore :=
  match s.ram.getIno ino with
  | none => some s
  | some _ => (call (s.disk ino)).map (s.setDisk ino)

/-- A directory call gives up the blocks of the inode that it releases, and `alloc_inode` clears
those of the inode that it takes. -/
def onDir (s : RamStore) (op : RamOp) : Option RamStore :=
  match s.ram.released op, s.ram.allocated op with
  | some ino, _ => (s.files ino).freeBlocks.map ({ s with ram := s.ram.step op }.setFile ino)
  | none, some ino => some ({ s with ram := s.ram.step op }.setFile ino .empty)
  | none, none => some { s with ram := s.ram.step op }

/-- There is no result if the call indexes out of a table or slices a name beyond its array. -/
def step (s : RamStore) : StoreOp → Option RamStore
  | .dir op => if s.ram.inRange op then s.onDir op else none
  | .lookup parent name =>
    if (parent = 0 && name = [47]) || (s.ram.getIno parent).all (·.searchOk name) then some s
    else none
  | .readdir ino offset room =>
    if (s.ram.getIno ino).all (·.readdirOk offset room) then some s else none
  | .read ino offset n => s.onFile ino fun d => (d.read offset n).map fun _ => d
  | .write ino pages offset buf => s.onFile ino fun d => some (d.write pages offset buf).2
  | .truncate ino size => s.onFile ino fun d => d.truncate size

def init : RamStore := ⟨.init, fun _ => .empty, fun _ _ => 0⟩

/-! ### Bounds -/

/-- The count and the lengths of the names are within the tables. -/
structure Fit (n : RamInode) : Prop where
  count : n.direntCount ≤ maxDirents
  names : ∀ i < n.direntCount, (n.dirents i).used → (n.dirents i).nameLen ≤ maxName

theorem local_fit : Local (fun name => name.length ≤ maxName) Fit := by
  constructor
  case fresh =>
    exact fun n h => ⟨h ▸ Nat.zero_le _, fun i hi => absurd (h ▸ hi) (Nat.not_lt_zero i)⟩
  case free => exact fun n h => ⟨h.count, h.names⟩
  case unset =>
    refine fun n slot h => ⟨h.count, fun i hi hu => ?_⟩
    simp only [withoutEntry, Function.update_apply] at hu ⊢
    split_ifs at hu ⊢
    exact h.names i hi hu
  case enter =>
    refine fun n slot ino name ft h hlen hslot => ⟨?_, fun i hi hu => ?_⟩
    · have := h.count
      simp only [withEntry]
      split_ifs <;> omega
    · simp only [withEntry, Function.update_apply] at hi hu ⊢
      split_ifs with heq
      · rw [RamDirent.nameLen_set hlen]; exact hlen
      · rw [if_neg heq] at hu
        exact h.names i (by split_ifs at hi <;> omega) hu

theorem Fit.searchOk {n : RamInode} (h : Fit n) (name : List UInt8) : n.searchOk name = true :=
  decide_eq_true fun i hi _ => ⟨hi.trans_le h.count, fun hu _ => h.names i hi hu⟩

theorem Fit.readdirOk {n : RamInode} (h : Fit n) (offset room : Nat) :
    n.readdirOk offset room = true :=
  decide_eq_true fun i hi _ => ⟨hi.trans_le h.count, fun hu _ => h.names i hi hu⟩

theorem all_getIno {fs : Ramfs} {p : RamInode → Bool} (h : fs.Each Fit)
    (hp : ∀ n, Fit n → p n = true) (ino : Nat) : (fs.getIno ino).all p = true := by
  cases hino : fs.getIno ino with
  | none => rfl
  | some n => exact hp n ((getIno_eq_some.mp hino).2 ▸ h ino)

theorem inRange_of_fit {fs : Ramfs} (h : fs.Each Fit) (op : RamOp) : fs.inRange op = true := by
  cases op with
  | create parent name mode =>
    refine all_getIno h (fun n hn => ?_) parent
    rw [Bool.or_eq_true]
    exact .inr (decide_eq_true fun i hi _ => hi.trans_le hn.count)
  | mkdir | symlink => rfl
  | remove parent name | rmdir parent name =>
    exact all_getIno h (fun n hn => hn.searchOk name) parent
  | rename p old q new =>
    refine all_getIno h (fun n hn => ?_) p
    rw [Bool.and_eq_true]
    refine ⟨hn.searchOk old, ?_⟩
    cases n.find old with
    | none => rfl
    | some i => exact all_getIno (local_fit.unsetEntry h p i) (fun n hn => hn.searchOk new) q

structure InBounds (s : RamStore) : Prop where
  blocks : ∀ ino, (s.files ino).blockCount ≤ maxBlocksPerInode
  sizes : ∀ ino, (s.files ino).size < 2 ^ 64
  entries : s.ram.Each Fit

/-- The largest value that the call computes from an offset or a size. -/
def reach (s : RamStore) : StoreOp → Nat
  | .read ino offset n => offset + min ((s.files ino).size - offset) n
  | .write _ _ offset buf => offset + buf.length
  | .truncate _ size => size + (ramfsBlock - 1)
  | .readdir _ offset _ => offset
  | .dir _ | .lookup _ _ => 0

/-- New names of at most 255 bytes, offsets and ends of writes in 64 bits and sizes of at most
4 MiB. -/
def Modest : StoreOp → Prop
  | .dir op => op.newName.length ≤ maxName
  | .lookup _ _ => True
  | .readdir _ offset _ | .read _ offset _ => offset < 2 ^ 64
  | .write _ _ offset buf => offset + buf.length < 2 ^ 64
  | .truncate _ size => size ≤ ramfsBlock * maxBlocksPerInode

end RamStore

namespace Disk

variable {s s' : Disk} {pages : Nat → Nat}

theorem read_isSome (h : s.file.blockCount ≤ maxBlocksPerInode) (offset n : Nat) :
    (s.read offset n).isSome := by
  have hloop (n pos : Nat) : (s.readLoop n pos).isSome := by
    fun_induction readLoop s n pos with
    | case1 | case2 | case4 => rfl
    | case3 => omega
    | case5 _ _ _ _ _ _ _ ih => rwa [Option.isSome_map]
  unfold Disk.read
  split_ifs
  · rfl
  · exact hloop _ _

theorem newBlocks_le {size : Nat} (h : size ≤ ramfsBlock * maxBlocksPerInode) :
    newBlocks size ≤ maxBlocksPerInode := by
  unfold newBlocks ramfsBlock maxBlocksPerInode at *
  omega

theorem touched_write (s : Disk) (pages : Nat → Nat) (offset : Nat) (buf : List UInt8) :
    Touched s pages (s.write pages offset buf).2 := by
  have hsize : Touched s pages (if s.file.size < writeEnd offset buf
      then s.setSize (writeEnd offset buf) else s) := by
    split_ifs
    · exact ⟨fun _ => .inl rfl, id, id, fun _ _ _ => rfl⟩
    · exact .refl s pages
  exact hsize.trans (touched_writeLoop ..)

end Disk

namespace RamStore

open Disk

variable {s s' : RamStore} {ino : Nat}

theorem InBounds.setDisk {d : Disk} (h : s.InBounds) (hd : d.file.blockCount ≤ maxBlocksPerInode)
    (hsize : d.file.size < 2 ^ 64) : (s.setDisk ino d).InBounds := by
  refine ⟨fun i => ?_, fun i => ?_, h.entries⟩ <;>
    simp only [RamStore.setDisk, Function.update_apply] <;> split_ifs
  · exact hd
  · exact h.blocks i
  · exact hsize
  · exact h.sizes i

theorem InBounds.reach_lt {op : StoreOp} (h : s.InBounds) (hop : Modest op) :
    s.reach op < 2 ^ 64 := by
  cases op with
  | dir | lookup => exact Nat.two_pow_pos 64
  | readdir | write => exact hop
  | read ino offset n =>
    have := h.sizes ino
    simp only [Modest, reach] at hop ⊢
    omega
  | truncate ino size =>
    simp only [Modest, reach, ramfsBlock, maxBlocksPerInode] at hop ⊢
    omega

theorem InBounds.step {op : StoreOp} (h : s.InBounds) (hop : Modest op) :
    ∃ s', s.step op = some s' ∧ s'.InBounds := by
  have hfile (ino : Nat) (call : Disk → Option Disk) (hcall : ∃ d, call (s.disk ino) = some d ∧
      d.file.blockCount ≤ maxBlocksPerInode ∧ d.file.size < 2 ^ 64) :
      ∃ s', s.onFile ino call = some s' ∧ s'.InBounds := by
    unfold onFile
    split
    · exact ⟨s, rfl, h⟩
    · obtain ⟨d, hd, hcount, hsize⟩ := hcall
      exact ⟨s.setDisk ino d, by rw [hd]; rfl, h.setDisk hcount hsize⟩
  cases op with
  | dir op =>
    have hram : InBounds { s with ram := s.ram.step op } :=
      ⟨h.blocks, h.sizes, local_fit.step h.entries hop⟩
    simp only [RamStore.step, inRange_of_fit h.entries, if_true, onDir]
    split
    · rename_i ino _
      exact ⟨_, by rw [RamFile.freeBlocks, if_neg (not_lt.mpr (h.blocks _))]; rfl,
        hram.setDisk (d := ⟨{ s.files ino with blocks := _, blockCount := 0 }, s.mem⟩)
          (Nat.zero_le _) (h.sizes ino)⟩
    · exact ⟨_, rfl, hram.setDisk (d := ⟨.empty, s.mem⟩) (Nat.zero_le _) (Nat.two_pow_pos 64)⟩
    · exact ⟨_, rfl, hram⟩
  | lookup parent name =>
    exact ⟨s, by simp [RamStore.step, all_getIno h.entries fun n hn => hn.searchOk name], h⟩
  | readdir ino offset room =>
    exact ⟨s, by simp [RamStore.step, all_getIno h.entries fun n hn => hn.readdirOk offset room], h⟩
  | read ino offset n =>
    obtain ⟨bytes, hb⟩ := Option.isSome_iff_exists.mp
      (read_isSome (s := s.disk ino) (h.blocks ino) offset n)
    exact hfile ino (fun d => (d.read offset n).map fun _ => d)
      ⟨s.disk ino, by simp only [hb, Option.map_some], h.blocks ino, h.sizes ino⟩
  | write ino pages offset buf =>
    exact hfile ino (fun d => some (d.write pages offset buf).2)
      ⟨_, rfl, (touched_write (s.disk ino) pages offset buf).count (h.blocks ino),
        by rw [size_write]; exact max_lt (h.sizes ino) (Nat.mod_lt _ (Nat.two_pow_pos 64))⟩
  | truncate ino size =>
    refine hfile ino (fun d => d.truncate size) ⟨_, if_neg fun hlt => ?_, newBlocks_le hop, ?_⟩
    case refine_2 =>
      simp only [Modest, ramfsBlock, maxBlocksPerInode] at hop
      exact hop.trans_lt (by decide)
    exact absurd hlt.2 (not_lt.mpr (h.blocks ino))

theorem inBounds_init : InBounds init := by
  refine ⟨fun _ => Nat.zero_le _, fun _ => Nat.two_pow_pos 64,
    fun d => ⟨(sound_init.wf d).count_le, fun i hi hu => ?_⟩⟩
  have hholds : (Ramfs.init.inodes d).holds i := by
    rw [holds, Bool.and_eq_true, decide_eq_true_eq]
    exact ⟨hi, hu⟩
  obtain ⟨rfl, rfl | rfl⟩ := holds_init hholds <;> decide

end RamStore

/-- Over every run with new names of at most 255 bytes, sizes of at most 4 MiB and ends of writes
that do not wrap, no call indexes out of a table or slices a name beyond its array, whatever names
it searches for. The counts and lengths that later calls go by are within bounds, and no such call
computes an offset or a size that wraps. -/
theorem store_in_bounds (ops : List StoreOp) (hops : ∀ op ∈ ops, RamStore.Modest op) :
    ∃ s, ops.foldlM RamStore.step RamStore.init = some s ∧ s.InBounds ∧
      ∀ op, RamStore.Modest op → s.reach op < 2 ^ 64 := by
  suffices hrun : ∀ s : RamStore, s.InBounds →
      ∃ s', ops.foldlM RamStore.step s = some s' ∧ s'.InBounds by
    obtain ⟨s, hs, h⟩ := hrun _ RamStore.inBounds_init
    exact ⟨s, hs, h, fun op hop => h.reach_lt hop⟩
  induction ops with
  | nil => exact fun s h => ⟨s, rfl, h⟩
  | cons op ops ih =>
    intro s h
    obtain ⟨s₁, hs₁, h₁⟩ := h.step (hops op (List.mem_cons_self ..))
    obtain ⟨s', hs', h'⟩ := ih (fun op' hop' => hops op' (List.mem_cons_of_mem _ hop')) s₁ h₁
    exact ⟨s', by rw [List.foldlM_cons, hs₁]; exact hs', h'⟩

theorem store_in_bounds_search :
    ∃ s, [StoreOp.dir (.create 0 [97] 0o644), .truncate 3 4096, .readdir 0 0 10,
        .lookup 0 (List.replicate 300 97)].foldlM RamStore.step RamStore.init = some s ∧
      s.InBounds ∧ ∀ op, RamStore.Modest op → s.reach op < 2 ^ 64 :=
  store_in_bounds _ (by
    intro op hop
    simp only [List.mem_cons, List.not_mem_nil, or_false] at hop
    rcases hop with rfl | rfl | rfl | rfl <;> simp [RamStore.Modest, RamOp.newName, maxName,
      ramfsBlock, maxBlocksPerInode])

/-- A file is made larger than its table of blocks, and removed: the blocks are freed up to the
count, beyond the end of the table. -/
theorem large_file_overruns : ([StoreOp.dir (.create 0 [97] 0o644), .truncate 3 (2 ^ 40),
    .dir (.remove 0 [97])].foldlM RamStore.step RamStore.init).isNone = true := by
  decide

/-! ### Separation -/

namespace Ramfs

variable {fs : Ramfs}

theorem allocated_not_live {op : RamOp} {ino : Nat} (h : fs.allocated op = some ino) :
    ino ∉ fs.live := by
  have hfree {parent : Nat}
      (h : ((fs.getIno parent).bind fun _ => fs.allocInode.map Prod.fst) = some ino) :
      ino ∉ fs.live := by
    obtain ⟨n, -, h⟩ := Option.bind_eq_some_iff.mp h
    obtain ⟨⟨i, fs'⟩, halloc, rfl⟩ := Option.map_eq_some_iff.mp h
    exact fun hl => absurd hl.2 (by simp [(allocInode_eq_some halloc).2.1])
  cases op with
  | create | mkdir | symlink => exact hfree h
  | remove | rmdir | rename => cases h

theorem live_step (op : RamOp) {d : Nat} (hd : d ∈ fs.live) :
    d ∈ (fs.step op).live ∨ fs.released op = some d := by
  have hmake {parent ft : Nat} {name : List UInt8} {init : RamInode → RamInode}
      {choose : RamInode → Option Nat} (hinit : Fresh init) :
      d ∈ (fs.make parent name ft init choose).2.live := by
    rcases make_cases parent name ft choose hinit with
      ⟨e, heq⟩ | ⟨ino, fs', hmade, hlive, ⟨e, heq⟩ | ⟨slot, hslot, heq⟩⟩ <;> rw [heq]
    · exact hd
    · have hne : d ≠ ino := fun h => hmade.fresh (h ▸ hd)
      rw [Ramfs.freeInode, live_setInode_unused _ rfl]
      exact ⟨(hmade.mem_live hd).1, hne⟩
    · rw [live_addEntry]
      exact (hmade.mem_live hd).1
  have hremove (parent : Nat) (name : List UInt8) : d ∈ (fs.remove parent name).2.live ∨
      fs.released (.remove parent name) = some d := by
    simp only [Ramfs.remove, released]
    cases fs.getIno parent with
    | none => exact .inl hd
    | some n =>
      simp only [Option.bind_some]
      cases n.find name with
      | none => exact .inl hd
      | some i =>
        simp only [Option.bind_some]
        split_ifs
        · by_cases heq : (n.dirents i).ino = d
          · exact .inr (by rw [heq])
          · rw [Ramfs.freeInode, live_setInode_unused _ rfl, live_unset]
            exact .inl ⟨hd, Ne.symm heq⟩
        · rw [live_unset]
          exact .inl hd
  cases op with
  | create | mkdir | symlink => exact .inl (hmake ⟨fun _ => rfl, fun _ => rfl, fun _ => rfl⟩)
  | remove parent name => exact hremove parent name
  | rmdir parent name => exact hremove parent name
  | rename p old q new =>
    simp only [Ramfs.step, released]
    have hr := rename_cases fs p old q new
    generalize fs.rename p old q new = r at hr
    cases hr with
    | noParent | missing => exact .inl hd
    | stale | badTarget | full => exact .inl (by rwa [live_unset])
    | @replaces idx i target hp hidx hq hi htarget =>
      by_cases heq : target = d
      · exact .inr (by rw [heq])
      · rw [live_addEntry, live_unset, Ramfs.freeInode, live_setInode_unused _ rfl, live_unset]
        exact .inl ⟨hd, Ne.symm heq⟩
    | appends => exact .inl (by rwa [live_addEntry, live_unset])

end Ramfs

def RamFile.pagesFrom (f : RamFile) (k : Nat) : List Nat :=
  ((List.range f.blockCount).filter fun i => k ≤ i ∧ f.blocks i ≠ 0).map f.blocks

namespace RamStore

open Disk

variable {s s' : RamStore} {ino : Nat}

/-- The page is in the table of a file. -/
def Records (s : RamStore) (p : Nat) : Prop := p ≠ 0 ∧ ∃ ino i, (s.files ino).blocks i = p

/-- The call is modest, and the allocator answers with pages that are not in use. -/
def Legal (s : RamStore) (op : StoreOp) : Prop :=
  Modest op ∧ match op with
  | .write _ pages _ _ => (∀ i, pages i ≠ 0 → ¬ s.Records (pages i)) ∧
      ∀ i j, pages i ≠ 0 → pages i = pages j → i = j
  | _ => True

/-- The pages that the call gives back to the allocator, in its order. -/
def frees (s : RamStore) : StoreOp → List Nat
  | .dir op =>
    match s.ram.released op with
    | some ino => (s.files ino).pagesFrom 0
    | none => []
  | .truncate ino size =>
    match s.ram.getIno ino with
    | some _ => (s.files ino).pagesFrom (newBlocks size)
    | none => []
  | _ => []

/-- The file is the one that the call is about. -/
def Changes (s : RamStore) : StoreOp → Nat → Prop
  | .dir op, ino => s.ram.released op = some ino ∨ s.ram.allocated op = some ino
  | .write ino _ _ _, ino' | .truncate ino _, ino' => ino' = ino
  | .lookup _ _, _ | .readdir _ _ _, _ | .read _ _ _, _ => False

/-- Each page is at one place of the table of one file in use, below its count. -/
structure Owned (s : RamStore) : Prop where
  apart : ∀ ino i ino' j, (s.files ino).blocks i ≠ 0 →
    (s.files ino).blocks i = (s.files ino').blocks j → ino = ino' ∧ i = j
  below : ∀ ino i, (s.files ino).blocks i ≠ 0 → i < (s.files ino).blockCount
  count : ∀ ino, (s.files ino).blockCount ≤ maxBlocksPerInode
  live : ∀ ino i, (s.files ino).blocks i ≠ 0 → ino ∈ s.ram.live

/-- The call frees each page that leaves the tables once, and no other, and it leaves the other
files alone. -/
structure Separated (s : RamStore) (op : StoreOp) (s' : RamStore) : Prop where
  once : (s.frees op).Nodup
  freed : ∀ p ∈ s.frees op, s.Records p ∧ ¬ s'.Records p
  kept : ∀ p, s.Records p → p ∉ s.frees op → s'.Records p
  frame : ∀ ino, ¬ s.Changes op ino → s'.files ino = s.files ino ∧
    ∀ k, (s'.disk ino).byteAt k = (s.disk ino).byteAt k

theorem Owned.not_live (h : s.Owned) (hino : ino ∉ s.ram.live) (i : Nat) :
    (s.files ino).blocks i = 0 := by
  by_contra hne
  exact hino (h.live ino i hne)

/-- One file is rewritten, with pages of its own or new ones. -/
theorem Owned.rewrite {f : RamFile} {ram : Ramfs} {mem : Nat → Nat → UInt8} (h : s.Owned)
    (hblocks : ∀ i, f.blocks i ≠ 0 →
      f.blocks i = (s.files ino).blocks i ∨ ¬ s.Records (f.blocks i))
    (hdistinct : ∀ i j, f.blocks i ≠ 0 → f.blocks i = f.blocks j → i = j)
    (hbelow : ∀ i, f.blocks i ≠ 0 → i < f.blockCount) (hcount : f.blockCount ≤ maxBlocksPerInode)
    (hlive : ∀ i, f.blocks i ≠ 0 → ino ∈ ram.live)
    (hother : ∀ d ≠ ino, d ∈ s.ram.live → d ∈ ram.live) :
    Owned ⟨ram, Function.update s.files ino f, mem⟩ := by
  have hcross {i d j : Nat} (hd : d ≠ ino) (hi : f.blocks i ≠ 0) :
      f.blocks i ≠ (s.files d).blocks j := by
    intro heq
    rcases hblocks i hi with hold | hnew
    · exact hd (h.apart ino i d j (hold ▸ hi) (hold ▸ heq)).1.symm
    · exact hnew ⟨hi, d, j, heq.symm⟩
  constructor
  case apart =>
    intro d i d' j hi heq
    simp only [Function.update_apply] at hi heq
    split_ifs at hi heq with hd hd' hd'
    · exact ⟨hd.trans hd'.symm, hdistinct i j hi heq⟩
    · exact absurd heq (hcross hd' hi)
    · exact absurd heq.symm (hcross hd (heq ▸ hi))
    · exact h.apart d i d' j hi heq
  case below =>
    intro d i hi
    simp only [Function.update_apply] at hi ⊢
    split_ifs at hi ⊢
    · exact hbelow i hi
    · exact h.below d i hi
  case count =>
    intro d
    simp only [Function.update_apply]
    split_ifs
    · exact hcount
    · exact h.count d
  case live =>
    intro d i hi
    simp only [Function.update_apply] at hi
    split_ifs at hi with hd
    · exact hd ▸ hlive i hi
    · exact hother d hd (h.live d i hi)

theorem mem_pagesFrom {f : RamFile} {k p : Nat} :
    p ∈ f.pagesFrom k ↔ ∃ i, i < f.blockCount ∧ k ≤ i ∧ f.blocks i ≠ 0 ∧ f.blocks i = p := by
  simp [RamFile.pagesFrom, and_assoc]

theorem Owned.cut {f : RamFile} {k : Nat} {op : StoreOp} {ram : Ramfs} (h : s.Owned)
    (hf : ∀ i, f.blocks i = if k ≤ i ∧ i < (s.files ino).blockCount then 0
      else (s.files ino).blocks i)
    (hfrees : s.frees op = (s.files ino).pagesFrom k) (hchanges : s.Changes op ino) :
    s.Separated op ⟨ram, Function.update s.files ino f, s.mem⟩ := by
  constructor
  case once =>
    rw [hfrees]
    refine (List.nodup_range.filter _).map_on fun i hi j _ heq => ?_
    have hi := (List.mem_filter.mp hi).2
    simp only [decide_eq_true_eq] at hi
    exact (h.apart ino i ino j hi.2 heq).2
  case freed =>
    intro p hp
    rw [hfrees, mem_pagesFrom] at hp
    obtain ⟨i, hlt, hk, hne, rfl⟩ := hp
    refine ⟨⟨hne, ino, i, rfl⟩, ?_⟩
    rintro ⟨-, d, j, hd⟩
    simp only [Function.update_apply] at hd
    split_ifs at hd with heq
    · rw [hf] at hd
      split_ifs at hd with hcut
      · exact hne hd.symm
      · obtain ⟨-, rfl⟩ := h.apart ino i ino j hne hd.symm
        exact hcut ⟨hk, hlt⟩
    · exact heq (h.apart ino i d j hne hd.symm).1.symm
  case kept =>
    rintro p ⟨hne, d, i, rfl⟩ hp
    refine ⟨hne, d, i, ?_⟩
    simp only [Function.update_apply]
    split_ifs with hd
    · subst hd
      rw [hf, if_neg]
      rintro ⟨hk, hlt⟩
      exact hp (hfrees ▸ mem_pagesFrom.mpr ⟨i, hlt, hk, hne, rfl⟩)
    · rfl
  case frame =>
    intro d hd
    have hne : d ≠ ino := by rintro rfl; exact hd hchanges
    have hfile : Function.update s.files ino f d = s.files d := Function.update_of_ne hne ..
    refine ⟨hfile, fun k => ?_⟩
    simp only [disk, hfile]

/-- Nothing is freed, and the files but for `ino` keep their pages and bytes. -/
theorem Separated.extend {f : RamFile} {op : StoreOp} {ram : Ramfs} {mem : Nat → Nat → UInt8}
    (hkept : ∀ i, (s.files ino).blocks i ≠ 0 → f.blocks i = (s.files ino).blocks i)
    (hfrees : s.frees op = []) (hchanges : s.Changes op ino)
    (hmem : ∀ d ≠ ino, ∀ i, (s.files d).blocks i ≠ 0 →
      mem ((s.files d).blocks i) = s.mem ((s.files d).blocks i)) :
    s.Separated op ⟨ram, Function.update s.files ino f, mem⟩ := by
  refine ⟨by rw [hfrees]; exact List.nodup_nil, by rw [hfrees]; exact nofun, ?_, fun d hd => ?_⟩
  · rintro p ⟨hne, d, i, rfl⟩ -
    refine ⟨hne, d, i, ?_⟩
    simp only [Function.update_apply]
    split_ifs with hd
    · subst hd; exact hkept i hne
    · rfl
  · have hne : d ≠ ino := by rintro rfl; exact hd hchanges
    have hfile : Function.update s.files ino f d = s.files d := Function.update_of_ne hne ..
    refine ⟨hfile, fun k => ?_⟩
    change Disk.byteAt ⟨Function.update s.files ino f d, mem⟩ k = _
    rw [hfile]
    change (if (s.files d).blocks (k / ramfsBlock) = 0 then 0
        else mem ((s.files d).blocks (k / ramfsBlock)) (k % ramfsBlock)) =
      if (s.files d).blocks (k / ramfsBlock) = 0 then 0
        else s.mem ((s.files d).blocks (k / ramfsBlock)) (k % ramfsBlock)
    by_cases hnull : (s.files d).blocks (k / ramfsBlock) = 0
    · rw [if_pos hnull, if_pos hnull]
    · rw [if_neg hnull, if_neg hnull, hmem d hne _ hnull]

theorem Separated.same {op : StoreOp} {ram : Ramfs} (hfrees : s.frees op = []) :
    s.Separated op { s with ram := ram } :=
  ⟨by rw [hfrees]; exact List.nodup_nil, by rw [hfrees]; exact nofun, fun _ h _ => h,
    fun _ _ => ⟨rfl, fun _ => rfl⟩⟩

theorem Owned.onDir (h : s.Owned) (op : RamOp) :
    ∃ s', s.onDir op = some s' ∧ s'.Owned ∧ s.Separated (.dir op) s' := by
  have hother (d : Nat) (hd : s.ram.released op ≠ some d) (hl : d ∈ s.ram.live) :
      d ∈ (s.ram.step op).live := (live_step op hl).resolve_right hd
  simp only [RamStore.onDir]
  cases hrel : s.ram.released op with
  | some ino =>
    have hfree : ∀ i, ¬ (if i < (s.files ino).blockCount then 0 else (s.files ino).blocks i) ≠
      0 := by
      intro i
      split_ifs with hlt
      · simp
      · exact fun hne => hlt (h.below ino i hne)
    have hfreed : (s.files ino).freeBlocks = some { s.files ino with
        blocks := fun i => if i < (s.files ino).blockCount then 0 else (s.files ino).blocks i
        blockCount := 0 } := if_neg (not_lt.mpr (h.count ino))
    simp only [hfreed, Option.map_some]
    refine ⟨_, rfl, ?_, ?_⟩
    · refine h.rewrite (fun i hi => absurd hi (hfree i)) (fun i _ hi => absurd hi (hfree i))
        (fun i hi => absurd hi (hfree i)) (Nat.zero_le _) (fun i hi => absurd hi (hfree i))
        fun d hd hl => hother d (fun heq => hd ?_) hl
      rw [hrel] at heq
      exact (Option.some.inj heq).symm
    · refine h.cut (k := 0) (fun i => ?_) ?_ (.inl hrel)
      · simp
      · simp only [frees, hrel]
  | none =>
    have hkeep (d : Nat) (hl : d ∈ s.ram.live) : d ∈ (s.ram.step op).live :=
      hother d (by rw [hrel]; exact nofun) hl
    have hnone : s.frees (.dir op) = [] := by simp only [frees, hrel]
    cases halloc : s.ram.allocated op with
    | none =>
      exact ⟨_, rfl, ⟨h.apart, h.below, h.count, fun d i hi => hkeep d (h.live d i hi)⟩,
        .same hnone⟩
    | some ino =>
      have hnull := h.not_live (allocated_not_live halloc)
      refine ⟨_, rfl, h.rewrite nofun nofun nofun (Nat.zero_le _) nofun fun d _ => hkeep d,
        .extend (fun i hi => absurd (hnull i) hi) hnone (.inr halloc) fun _ _ _ _ => rfl⟩

theorem Owned.write {pages : Nat → Nat} {offset : Nat} {buf : List UInt8} (h : s.Owned)
    (hlive : ino ∈ s.ram.live) (hop : s.Legal (.write ino pages offset buf)) :
    (s.setDisk ino ((s.disk ino).write pages offset buf).2).Owned ∧
      s.Separated (.write ino pages offset buf)
        (s.setDisk ino ((s.disk ino).write pages offset buf).2) := by
  obtain ⟨-, hfresh, hpages⟩ := hop
  have ht := touched_write (s.disk ino) pages offset buf
  generalize ((s.disk ino).write pages offset buf).2 = d at ht
  have hcases (i : Nat) : d.file.blocks i = (s.files ino).blocks i ∨
      (s.files ino).blocks i = 0 ∧ pages i ≠ 0 ∧ d.file.blocks i = pages i := ht.blocks i
  constructor
  · refine h.rewrite (fun i hi => ?_) (fun i j hi heq => ?_) (ht.below (h.below ino))
      (ht.count (h.count ino)) (fun _ _ => hlive) fun _ _ => id
    · exact (hcases i).imp_right fun ⟨_, hpage, heq⟩ => heq ▸ hfresh i hpage
    · rcases hcases i with hi' | ⟨-, hp, hi'⟩ <;> rcases hcases j with hj' | ⟨-, hp', hj'⟩ <;>
        rw [hi', hj'] at heq
      · exact (h.apart ino i ino j (hi' ▸ hi) heq).2
      · exact absurd ⟨hp', ino, i, heq⟩ (hfresh j hp')
      · exact absurd ⟨hp, ino, j, heq.symm⟩ (hfresh i hp)
      · exact hpages i j hp heq
  · refine .extend (fun i hi => ht.kept hi) rfl rfl fun d' hd' i hi => ht.mem _ hi fun j hj => ?_
    rcases hcases j with heq | ⟨-, hpage, heq⟩
    · exact hd' (h.apart d' i ino j hi (hj ▸ heq)).1
    · exact hfresh j hpage ⟨hpage, d', i, by rw [← hj, heq]⟩

theorem Owned.truncate {size : Nat} (h : s.Owned) (hlive : ino ∈ s.ram.live)
    (hsize : size ≤ ramfsBlock * maxBlocksPerInode) :
    ∃ s', ((s.disk ino).truncate size).map (s.setDisk ino) = some s' ∧ s'.Owned ∧
      s.Separated (.truncate ino size) s' := by
  have hcut {i : Nat} (hi : (if newBlocks size ≤ i ∧ i < (s.files ino).blockCount then 0
      else (s.files ino).blocks i) ≠ 0) : i < newBlocks size ∧ (s.files ino).blocks i ≠ 0 ∧
        (if newBlocks size ≤ i ∧ i < (s.files ino).blockCount then 0
          else (s.files ino).blocks i) = (s.files ino).blocks i := by
    split_ifs at hi ⊢ with hc
    · exact absurd rfl hi
    · have := h.below ino i hi
      exact ⟨by omega, hi, rfl⟩
  have hres : (s.disk ino).truncate size = some { s.disk ino with file := {
      size := size
      blocks := fun i => if newBlocks size ≤ i ∧ i < (s.files ino).blockCount then 0
        else (s.files ino).blocks i
      blockCount := newBlocks size } } :=
    if_neg fun hlt => absurd hlt.2 (not_lt.mpr (h.count ino))
  rw [hres, Option.map_some]
  refine ⟨_, rfl, ?_, ?_⟩
  · refine h.rewrite (fun i hi => .inl (hcut hi).2.2) (fun i j hi heq => ?_)
      (fun i hi => (hcut hi).1) (newBlocks_le hsize) (fun _ _ => hlive) fun _ _ => id
    have hj := (hcut (heq ▸ hi)).2.2
    simp only at heq
    exact (h.apart ino i ino j (hcut hi).2.1 ((hcut hi).2.2.symm.trans (heq.trans hj))).2
  · refine h.cut (k := newBlocks size) (fun i => rfl) ?_ rfl
    simp only [frees, getIno_eq_some.mpr ⟨hlive, rfl⟩]

theorem Owned.step {op : StoreOp} (h : s.Owned) (hfit : s.ram.Each Fit) (hop : s.Legal op) :
    ∃ s', s.step op = some s' ∧ s'.Owned ∧ s.Separated op s' := by
  cases op with
  | dir op =>
    simp only [RamStore.step, inRange_of_fit hfit, if_true]
    exact h.onDir op
  | lookup parent name =>
    exact ⟨s, by simp [RamStore.step, all_getIno hfit fun n hn => hn.searchOk name], h, .same rfl⟩
  | readdir ino offset room =>
    exact ⟨s, by simp [RamStore.step, all_getIno hfit fun n hn => hn.readdirOk offset room], h,
      .same rfl⟩
  | read ino offset n =>
    refine ⟨s, ?_, h, .same rfl⟩
    simp only [RamStore.step, onFile]
    cases s.ram.getIno ino with
    | none => rfl
    | some m =>
      obtain ⟨bytes, hb⟩ := Option.isSome_iff_exists.mp
        (read_isSome (s := s.disk ino) (h.count ino) offset n)
      simp only [hb, Option.map_some]
      simp only [setDisk, disk, Function.update_eq_self]
  | write ino pages offset buf =>
    simp only [RamStore.step, onFile]
    cases hino : s.ram.getIno ino with
    | none => exact ⟨s, rfl, h, .same rfl⟩
    | some m => exact ⟨_, rfl, h.write (getIno_eq_some.mp hino).1 hop⟩
  | truncate ino size =>
    simp only [RamStore.step, onFile]
    cases hino : s.ram.getIno ino with
    | none => exact ⟨s, rfl, h, .same (by simp only [frees, hino])⟩
    | some m => exact h.truncate (getIno_eq_some.mp hino).1 hop.1

/-- The states of runs of legal calls. -/
inductive Reached : RamStore → Prop
  | init : Reached init
  | step {s s' : RamStore} {op : StoreOp} (h : Reached s) (hop : s.Legal op)
      (hs : s.step op = some s') : Reached s'

theorem Reached.owned (h : Reached s) : s.Owned ∧ s.InBounds := by
  induction h with
  | init => exact ⟨⟨nofun, nofun, fun _ => Nat.zero_le _, nofun⟩, inBounds_init⟩
  | step h hop hs ih =>
    obtain ⟨s₁, hs₁, howned, -⟩ := ih.1.step ih.2.entries hop
    obtain ⟨s₂, hs₂, hbounds⟩ := ih.2.step hop.1
    cases hs.symm.trans hs₁
    cases hs.symm.trans hs₂
    exact ⟨howned, hbounds⟩

/-- A write records the pages that were recorded and some that the allocator answers. -/
theorem records_write {pages : Nat → Nat} {offset p : Nat} {buf : List UInt8}
    (h : (s.setDisk ino ((s.disk ino).write pages offset buf).2).Records p) :
    s.Records p ∨ ∃ i, pages i = p := by
  obtain ⟨hne, d, i, hd⟩ := h
  simp only [setDisk, Function.update_apply] at hd
  split_ifs at hd with heq
  · rcases (touched_write (s.disk ino) pages offset buf).blocks i with hold | ⟨-, -, hnew⟩
    · exact .inl ⟨hne, ino, i, hold ▸ hd⟩
    · exact .inr ⟨i, hnew ▸ hd⟩
  · exact .inl ⟨hne, d, i, hd⟩

end RamStore

/-- In every state of every run each data page is at one block index, below the count, of one file
in use. Every call succeeds, frees each page that leaves the tables once, and leaves all bytes
of the other files alone. -/
theorem ramfs_files_separate {s : RamStore} (h : s.Reached) {op : StoreOp} (hop : s.Legal op) :
    s.Owned ∧ ∃ s', s.step op = some s' ∧ s.Separated op s' := by
  obtain ⟨s', hs', -, hsep⟩ := h.owned.1.step h.owned.2.entries hop
  exact ⟨h.owned.1, s', hs', hsep⟩

/-- Two files get a page each, and the first is renamed over the second, whose page is freed. -/
theorem ramfs_files_separate_replace :
    ∃ s, [StoreOp.dir (.create 0 [97] 0o644), .dir (.create 0 [98] 0o644),
        .write 3 (fun i => if i = 0 then 10 else 0) 0 [1],
        .write 4 (fun i => if i = 0 then 20 else 0) 0 [2]].foldlM RamStore.step .init = some s ∧
      20 ∈ s.frees (.dir (.rename 0 [97] 0 [98])) ∧ s.Owned ∧
      ∃ s', s.step (.dir (.rename 0 [97] 0 [98])) = some s' ∧
        s.Separated (.dir (.rename 0 [97] 0 [98])) s' := by
  obtain ⟨s₂, h₂, hrun, hram, hnull⟩ : ∃ s : RamStore, s.Reached ∧
      [StoreOp.dir (.create 0 [97] 0o644), .dir (.create 0 [98] 0o644)].foldlM RamStore.step
        .init = some s ∧
      s.ram = (Ramfs.init.step (.create 0 [97] 0o644)).step (.create 0 [98] 0o644) ∧
      ∀ ino i, (s.files ino).blocks i = 0 := by
    have hlegal (s : RamStore) (name : UInt8) : s.Legal (.dir (.create 0 [name] 0o644)) :=
      ⟨show 1 ≤ maxName by decide, trivial⟩
    refine ⟨_, (RamStore.Reached.init.step (hlegal _ 97) rfl).step (hlegal _ 98) rfl, rfl, rfl,
      fun ino i => ?_⟩
    simp only [RamStore.setFile, Function.update_apply]
    split_ifs <;> rfl
  -- an allocator that has one page left
  have hlegal {s : RamStore} {ino p : Nat} {b : UInt8} (hp : ¬ s.Records p) :
      s.Legal (.write ino (fun i => if i = 0 then p else 0) 0 [b]) := by
    refine ⟨show 0 + [b].length < 2 ^ 64 by simp, fun i hi => ?_, fun i j hi heq => ?_⟩ <;>
      simp only at * <;> split_ifs at *
    all_goals first | exact hp | omega
  have hstep (s : RamStore) (ino p : Nat) (buf : List UInt8) (hs : s.ram = s₂.ram)
      (hino : (s₂.ram.getIno ino).isSome) :
      s.step (.write ino (fun i => if i = 0 then p else 0) 0 buf) = some (s.setDisk ino
        ((s.disk ino).write (fun i => if i = 0 then p else 0) 0 buf).2) := by
    obtain ⟨n, hn⟩ := Option.isSome_iff_exists.mp hino
    simp only [RamStore.step, RamStore.onFile, hs, hn, Option.map_some]
  have hnone (p : Nat) : ¬ s₂.Records p := by
    rintro ⟨hne, ino, i, rfl⟩
    exact hne (hnull ino i)
  have hstep₃ := hstep s₂ 3 10 [1] rfl (by rw [hram]; decide)
  have h₃ := h₂.step (hlegal (hnone 10)) hstep₃
  set s₃ := s₂.setDisk 3 ((s₂.disk 3).write (fun i => if i = 0 then 10 else 0) 0 [1]).2 with hs₃
  have hstep₄ := hstep s₃ 4 20 [2] rfl (by rw [hram]; decide)
  have h₄ := h₃.step (hlegal fun hr => ?_) hstep₄
  · set s₄ := s₃.setDisk 4 ((s₃.disk 4).write (fun i => if i = 0 then 20 else 0) 0 [2]).2 with hs₄
    have hrel : s₄.ram.released (.rename 0 [97] 0 [98]) = some 4 := by
      change s₂.ram.released _ = _
      rw [hram]
      decide
    have hblock : (s₄.files 4).blocks 0 = 20 := by
      have h0 : (s₃.files 4).blocks 0 = 0 := hnull 4 0
      have hloop (d : Disk) (hd : d.file.blocks 0 = 0) : (Disk.writeLoop
          (fun i => if i = 0 then 20 else 0) d [2] 0).2.file.blocks 0 = 20 := by
        simp [Disk.writeLoop, Disk.ensureBlock, Disk.store, hd, maxBlocksPerInode, ramfsBlock]
      exact hloop _ (by split_ifs <;> exact h0)
    refine ⟨s₄, ?_, ?_, ramfs_files_separate h₄ ⟨show [98].length ≤ maxName by decide, trivial⟩⟩
    · rw [show ([_, _, _, _] : List StoreOp) = [_, _] ++ [_, _] from rfl, List.foldlM_append, hrun]
      simp only [Option.bind_eq_bind, Option.bind_some, List.foldlM_cons, List.foldlM_nil, hstep₃,
        hstep₄]
      rfl
    · simp only [RamStore.frees, hrel, RamStore.mem_pagesFrom]
      have hne : (s₄.files 4).blocks 0 ≠ 0 := by rw [hblock]; decide
      exact ⟨0, h₄.owned.1.below 4 0 hne, Nat.zero_le _, hne, hblock⟩
  · rcases RamStore.records_write hr with hr | ⟨i, hi⟩
    · exact hnone 20 hr
    · split_ifs at hi; omega

end Rynex.Fs
