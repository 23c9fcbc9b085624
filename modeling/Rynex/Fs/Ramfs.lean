import Mathlib

/-! The inode table and the directory calls of `ramfs.rs`. -/

namespace Rynex.Fs

def maxInodes : Nat := 256
def maxDirents : Nat := 64
def maxName : Nat := 255
def maxSymlinkLen : Nat := 256

def ftRegFile : Nat := 1
def ftDir : Nat := 2
def ftSymlink : Nat := 7

def sIfmt : Nat := 0xF000
def sIflnk : Nat := 0xA000
def sIfreg : Nat := 0x8000
def sIfdir : Nat := 0x4000

/-- `name` is the whole array, of which the first `nameLen` bytes count. -/
structure RamDirent where
  ino : Nat
  name : List UInt8
  nameLen : Nat
  fileType : Nat
  used : Bool
deriving DecidableEq, Repr

def RamDirent.empty : RamDirent := ⟨0, List.replicate maxName 0, 0, 0, false⟩

/-- `RamDirent::set`. The length is stored in 16 bits. -/
def RamDirent.set (d : RamDirent) (ino : Nat) (name : List UInt8) (fileType : Nat) : RamDirent where
  ino := ino
  name := name.take maxName ++ d.name.drop name.length
  nameLen := name.length % 2 ^ 16
  fileType := fileType
  used := true

/-- The name of the entry. -/
def RamDirent.key (d : RamDirent) : List UInt8 := d.name.take d.nameLen

/-- The test of the searches for a name. Where `nameLen` is beyond the array, the slice of the
source is out of bounds and there is no match. -/
def RamDirent.matches (d : RamDirent) (name : List UInt8) : Bool :=
  d.used && d.nameLen = name.length && d.key = name

/-- `born` is history: the number of the allocation that made this inode. -/
structure RamInode where
  mode : Nat
  nlink : Nat
  used : Bool
  symlinkTarget : List UInt8
  dirents : Nat → RamDirent
  direntCount : Nat
  born : Nat

def RamInode.empty : RamInode := ⟨0, 0, false, [], fun _ => .empty, 0, 0⟩

def RamInode.isDir (n : RamInode) : Bool := n.mode &&& sIfmt = sIfdir

def RamInode.find (n : RamInode) (name : List UInt8) : Option Nat :=
  (List.range n.direntCount).find? fun i => (n.dirents i).matches name

def RamInode.gap (n : RamInode) : Option Nat :=
  (List.range n.direntCount).find? fun i => !(n.dirents i).used

/-- Entry `slot` is set; the count grows if the entry is the next one. -/
def RamInode.withEntry (n : RamInode) (slot ino : Nat) (name : List UInt8) (fileType : Nat) :
    RamInode :=
  { n with
    dirents := Function.update n.dirents slot ((n.dirents slot).set ino name fileType)
    direntCount := if slot = n.direntCount then n.direntCount + 1 else n.direntCount }

def RamInode.withoutEntry (n : RamInode) (slot : Nat) : RamInode :=
  { n with dirents := Function.update n.dirents slot { n.dirents slot with used := false } }

/-- `allocs` is history: how many inodes were allocated. -/
structure Ramfs where
  inodes : Nat → RamInode
  allocs : Nat

namespace Ramfs

def setInode (fs : Ramfs) (ino : Nat) (n : RamInode) : Ramfs :=
  { fs with inodes := Function.update fs.inodes ino n }

/-- `alloc_inode`. The entries of an earlier use stay, beyond the count. -/
def allocInode (fs : Ramfs) : Option (Nat × Ramfs) :=
  match (List.range maxInodes).find? fun i => !(fs.inodes i).used with
  | none => none
  | some i =>
    some (i, { fs with allocs := fs.allocs + 1 }.setInode i
      ⟨0, 1, true, [], (fs.inodes i).dirents, 0, fs.allocs⟩)

def getIno (fs : Ramfs) (ino : Nat) : Option RamInode :=
  if ino < maxInodes && (fs.inodes ino).used then some (fs.inodes ino) else none

/-- `free_inode_blocks` and `used = false`. -/
def freeInode (fs : Ramfs) (ino : Nat) : Ramfs :=
  fs.setInode ino { fs.inodes ino with used := false }

def addEntry (fs : Ramfs) (dir slot ino : Nat) (name : List UInt8) (fileType : Nat) : Ramfs :=
  fs.setInode dir ((fs.inodes dir).withEntry slot ino name fileType)

def unset (fs : Ramfs) (dir slot : Nat) : Ramfs :=
  fs.setInode dir ((fs.inodes dir).withoutEntry slot)

def lookup (fs : Ramfs) (parent : Nat) (name : List UInt8) : Except String Nat :=
  if parent = 0 && name = [47] then .ok 0
  else
    match fs.getIno parent with
    | none => .error "bad ino"
    | some n =>
      match n.find name with
      | none => .error "ramfs: not found"
      | some i => .ok (n.dirents i).ino

/-- The common part of `create`, `mkdir` and `symlink`: a new inode, made up by `init`, that is
entered in the slot that `choose` finds in the parent. -/
def make (fs : Ramfs) (parent : Nat) (name : List UInt8) (fileType : Nat)
    (init : RamInode → RamInode) (choose : RamInode → Option Nat) : Except String Nat × Ramfs :=
  match fs.getIno parent with
  | none => (.error "bad parent", fs)
  | some _ =>
    match fs.allocInode with
    | none => (.error "ramfs: no inodes", fs)
    | some (ino, fs) =>
      let fs := fs.setInode ino (init (fs.inodes ino))
      match choose (fs.inodes parent) with
      | none => (.error "ramfs: dirents full", fs.freeInode ino)
      | some slot => (.ok ino, fs.addEntry parent slot ino name fileType)

/-- `create` takes a gap if there is one. -/
def createSlot (n : RamInode) : Option Nat :=
  match n.gap with
  | some i => some i
  | none => if maxDirents ≤ n.direntCount then none else some n.direntCount

/-- `mkdir` does not look for gaps once the count is at its limit. -/
def mkdirSlot (n : RamInode) : Option Nat :=
  if maxDirents ≤ n.direntCount then none else some (n.gap.getD n.direntCount)

/-- `symlink` takes the next entry, whatever gaps there are. -/
def symlinkSlot (n : RamInode) : Option Nat :=
  if maxDirents ≤ n.direntCount then none else some n.direntCount

def create (fs : Ramfs) (parent : Nat) (name : List UInt8) (mode : Nat) :
    Except String Nat × Ramfs :=
  fs.make parent name ftRegFile (fun n =>
    { n with mode := if mode &&& sIfmt ≠ 0 then mode else mode ||| sIfreg, nlink := 1 }) createSlot

def mkdir (fs : Ramfs) (parent : Nat) (name : List UInt8) (mode : Nat) :
    Except String Nat × Ramfs :=
  fs.make parent name ftDir (fun n => { n with mode := mode ||| sIfdir, nlink := 1 }) mkdirSlot

def symlink (fs : Ramfs) (parent : Nat) (name target : List UInt8) : Except String Nat × Ramfs :=
  fs.make parent name ftSymlink (fun n =>
    { n with mode := sIflnk ||| 0o777, symlinkTarget := target.take maxSymlinkLen }) symlinkSlot

/-- `remove`. The inode is given up whatever it is. -/
def remove (fs : Ramfs) (parent : Nat) (name : List UInt8) : Except String Unit × Ramfs :=
  match fs.getIno parent with
  | none => (.error "bad parent", fs)
  | some n =>
    match n.find name with
    | none => (.error "ramfs: not found", fs)
    | some i =>
      let ino := (n.dirents i).ino
      let fs := fs.unset parent i
      (.ok (), if (fs.getIno ino).isSome then fs.freeInode ino else fs)

def rmdir (fs : Ramfs) (parent : Nat) (name : List UInt8) : Except String Unit × Ramfs :=
  fs.remove parent name

/-- `rename`, with the inode of a replaced entry, whose vnodes the call frees. The old entry is
gone before the new directory is looked at. -/
def rename (fs : Ramfs) (oldParent : Nat) (oldName : List UInt8) (newParent : Nat)
    (newName : List UInt8) : Except String Unit × Option Nat × Ramfs :=
  match fs.getIno oldParent with
  | none => (.error "bad old parent", none, fs)
  | some old =>
    match old.find oldName with
    | none => (.error "ramfs: not found", none, fs)
    | some idx =>
      let ino := (old.dirents idx).ino
      let fileType := (old.dirents idx).fileType
      let fs := fs.unset oldParent idx
      match fs.getIno newParent with
      | none => (.error "bad new parent", none, fs)
      | some new =>
        match new.find newName with
        | some i =>
          let target := (new.dirents i).ino
          match fs.getIno target with
          | none => (.error "bad target ino", none, fs)
          | some _ =>
            (.ok (), some target,
              ((fs.freeInode target).unset newParent i).addEntry newParent i ino newName fileType)
        | none =>
          if maxDirents ≤ new.direntCount then (.error "ramfs: dirents full", none, fs)
          else (.ok (), none, fs.addEntry newParent new.direntCount ino newName fileType)

def dirInode (dirents : Nat → RamDirent) (count born : Nat) : RamInode :=
  ⟨sIfdir ||| 0o755, 2, true, [], dirents, count, born⟩

/-- The state after `ramfs::init`: the root with `bin` and `lib`. -/
def init : Ramfs where
  inodes := fun i =>
    if i = 0 then dirInode (fun j => if j = 0 then RamDirent.empty.set 1 [98, 105, 110] ftDir
      else if j = 1 then RamDirent.empty.set 2 [108, 105, 98] ftDir else .empty) 2 0
    else if i = 1 then dirInode (fun _ => .empty) 0 1
    else if i = 2 then dirInode (fun _ => .empty) 0 2
    else .empty
  allocs := 3

end Ramfs

inductive RamOp where
  | create (parent : Nat) (name : List UInt8) (mode : Nat)
  | mkdir (parent : Nat) (name : List UInt8) (mode : Nat)
  | symlink (parent : Nat) (name target : List UInt8)
  | remove (parent : Nat) (name : List UInt8)
  | rmdir (parent : Nat) (name : List UInt8)
  | rename (oldParent : Nat) (oldName : List UInt8) (newParent : Nat) (newName : List UInt8)
deriving DecidableEq, Repr

def Ramfs.step (fs : Ramfs) : RamOp → Ramfs
  | .create parent name mode => (fs.create parent name mode).2
  | .mkdir parent name mode => (fs.mkdir parent name mode).2
  | .symlink parent name target => (fs.symlink parent name target).2
  | .remove parent name => (fs.remove parent name).2
  | .rmdir parent name => (fs.rmdir parent name).2
  | .rename oldParent oldName newParent newName =>
    (fs.rename oldParent oldName newParent newName).2.2

end Rynex.Fs
