import Rynex.Fs.Vfs

/-! The mount table of `vfs_core`: which mount a path is in, and the names below its mount point. -/

namespace Rynex.Fs

def maxMounts : Nat := 16

/-- The implementations of `VnodeOps` that are mounted. -/
inductive Kind where
  | nop
  | ramfs
  | procfs
  | userfs
deriving DecidableEq, Repr

structure MountEntry where
  mountPoint : Path
  fsId : Nat
  rootIno : Nat
  ops : Kind
  used : Bool
deriving DecidableEq, Repr

def MountEntry.empty : MountEntry := ⟨[], 0, 0, .nop, false⟩

structure Mounts where
  mounts : Nat → MountEntry

namespace Mounts

variable (m : Mounts)

/-- One mount of the loop of `find_mount`: the longest mount point that the path starts with. -/
def findStep (path : Path) (best : Option Nat × Nat) (i : Nat) : Option Nat × Nat :=
  let mp := (m.mounts i).mountPoint
  if (m.mounts i).used ∧ mp.length ≤ path.length ∧ path.take mp.length = mp ∧
      best.2 < mp.length then (some i, mp.length)
  else best

def findMount (path : Path) : Option MountEntry :=
  ((List.range maxMounts).foldl (m.findStep path) (none, 0)).1.map m.mounts

/-- The path below the mount point. -/
def relPath (mnt : MountEntry) (path : Path) : Path :=
  if path.length = mnt.mountPoint.length then [dot]
  else if mnt.mountPoint.length = 1 ∧ mnt.mountPoint.length < path.length then path.drop 1
  else path.drop mnt.mountPoint.length

/-- The names that are looked up one after the other. -/
def names (mnt : MountEntry) (path : Path) : List Path :=
  let rel := relPath mnt path
  if rel = [dot] ∨ rel = [] then [] else segments (trimAscii rel)

end Mounts

end Rynex.Fs
