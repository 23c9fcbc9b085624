import Mathlib

/-! Paths: how `vfs.rs` normalizes one and how it is cut into a parent and a name. A path is a byte
string without a zero byte. -/

namespace Rynex.Fs

abbrev Path := List UInt8

def slash : UInt8 := 47
def dot : UInt8 := 46

/-- The parts of a path between its slashes. -/
def segments (path : Path) : List Path := (path.splitOn slash).filter (· ≠ [])

theorem slash_notMem_of_mem_splitOn {path seg : Path} (h : seg ∈ path.splitOn slash) :
    slash ∉ seg := by
  suffices hall : ∀ path : Path, ∀ seg ∈ path.splitOnP (· == slash), slash ∉ seg from
    hall path seg h
  intro path
  induction path with
  | nil => simp [List.splitOnP, List.splitOnPPrepend]
  | cons c path ih =>
    rw [List.splitOnP_cons_eq_if_modifyHead]
    split_ifs with hc
    · simpa using ih
    · intro seg hseg
      cases hsplit : path.splitOnP (· == slash) with
      | nil => exact absurd hsplit (List.splitOnP_ne_nil _ _)
      | cons first rest =>
        rw [hsplit] at hseg ih
        rcases List.mem_cons.mp hseg with rfl | hseg
        · have hne : c ≠ slash := by simpa using hc
          simpa [hne.symm] using ih first (List.mem_cons_self ..)
        · exact ih seg (List.mem_cons_of_mem _ hseg)

def isBlank (c : UInt8) : Bool := c = 32 || c = 9 || c = 10 || c = 12 || c = 13

/-- The method of the byte slices themselves, which comes before that of the trait `AsciiTrim` and,
unlike it, trims the form feed too. -/
def trimAscii (path : Path) : Path :=
  ((path.dropWhile isBlank).reverse.dropWhile isBlank).reverse

/-- One segment of `normalize_path`. -/
def pushSegment (segs : List Path) (seg : Path) : Option (List Path) :=
  if seg = [dot] then some segs
  else if seg = [dot, dot] then some segs.dropLast
  else if 64 ≤ segs.length then none
  else some (segs ++ [seg])

/-- The path with the given components. -/
def pathOf (segs : List Path) : Path :=
  if segs = [] then [slash] else (segs.map (slash :: ·)).flatten

/-- The path without a slash at its end. -/
def trimSlash (path : Path) : Path := if path.getLast? = some slash then path.dropLast else path

def splitLast (path : Path) : Option (Path × Path) :=
  if slash ∈ path then
    let name := path.reverse.takeWhile (· ≠ slash)
    some (path.take (path.length - name.length - 1), name.reverse)
  else none

def parentPath (path : Path) : Path :=
  if path = [] ∨ path = [slash] then [slash]
  else
    match splitLast (trimSlash path) with
    | some ([], _) => [slash]
    | some (parent, _) => parent
    | none => [slash]

def fileName (path : Path) : Path :=
  if path = [] ∨ path = [slash] then path
  else
    match splitLast (trimSlash path) with
    | some (_, name) => name
    | none => trimSlash path

def maxVnodes : Nat := 256

end Rynex.Fs
