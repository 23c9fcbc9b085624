import Rynex.Paging.Calls

/-! The mapping of a segment of an ELF image in `elf.rs`: new pages, filled from the file. Sums of
addresses wrap at 64 bits. -/

namespace Rynex.Paging

open Rynex.Memory

/-- The bytes of a file in memory, and the bytes behind them, which an unchecked read may see. -/
structure Image where
  bytes : List UInt8
  beyond : Nat → UInt8

namespace Image

def byteAt (img : Image) (i : Nat) : Nat := ((img.bytes[i]?).getD (img.beyond i)).toNat

end Image

/-! ### Headers -/

/-- `Elf64ProgramHeader`, the fields that the loader reads. -/
structure ProgramHeader where
  type : Nat
  flags : Nat
  offset : Nat
  vaddr : Nat
  filesz : Nat
  memsz : Nat

def pfX : Nat := 1
def pfW : Nat := 2

def ptFlags (elfFlags : Nat) : Nat :=
  let f := ptePresent ||| pteUser
  let f := if elfFlags &&& pfW ≠ 0 then f ||| pteWritable else f
  if elfFlags &&& pfX = 0 then f ||| pteNoExecute else f

/-! ### Segments -/

namespace Machine

/-- `words` with the bytes `[lo, hi)` of the page replaced. -/
def overlay (words : Nat → Nat) (lo hi : Nat) (byte : Nat → Nat) (i : Nat) : Nat :=
  (List.range 8).foldl (fun w k =>
    let j := 8 * i + k
    w + (if lo ≤ j ∧ j < hi then byte j else words i >>> (8 * k) % 256) <<< (8 * k)) 0

/-- The file's bytes are copied into the page `phys` of the segment at `addr`, when the source
range ends inside the file. -/
def copyFile (m : Machine) (img : Image) (ph : ProgramHeader) (base addr phys : Nat) : Machine :=
  let pageOff := if addr = pageAlignDown base then base - addr else 0
  let copyStart := addr + pageOff
  let fileEnd := (base + ph.filesz) % 2 ^ 64
  let copySize :=
    if (addr + 4096) % 2 ^ 64 < fileEnd then ((addr + 4096) + 2 ^ 64 - copyStart) % 2 ^ 64
    else fileEnd - copyStart
  let fileOff := copyStart - base
  if 0 < copySize ∧ (ph.offset + fileOff + copySize) % 2 ^ 64 ≤ img.bytes.length then
    m.writePage phys (overlay (m.mem phys) pageOff (pageOff + copySize)
      fun j => img.byteAt ((ph.offset + fileOff + (j - pageOff)) % 2 ^ 64))
  else m

/-- New pages under the given flags, each filled by `fill` once it is mapped. -/
def mapNewPages (pml4 flags : Nat) (err : String) (fill : Nat → Nat → Machine → Machine) :
    List Nat → Machine → Except String Unit × Machine
  | [], m => (.ok (), m)
  | addr :: rest, m =>
    match m.allocPage with
    | (none, m) => (.error err, m)
    | (some phys, m) =>
      match (m.zeroPage phys).mapInto pml4 addr phys flags with
      | (.error e, m) => (.error e, m)
      | (.ok _, m) => mapNewPages pml4 flags err fill rest (fill addr phys m)

/-- The pages of a segment that is loaded at `loadAddr`. -/
def segmentPages (ph : ProgramHeader) (loadAddr : Nat) : List Nat :=
  let base := (ph.vaddr + loadAddr) % 2 ^ 64
  pagesFrom (pageAlignDown base) (pageAlignUp ((base + ph.memsz) % 2 ^ 64))

def loadSegment (m : Machine) (img : Image) (pml4 loadAddr : Nat) (ph : ProgramHeader) :
    Except String Unit × Machine :=
  mapNewPages pml4 (ptFlags ph.flags) "OOM for segment page"
    (fun addr phys m => m.copyFile img ph ((ph.vaddr + loadAddr) % 2 ^ 64) addr phys)
    (segmentPages ph loadAddr) m

end Machine

end Rynex.Paging
