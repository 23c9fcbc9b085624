import Rynex.Lib.Block
import Rynex.Lib.Ring

/-! The buddy allocator of `memory/buddy.rs`: free lists of power-of-two blocks, the bitmaps and
counts indexed by page, the quarantine ring of freed page-table pages, and the operations on
them. A free list is the list of the block addresses that the `next` pointers link; physical
address 0 is the null pointer, so a list never goes on after it. -/

namespace Rynex.Memory

open Rynex.Lib

/-- `PAGE_SIZE` is `2 ^ pageShift`. -/
def pageShift : Nat := 12

def pageSize : Nat := 4096

def maxOrder : Nat := 10

def magic : Nat := 0xDEADBEEF

/-- `MAX_REFC_PAGES`: the number of pages that the bitmaps, types and counts track. -/
def maxRefcPages : Nat := 2 ^ 21

def maxReserved : Nat := 2048

def quarantineMaxCap : Nat := 1024

def u64Max : Nat := 2 ^ 64 - 1

def u16Max : Nat := 2 ^ 16 - 1

/-- The first words of a page that stands on a free list, without the `next` pointer. -/
structure Header where
  magic : Nat
  order : Nat
deriving DecidableEq, Repr

inductive PageType where
  | free
  | pte
  | data
  | stack
deriving DecidableEq, Repr

/-- The allocator with its global tables. `used`, `freed`, `pageType` and `pteRefc` are indexed
by the page index relative to `base`, `header` by the physical address. -/
structure Buddy where
  base : Nat
  pages : Nat
  freeLists : Nat → List Nat
  header : Nat → Header
  reserved : List Nat
  used : Nat → Bool
  freed : Nat → Bool
  pageType : Nat → PageType
  pteRefc : Nat → Nat
  quarantine : Nat → Nat
  qHead : Nat
  qCount : Nat
  qFull : Nat

namespace Buddy

/-- The allocator after `init(base, pages)`, before any region is added. -/
def init (base pages : Nat) : Buddy where
  base := base
  pages := pages
  freeLists := fun _ => []
  header := fun _ => ⟨0, 0⟩
  reserved := []
  used := fun _ => false
  freed := fun _ => false
  pageType := fun _ => .free
  pteRefc := fun _ => 0
  quarantine := fun _ => 0
  qHead := 0
  qCount := 0
  qFull := 0

def blockSize (order : Nat) : Nat := pageSize <<< order

/-- One past the last managed byte. -/
def limit (b : Buddy) : Nat := b.base + b.pages * pageSize

def physToIdx (b : Buddy) (phys : Nat) : Nat :=
  if phys < b.base then u64Max else (phys - b.base) >>> 12

/-- `(addr - self.base) / PAGE_SIZE`, where the subtraction of two `u64` wraps. -/
def pageIndex (b : Buddy) (addr : Nat) : Nat :=
  (if addr < b.base then addr + 2 ^ 64 - b.base else addr - b.base) / pageSize

def isManaged (b : Buddy) (addr : Nat) : Bool :=
  b.base ≤ addr && addr + pageSize ≤ b.base + b.pages * pageSize

/-! ### The tables -/

/-- A write to one of the tables by page index: an index past their end is not tracked. -/
@[irreducible] def setAt {α : Type} (table : Nat → α) (idx : Nat) (v : α) : Nat → α :=
  if idx < maxRefcPages then Function.update table idx v else table

def usedSet (b : Buddy) (page : Nat) : Bool := page < maxRefcPages && b.used page

def usedMark (b : Buddy) (page : Nat) : Buddy := { b with used := setAt b.used page true }

def usedClear (b : Buddy) (page : Nat) : Buddy := { b with used := setAt b.used page false }

/-- Records that `addr` was freed; `true` when it was recorded already, and then setting the bit
again changes nothing. -/
def trackFreedPage (b : Buddy) (addr : Nat) : Bool × Buddy :=
  let idx := b.physToIdx addr
  (idx < maxRefcPages && b.freed idx, { b with freed := setAt b.freed idx true })

def untrackFreedPage (b : Buddy) (addr : Nat) : Buddy :=
  { b with freed := setAt b.freed (b.physToIdx addr) false }

def markPageUsed (b : Buddy) (phys : Nat) : Buddy :=
  let pidx := b.physToIdx phys
  let b := { b with used := if pidx ≠ u64Max then setAt b.used pidx true else b.used }
  b.untrackFreedPage phys

def pageIsUsed (b : Buddy) (phys : Nat) : Bool := b.usedSet (b.physToIdx phys)

def pteRefcInc (b : Buddy) (addr : Nat) : Buddy :=
  let idx := b.physToIdx addr
  { b with pteRefc := setAt b.pteRefc idx (min (b.pteRefc idx + 1) u16Max) }

/-- Takes one from the count of `addr`; `true` when it is zero afterwards or not tracked. -/
def pteRefcDec (b : Buddy) (addr : Nat) : Bool × Buddy :=
  let idx := b.physToIdx addr
  let s := b.pteRefc idx - 1
  (maxRefcPages ≤ idx || s == 0, { b with pteRefc := setAt b.pteRefc idx s })

def pteRefcGet (b : Buddy) (addr : Nat) : Nat :=
  let idx := b.physToIdx addr
  if idx < maxRefcPages then b.pteRefc idx else 0

def pageTypeGet (b : Buddy) (addr : Nat) : PageType :=
  let idx := b.physToIdx addr
  if idx < maxRefcPages then b.pageType idx else .free

def pageTypeSet (b : Buddy) (addr : Nat) (t : PageType) : Buddy :=
  { b with pageType := setAt b.pageType (b.physToIdx addr) t }

/-- `write_bytes(addr, 0, PAGE_SIZE)`, as far as headers see it. -/
def zeroPage (b : Buddy) (addr : Nat) : Buddy :=
  { b with header := Function.update b.header addr ⟨0, 0⟩ }

/-! ### The quarantine -/

/-- Queues a page; `false` when the ring is full. -/
def qPush (b : Buddy) (addr : Nat) : Bool × Buddy :=
  if b.qCount < quarantineMaxCap then
    (true, { b with
      quarantine := Function.update b.quarantine b.qHead addr
      qHead := (b.qHead + 1) % quarantineMaxCap
      qCount := b.qCount + 1 })
  else (false, { b with qFull := b.qFull + 1 })

/-- The index of the oldest slot. -/
def qTail (b : Buddy) : Nat := (b.qHead + quarantineMaxCap - b.qCount) % quarantineMaxCap

/-- The slot at the tail is emptied and the count drops. -/
def qTake (b : Buddy) : Buddy :=
  { b with quarantine := Function.update b.quarantine b.qTail 0, qCount := b.qCount - 1 }

/-- The loop of `q_pop`, at most `fuel` slots long: slots that hold no managed address are
dropped. -/
def qPopLoop : Nat → Buddy → Option Nat × Buddy
  | 0, b => (none, b)
  | fuel + 1, b =>
    if b.qCount = 0 then (none, b)
    else
      let addr := b.quarantine b.qTail
      let b := b.qTake
      if addr ≠ 0 ∧ b.base ≤ addr ∧ addr < b.base + b.pages * pageSize then
        (some addr, b.pteRefcInc addr)
      else qPopLoop fuel b

/-- Each turn of the loop takes one of `qCount` slots, so `qCount` turns are enough. -/
def qPop (b : Buddy) : Option Nat × Buddy := qPopLoop b.qCount b

/-! ### Free lists -/

/-- Writes the header of `addr` and makes it the head of list `o`. A null head ends the list. -/
def pushBlock (b : Buddy) (o addr : Nat) : Buddy :=
  { b with
    header := Function.update b.header addr ⟨magic, o⟩
    freeLists :=
      Function.update b.freeLists o (if addr = 0 then [] else addr :: b.freeLists o) }

/-- `free_lists[o] = l`. -/
def setFreeList (b : Buddy) (o : Nat) (l : List Nat) : Buddy :=
  { b with freeLists := Function.update b.freeLists o l }

def isOnFreeList (b : Buddy) (addr order : Nat) : Bool := addr ∈ b.freeLists order

/-- Unlinks `addr` from the list and clears its magic, when it is there. -/
def removeFromList (b : Buddy) (order addr : Nat) : Buddy :=
  { b with
    freeLists := Function.update b.freeLists order ((b.freeLists order).erase addr)
    header := if addr ∈ b.freeLists order then
      Function.update b.header addr { b.header addr with magic := 0 } else b.header }

/-- The merging loop of `free_one`: while the buddy of `cur` is on the list of order `o`, it is
taken off and joined. The order grows on each turn, so `maxOrder` turns are enough. -/
def mergeLoop : Nat → Buddy → Nat → Nat → Buddy × Nat × Nat
  | 0, b, cur, o => (b, cur, o)
  | fuel + 1, b, cur, o =>
    if maxOrder ≤ o then (b, cur, o)
    else
      let buddy := cur ^^^ blockSize o
      if !b.isManaged buddy then (b, cur, o)
      else if (b.header buddy).magic = magic ∧ (b.header buddy).order = o ∧
          b.isOnFreeList buddy o then
        mergeLoop fuel (b.removeFromList o buddy) (if cur < buddy then cur else buddy) (o + 1)
      else (b, cur, o)

def freeOne (b : Buddy) (addr order : Nat) : Buddy :=
  if !b.isManaged addr then b
  else if order = 0 ∧ b.pageTypeGet addr = .pte then b.pushBlock 0 addr
  else
    let (b, cur, o) := mergeLoop maxOrder b addr order
    if b.isOnFreeList cur o then b else b.pushBlock o cur

/-- The greatest order up to the given one whose blocks are aligned at `addr` and fit. -/
def maxOrderUpTo (addr size : Nat) : Nat → Nat
  | 0 => 0
  | o + 1 =>
    let bs := blockSize (o + 1)
    if addr &&& (bs - 1) = 0 ∧ bs ≤ size then o + 1 else maxOrderUpTo addr size o

def maxOrderFor (addr size : Nat) : Nat := maxOrderUpTo addr size maxOrder

def addRegionLoop : Nat → Buddy → Nat → Nat → Buddy
  | 0, b, _, _ => b
  | fuel + 1, b, addr, stop =>
    if addr + pageSize ≤ stop then
      let order := maxOrderFor addr (stop - addr)
      addRegionLoop fuel (b.freeOne addr order) (addr + blockSize order) stop
    else b

/-- Each turn of the loop advances by at least one page, so `size / pageSize` turns are enough. -/
def addRegion (b : Buddy) (start size : Nat) : Buddy :=
  addRegionLoop (size / pageSize) b start (start + size)

/-! ### Reservations -/

def isReserved (b : Buddy) (addr : Nat) : Bool := addr ∈ b.reserved

def unreserve (b : Buddy) (addr : Nat) : Bool × Buddy :=
  (b.isReserved addr, { b with reserved := b.reserved.erase addr })

def removeIfFree (b : Buddy) (addr order : Nat) : Buddy :=
  if (b.header addr).magic = magic ∧ (b.header addr).order = order then b.removeFromList order addr
  else b

def markAllocatedLoop : Nat → Buddy → Nat → Nat → Buddy
  | 0, b, _, _ => b
  | fuel + 1, b, addr, stop =>
    if addr < stop then
      let order := maxOrderFor addr (stop - addr)
      markAllocatedLoop fuel (b.removeIfFree addr order) (addr + blockSize order) stop
    else b

def markAllocated (b : Buddy) (start size : Nat) : Buddy :=
  markAllocatedLoop ((size + pageSize - 1) / pageSize) b start (start + size)

def reserve (b : Buddy) (addr : Nat) : Buddy :=
  if b.isReserved addr then b
  else if b.reserved.length < maxReserved then
    let b := { b with reserved := b.reserved ++ [addr] }
    let b := b.markAllocated addr pageSize
    let pidx := b.pageIndex addr
    if b.usedSet pidx then b else b.usedMark pidx
  else b

/-! ### Allocation -/

/-- `for so in (order..o).rev()`: the upper halves of the block at `addr` go back to their
lists. -/
def splitLoop (order addr : Nat) : Nat → Buddy → Buddy
  | 0, b => b
  | so + 1, b =>
    if order ≤ so then
      let buddy := addr + blockSize so
      splitLoop order addr so (if b.isReserved buddy then b else b.pushBlock so buddy)
    else b

/-- The block at `addr`, head of list `o` before `next`, is cleared, marked used and unlinked. -/
def detach (b : Buddy) (o addr : Nat) (next : List Nat) : Buddy :=
  let b := b.zeroPage addr
  let b := b.usedMark (b.pageIndex addr)
  let b := b.untrackFreedPage addr
  b.setFreeList o next

/-- `alloc_nolock` once it has found the block at `addr`, head of list `o` before `next`. -/
def takeBlock (b : Buddy) (order o addr : Nat) (next : List Nat) : Buddy :=
  (splitLoop order addr o (b.detach o addr next)).pageTypeSet addr .data

/-- The loop of `alloc_nolock` over the orders from `order` on. A reserved head is dropped, and
the search ends there unless its list goes on. -/
def allocLoop (order : Nat) : List Nat → Buddy → Option Nat × Buddy
  | [], b => (none, b)
  | o :: os, b =>
    match b.freeLists o with
    | [] => allocLoop order os b
    | addr :: next =>
      if b.isReserved addr then
        let b := b.setFreeList o next
        if next ≠ [] then allocLoop order os b else (none, b)
      else (some addr, b.takeBlock order o addr next)

/-- `for o in order..=MAX_ORDER`. -/
def alloc (b : Buddy) (order : Nat) : Option Nat × Buddy :=
  allocLoop order (List.range' order (maxOrder + 1 - order)) b

def allocZeroedPage (b : Buddy) : Option Nat × Buddy :=
  match b.qPop with
  | (some addr, b) =>
    let b := b.zeroPage addr
    let b := b.pageTypeSet addr .pte
    let b := b.pteRefcInc addr
    let b := b.untrackFreedPage addr
    (some addr, b.usedMark (b.physToIdx addr))
  | (none, b) =>
    match b.alloc 0 with
    | (some addr, b) => (some addr, ((b.zeroPage addr).pageTypeSet addr .pte).pteRefcInc addr)
    | (none, b) => (none, b)

/-- The page is not in use any more. -/
def cleared (b : Buddy) (addr : Nat) : Buddy :=
  let b := b.usedClear (b.pageIndex addr)
  b.pageTypeSet addr .free

/-- A page-table page whose count reaches zero goes to the quarantine, or to the free lists when
the ring is full. -/
def retire (b : Buddy) (addr : Nat) : Buddy :=
  match b.pteRefcDec addr with
  | (true, b) =>
    match b.qPush addr with
    | (true, b) => b
    | (false, b) => b.freeOne addr 0
  | (false, b) => b

/-- `free` once its checks have passed: `oldType` is the type the page had. -/
def release (b : Buddy) (addr order : Nat) (oldType : PageType) : Buddy :=
  let b := b.cleared addr
  if order = 0 ∧ oldType = .pte then b.retire addr else b.freeOne addr (order % 256)

def free (b : Buddy) (addr order : Nat) : Buddy :=
  match b.trackFreedPage addr with
  | (true, b) => b
  | (false, b) =>
    let b := if b.isReserved addr then (b.unreserve addr).2 else b
    let oldType := b.pageTypeGet addr
    if !b.usedSet (b.pageIndex addr) || oldType = .free then b else b.release addr order oldType

end Buddy

end Rynex.Memory
