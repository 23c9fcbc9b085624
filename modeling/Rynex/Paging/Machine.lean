import Rynex.Memory.Buddy
import Rynex.Paging.Entry

/-! The machine that `paging.rs` works on: the allocator, the words of physical memory, the
reference counts of data pages and the pool of mapped regions. Tables and data pages stand in
one memory, and a page is named by its physical address. -/

namespace Rynex.Paging

open Rynex.Memory

/-- A mapped region of the address space whose PML4 is `pml4`. -/
structure VmaRec where
  pml4 : Nat
  start : Nat
  stop : Nat
  flags : Nat
deriving DecidableEq, Repr

/-- `mem p i` is word `i` of the page at `p`; `pageRefc` is `PAGE_REFC`, indexed by page number;
`vmas` is `VMAS` up to `VMA_USED`. -/
structure Machine where
  buddy : Buddy
  mem : Nat → Nat → Nat
  pageRefc : Nat → Nat
  kernelPml4 : Nat
  vmas : List VmaRec

def u8Max : Nat := 2 ^ 8 - 1

/-- The index of `virt` in the table at depth `d`, where the PML4 has depth 0. -/
def vpn (virt d : Nat) : Nat := (virt >>> (39 - 9 * d)) &&& 0x1FF

namespace Machine

/-! ### Memory -/

def write (m : Machine) (p i v : Nat) : Machine :=
  { m with mem := Function.update m.mem p (Function.update (m.mem p) i v) }

def writePage (m : Machine) (p : Nat) (words : Nat → Nat) : Machine :=
  { m with mem := Function.update m.mem p words }

/-- `write_bytes(p, 0, 4096)`. -/
def zeroPage (m : Machine) (p : Nat) : Machine := m.writePage p fun _ => 0

/-- `copy_nonoverlapping(p, q, 4096)`. -/
def copyPage (m : Machine) (p q : Nat) : Machine := m.writePage q (m.mem p)

def setBuddy (m : Machine) (b : Buddy) : Machine := { m with buddy := b }

/-- `alloc(0)`; its callers clear the page. -/
def allocPage (m : Machine) : Option Nat × Machine :=
  ((m.buddy.alloc 0).1, m.setBuddy (m.buddy.alloc 0).2)

def allocZeroedPage (m : Machine) : Option Nat × Machine :=
  match m.buddy.allocZeroedPage with
  | (some p, b) => (some p, (m.setBuddy b).zeroPage p)
  | (none, b) => (none, m.setBuddy b)

/-! ### Reference counts of data pages -/

def refcIdx (phys : Nat) : Nat := phys >>> 12

def refcGet (m : Machine) (phys : Nat) : Nat :=
  if refcIdx phys < maxRefcPages then m.pageRefc (refcIdx phys) else 0

/-- A count of 255 stays there. -/
def refcInc (m : Machine) (phys : Nat) : Machine :=
  { m with pageRefc :=
      Buddy.setAt m.pageRefc (refcIdx phys) (min (m.pageRefc (refcIdx phys) + 1) u8Max) }

def refcDec (m : Machine) (phys : Nat) : Machine :=
  { m with pageRefc := Buddy.setAt m.pageRefc (refcIdx phys) (m.pageRefc (refcIdx phys) - 1) }

def markPageUsed (m : Machine) (phys : Nat) : Machine := m.setBuddy (m.buddy.markPageUsed phys)

def pteRefcInc (m : Machine) (phys : Nat) : Machine := m.setBuddy (m.buddy.pteRefcInc phys)

def pteRefcDec (m : Machine) (phys : Nat) : Machine := m.setBuddy (m.buddy.pteRefcDec phys).2

/-- A page with count 0 has an owner that was never recorded, so it is counted twice. -/
def forkShareRefc (m : Machine) (phys : Nat) : Machine :=
  let m := m.markPageUsed phys
  if m.refcGet phys = 0 then (m.refcInc phys).refcInc phys else m.refcInc phys

def forkSharePteRefc (m : Machine) (phys : Nat) : Machine :=
  let m := m.markPageUsed phys
  if m.buddy.pteRefcGet phys = 0 then (m.pteRefcInc phys).pteRefcInc phys else m.pteRefcInc phys

/-- The test that `cow_fork_pml4` and `free_address_space` make before they follow an entry to the
table at `p`: it lies in the managed range, is in use and has page-table type. -/
def liveTable (m : Machine) (p : Nat) : Bool :=
  m.buddy.base ≤ p && p < m.buddy.limit && m.buddy.pageIsUsed p &&
    m.buddy.pageTypeGet p = .pte

@[simp] theorem buddy_write (m : Machine) (p i v : Nat) : (m.write p i v).buddy = m.buddy := rfl

@[simp] theorem pageRefc_write (m : Machine) (p i v : Nat) :
    (m.write p i v).pageRefc = m.pageRefc := rfl

@[simp] theorem kernelPml4_write (m : Machine) (p i v : Nat) :
    (m.write p i v).kernelPml4 = m.kernelPml4 := rfl

@[simp] theorem buddy_copyPage (m : Machine) (p q : Nat) : (m.copyPage p q).buddy = m.buddy := rfl

@[simp] theorem pageRefc_copyPage (m : Machine) (p q : Nat) :
    (m.copyPage p q).pageRefc = m.pageRefc := rfl

@[simp] theorem buddy_refcInc (m : Machine) (p : Nat) : (m.refcInc p).buddy = m.buddy := rfl

@[simp] theorem buddy_refcDec (m : Machine) (p : Nat) : (m.refcDec p).buddy = m.buddy := rfl

@[simp] theorem buddy_pteRefcDec (m : Machine) (p : Nat) :
    (m.pteRefcDec p).buddy = (m.buddy.pteRefcDec p).2 := rfl

@[simp] theorem pageRefc_pteRefcDec (m : Machine) (p : Nat) :
    (m.pteRefcDec p).pageRefc = m.pageRefc := rfl

/-! ### Mapping -/

/-- Where a huge page is split, `fill` gives the entries of the new table that keep its mapping. -/
def fillTable (m : Machine) (new : Nat) (fill : Option (Nat → Nat)) : Machine :=
  match fill with
  | some entries => m.writePage new entries
  | none => m

def linkTable (m : Machine) (t i : Nat) (fill : Option (Nat → Nat)) :
    Except String Nat × Machine :=
  match m.allocZeroedPage with
  | (none, m) => (.error "OOM", m)
  | (some new, m) =>
    let m := (m.zeroPage new).fillTable new fill
    (.ok new, m.write t i (new ||| ptePresent ||| pteWritable ||| pteUser))

def splitPdpte (pdpte i : Nat) : Nat :=
  let gbBase := pdpte &&& ((0xFFFFFFFFFF <<< 30) % 2 ^ 64)
  let gbFlags := (Pte.flags pdpte ||| pteHuge) &&& complement pteUser
  (gbBase + i * 0x200000) ||| gbFlags

def splitPde (pde i : Nat) : Nat :=
  let hugeBase := pde &&& ((0xFFFFFFFFFF <<< 21) % 2 ^ 64)
  let hugeFlags := (pde &&& 0x7F) &&& complement pteUser
  (hugeBase + i * 4096) ||| hugeFlags

def mapPdpt (m : Machine) (pml4 virt : Nat) : Except String Nat × Machine :=
  let pml4e := m.mem pml4 (vpn virt 0)
  if Pte.present pml4e then (.ok (Pte.addr pml4e), m) else m.linkTable pml4 (vpn virt 0) none

def mapPd (m : Machine) (pdpt virt : Nat) : Except String Nat × Machine :=
  let pdpte := m.mem pdpt (vpn virt 1)
  if Pte.present pdpte && !Pte.huge pdpte then (.ok (Pte.addr pdpte), m)
  else m.linkTable pdpt (vpn virt 1) (if Pte.huge pdpte then some (splitPdpte pdpte) else none)

def mapPt (m : Machine) (pd virt : Nat) : Except String Nat × Machine :=
  let pde := m.mem pd (vpn virt 2)
  if Pte.present pde && !Pte.huge pde then
    (.ok (Pte.addr pde), m.write pd (vpn virt 2) (pde ||| pteUser))
  else m.linkTable pd (vpn virt 2) (if Pte.huge pde then some (splitPde pde) else none)

def mapInto (m : Machine) (pml4 virt phys flags : Nat) : Except String Unit × Machine :=
  match m.mapPdpt pml4 virt with
  | (.error e, m) => (.error e, m)
  | (.ok pdpt, m) =>
    match m.mapPd pdpt virt with
    | (.error e, m) => (.error e, m)
    | (.ok pd, m) =>
      match m.mapPt pd virt with
      | (.error e, m) => (.error e, m)
      | (.ok pt, m) => (.ok (), m.write pt (vpn virt 3) (phys ||| flags ||| ptePresent))

/-- The table that holds the leaf entry of `virt`, when that entry is present. A 1 GiB page is not
told from a page directory. -/
def getPteIn (m : Machine) (pml4 virt : Nat) : Option Nat :=
  let pml4e := m.mem pml4 (vpn virt 0)
  if !Pte.present pml4e then none
  else
    let pdpte := m.mem (Pte.addr pml4e) (vpn virt 1)
    if !Pte.present pdpte then none
    else
      let pde := m.mem (Pte.addr pdpte) (vpn virt 2)
      if !Pte.present pde || Pte.huge pde then none
      else if !Pte.present (m.mem (Pte.addr pde) (vpn virt 3)) then none
      else some (Pte.addr pde)

def resolvePhys (m : Machine) (pml4 virt : Nat) : Option Nat :=
  let pml4e := m.mem pml4 (vpn virt 0)
  if !Pte.present pml4e then none
  else
    let pdpte := m.mem (Pte.addr pml4e) (vpn virt 1)
    if !Pte.present pdpte then none
    else
      let pde := m.mem (Pte.addr pdpte) (vpn virt 2)
      if !Pte.present pde then none
      else if Pte.huge pde then some (Pte.addr pde ||| (virt &&& (0x200000 - 1)))
      else
        let pte := m.mem (Pte.addr pde) (vpn virt 3)
        if !Pte.present pte then none else some (Pte.addr pte ||| (virt &&& (pageSize - 1)))

/-! ### Mapped regions -/

def vmaFind (m : Machine) (pml4 addr : Nat) : Option VmaRec :=
  m.vmas.find? fun rec => rec.pml4 = pml4 ∧ rec.start ≤ addr ∧ addr < rec.stop

/-- Backs the page of `cr2` with a cleared page when a region covers it. -/
def handleDemandPage (m : Machine) (pml4 cr2 : Nat) : Bool × Machine :=
  match m.vmaFind pml4 cr2 with
  | none => (false, m)
  | some vma =>
    match m.allocPage with
    | (none, m) => (false, m)
    | (some phys, m) =>
      let m := m.zeroPage phys
      match m.mapInto pml4 (cr2 - cr2 % pageSize) phys vma.flags with
      | (.error _, m) => (false, m)
      | (.ok _, m) => (true, m)

end Machine

end Rynex.Paging
