import Rynex.Paging.Machine

/-! Copy-on-write sharing as `paging.rs` does it: `cow_fork_pml4` makes a new PML4 over the tables
of an old one, and `cow_remap_in` resolves a write fault by copying the tables on the way and the
data page, as far as they are shared. -/

namespace Rynex.Paging

open Rynex.Memory

namespace Machine

/-! ### Fork -/

/-- The body of the loop over the entries of a shared table that stands `h` levels above the leaf
tables. A leaf entry of a user page is counted and made read-only; the source tests the write bit
first in a page table and clears it untested in a huge entry. -/
def forkEntry : Nat → Machine → Nat → Nat → Machine
  | 0, m, pt, i =>
    let pte := m.mem pt i
    if !Pte.present pte then m
    else if !Pte.user pte then m
    else
      let m := m.forkShareRefc (Pte.addr pte)
      if !Pte.writable pte then m else m.write pt i (Pte.readOnly pte)
  | h + 1, m, t, i =>
    let e := m.mem t i
    if !Pte.present e then m
    else if Pte.huge e then
      if Pte.user e then (m.forkShareRefc (Pte.addr e)).write t i (Pte.readOnly e) else m
    else
      (List.range 512).foldl (fun m j => forkEntry h m (Pte.addr e) j)
        (m.forkSharePteRefc (Pte.addr e))

/-- The body of the loop over the entries of the old PML4. -/
def forkPml4e (old new : Nat) (m : Machine) (i : Nat) : Machine :=
  let pml4e := m.mem old i
  if !Pte.present pml4e then m
  else if !m.liveTable (Pte.addr pml4e) then m.write new i 0
  else
    let m := m.write new i pml4e
    (List.range 512).foldl (fun m j => forkEntry 2 m (Pte.addr pml4e) j)
      (m.forkSharePteRefc (Pte.addr pml4e))

/-- The new PML4 with the kernel's entries in it. -/
def forkRoot (m : Machine) (new : Nat) : Machine :=
  let m := m.zeroPage new
  let m := m.markPageUsed new
  (List.range 2 ++ List.range' 256 256).foldl
    (fun m i => m.write new i (m.mem m.kernelPml4 i)) m

def cowForkPml4 (m : Machine) (old : Nat) : Option Nat × Machine :=
  match m.allocZeroedPage with
  | (none, m) => (none, m)
  | (some new, m) => (some new, (List.range 256).foldl (forkPml4e old new) (m.forkRoot new))

/-! ### Write faults -/

/-- The table under entry `i` of `t`, copied first when it is counted more than once. -/
def cowTable (m : Machine) (t i : Nat) : Option Nat × Machine :=
  let e := m.mem t i
  if 1 < m.buddy.pteRefcGet (Pte.addr e) then
    match m.allocZeroedPage with
    | (none, m) => (none, m)
    | (some new, m) =>
      let m := (m.copyPage (Pte.addr e) new).pteRefcDec (Pte.addr e)
      (some new, m.write t i (new ||| Pte.flags e))
  else (some (Pte.addr e), m)

/-- The page table that holds the leaf entry of `virt`, private to this address space. -/
def cowWalkPte (m : Machine) (pml4 virt : Nat) : Option Nat × Machine :=
  if !Pte.present (m.mem pml4 (vpn virt 0)) then (none, m)
  else
    match m.cowTable pml4 (vpn virt 0) with
    | (none, m) => (none, m)
    | (some pdpt, m) =>
      let pdpte := m.mem pdpt (vpn virt 1)
      if !Pte.present pdpte || Pte.huge pdpte then (none, m)
      else
        match m.cowTable pdpt (vpn virt 1) with
        | (none, m) => (none, m)
        | (some pd, m) =>
          let pde := m.mem pd (vpn virt 2)
          if !Pte.present pde || Pte.huge pde then (none, m) else m.cowTable pd (vpn virt 2)

/-- `alloc.reserve(phys)`, which the source does on the two pages of a fault at the mallocng meta
page alone. -/
def reserveMeta (m : Machine) (virt phys : Nat) : Machine :=
  if virt = 0x500000 then m.setBuddy (m.buddy.reserve phys) else m

@[simp] theorem mem_reserveMeta (m : Machine) (virt phys : Nat) :
    (m.reserveMeta virt phys).mem = m.mem := by
  unfold reserveMeta; split <;> rfl

@[simp] theorem pageRefc_reserveMeta (m : Machine) (virt phys : Nat) :
    (m.reserveMeta virt phys).pageRefc = m.pageRefc := by
  unfold reserveMeta; split <;> rfl

@[simp] theorem kernelPml4_reserveMeta (m : Machine) (virt phys : Nat) :
    (m.reserveMeta virt phys).kernelPml4 = m.kernelPml4 := by
  unfold reserveMeta; split <;> rfl

/-- The count of the old page drops before the copy is allocated. -/
def cowRemapIn (m : Machine) (pml4 virt : Nat) : Bool × Machine :=
  match m.cowWalkPte pml4 virt with
  | (none, m) => (false, m)
  | (some pt, m) =>
    let pte := m.mem pt (vpn virt 3)
    if !Pte.present pte then (false, m)
    else if Pte.writable pte then (false, m)
    else
      let oldPhys := Pte.addr pte
      if m.refcGet oldPhys = 0 then
        (true, m.write pt (vpn virt 3) (oldPhys ||| Pte.flags pte ||| pteWritable))
      else
        match ((m.refcDec oldPhys).reserveMeta virt oldPhys).allocZeroedPage with
        | (none, m) => (false, m)
        | (some newPhys, m) =>
          let m := (m.copyPage oldPhys newPhys).reserveMeta virt newPhys
          (true, m.write pt (vpn virt 3) (newPhys ||| Pte.flags pte ||| pteWritable))

/-- The fault handler for the address space `pml4` of the faulting task. -/
def pageFaultResolve (m : Machine) (pml4 cr2 code cpl : Nat) : Bool × Machine :=
  let isWrite := code &&& 2 != 0
  let isPresent := code &&& 1 != 0
  if pml4 = 0 then (false, m)
  else
    let (done, m) := if isWrite && isPresent then m.cowRemapIn pml4 cr2 else (false, m)
    if done then (true, m)
    else if cpl = 3 && !isPresent then m.handleDemandPage pml4 cr2
    else (false, m)

end Machine

end Rynex.Paging
