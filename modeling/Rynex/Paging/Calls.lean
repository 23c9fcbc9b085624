import Rynex.Paging.Cow

/-! The calls of `task.rs` that change an address space in place: `sys_mmap`, `sys_mprotect`,
`sys_munmap`, `sys_brk` and demand paging, with the pool of mapped regions that they keep. Sums of
addresses wrap at 64 bits. -/

namespace Rynex.Paging

open Rynex.Memory

def einval : Int := 22
def enomem : Int := 12
def enosys : Int := 38

def protWrite : Nat := 2
def protExec : Nat := 4
def mapShared : Nat := 1
def mapAnonymous : Nat := 32

def pteNoExecute : Nat := 1 <<< 63

def maxVmaRecords : Nat := 65536

/-- `addr & !0xFFF`. -/
def pageAlignDown (addr : Nat) : Nat := addr - addr % pageSize

/-- `(addr + 0xFFF) & !0xFFF`. -/
def pageAlignUp (addr : Nat) : Nat := pageAlignDown ((addr + 0xFFF) % 2 ^ 64)

/-- The pages that `while page < stop { ...; page += 4096 }` goes through from `start`. -/
def pagesFrom (start stop : Nat) : List Nat :=
  (List.range ((stop - start + 0xFFF) / pageSize)).map fun k => start + k * pageSize

def protFlags (prot : Nat) : Nat :=
  let flags := ptePresent ||| pteUser
  let flags := if prot &&& protWrite ≠ 0 then flags ||| pteWritable else flags
  if prot &&& protExec = 0 then flags ||| pteNoExecute else flags

def VmaRec.empty : VmaRec := ⟨0, 0, 0, 0⟩

/-- `recs` with the first record that `p` picks replaced by `f` of it, when there is one. -/
def replaceFirst (p : VmaRec → Bool) (f : VmaRec → VmaRec) : List VmaRec → List VmaRec
  | [] => []
  | v :: vs => if p v then f v :: vs else v :: replaceFirst p f vs

namespace Machine

/-! ### The pool of regions -/

/-- Takes the first dropped record, or a new one while the pool has room. -/
def vmaRegister (m : Machine) (pml4 start stop flags : Nat) : Bool × Machine :=
  let free := fun v : VmaRec => v.pml4 = 0 && v.start = 0
  if m.vmas.any free then
    (true, { m with vmas := replaceFirst free (fun _ => ⟨pml4, start, stop, flags⟩) m.vmas })
  else if m.vmas.length < maxVmaRecords then
    (true, { m with vmas := m.vmas ++ [⟨pml4, start, stop, flags⟩] })
  else (false, m)

/-- The least end of a region that overlaps the range. -/
def vmaFirstOverlapEnd (m : Machine) (pml4 start stop : Nat) : Option Nat :=
  m.vmas.foldl (fun best v =>
    if v.pml4 = pml4 ∧ start < v.stop ∧ v.start < stop then
      match best with
      | none => some v.stop
      | some b => if v.stop < b then some v.stop else some b
    else best) none

/-- One record under `vma_clear_range`. A hole in the middle of a region drops its upper part. -/
def clearRange (pml4 start stop : Nat) (v : VmaRec) : VmaRec :=
  if v.pml4 ≠ pml4 ∨ v.start = 0 then v
  else if start ≤ v.start ∧ v.stop ≤ stop then .empty
  else if start ≤ v.start ∧ v.start < stop ∧ stop < v.stop then { v with start := stop }
  else if v.stop ≤ stop ∧ v.start < start ∧ start < v.stop then { v with stop := start }
  else if v.start < start ∧ stop < v.stop then { v with stop := start }
  else v

def vmaClearRange (m : Machine) (pml4 start stop : Nat) : Machine :=
  { m with vmas := m.vmas.map (clearRange pml4 start stop) }

/-- Moves the end of the first region that starts at `start`. -/
def vmaSetEnd (m : Machine) (pml4 start stop : Nat) : Machine :=
  { m with
    vmas := replaceFirst (fun v => v.pml4 = pml4 && v.start = start)
      (fun v => { v with stop := stop }) m.vmas }

/-- Drops the first region that starts at `addr`. -/
def vmaClearAddr (m : Machine) (pml4 addr : Nat) : Machine :=
  { m with
    vmas := replaceFirst (fun v => v.pml4 = pml4 && v.start = addr) (fun _ => .empty) m.vmas }

def vmaClearPml4 (m : Machine) (pml4 : Nat) : Machine :=
  if pml4 = 0 then m
  else { m with vmas := m.vmas.map fun v => if v.pml4 = pml4 then .empty else v }

/-- One turn of `vma_clone`: record `i`, if it is one of `src`, once more under `dst`, as far as
the pool has room. -/
def cloneRec (src dst : Nat) (m : Machine) (i : Nat) : Machine :=
  match m.vmas[i]? with
  | none => m
  | some v => if v.pml4 = src then (m.vmaRegister dst v.start v.stop v.flags).2 else m

/-- The loop ends at the length that the pool has before it. -/
def vmaClone (m : Machine) (src dst : Nat) : Machine :=
  (List.range m.vmas.length).foldl (cloneRec src dst) m

/-! ### Calls -/

/-- What `sys_fork` does to the address space of the parent; the child gets the new PML4. -/
def sysFork (m : Machine) (pml4 : Nat) : Option Nat × Machine :=
  match m.cowForkPml4 pml4 with
  | (none, m) => (none, m)
  | (some child, m) => (some child, m.vmaClone pml4 child)

/-- The search for a hole: each turn jumps behind a region, so one turn more than there are
regions is enough. -/
def findHole (m : Machine) (pml4 size : Nat) : Nat → Nat → Option Nat
  | 0, _ => none
  | fuel + 1, candidate =>
    if (candidate + size) % 2 ^ 64 ≤ 0x00007FFFFFFFF000 then
      match m.vmaFirstOverlapEnd pml4 candidate ((candidate + size) % 2 ^ 64) with
      | some stop => findHole m pml4 size fuel stop
      | none => some candidate
    else none

/-- `as i64`. -/
def asI64 (n : Nat) : Int := Int.bmod n (2 ^ 64)

def sysMmap (m : Machine) (pml4 addr length prot flags : Nat) (fd : Int) : Int × Machine :=
  if fd ≠ -1 ∧ flags &&& mapAnonymous = 0 then (-enosys, m)
  else if flags &&& mapShared ≠ 0 then (-enosys, m)
  else
    let pageAddr := pageAlignDown addr
    let size := pageAlignUp length
    let hole := if pageAddr = 0 then m.findHole pml4 size (m.vmas.length + 1) 0x70000000
      else some pageAddr
    match hole with
    | none => (-enomem, m)
    | some finalAddr =>
      match m.vmaRegister pml4 finalAddr ((finalAddr + size) % 2 ^ 64) (protFlags prot) with
      | (false, m) => (-enomem, m)
      | (true, m) => (asI64 finalAddr, m)

/-- One page of `sys_mprotect`: what is mapped there is mapped again, as a user page. -/
def mprotectPage (pml4 flags : Nat) (m : Machine) (page : Nat) : Machine :=
  match m.resolvePhys pml4 page with
  | none => m
  | some phys => (m.mapInto pml4 page phys flags).2

def sysMprotect (m : Machine) (pml4 addr len prot : Nat) : Int × Machine :=
  let start := pageAlignDown addr
  let stop := pageAlignUp ((addr + len) % 2 ^ 64)
  (0, (pagesFrom start stop).foldl (mprotectPage pml4 (protFlags prot)) m)

/-- `userStacks` lists PML4 and stack pointer of the live tasks; a page of a region that holds a
stack pointer stays mapped. -/
def munmapPageInUse (m : Machine) (userStacks : List (Nat × Nat)) (page : Nat) : Bool :=
  userStacks.any fun s =>
    match m.vmaFind s.1 s.2 with
    | none => false
    | some v => v.start < page + pageSize && page < v.stop

/-- One page of `sys_munmap`: a user page goes back to the allocator and its entry is cleared. -/
def munmapPage (pml4 : Nat) (m : Machine) (page : Nat) : Machine :=
  match m.getPteIn pml4 page with
  | none => m
  | some pt =>
    let pte := m.mem pt (vpn page 3)
    if Pte.present pte && Pte.user pte then
      (m.setBuddy (m.buddy.free (Pte.addr pte) 0)).write pt (vpn page 3) 0
    else m

def sysMunmap (m : Machine) (userStacks : List (Nat × Nat)) (pml4 addr len : Nat) :
    Int × Machine :=
  if len = 0 then (-einval, m)
  else
    let start := pageAlignDown addr
    let stop := (start + pageAlignUp len) % 2 ^ 64
    if (pagesFrom start stop).any (m.munmapPageInUse userStacks) then (0, m)
    else (0, ((pagesFrom start stop).foldl (munmapPage pml4) m).vmaClearRange pml4 start stop)

def brkFlags : Nat := ptePresent ||| pteWritable ||| pteUser ||| pteNoExecute

/-- One page of `sys_brk`: a cleared page is mapped, when there is one. -/
def brkPage (pml4 : Nat) (m : Machine) (page : Nat) : Machine :=
  match m.allocPage with
  | (none, m) => m
  | (some phys, m) => ((m.zeroPage phys).mapInto pml4 page phys brkFlags).2

end Machine

/-- The machine with the heap bounds of the process that calls, and the stacks of the live
tasks. -/
structure Proc where
  machine : Machine
  brkStart : Nat
  brkEnd : Nat
  userStacks : List (Nat × Nat)

namespace Proc

/-- `sys_brk` up to the end of the heap's region: the first call sets the start of the heap, and
the region is registered when there is none. -/
def brkRegion (s : Proc) (pml4 addr : Nat) : Proc :=
  let s := if s.brkStart = 0 then { s with brkStart := addr, brkEnd := addr } else s
  if (s.machine.vmaFind pml4 s.brkStart).isNone then
    { s with machine := (s.machine.vmaRegister pml4 s.brkStart s.brkStart Machine.brkFlags).2 }
  else s

/-- The pages that `sys_brk` backs when the heap grows. -/
def brkPages (s : Proc) (addr : Nat) : List Nat :=
  if s.brkEnd < addr then pagesFrom (pageAlignDown s.brkEnd) (pageAlignUp addr) else []

def sysBrk (s : Proc) (pml4 addr : Nat) : Int × Proc :=
  if addr = 0 then (Machine.asI64 s.brkEnd, s)
  else
    let s := s.brkRegion pml4 addr
    if addr < s.brkStart then (Machine.asI64 s.brkEnd, s)
    else
      let m := s.machine.vmaSetEnd pml4 s.brkStart addr
      let m := (s.brkPages addr).foldl (Machine.brkPage pml4) m
      (Machine.asI64 addr, { s with machine := m, brkEnd := addr })

/-- A call of the process, or a fault of it on a page that is not present. -/
inductive Call where
  | mmap (addr length prot flags : Nat) (fd : Int)
  | mprotect (addr len prot : Nat)
  | munmap (addr len : Nat)
  | brk (addr : Nat)
  | fault (cr2 : Nat)
deriving Repr

/-- The state after a call of the process with the given PML4. A fault on a page that is not
present has error code 4, from user mode. -/
def step (pml4 : Nat) (s : Proc) : Call → Proc
  | .mmap addr length prot flags fd =>
    { s with machine := (s.machine.sysMmap pml4 addr length prot flags fd).2 }
  | .mprotect addr len prot => { s with machine := (s.machine.sysMprotect pml4 addr len prot).2 }
  | .munmap addr len => { s with machine := (s.machine.sysMunmap s.userStacks pml4 addr len).2 }
  | .brk addr => (s.sysBrk pml4 addr).2
  | .fault cr2 => { s with machine := (s.machine.pageFaultResolve pml4 cr2 4 3).2 }

end Proc

end Rynex.Paging
