import Rynex.Paging.Elf
import Rynex.Paging.Progress

/-! Write protection over runs of one process: which pages were mapped without write permission,
and whether a fault makes one of them writable before `mmap` or `mprotect` grants that. The fault
handler does not tell a read-only page from a copy-on-write page, and `mprotect` does not change
the flags of the region, so protection lasts only as long as neither is met. -/

namespace Rynex.Paging

open Rynex.Memory Rynex.Lib Rynex.Lib.Radix

/-- The process with the numbers of the pages that were last mapped without write permission. The
list is a history variable: no call reads it. -/
structure Guard where
  proc : Proc
  readOnly : List Nat

namespace Guard

/-- A call of the process, a segment that the loader maps for it, or an access of user mode with
the fault that it raises, if it raises one. -/
inductive Event where
  | mmap (addr length prot flags : Nat) (fd : Int)
  | mprotect (addr len prot : Nat)
  | munmap (addr len : Nat)
  | brk (addr : Nat)
  | segment (img : Image) (ph : ProgramHeader) (loadAddr : Nat)
  | access (va : Nat) (k : Access)

abbrev machine (g : Guard) : Machine := g.proc.machine

def setMachine (g : Guard) (m : Machine) : Guard := { g with proc := { g.proc with machine := m } }

/-- Pages that are mapped with or without write permission. -/
def mark (g : Guard) (pages : List Nat) (write : Bool) : Guard :=
  if write then { g with readOnly := g.readOnly.filter fun p => p ∉ pages.map pageOf }
  else { g with readOnly := pages.map pageOf ++ g.readOnly }

def step (a : Nat) (g : Guard) : Event → Guard
  | .mmap addr length prot flags fd =>
    let r := g.machine.sysMmap a addr length prot flags fd
    if r.1 < 0 then g.setMachine r.2
    else
      (g.setMachine r.2).mark (pagesFrom r.1.toNat ((r.1.toNat + pageAlignUp length) % 2 ^ 64))
        (prot &&& protWrite ≠ 0)
  | .mprotect addr len prot =>
    (g.setMachine (g.machine.sysMprotect a addr len prot).2).mark
      (pagesFrom (pageAlignDown addr) (pageAlignUp ((addr + len) % 2 ^ 64)))
      (prot &&& protWrite ≠ 0)
  | .munmap addr len => { g with proc := g.proc.step a (.munmap addr len) }
  | .brk addr => { g with proc := g.proc.step a (.brk addr) }
  | .segment img ph loadAddr =>
    let g' := g.setMachine (g.machine.loadSegment img a loadAddr ph).2
    if ph.flags &&& pfW = 0 then g'.mark (Machine.segmentPages ph loadAddr) false else g'
  | .access va k =>
    match faultCode g.machine a va k with
    | none => g
    | some code => g.setMachine (g.machine.pageFaultResolve a va code 3).2

/-- The page at `va` is mapped, and every level allows a store. -/
def writableAt (m : Machine) (a va : Nat) : Bool := (translation m a va).any fun t => t.2

/-- A fault produces no writable mapping of a protected page. -/
def Protects (a : Nat) (g : Guard) : Event → Prop
  | .access va k => ∀ va', pageOf va' ∈ g.readOnly →
      writableAt (g.step a (.access va k)).machine a va' = true → writableAt g.machine a va' = true
  | _ => True

/-- The address space is tree-shaped; a protected page is not written while it is present without
the write bit, and it is not touched while it is absent and the region found for it has the write
bit. -/
def Obeys (a : Nat) (g : Guard) : Event → Prop
  | .access va k => TreeShaped g.machine a ∧ (pageOf va ∈ g.readOnly →
      (k = .write → ∀ e, leafOf g.machine a va = some e → Pte.present e = true →
        Pte.writable e = true) ∧
      (frameAt g.machine a va = none → ∀ vma, g.machine.vmaFind a va = some vma →
        Pte.writable vma.flags = false))
  | _ => True

end Guard

/-! ### One access -/

variable {m m' : Machine} {a va e : Nat}

theorem not_writableAt_of_leaf (h : leafOf m a va = some e) (hw : Pte.writable e = false) :
    Guard.writableAt m a va = false := by
  obtain ⟨t, ht, rfl⟩ := Option.map_eq_some_iff.mp h
  obtain ⟨pdpt, pd, ⟨hp₀, rfl⟩, ⟨hp₁, hh₁, rfl⟩, hp₂, hh₂, rfl⟩ := table_dir ht
  simp only [Guard.writableAt, translation, hp₀, hp₁, hh₁, hp₂, hh₂, hw, Bool.not_true,
    Bool.false_eq_true, if_false, Bool.and_false]
  split <;> rfl

theorem writableAt_congr {va' : Nat} (h : translation m' a va' = translation m a va') :
    Guard.writableAt m' a va' = Guard.writableAt m a va' := by
  rw [Guard.writableAt, Guard.writableAt, h]

theorem writable_zeroPage {flags p : Nat} (hp : pageSize ∣ p) (hw : Pte.writable flags = false) :
    Pte.writable (p ||| flags ||| ptePresent) = false := by
  obtain ⟨c, rfl⟩ := hp
  rw [Pte.writable_eq] at hw ⊢
  rw [Nat.testBit_or, Nat.testBit_or, hw, show pageSize * c = 2 ^ 12 * c from rfl,
    Nat.testBit_two_pow_mul]
  simp [show ptePresent.testBit 1 = false by decide]

namespace Guard

variable {g : Guard}

theorem Obeys.protects {ev : Event} (h : g.Obeys a ev) : g.Protects a ev := by
  cases ev with
  | access va k =>
    obtain ⟨htree, hobeys⟩ := h
    intro va' hva' hw
    cases hcode : faultCode g.machine a va k with
    | none => simpa [step, hcode] using hw
    | some code =>
      rcases hm : g.machine.pageFaultResolve a va code 3 with ⟨done, m'⟩
      have hstep : (g.step a (.access va k)).machine = m' := by simp [step, hcode, hm, setMachine]
      rw [hstep] at hw
      have hh := htree.resolve hcode hm
      by_cases hpage : pageOf va' = pageOf va
      case neg => rwa [writableAt_congr (hh.elsewhere.same va' hpage)] at hw
      cases done with
      | false => rwa [writableAt_congr ((hh.stays rfl).same va')] at hw
      | true =>
        obtain ⟨hwrite, habsent⟩ := hobeys (hpage ▸ hva')
        cases hv : view g.machine a va with
        | none =>
          obtain ⟨vma, p, hvma, hz⟩ := hh.zero rfl hv
          have hflags := habsent (frameAt_eq_none.mpr hv) vma hvma
          rw [not_writableAt_of_leaf ((leafOf_page m' a hpage).trans hz.leaf)
            (writable_zeroPage hz.page.1 hflags)] at hw
          cases hw
        | some v =>
          obtain ⟨hk, e, he, hp, hro⟩ := hh.found rfl (by simp [hv])
          rw [hwrite hk e he hp] at hro
          cases hro
  | _ => trivial

/-- In a run whose accesses all obey, no fault ever produces a writable mapping of a protected
page. -/
theorem write_protection_lasts {events : List Event} (h : Steps (step a) (Obeys a) g events) :
    Steps (step a) (Protects a) g events :=
  h.mono fun _ _ h => h.protects

/-- A process without regions, under the tables of `hugePages`. -/
def fresh : Guard := ⟨⟨hugePages, 0, 0, []⟩, []⟩

/-- A region that is mapped for reading is read. -/
theorem write_protection_lasts_read : Steps (step 0x200000) (Protects 0x200000) fresh
    [.mmap 0x40200000 0x1000 1 0x22 (-1), .access 0x40200000 .read] := by
  refine write_protection_lasts ⟨trivial, ⟨?_, fun _ => ⟨nofun, fun _ vma hvma => ?_⟩⟩, trivial⟩
  · exact ⟨hugePages_treeShaped.wf, hugePages_treeShaped.small, hugePages_treeShaped.placed,
      hugePages_treeShaped.held⟩
  · obtain rfl : ⟨0x200000, 0x40200000, 0x40201000, protFlags 1⟩ = vma := by
      simpa [show (fresh.step 0x200000 (.mmap 0x40200000 0x1000 1 0x22 (-1))).machine.vmaFind
        0x200000 0x40200000 = some ⟨0x200000, 0x40200000, 0x40201000, protFlags 1⟩ by decide]
        using hvma
    decide

/-- A region that is mapped for reading is read, which brings its page in, and then written. -/
theorem read_only_page_made_writable : TreeShaped fresh.machine 0x200000 ∧
    ¬ Steps (step 0x200000) (Protects 0x200000) fresh
      [.mmap 0x40200000 0x1000 1 0x22 (-1), .access 0x40200000 .read,
        .access 0x40200000 .write] := by
  refine ⟨hugePages_treeShaped, fun ⟨_, _, h, _⟩ => ?_⟩
  have hbefore := h 0x40200000 (by decide +kernel) (by decide +kernel)
  revert hbefore
  decide

end Guard

end Rynex.Paging
