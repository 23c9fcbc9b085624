import Rynex.Lib.Radix
import Rynex.Memory.AllocSpec
import Rynex.Paging.Cow

/-! The tables below a PML4 as a radix tree, whose nodes at depth four are the user pages, and what
the primitives of the machine do to the allocator's view of a page. -/

namespace Rynex.Paging

open Rynex.Memory Rynex.Lib Rynex.Lib.Radix

/-! ### Entries as edges -/

/-- The present entries that lead on: the user half of a PML4, the entries of PDPTs and page
directories that are not huge pages, and the user pages of a page table. -/
def leads : Nat → Nat → Nat → Bool
  | 0, i, _ => i < 256
  | 1, i, e => i < 512 && !Pte.huge e
  | 2, i, e => i < 512 && !Pte.huge e
  | 3, i, e => i < 512 && Pte.user e
  | _, _, _ => false

/-- The page that entry `e` at index `i` of a table at depth `d` leads to. -/
def next (d i e : Nat) : Option Nat :=
  if Pte.present e && leads d i e then some (Pte.addr e) else none

theorem next_eq_some {d i e p : Nat} :
    next d i e = some p ↔ Pte.present e = true ∧ leads d i e = true ∧ Pte.addr e = p := by
  simp [next, and_assoc]

theorem leads_congr {d i e e' : Nat} (hh : Pte.huge e' = Pte.huge e)
    (hu : Pte.user e' = Pte.user e) :
    leads d i e' = leads d i e := by
  rcases d with _ | _ | _ | _ | d <;> simp [leads, hh, hu]

@[simp] theorem next_readOnly (d i e : Nat) : next d i (Pte.readOnly e) = next d i e := by
  simp [next, leads_congr (Pte.huge_readOnly e) (Pte.user_readOnly e)]

theorem next_or_flags {d i e p n : Nat} (hn : Pte.addr n = n) (h : next d i e = some p) :
    next d i (n ||| Pte.flags e) = some n := by
  rw [next_eq_some] at h ⊢
  rw [Pte.present_or_flags hn, Pte.addr_or_flags hn,
    leads_congr (Pte.huge_or_flags hn e) (Pte.user_or_flags hn e)]
  exact ⟨h.1, h.2.1, rfl⟩

@[simp] theorem next_addr_or_flags (d i e : Nat) :
    next d i (Pte.addr e ||| Pte.flags e) = next d i e := by
  have he := Pte.addr_addr e
  simp [next, Pte.present_or_flags he, Pte.addr_or_flags he,
    leads_congr (Pte.huge_or_flags he e) (Pte.user_or_flags he e)]

@[simp] theorem next_or_writable (d i e : Nat) : next d i (e ||| pteWritable) = next d i e := by
  simp [next, leads_congr (Pte.huge_or_writable e) (Pte.user_or_writable e)]

theorem next_zero (d i : Nat) : next d i 0 = none := by
  simp [next, Pte.present]

theorem next_deep {d i e : Nat} (h : 4 ≤ d) : next d i e = none := by
  obtain ⟨k, rfl⟩ := Nat.exists_eq_add_of_le h
  simp [next, leads, show 4 + k = k + 4 by omega]

theorem addr_of_at {mem : Nat → Nat → Nat} {r p : Nat} {π : List Nat} (hπ : π ≠ [])
    (h : At next mem r π p) : Pte.addr p = p := by
  induction π using List.reverseRecOn with
  | nil => exact absurd rfl hπ
  | append_singleton π i ih =>
    obtain ⟨t, -, hp⟩ := h.of_concat
    rw [← (next_eq_some.mp hp).2.2, Pte.addr_addr]

/-! ### User addresses -/

def path (va : Nat) : List Nat := [vpn va 0, vpn va 1, vpn va 2, vpn va 3]

def wordIdx (va : Nat) : Nat := va % pageSize / 8

def userPage (m : Machine) (pml4 va : Nat) : Option Nat := walk next m.mem 0 pml4 (path va)

/-- The word that a user read of `va` returns, when a 4 KiB user page is mapped there. -/
def userWord (m : Machine) (pml4 va : Nat) : Option Nat :=
  content next m.mem pml4 (path va) (wordIdx va)

/-- The way to the page table for `va`. -/
def dir (va : Nat) : List Nat := [vpn va 0, vpn va 1, vpn va 2]

/-- A user store to `va` as the processor performs it, when the leaf entry allows it. The entries
above are taken to allow it, as `map_into` makes them. -/
def Machine.storeWord (m : Machine) (pml4 va w : Nat) : Option Machine :=
  match content next m.mem pml4 (dir va) (vpn va 3) with
  | none => none
  | some e =>
    match next 3 (vpn va 3) e with
    | none => none
    | some p => if Pte.writable e then some (m.write p (wordIdx va) w) else none

/-- The error code of a user write to a page that is present. -/
def writeFault : Nat := 7

/-- A user store to a mapped page: when it faults, it is performed once the fault is resolved. -/
def Machine.userStore (m : Machine) (pml4 va w : Nat) : Option Machine :=
  match m.storeWord pml4 va w with
  | some m' => some m'
  | none =>
    if (userPage m pml4 va).isNone then none
    else
      match m.pageFaultResolve pml4 va writeFault 3 with
      | (true, m') => m'.storeWord pml4 va w
      | (false, _) => none

@[simp] theorem length_path (va : Nat) : (path va).length = 4 := rfl

@[simp] theorem length_dir (va : Nat) : (dir va).length = 3 := rfl

theorem path_eq (va : Nat) : path va = dir va ++ [vpn va 3] := rfl

theorem at_dir {mem : Nat → Nat → Nat} {r t va : Nat} : At next mem r (dir va) t ↔
    ∃ pdpt pd, next 0 (vpn va 0) (mem r (vpn va 0)) = some pdpt ∧
      next 1 (vpn va 1) (mem pdpt (vpn va 1)) = some pd ∧
      next 2 (vpn va 2) (mem pd (vpn va 2)) = some t := by
  simp [At, dir, walk, Option.bind_eq_some_iff]

theorem at_path {mem : Nat → Nat → Nat} {r p va : Nat} : At next mem r (path va) p ↔
    ∃ t, At next mem r (dir va) t ∧ next 3 (vpn va 3) (mem t (vpn va 3)) = some p := by
  rw [path_eq]
  exact ⟨fun h => h.of_concat, fun ⟨_, ht, hp⟩ => ht.concat hp⟩

theorem vpn_eq (va d : Nat) : vpn va d = va / 2 ^ (39 - 9 * d) % 512 := by
  rw [vpn, Nat.shiftRight_eq_div_pow, show (0x1FF : Nat) = 2 ^ 9 - 1 by rfl,
    Nat.and_two_pow_sub_one_eq_mod]

theorem word_eq {va va' : Nat} (h : va < 2 ^ 47) (h' : va' < 2 ^ 47) (hpath : path va = path va')
    (hword : wordIdx va = wordIdx va') : va / 8 = va' / 8 := by
  simp only [path, vpn_eq, List.cons.injEq, and_true, Nat.reduceMul, Nat.reduceSub,
    Nat.reducePow] at hpath
  simp only [wordIdx, pageSize] at hword
  omega

theorem path_congr {va va' : Nat} (h : va / 8 = va' / 8) :
    path va = path va' ∧ wordIdx va = wordIdx va' := by
  simp only [path, vpn_eq, wordIdx, pageSize, List.cons.injEq, and_true, Nat.reduceMul,
    Nat.reduceSub, Nat.reducePow]
  omega

end Rynex.Paging
