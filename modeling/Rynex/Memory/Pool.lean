import Rynex.Memory.Buddy

/-! The pages that nobody holds: the blocks on the free lists and the pages in the quarantine
ring. `Pool.Wf` says that they fit the managed range and never overlap, and the lemmas say what
linking, unlinking, queueing and taking one of them does. -/

namespace Rynex.Memory

open Rynex.Lib

theorem Buddy.blockSize_eq (o : Nat) : Buddy.blockSize o = Block.size pageShift o := by
  simp [Buddy.blockSize, Block.size, pageSize, pageShift, Nat.shiftLeft_eq, Nat.pow_add]

theorem pageSize_eq : pageSize = Block.size pageShift 0 := rfl

theorem pageSize_le_size (o : Nat) : pageSize ≤ Block.size pageShift o := by
  rw [pageSize_eq]; exact Block.size_le_size (Nat.zero_le o)

/-- The block of order `o` at `a` covers the address `x`. -/
abbrev Covers (a o x : Nat) : Prop := Block.Covers pageShift a o x

theorem covers_join {a o x : Nat} (h : Block.size pageShift o ∣ a) :
    Covers (min a (a ^^^ Block.size pageShift o)) (o + 1) x ↔
      Covers a o x ∨ Covers (a ^^^ Block.size pageShift o) o x :=
  (Block.join_buddy h).2 x

/-- A block that is aligned to its size and lies between `lo` and `hi`. -/
structure Fits (lo hi a o : Nat) : Prop where
  order_le : o ≤ maxOrder
  aligned : Block.size pageShift o ∣ a
  lower : lo ≤ a
  upper : a + Block.size pageShift o ≤ hi

theorem Fits.page_dvd {lo hi a o : Nat} (h : Fits lo hi a o) : pageSize ∣ a :=
  Nat.dvd_trans (by rw [pageSize_eq]; exact Block.size_dvd_size (Nat.zero_le o)) h.aligned

theorem Fits.join {lo hi a o : Nat} (h : Fits lo hi a o)
    (h' : Fits lo hi (a ^^^ Block.size pageShift o) o) (ho : o < maxOrder) :
    Fits lo hi (min a (a ^^^ Block.size pageShift o)) (o + 1) := by
  refine ⟨ho, (Block.join_buddy h.aligned).1, le_min h.lower h'.lower, ?_⟩
  have hup := h.upper
  have hup' := h'.upper
  rw [Block.size_succ]
  rcases Block.buddy_cases h.aligned with ⟨_, hx⟩ | ⟨c, rfl, _, hx⟩
  · rw [hx] at hup' ⊢; omega
  · rw [hx] at hup' ⊢; omega

theorem Fits.half {lo hi a o : Nat} (h : Fits lo hi a (o + 1)) :
    Fits lo hi (a + Block.size pageShift o) o := by
  have hup := h.upper
  have hord := h.order_le
  have hlow := h.lower
  rw [Block.size_succ] at hup
  exact ⟨by omega, Block.size_dvd_half h.aligned (Nat.lt_succ_self o), by omega, by omega⟩

theorem Fits.lower_part {lo hi a o o' : Nat} (h : Fits lo hi a o') (hle : o ≤ o') :
    Fits lo hi a o := by
  have hup := h.upper
  have hord := h.order_le
  have hsize : Block.size pageShift o ≤ Block.size pageShift o' := Block.size_le_size hle
  exact ⟨by omega, Nat.dvd_trans (Block.size_dvd_size hle) h.aligned, h.lower, by omega⟩

/-- The part of the allocator that says where free pages wait. -/
structure Pool where
  base : Nat
  pages : Nat
  freeLists : Nat → List Nat
  quarantine : Nat → Nat
  qHead : Nat
  qCount : Nat

namespace Pool

variable {P : Pool} {a o x p : Nat}

def limit (P : Pool) : Nat := P.base + P.pages * pageSize

/-- The addresses in the quarantine ring, oldest first. -/
def qContents (P : Pool) : List Nat :=
  Ring.window P.quarantine quarantineMaxCap (P.qHead + quarantineMaxCap - P.qCount) P.qCount

/-- A free block covers `x`. -/
def FreeAt (P : Pool) (x : Nat) : Prop := ∃ o a, a ∈ P.freeLists o ∧ Covers a o x

/-- A page in the quarantine covers `x`. -/
def WaitingAt (P : Pool) (x : Nat) : Prop := ∃ p ∈ P.qContents, Covers p 0 x

/-- `x` lies in memory that the allocator may hand out. -/
def AvailAt (P : Pool) (x : Nat) : Prop := P.FreeAt x ∨ P.WaitingAt x

/-- Free blocks and quarantined pages fit the managed range and are pairwise disjoint. -/
structure Wf (P : Pool) : Prop where
  nonzero : ∀ {o a}, a ∈ P.freeLists o → a ≠ 0
  fits : ∀ {o a}, a ∈ P.freeLists o → Fits P.base P.limit a o
  nodup : ∀ o, (P.freeLists o).Nodup
  exclusive : ∀ {o a o' a' x}, a ∈ P.freeLists o → a' ∈ P.freeLists o' → Covers a o x →
    Covers a' o' x → o = o' ∧ a = a'
  qHead_lt : P.qHead < quarantineMaxCap
  qCount_le : P.qCount ≤ quarantineMaxCap
  qNonzero : ∀ {p}, p ∈ P.qContents → p ≠ 0
  qFits : ∀ {p}, p ∈ P.qContents → Fits P.base P.limit p 0
  qNodup : P.qContents.Nodup
  qFree : ∀ {x}, P.WaitingAt x → ¬ P.FreeAt x

theorem wf_empty (base pages : Nat) (quarantine : Nat → Nat) :
    (⟨base, pages, fun _ => [], quarantine, 0, 0⟩ : Pool).Wf := by
  constructor <;> simp [qContents, WaitingAt, quarantineMaxCap]

theorem Wf.availAt_lt (h : P.Wf) (hx : P.AvailAt x) : x < P.limit := by
  rcases hx with ⟨o, a, hm, hc⟩ | ⟨p, hm, hc⟩
  · exact hc.2.trans_le (h.fits hm).upper
  · exact hc.2.trans_le (h.qFits hm).upper

theorem Wf.availAt_page {p : Nat} (h : P.Wf) (hp : pageSize ∣ p) (hx : Covers p 0 x)
    (hav : P.AvailAt x) : P.AvailAt p := by
  rcases hav with ⟨o, a, hm, hc⟩ | ⟨q, hm, hc⟩
  · exact .inl ⟨o, a, hm, Block.covers_unit (h.fits hm).aligned hp hc hx⟩
  · exact .inr ⟨q, hm, Block.covers_unit (h.qFits hm).aligned hp hc hx⟩

/-! ### Replacing one free list -/

def setList (P : Pool) (o : Nat) (l : List Nat) : Pool :=
  { P with freeLists := Function.update P.freeLists o l }

theorem setList_self (P : Pool) (o : Nat) : P.setList o (P.freeLists o) = P := by
  simp [setList]

/-- `h.next = free_lists[o]; free_lists[o] = h` with `h` at address `a`. -/
def push (P : Pool) (o a : Nat) : Pool :=
  P.setList o (if a = 0 then [] else a :: P.freeLists o)

@[simp] theorem setList_base (l : List Nat) : (P.setList o l).base = P.base := rfl

@[simp] theorem setList_pages (l : List Nat) : (P.setList o l).pages = P.pages := rfl

@[simp] theorem setList_limit (l : List Nat) : (P.setList o l).limit = P.limit := rfl

@[simp] theorem setList_qContents (l : List Nat) :
    (P.setList o l).qContents = P.qContents := rfl

@[simp] theorem setList_waitingAt (l : List Nat) :
    (P.setList o l).WaitingAt x ↔ P.WaitingAt x := Iff.rfl

theorem mem_setList {l : List Nat} {o' a' : Nat} :
    a' ∈ (P.setList o l).freeLists o' ↔ if o' = o then a' ∈ l else a' ∈ P.freeLists o' := by
  by_cases h : o' = o <;> simp [setList, h]

theorem FreeAt.of_sublist {l : List Nat} (hl : l.Sublist (P.freeLists o))
    (h : (P.setList o l).FreeAt x) : P.FreeAt x := by
  obtain ⟨o', a', hmem, hcov⟩ := h
  rw [mem_setList] at hmem
  split at hmem
  · next heq => subst heq; exact ⟨_, a', hl.subset hmem, hcov⟩
  · exact ⟨o', a', hmem, hcov⟩

theorem Wf.of_sublist {l : List Nat} (h : P.Wf) (hl : l.Sublist (P.freeLists o)) :
    (P.setList o l).Wf := by
  have hsub : ∀ {o' a'}, a' ∈ (P.setList o l).freeLists o' → a' ∈ P.freeLists o' := by
    intro o' a' hmem
    rw [mem_setList] at hmem
    split at hmem
    · next heq => subst heq; exact hl.subset hmem
    · exact hmem
  refine { h with
    nonzero := fun hm => h.nonzero (hsub hm)
    fits := fun hm => h.fits (hsub hm)
    nodup := fun o' => ?_
    exclusive := fun hm hm' => h.exclusive (hsub hm) (hsub hm')
    qFree := fun hw hf => h.qFree hw (hf.of_sublist hl) }
  by_cases heq : o' = o
  · subst heq; simpa [setList] using (h.nodup o').sublist hl
  · simpa [setList, Function.update_of_ne heq] using h.nodup o'

theorem Wf.freeAt_erase (h : P.Wf) (ha : a ∈ P.freeLists o) :
    (P.setList o ((P.freeLists o).erase a)).FreeAt x ↔ P.FreeAt x ∧ ¬ Covers a o x := by
  constructor
  · rintro ⟨o', a', hmem, hcov⟩
    rw [mem_setList] at hmem
    split at hmem
    · next heq =>
      subst heq
      rw [(h.nodup o').mem_erase_iff] at hmem
      exact ⟨⟨o', a', hmem.2, hcov⟩, fun hc => hmem.1 (h.exclusive hmem.2 ha hcov hc).2⟩
    · next hne =>
      exact ⟨⟨o', a', hmem, hcov⟩, fun hc => hne (h.exclusive hmem ha hcov hc).1⟩
  · rintro ⟨⟨o', a', hmem, hcov⟩, hnot⟩
    refine ⟨o', a', ?_, hcov⟩
    rw [mem_setList]
    split
    · next heq =>
      subst heq
      exact (h.nodup o').mem_erase_iff.mpr ⟨fun he => hnot (he ▸ hcov), hmem⟩
    · exact hmem

/-! ### Linking a block -/

theorem FreeAt.of_push (h : (P.push o a).FreeAt x) : P.FreeAt x ∨ Covers a o x := by
  obtain ⟨o', a', hmem, hcov⟩ := h
  rw [push, mem_setList] at hmem
  split at hmem
  · next heq =>
    subst heq
    split at hmem
    · cases hmem
    · rcases List.mem_cons.mp hmem with rfl | hmem
      · exact .inr hcov
      · exact .inl ⟨o', a', hmem, hcov⟩
  · exact .inl ⟨o', a', hmem, hcov⟩

theorem freeAt_push (ha : a ≠ 0) : (P.push o a).FreeAt x ↔ P.FreeAt x ∨ Covers a o x := by
  refine ⟨FreeAt.of_push, ?_⟩
  rintro (⟨o', a', hmem, hcov⟩ | hcov)
  · refine ⟨o', a', ?_, hcov⟩
    rw [push, mem_setList, if_neg ha]
    split
    · next heq => subst heq; exact List.mem_cons_of_mem _ hmem
    · exact hmem
  · exact ⟨o, a, by rw [push, mem_setList, if_pos rfl, if_neg ha]; exact List.mem_cons_self, hcov⟩

/-- Linking a block whose addresses are not available yet keeps the pool well formed. -/
theorem Wf.push (h : P.Wf) (hfit : Fits P.base P.limit a o)
    (hnew : ∀ x, Covers a o x → ¬ P.AvailAt x) : (P.push o a).Wf := by
  by_cases ha : a = 0
  · -- a null head empties the list
    simpa [Pool.push, ha] using h.of_sublist (List.nil_sublist (P.freeLists o))
  have hmem : ∀ {o' a'}, a' ∈ (P.push o a).freeLists o' →
      a' ∈ P.freeLists o' ∨ o' = o ∧ a' = a := by
    intro o' a' hm
    rw [Pool.push, mem_setList, if_neg ha] at hm
    split at hm
    · next heq => rcases List.mem_cons.mp hm with rfl | hm <;> simp_all
    · exact .inl hm
  have hout : ∀ {o' a' x}, a' ∈ P.freeLists o' → Covers a' o' x → ¬ Covers a o x :=
    fun hm hc hc' => hnew _ hc' (.inl ⟨_, _, hm, hc⟩)
  refine { h with
    nonzero := fun hm => ?_
    fits := fun hm => ?_
    nodup := fun o' => ?_
    exclusive := fun hm hm' hc hc' => ?_
    qFree := fun hw hf => ?_ }
  · rcases hmem hm with hm | ⟨rfl, rfl⟩
    exacts [h.nonzero hm, ha]
  · rcases hmem hm with hm | ⟨rfl, rfl⟩
    exacts [h.fits hm, hfit]
  · by_cases heq : o' = o
    · subst heq
      have hni : a ∉ P.freeLists o' := fun hm =>
        hout hm (Block.covers_self _ _ _) (Block.covers_self _ _ _)
      simpa [Pool.push, setList, ha, hni] using h.nodup o'
    · simpa [Pool.push, setList, Function.update_of_ne heq] using h.nodup o'
  · rcases hmem hm with hl | ⟨rfl, rfl⟩ <;> rcases hmem hm' with hl' | ⟨rfl, rfl⟩
    · exact h.exclusive hl hl' hc hc'
    · exact absurd hc' (hout hl hc)
    · exact absurd hc (hout hl' hc')
    · exact ⟨rfl, rfl⟩
  · rcases hf.of_push with hf | hc
    · exact h.qFree hw hf
    · exact hnew _ hc (.inr hw)

/-! ### The quarantine ring -/

/-- `q_push` into a ring that is not full. -/
def enqueue (P : Pool) (p : Nat) : Pool :=
  { P with
    quarantine := Function.update P.quarantine P.qHead p
    qHead := (P.qHead + 1) % quarantineMaxCap
    qCount := P.qCount + 1 }

/-- The oldest slot of the ring is emptied. -/
def take (P : Pool) : Pool :=
  { P with
    quarantine := Function.update P.quarantine
      ((P.qHead + quarantineMaxCap - P.qCount) % quarantineMaxCap) 0
    qCount := P.qCount - 1 }

@[simp] theorem enqueue_freeAt : (P.enqueue p).FreeAt x ↔ P.FreeAt x := Iff.rfl

@[simp] theorem take_freeAt : P.take.FreeAt x ↔ P.FreeAt x := Iff.rfl

theorem qContents_enqueue (hHead : P.qHead < quarantineMaxCap)
    (hCount : P.qCount < quarantineMaxCap) :
    (P.enqueue p).qContents = P.qContents ++ [p] := by
  have hslot : (P.qHead + quarantineMaxCap - P.qCount + P.qCount) % quarantineMaxCap = P.qHead := by
    rw [Nat.sub_add_cancel (by omega), Nat.add_mod_right, Nat.mod_eq_of_lt hHead]
  have hstart : ((P.qHead + 1) % quarantineMaxCap + quarantineMaxCap - (P.qCount + 1)) %
      quarantineMaxCap = (P.qHead + quarantineMaxCap - P.qCount) % quarantineMaxCap := by
    simp only [quarantineMaxCap] at *; omega
  simp only [qContents, enqueue]
  rw [Ring.window_congr hstart, ← Ring.window_push p hCount, hslot]

theorem qContents_take (hCount : P.qCount ≤ quarantineMaxCap) (hpos : P.qCount ≠ 0) :
    P.qContents =
      P.quarantine ((P.qHead + quarantineMaxCap - P.qCount) % quarantineMaxCap) ::
        P.take.qContents := by
  obtain ⟨n, hn⟩ := Nat.exists_eq_succ_of_ne_zero hpos
  have hstart : P.qHead + quarantineMaxCap - n = P.qHead + quarantineMaxCap - (n + 1) + 1 := by
    omega
  simp only [qContents, take, hn, Nat.succ_eq_add_one, Nat.add_sub_cancel]
  rw [Ring.window_succ, hstart, Ring.window_update_taken _ (by omega)]

theorem waitingAt_enqueue (hHead : P.qHead < quarantineMaxCap)
    (hCount : P.qCount < quarantineMaxCap) :
    (P.enqueue p).WaitingAt x ↔ P.WaitingAt x ∨ Covers p 0 x := by
  simp only [WaitingAt, qContents_enqueue hHead hCount, List.mem_append, List.mem_singleton]
  constructor
  · rintro ⟨q, hq | rfl, hc⟩
    exacts [.inl ⟨q, hq, hc⟩, .inr hc]
  · rintro (⟨q, hq, hc⟩ | hc)
    exacts [⟨q, .inl hq, hc⟩, ⟨p, .inr rfl, hc⟩]

theorem Wf.enqueue (h : P.Wf) (hCount : P.qCount < quarantineMaxCap) (hp : p ≠ 0)
    (hfit : Fits P.base P.limit p 0) (hnew : ∀ x, Covers p 0 x → ¬ P.AvailAt x) :
    (P.enqueue p).Wf := by
  have hq := qContents_enqueue (p := p) h.qHead_lt hCount
  refine { h with
    qHead_lt := Nat.mod_lt _ (by decide)
    qCount_le := hCount
    qNonzero := fun hm => ?_
    qFits := fun hm => ?_
    qNodup := ?_
    qFree := fun hw hf => ?_ }
  · rw [hq, List.mem_append, List.mem_singleton] at hm
    rcases hm with hm | rfl
    exacts [h.qNonzero hm, hp]
  · rw [hq, List.mem_append, List.mem_singleton] at hm
    rcases hm with hm | rfl
    exacts [h.qFits hm, hfit]
  · rw [hq, List.nodup_append]
    refine ⟨h.qNodup, List.nodup_singleton p, fun q hm r hr he => ?_⟩
    have hr := List.mem_singleton.mp hr
    subst he hr
    exact hnew q (Block.covers_self _ _ _) (.inr ⟨q, hm, Block.covers_self _ _ _⟩)
  · rcases (waitingAt_enqueue h.qHead_lt hCount).mp hw with hw | hc
    · exact h.qFree hw hf
    · exact hnew _ hc (.inl hf)

theorem Wf.take (h : P.Wf) (hpos : P.qCount ≠ 0) : P.take.Wf := by
  have hq := qContents_take h.qCount_le hpos
  have hsub : ∀ {p}, p ∈ P.take.qContents → p ∈ P.qContents := fun hm => by
    rw [hq]; exact List.mem_cons_of_mem _ hm
  exact { h with
    qCount_le := (Nat.sub_le _ _).trans h.qCount_le
    qNonzero := fun hm => h.qNonzero (hsub hm)
    qFits := fun hm => h.qFits (hsub hm)
    qNodup := (List.nodup_cons.mp (hq ▸ h.qNodup)).2
    qFree := fun ⟨p, hm, hc⟩ => h.qFree ⟨p, hsub hm, hc⟩ }

theorem Wf.waitingAt_take (h : P.Wf) (hpos : P.qCount ≠ 0)
    (hp : p = P.quarantine ((P.qHead + quarantineMaxCap - P.qCount) % quarantineMaxCap)) :
    P.take.WaitingAt x ↔ P.WaitingAt x ∧ ¬ Covers p 0 x := by
  have hq := qContents_take h.qCount_le hpos
  rw [← hp] at hq
  have hnd := List.nodup_cons.mp (hq ▸ h.qNodup)
  have hpfit : Fits P.base P.limit p 0 := h.qFits (by rw [hq]; exact List.mem_cons_self)
  constructor
  · rintro ⟨q, hm, hc⟩
    have hmem : q ∈ P.qContents := by rw [hq]; exact List.mem_cons_of_mem _ hm
    refine ⟨⟨q, hmem, hc⟩, fun hc' => hnd.1 ?_⟩
    rwa [Block.covers_unique hpfit.aligned (h.qFits hmem).aligned hc' hc]
  · rintro ⟨⟨q, hm, hc⟩, hnot⟩
    rw [hq] at hm
    rcases List.mem_cons.mp hm with rfl | hm
    · exact absurd hc hnot
    · exact ⟨q, hm, hc⟩

end Pool

end Rynex.Memory
