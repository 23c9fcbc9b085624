import Rynex.Memory.AllocSpec

/-! Requests in bytes: the global allocator of the kernel and the file buffer of `sys_execve`. Each
turns a size into an order by a loop that stops at order 10, so a request above 4 MiB gets a block
of 4 MiB; and the alignment asked for plays no part. -/

namespace Rynex.Memory

open Rynex.Lib Buddy

namespace Buddy

def pageAlignDown (addr : Nat) : Nat := addr - addr % pageSize

def pageAlignUp (addr : Nat) : Nat := pageAlignDown ((addr + (pageSize - 1)) % 2 ^ 64)

end Buddy

/-- A layout as Rust hands it to an allocator: the alignment is a power of two, and the size does
not overflow when it is rounded up to it. -/
structure Layout where
  size : Nat
  align : Nat
  align_pow : ∃ k, align = 2 ^ k
  size_le : size + align ≤ 2 ^ 63

/-- The loop `while (4096 << o) < size && o < 10`, with the turns that are left of ten. -/
def orderLoop (size : Nat) : Nat → Nat → Nat
  | 0, o => o
  | turns + 1, o => if blockSize o < size then orderLoop size turns (o + 1) else o

def orderFor (size : Nat) : Nat := orderLoop size 10 0

namespace Layout

/-- The size is rounded up to pages; the alignment is raised to a page and not looked at. -/
def allocOrder (l : Layout) : Nat := orderFor (pageAlignUp l.size)

/-- `GlobalAlloc::alloc`: the address of the block, or null. -/
def alloc (l : Layout) (b : Buddy) : Nat × Buddy :=
  ((b.alloc l.allocOrder).1.getD 0, (b.alloc l.allocOrder).2)

def dealloc (l : Layout) (b : Buddy) (ptr : Nat) : Buddy := b.free ptr (orderFor l.size)

end Layout

/-- The sizes of files that `sys_execve` goes on with. -/
def execveSizeOk (elfSize : Nat) : Bool := !(elfSize < 64 || 1024 * 1024 * 16 < elfSize)

def execveOrder (elfSize : Nat) : Nat := orderFor ((elfSize + 0xFFF) / 0x1000 * 4096)

/-- The buffer that `sys_execve` reads the whole file into, if it gets that far. -/
def execveBuffer (elfSize : Nat) (b : Buddy) : Option Nat × Buddy :=
  if execveSizeOk elfSize then b.alloc (execveOrder elfSize) else (none, b)

/-- The request took `size` bytes at `p` from the allocator, aligned as asked for. -/
def Obtained (b b' : Buddy) (p size align : Nat) : Prop :=
  align ∣ p ∧ ∀ x, p ≤ x → x < p + size → b.pool.AvailAt x ∧ ¬ b'.pool.AvailAt x

variable {size align o p n : Nat} {b b' : Buddy}

/-! ### Orders -/

theorem orderLoop_spec (turns : Nat) {o : Nat} (ho : 0 < o → blockSize (o - 1) < size) :
    let r := orderLoop size turns o
    r ≤ o + turns ∧ (r < o + turns → size ≤ blockSize r) ∧ (0 < r → blockSize (r - 1) < size) := by
  induction turns generalizing o with
  | zero => exact ⟨le_rfl, fun h => absurd h (lt_irrefl o), ho⟩
  | succ turns ih =>
    simp only [orderLoop]
    split
    · next hlt =>
      obtain ⟨hle, hfits, hleast⟩ := ih (o := o + 1) fun _ => hlt
      exact ⟨by omega, fun h => hfits (by omega), hleast⟩
    · exact ⟨by omega, fun _ => by omega, ho⟩

theorem blockSize_pow (o : Nat) : blockSize o = 2 ^ (12 + o) := blockSize_eq o

theorem orderFor_spec (size : Nat) : orderFor size ≤ 10 ∧
    (orderFor size < 10 → size ≤ blockSize (orderFor size)) ∧
    (0 < orderFor size → blockSize (orderFor size - 1) < size) := by
  have h0 : 0 < 0 → blockSize (0 - 1) < size := fun h => absurd h (lt_irrefl 0)
  have h := orderLoop_spec 10 h0
  simp only [Nat.zero_add] at h
  exact h

theorem le_blockSize_orderFor : size ≤ blockSize (orderFor size) ↔ size ≤ 2 ^ 22 := by
  obtain ⟨hle, hfits, -⟩ := orderFor_spec size
  rcases Nat.lt_or_eq_of_le hle with hlt | heq
  · have hsize := hfits hlt
    have hmono : blockSize (orderFor size) ≤ 2 ^ 22 := by
      rw [blockSize_pow]
      exact Nat.pow_le_pow_right (by decide) (by omega)
    exact ⟨fun _ => hsize.trans hmono, fun _ => hsize⟩
  · rw [heq]
    exact Iff.rfl

theorem orderLoop_congr {size' : Nat} (h : ∀ o, blockSize o < size ↔ blockSize o < size')
    (turns o : Nat) : orderLoop size turns o = orderLoop size' turns o := by
  induction turns generalizing o with
  | zero => rfl
  | succ turns ih => simp only [orderLoop, h, ih]

theorem orderFor_pages (size : Nat) : orderFor ((size + 4095) / 4096 * 4096) = orderFor size := by
  refine orderLoop_congr (fun o => ?_) 10 0
  have hsize : blockSize o = 2 ^ o * 4096 := by
    rw [blockSize_pow, Nat.pow_add, Nat.mul_comm]
  rw [hsize]
  generalize 2 ^ o = k
  omega

theorem Layout.allocOrder_eq (l : Layout) : l.allocOrder = orderFor l.size := by
  have hlt := l.size_le
  have hround : pageAlignUp l.size = (l.size + 4095) / 4096 * 4096 := by
    have hpage : pageSize = 4096 := rfl
    rw [pageAlignUp, hpage, Nat.mod_eq_of_lt (by omega), pageAlignDown, hpage]
    exact (Nat.div_mul_self_eq_mod_sub_self).symm
  rw [Layout.allocOrder, hround, orderFor_pages]

theorem execveOrder_eq (elfSize : Nat) : execveOrder elfSize = orderFor elfSize :=
  orderFor_pages elfSize

/-! ### Blocks -/

theorem obtained_of_alloc (hwf : b.pool.Wf) (h : b.alloc o = (some p, b'))
    (hsize : size ≤ blockSize o) (hpow : ∃ k, align = 2 ^ k) (halign : align ≤ blockSize o) :
    Obtained b b' p size align := by
  obtain ⟨hgrants, -⟩ := alloc_some hwf h
  rw [blockSize_pow] at hsize halign
  obtain ⟨k, rfl⟩ := hpow
  refine ⟨(Nat.pow_dvd_pow 2 ?_).trans hgrants.fits.aligned, fun x hlo hhi => ?_⟩
  · exact (Nat.pow_le_pow_iff_right (by decide)).mp halign
  · have hcov : Covers p o x := ⟨hlo, hhi.trans_le (Nat.add_le_add_left hsize p)⟩
    exact ⟨hgrants.avail x hcov, fun hx => (hgrants.sub x hx).2 hcov⟩

/-- One free block of order `o`, at the address that is its size. -/
def oneBlock (o : Nat) : Buddy :=
  (Buddy.init (blockSize o) (2 ^ o)).addRegion (blockSize o) (blockSize o)

theorem oneBlock_gains (o : Nat) : Gains (Buddy.init (blockSize o) (2 ^ o)) (oneBlock o)
    fun x => blockSize o ≤ x ∧ x < blockSize o + blockSize o / pageSize * pageSize := by
  have hdvd : pageSize ∣ blockSize o := by
    rw [blockSize_pow]
    exact Nat.pow_dvd_pow 2 (Nat.le_add_right 12 o)
  refine addRegion_spec (Pool.wf_empty _ _ _) hdvd le_rfl (le_of_eq ?_) ?_
  · show blockSize o + blockSize o = blockSize o + 2 ^ o * pageSize
    rw [blockSize_pow, Nat.pow_add, Nat.mul_comm]
    rfl
  · rintro x _ (⟨o, a, hm, -⟩ | ⟨p, hm, -⟩)
    · cases hm
    · cases hm

theorem oneBlock_alloc (ho : o ≤ 10) : ((oneBlock o).alloc o).1 = some (blockSize o) := by
  have hall : ∀ o ≤ 10, ((oneBlock o).alloc o).1 = some (blockSize o) := by decide
  exact hall o ho

theorem oneBlock_avail {x : Nat} (h : (oneBlock o).pool.AvailAt x) :
    x < blockSize o + blockSize o := by
  have hlt := (oneBlock_gains o).wf.availAt_lt h
  change x < (oneBlock o).base + (oneBlock o).pages * pageSize at hlt
  rw [(oneBlock_gains o).base, (oneBlock_gains o).pages] at hlt
  change x < blockSize o + 2 ^ o * pageSize at hlt
  rwa [show 2 ^ o * pageSize = blockSize o by rw [blockSize_pow, Nat.pow_add, Nat.mul_comm]; rfl]
    at hlt

theorem obtained_iff (ho : o ≤ 10) (hpow : ∃ k, align = 2 ^ k) :
    (∀ b b' p, b.pool.Wf → b.alloc o = (some p, b') → Obtained b b' p size align) ↔
      size ≤ blockSize o ∧ align ≤ blockSize o := by
  constructor
  · intro h
    obtain ⟨hdvd, hbytes⟩ := h (oneBlock o) _ (blockSize o) (oneBlock_gains o).wf
      (Prod.ext (oneBlock_alloc ho) rfl)
    have hpos : 0 < blockSize o := by
      rw [blockSize_pow]
      exact Nat.two_pow_pos _
    refine ⟨?_, Nat.le_of_dvd hpos hdvd⟩
    by_contra hlarge
    have hout := (hbytes (blockSize o + blockSize o) (by omega) (by omega)).1
    exact lt_irrefl _ (oneBlock_avail hout)
  · rintro ⟨hsize, halign⟩ b b' p hwf halloc
    exact obtained_of_alloc hwf halloc hsize hpow halign

/-- What the alignment may be: that of a page, or less than twice the size. -/
theorem align_le_iff (hsize : size ≤ 2 ^ 22) (hpow : ∃ k, align = 2 ^ k) :
    align ≤ blockSize (orderFor size) ↔ align ≤ pageSize ∨ align < 2 * size := by
  obtain ⟨-, -, hleast⟩ := orderFor_spec size
  have hfits := le_blockSize_orderFor.mpr hsize
  have hmin : pageSize ≤ blockSize (orderFor size) := by
    rw [blockSize_pow]
    show 2 ^ 12 ≤ 2 ^ (12 + orderFor size)
    exact Nat.pow_le_pow_right (by decide) (Nat.le_add_right 12 _)
  constructor
  · intro halign
    rcases Nat.eq_zero_or_pos (orderFor size) with h0 | hpos
    · exact .inl (by rwa [h0] at halign)
    · have hhalf : blockSize (orderFor size) = 2 * blockSize (orderFor size - 1) := by
        rw [blockSize_pow, blockSize_pow, ← Nat.pow_succ']
        congr 1
        omega
      have := hleast hpos
      exact .inr (by omega)
  · rintro (halign | halign)
    · exact halign.trans hmin
    · -- both are powers of two, and the alignment is less than twice the block
      obtain ⟨k, rfl⟩ := hpow
      rw [blockSize_pow] at hfits ⊢
      have hlt : 2 ^ k < 2 ^ (12 + orderFor size + 1) := by
        rw [Nat.pow_succ]
        omega
      have := (Nat.pow_lt_pow_iff_right (show 1 < 2 by decide)).mp hlt
      exact Nat.pow_le_pow_right (by decide) (by omega)

theorem Layout.alloc_obtained_iff (l : Layout) :
    (∀ b, b.pool.Wf → (l.alloc b).1 ≠ 0 →
      Obtained b (l.alloc b).2 (l.alloc b).1 l.size l.align) ↔
      ∀ b b' p, b.pool.Wf → b.alloc (orderFor l.size) = (some p, b') →
        Obtained b b' p l.size l.align := by
  simp only [Layout.alloc, l.allocOrder_eq]
  constructor
  · intro h b b' p hwf halloc
    have hp : p ≠ 0 := (alloc_some hwf halloc).1.nonzero
    simpa [halloc, hp] using h b hwf
  · intro h b hwf hp
    rcases halloc : b.alloc (orderFor l.size) with ⟨r, b'⟩
    cases r with
    | none => simp [halloc] at hp
    | some p => exact h b b' p hwf halloc

theorem execve_obtained_iff (n : Nat) :
    (∀ b b' p, b.pool.Wf → execveBuffer n b = (some p, b') → Obtained b b' p n 1) ↔
      (execveSizeOk n = true → n ≤ 2 ^ 22) := by
  have hone : 1 ≤ blockSize (orderFor n) := by
    rw [blockSize_pow]
    exact Nat.one_le_two_pow
  have hpow : ∃ k, 1 = 2 ^ k := ⟨0, rfl⟩
  cases hok : execveSizeOk n with
  | false => simp [execveBuffer, hok]
  | true =>
    simp only [execveBuffer, hok, if_true, execveOrder_eq, forall_const]
    rw [obtained_iff (orderFor_spec n).1 hpow, le_blockSize_orderFor]
    exact and_iff_left hone

/-- Every request to the global allocator, and every file that `sys_execve` reads, gets the memory
it asked for exactly if sizes stay within 4 MiB and the alignment within a page or twice the
size; memory goes back with the order it came with in any case. -/
theorem requests_covered_iff (l : Layout) (n : Nat) :
    ((∀ b, b.pool.Wf → (l.alloc b).1 ≠ 0 →
        Obtained b (l.alloc b).2 (l.alloc b).1 l.size l.align) ∧
      (∀ b ptr, l.dealloc b ptr = b.free ptr l.allocOrder) ∧
      ∀ b b' p, b.pool.Wf → execveBuffer n b = (some p, b') → Obtained b b' p n 1) ↔
    (l.size ≤ 2 ^ 22 ∧ (l.align ≤ pageSize ∨ l.align < 2 * l.size)) ∧
      (execveSizeOk n = true → n ≤ 2 ^ 22) := by
  have hlayout : (∀ b, b.pool.Wf → (l.alloc b).1 ≠ 0 →
      Obtained b (l.alloc b).2 (l.alloc b).1 l.size l.align) ↔
      l.size ≤ 2 ^ 22 ∧ (l.align ≤ pageSize ∨ l.align < 2 * l.size) := by
    rw [l.alloc_obtained_iff, obtained_iff (orderFor_spec l.size).1 l.align_pow,
      le_blockSize_orderFor]
    exact and_congr_right fun hsize => align_le_iff hsize l.align_pow
  have hdealloc : ∀ b ptr, l.dealloc b ptr = b.free ptr l.allocOrder := fun b ptr => by
    rw [Layout.dealloc, l.allocOrder_eq]
  rw [hlayout, execve_obtained_iff]
  exact ⟨fun h => ⟨h.1, h.2.2⟩, fun h => ⟨h.1, hdealloc, h.2⟩⟩

/-- A file one byte longer than 4 MiB is accepted and gets a block of 4 MiB; the last byte that is
read into it lies behind all that the allocator has. -/
theorem execve_buffer_overflows : execveSizeOk 0x400001 = true ∧ (oneBlock 10).pool.Wf ∧
    (execveBuffer 0x400001 (oneBlock 10)).1 = some 0x400000 ∧
    ¬ Obtained (oneBlock 10) (execveBuffer 0x400001 (oneBlock 10)).2 0x400000 0x400001 1 := by
  refine ⟨by decide, (oneBlock_gains 10).wf, by decide, fun h => ?_⟩
  have hout := oneBlock_avail (h.2 0x800000 (by decide) (by decide)).1
  revert hout
  decide

end Rynex.Memory
