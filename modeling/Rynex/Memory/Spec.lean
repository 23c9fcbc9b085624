import Rynex.Memory.Pool

/-! What the operations of the buddy allocator do to the pool of free pages and to the tables:
one specification for each of `free_one`, `add_region`, `alloc`, `q_pop`, `alloc_zeroed_page` and
`free`. -/

namespace Rynex.Memory

open Rynex.Lib

namespace Buddy

variable {b : Buddy} {a o x p : Nat}

/-- Where the allocator's free pages wait. -/
def pool (b : Buddy) : Pool where
  base := b.base
  pages := b.pages
  freeLists := b.freeLists
  quarantine := b.quarantine
  qHead := b.qHead
  qCount := b.qCount

/-- The tables and the reserved pages, which the lists do not depend on. -/
structure Tables where
  used : Nat → Bool
  freed : Nat → Bool
  pageType : Nat → PageType
  pteRefc : Nat → Nat
  reserved : List Nat

def tables (b : Buddy) : Tables := ⟨b.used, b.freed, b.pageType, b.pteRefc, b.reserved⟩

@[simp] theorem pool_base : b.pool.base = b.base := rfl

@[simp] theorem pool_pages : b.pool.pages = b.pages := rfl

@[simp] theorem pool_limit : b.pool.limit = b.limit := rfl

theorem setAt_self {α : Type} {t : Nat → α} {i : Nat} {v : α} (h : i < maxRefcPages) :
    setAt t i v i = v := by
  simp [setAt, h]

theorem setAt_ne {α : Type} {t : Nat → α} {i j : Nat} {v : α} (h : j ≠ i) :
    setAt t i v j = t j := by
  unfold setAt
  split
  · exact Function.update_of_ne h v t
  · rfl

@[simp] theorem setAt_setAt {α : Type} (t : Nat → α) (i : Nat) (v w : α) :
    setAt (setAt t i v) i w = setAt t i w := by
  unfold setAt; split
  · exact Function.update_idem v w t
  · rfl

/-! ### Operations on the tables leave the pool alone -/

@[simp] theorem pool_usedMark : (b.usedMark p).pool = b.pool := rfl

@[simp] theorem pool_usedClear : (b.usedClear p).pool = b.pool := rfl

@[simp] theorem pool_trackFreedPage : (b.trackFreedPage p).2.pool = b.pool := rfl

@[simp] theorem pool_untrackFreedPage : (b.untrackFreedPage p).pool = b.pool := rfl

@[simp] theorem pool_markPageUsed : (b.markPageUsed p).pool = b.pool := rfl

@[simp] theorem pool_pteRefcInc : (b.pteRefcInc p).pool = b.pool := rfl

@[simp] theorem pool_pteRefcDec : (b.pteRefcDec p).2.pool = b.pool := rfl

@[simp] theorem pool_pageTypeSet (t : PageType) : (b.pageTypeSet p t).pool = b.pool := rfl

@[simp] theorem pool_zeroPage : (b.zeroPage p).pool = b.pool := rfl

@[simp] theorem pool_unreserve : (b.unreserve p).2.pool = b.pool := rfl

@[simp] theorem physToIdx_usedMark : (b.usedMark p).physToIdx a = b.physToIdx a := rfl

@[simp] theorem physToIdx_usedClear : (b.usedClear p).physToIdx a = b.physToIdx a := rfl

@[simp] theorem physToIdx_untrackFreedPage :
    (b.untrackFreedPage p).physToIdx a = b.physToIdx a := rfl

@[simp] theorem physToIdx_pteRefcInc : (b.pteRefcInc p).physToIdx a = b.physToIdx a := rfl

@[simp] theorem physToIdx_pageTypeSet (t : PageType) :
    (b.pageTypeSet p t).physToIdx a = b.physToIdx a := rfl

@[simp] theorem physToIdx_zeroPage : (b.zeroPage p).physToIdx a = b.physToIdx a := rfl

@[simp] theorem physToIdx_qTake : b.qTake.physToIdx a = b.physToIdx a := rfl

/-! ### What each operation does to the tables -/

@[simp] theorem tables_usedMark :
    (b.usedMark p).tables = { b.tables with used := setAt b.tables.used p true } := rfl

@[simp] theorem tables_usedClear :
    (b.usedClear p).tables = { b.tables with used := setAt b.tables.used p false } := rfl

@[simp] theorem tables_untrackFreedPage : (b.untrackFreedPage p).tables =
    { b.tables with freed := setAt b.tables.freed (b.physToIdx p) false } := rfl

@[simp] theorem tables_trackFreedPage : (b.trackFreedPage p).2.tables =
    { b.tables with freed := setAt b.tables.freed (b.physToIdx p) true } := rfl

@[simp] theorem tables_pteRefcInc : (b.pteRefcInc p).tables =
    { b.tables with
      pteRefc := setAt b.tables.pteRefc (b.physToIdx p)
        (min (b.tables.pteRefc (b.physToIdx p) + 1) u16Max) } := rfl

@[simp] theorem tables_pteRefcDec : (b.pteRefcDec p).2.tables =
    { b.tables with
      pteRefc := setAt b.tables.pteRefc (b.physToIdx p)
        (b.tables.pteRefc (b.physToIdx p) - 1) } := rfl

@[simp] theorem tables_pageTypeSet (t : PageType) : (b.pageTypeSet p t).tables =
    { b.tables with pageType := setAt b.tables.pageType (b.physToIdx p) t } := rfl

@[simp] theorem tables_zeroPage : (b.zeroPage p).tables = b.tables := rfl

@[simp] theorem tables_unreserve : (b.unreserve p).2.tables =
    { b.tables with reserved := b.tables.reserved.erase p } := rfl

@[simp] theorem tables_qTake : b.qTake.tables = b.tables := rfl

/-! ### Operations on the lists leave the tables alone -/

@[simp] theorem pool_pushBlock : (b.pushBlock o a).pool = b.pool.push o a := rfl

@[simp] theorem pool_setFreeList (l : List Nat) :
    (b.setFreeList o l).pool = b.pool.setList o l := rfl

@[simp] theorem pool_removeFromList :
    (b.removeFromList o a).pool = b.pool.setList o ((b.pool.freeLists o).erase a) := rfl

@[simp] theorem tables_setFreeList (l : List Nat) : (b.setFreeList o l).tables = b.tables := rfl

@[simp] theorem tables_pushBlock : (b.pushBlock o a).tables = b.tables := rfl

@[simp] theorem tables_removeFromList : (b.removeFromList o a).tables = b.tables := rfl

theorem physToIdx_congr {b' : Buddy} (h : b'.base = b.base) (a : Nat) :
    b'.physToIdx a = b.physToIdx a := by
  simp only [physToIdx, h]

theorem physToIdx_inj {a' : Nat} (ha : pageSize ∣ a) (ha' : pageSize ∣ a') (hl : b.base ≤ a)
    (hl' : b.base ≤ a') (h : b.physToIdx a = b.physToIdx a') : a = a' := by
  simp only [physToIdx, Nat.not_lt.mpr hl, Nat.not_lt.mpr hl', if_false,
    Nat.shiftRight_eq_div_pow] at h
  simp only [pageSize] at ha ha'
  omega

theorem pageIndex_eq (h : b.base ≤ a) : b.pageIndex a = b.physToIdx a := by
  simp [pageIndex, physToIdx, Nat.not_lt.mpr h, Nat.shiftRight_eq_div_pow, pageSize]

theorem isManaged_of_fits (h : Fits b.base b.limit a o) : b.isManaged a = true := by
  have hsize := pageSize_le_size o
  have hup := h.upper
  simp only [limit] at hup
  simp only [isManaged, Bool.and_eq_true, decide_eq_true_eq]
  exact ⟨h.lower, by omega⟩

/-! ### Freeing a block -/

/-- The outcome of the merging loop from the block of order `o` at `cur`: the block it ends with
and the free blocks it left cover the same addresses as before, and are apart. -/
structure Merged (b : Buddy) (cur o : Nat) (r : Buddy × Nat × Nat) : Prop where
  wf : r.1.pool.Wf
  base : r.1.base = b.base
  pages : r.1.pages = b.pages
  tables : r.1.tables = b.tables
  queue : r.1.pool.qContents = b.pool.qContents
  fits : Fits b.base b.limit r.2.1 r.2.2
  nonzero : cur ≠ 0 → r.2.1 ≠ 0
  apart : ∀ x, Covers r.2.1 r.2.2 x → ¬ r.1.pool.FreeAt x
  total : ∀ x, r.1.pool.FreeAt x ∨ Covers r.2.1 r.2.2 x ↔ b.pool.FreeAt x ∨ Covers cur o x

theorem Merged.refl {cur : Nat} (hwf : b.pool.Wf) (hfit : Fits b.base b.limit cur o)
    (hnew : ∀ x, Covers cur o x → ¬ b.pool.FreeAt x) : Merged b cur o (b, cur, o) :=
  ⟨hwf, rfl, rfl, rfl, rfl, hfit, id, hnew, fun _ => Iff.rfl⟩

theorem Merged.join {cur : Nat} {r : Buddy × Nat × Nat} (hwf : b.pool.Wf)
    (hfit : Fits b.base b.limit cur o) (hmem : cur ^^^ Block.size pageShift o ∈ b.freeLists o)
    (h : Merged (b.removeFromList o (cur ^^^ Block.size pageShift o))
      (min cur (cur ^^^ Block.size pageShift o)) (o + 1) r) : Merged b cur o r := by
  refine ⟨h.wf, h.base, h.pages, h.tables, h.queue, h.fits, fun hcur => h.nonzero ?_, h.apart,
    fun x => ?_⟩
  · have := hwf.nonzero (P := b.pool) hmem
    omega
  · rw [h.total x, pool_removeFromList, hwf.freeAt_erase hmem, covers_join hfit.aligned]
    have hcov : Covers (cur ^^^ Block.size pageShift o) o x → b.pool.FreeAt x :=
      fun hc => ⟨o, _, hmem, hc⟩
    tauto

theorem Merged.not_avail {cur : Nat} {r : Buddy × Nat × Nat} (h : Merged b cur o r)
    (hwf : b.pool.Wf) (hnew : ∀ x, Covers cur o x → ¬ b.pool.AvailAt x) :
    ∀ x, Covers r.2.1 r.2.2 x → ¬ r.1.pool.AvailAt x := by
  rintro x hc (hf | hw)
  · exact h.apart x hc hf
  · simp only [Pool.WaitingAt, h.queue] at hw
    rcases (h.total x).mp (.inr hc) with hf | hc
    exacts [hwf.qFree hw hf, hnew x hc (.inr hw)]

theorem mergeLoop_spec (fuel : Nat) {cur : Nat} (hwf : b.pool.Wf)
    (hfit : Fits b.base b.limit cur o) (hnew : ∀ x, Covers cur o x → ¬ b.pool.FreeAt x) :
    Merged b cur o (mergeLoop fuel b cur o) := by
  induction fuel generalizing b cur o with
  | zero => exact Merged.refl hwf hfit hnew
  | succ fuel ih =>
    simp only [mergeLoop, blockSize_eq]
    split
    · exact Merged.refl hwf hfit hnew
    next hord =>
    split
    · exact Merged.refl hwf hfit hnew
    split
    · next hhdr =>
      -- the buddy is on the list: it is unlinked and the loop goes on with both halves
      have hmem : cur ^^^ Block.size pageShift o ∈ b.freeLists o := by
        simpa [isOnFreeList] using hhdr.2.2
      have hmin : (if cur < cur ^^^ Block.size pageShift o then cur
          else cur ^^^ Block.size pageShift o) = min cur (cur ^^^ Block.size pageShift o) := by
        split <;> omega
      rw [hmin]
      refine Merged.join hwf hfit hmem (ih ?_ ?_ fun x hc => ?_)
      · exact hwf.of_sublist List.erase_sublist
      · exact hfit.join (hwf.fits (P := b.pool) hmem) (by omega)
      · rw [pool_removeFromList, hwf.freeAt_erase hmem]
        rcases (covers_join hfit.aligned).mp hc with hc | hc
        · exact fun hf => hnew x hc hf.1
        · exact fun hf => hf.2 hc
    · exact Merged.refl hwf hfit hnew

/-- The free memory of `b'` is that of `b` and the addresses `S`, with nothing else changed that
the lists or the tables hold. A reserved block is not linked, and neither is address 0. -/
structure Gains (b b' : Buddy) (S : Nat → Prop) : Prop where
  wf : b'.pool.Wf
  base : b'.base = b.base
  pages : b'.pages = b.pages
  tables : b'.tables = b.tables
  queue : b'.pool.qContents = b.pool.qContents
  sub : ∀ x, b'.pool.FreeAt x → b.pool.FreeAt x ∨ S x
  sup : b.reserved = [] → ¬ S 0 → ∀ x, b.pool.FreeAt x ∨ S x → b'.pool.FreeAt x

theorem Gains.reserved {b' : Buddy} {S : Nat → Prop} (h : Gains b b' S) :
    b'.reserved = b.reserved :=
  congrArg Tables.reserved h.tables

theorem Gains.limit {b' : Buddy} {S : Nat → Prop} (h : Gains b b' S) : b'.limit = b.limit := by
  simp [Buddy.limit, h.base, h.pages]

theorem Gains.refl (hwf : b.pool.Wf) {S : Nat → Prop} (hS : ∀ x, ¬ S x) : Gains b b S :=
  ⟨hwf, rfl, rfl, rfl, rfl, fun _ h => .inl h, fun _ _ x h => h.resolve_right (hS x)⟩

theorem Gains.trans {b' b'' : Buddy} {S T U : Nat → Prop} (h : Gains b b' S)
    (h' : Gains b' b'' T) (hU : ∀ x, U x ↔ S x ∨ T x) : Gains b b'' U := by
  refine ⟨h'.wf, h'.base.trans h.base, h'.pages.trans h.pages, h'.tables.trans h.tables,
    h'.queue.trans h.queue, fun x hf => ?_, fun hr h0 x hf => ?_⟩
  · rcases h'.sub x hf with hf | hT
    · rcases h.sub x hf with hf | hS
      exacts [.inl hf, .inr ((hU x).mpr (.inl hS))]
    · exact .inr ((hU x).mpr (.inr hT))
  · have hS0 : ¬ S 0 := fun hs => h0 ((hU 0).mpr (.inl hs))
    have hT0 : ¬ T 0 := fun ht => h0 ((hU 0).mpr (.inr ht))
    have hr' : b'.reserved = [] := h.reserved.trans hr
    rcases hf with hf | hu
    · exact h'.sup hr' hT0 x (.inl (h.sup hr hS0 x (.inl hf)))
    · rcases (hU x).mp hu with hs | ht
      exacts [h'.sup hr' hT0 x (.inl (h.sup hr hS0 x (.inr hs))), h'.sup hr' hT0 x (.inr ht)]

theorem Gains.push {c : Buddy} (hwf : c.pool.Wf) (hfit : Fits c.base c.limit a o)
    (hnew : ∀ x, Covers a o x → ¬ c.pool.AvailAt x) : Gains c (c.pushBlock o a) (Covers a o) := by
  refine ⟨hwf.push hfit hnew, rfl, rfl, rfl, rfl, fun x hf => Pool.FreeAt.of_push (P := c.pool) hf,
    fun _ h0 x hf => ?_⟩
  have ha : a ≠ 0 := by
    rintro rfl
    exact h0 (Block.covers_self _ _ _)
  exact (Pool.freeAt_push ha).mpr hf

/-- `free_one` of a block that is not available yet adds exactly that block, merged or not. -/
theorem freeOne_spec (hwf : b.pool.Wf) (hfit : Fits b.base b.limit a o)
    (hnew : ∀ x, Covers a o x → ¬ b.pool.AvailAt x) : Gains b (b.freeOne a o) (Covers a o) := by
  simp only [freeOne, isManaged_of_fits hfit, Bool.not_true, Bool.false_eq_true, if_false]
  split
  · next hpte =>
    obtain ⟨rfl, -⟩ := hpte
    exact Gains.push hwf hfit hnew
  have hm := mergeLoop_spec maxOrder hwf hfit fun x hc hf => hnew x hc (.inl hf)
  generalize hr : mergeLoop maxOrder b a o = r at hm
  obtain ⟨c, cur, o'⟩ := r
  -- what the loop ends with is not on a list, so it is linked
  have hoff : c.isOnFreeList cur o' = false := by
    simp only [isOnFreeList, decide_eq_false_iff_not]
    exact fun hmem => hm.apart cur (Block.covers_self _ _ _)
      ⟨o', cur, hmem, Block.covers_self _ _ _⟩
  simp only [hoff, Bool.false_eq_true, if_false]
  have hbase : c.base = b.base := hm.base
  have hlimit : c.limit = b.limit := by
    simp only [Buddy.limit, hbase, show c.pages = b.pages from hm.pages]
  have hpush : Gains c (c.pushBlock o' cur) (Covers cur o') :=
    Gains.push hm.wf (by rw [hbase, hlimit]; exact hm.fits) (hm.not_avail hwf hnew)
  refine ⟨hpush.wf, hpush.base.trans hm.base, hpush.pages.trans hm.pages,
    hpush.tables.trans hm.tables, hpush.queue.trans hm.queue, fun x hf => ?_,
    fun hr h0 x hf => ?_⟩
  · exact (hm.total x).mp (hpush.sub x hf)
  · have hr' : c.reserved = [] := (congrArg Tables.reserved hm.tables).trans hr
    refine hpush.sup hr' (fun hc => ?_) x ((hm.total x).mpr hf)
    have ha : a ≠ 0 := by
      rintro rfl
      exact h0 (Block.covers_self _ _ _)
    exact hm.nonzero ha (Nat.le_zero.mp hc.1)

/-! ### Adding a region -/

theorem maxOrderUpTo_spec {addr size : Nat} (n : Nat) (haddr : pageSize ∣ addr)
    (hsize : pageSize ≤ size) :
    maxOrderUpTo addr size n ≤ n ∧ Block.size pageShift (maxOrderUpTo addr size n) ∣ addr ∧
      Block.size pageShift (maxOrderUpTo addr size n) ≤ size := by
  induction n with
  | zero => exact ⟨Nat.le_refl 0, haddr, hsize⟩
  | succ n ih =>
    simp only [maxOrderUpTo, blockSize_eq]
    split
    · next hfit =>
      refine ⟨Nat.le_refl _, Nat.dvd_of_mod_eq_zero ?_, hfit.2⟩
      simpa [Block.size, Nat.and_two_pow_sub_one_eq_mod] using hfit.1
    · exact ⟨Nat.le_succ_of_le ih.1, ih.2⟩

/-- `b'` is `b` after `free_one` of blocks that were not available, one after the other, which cover
the addresses `S`. -/
inductive Fills : Buddy → Buddy → (Nat → Prop) → Prop where
  | nil {b : Buddy} {S : Nat → Prop} (hS : ∀ x, ¬ S x) : Fills b b S
  | cons {b b' : Buddy} {a o : Nat} {S T : Nat → Prop} (hfit : Fits b.base b.limit a o)
      (hnew : ∀ x, Covers a o x → ¬ b.pool.AvailAt x) (h : Fills (b.freeOne a o) b' T)
      (hS : ∀ x, S x ↔ Covers a o x ∨ T x) : Fills b b' S

theorem Fills.gains {b' : Buddy} {S : Nat → Prop} (h : Fills b b' S) (hwf : b.pool.Wf) :
    Gains b b' S := by
  induction h with
  | nil hS => exact Gains.refl hwf hS
  | cons hfit hnew _ hS ih =>
    have hfirst := freeOne_spec hwf hfit hnew
    exact hfirst.trans (ih hfirst.wf) hS

theorem Fills.trans {b' b'' : Buddy} {S T U : Nat → Prop} (h : Fills b b' S) (h' : Fills b' b'' T)
    (hU : ∀ x, U x ↔ S x ∨ T x) : Fills b b'' U := by
  induction h generalizing U with
  | nil hS =>
    obtain rfl : T = U := funext fun x => propext (by simp [hU, hS])
    exact h'
  | cons hfit hnew _ hS ih =>
    exact .cons hfit hnew (ih h' fun _ => Iff.rfl) fun x => by rw [hU, hS, or_assoc]

theorem Gains.not_avail {b' : Buddy} {S : Nat → Prop} (h : Gains b b' S) (hx : ¬ b.pool.AvailAt x)
    (hS : ¬ S x) : ¬ b'.pool.AvailAt x := by
  rintro (hf | hw)
  · rcases h.sub x hf with hf | hs
    exacts [hx (.inl hf), hS hs]
  · simp only [Pool.WaitingAt, h.queue] at hw
    exact hx (.inr hw)

/-- The loop links `n` whole pages that are not available yet. -/
theorem addRegionLoop_fills (fuel n : Nat) {addr stop : Nat} (hwf : b.pool.Wf)
    (haddr : pageSize ∣ addr) (hlow : b.base ≤ addr) (hhigh : stop ≤ b.limit)
    (hfuel : n ≤ fuel) (hstop : addr + n * pageSize ≤ stop)
    (hstop' : stop < addr + (n + 1) * pageSize)
    (hnew : ∀ x, addr ≤ x ∧ x < addr + n * pageSize → ¬ b.pool.AvailAt x) :
    Fills b (addRegionLoop fuel b addr stop) fun x => addr ≤ x ∧ x < addr + n * pageSize := by
  induction fuel generalizing b addr n with
  | zero =>
    obtain rfl : n = 0 := by omega
    exact .nil fun x hx => by omega
  | succ fuel ih =>
    simp only [addRegionLoop]
    split
    · next hroom =>
      obtain ⟨hle, hdvd, hsize⟩ :=
        maxOrderUpTo_spec maxOrder haddr (show pageSize ≤ stop - addr by omega)
      change maxOrderFor addr (stop - addr) ≤ maxOrder at hle
      change Block.size pageShift (maxOrderFor addr (stop - addr)) ∣ addr at hdvd
      change Block.size pageShift (maxOrderFor addr (stop - addr)) ≤ stop - addr at hsize
      generalize maxOrderFor addr (stop - addr) = o at hle hdvd hsize ⊢
      -- the block takes `2 ^ o` of the `n` pages
      have hpow : Block.size pageShift o = 2 ^ o * pageSize := by
        simp [Block.size, pageShift, pageSize, Nat.pow_add, Nat.mul_comm]
      have hpages : 2 ^ o ≤ n := by
        by_contra hlt
        have : (n + 1) * pageSize ≤ 2 ^ o * pageSize := Nat.mul_le_mul_right _ (by omega)
        omega
      obtain ⟨m, rfl⟩ := Nat.exists_eq_add_of_le hpages
      have hpos := Nat.two_pow_pos o
      have hsum : (2 ^ o + m) * pageSize = Block.size pageShift o + m * pageSize := by
        rw [hpow, Nat.add_mul]
      have hsum' : (2 ^ o + m + 1) * pageSize =
          Block.size pageShift o + (m + 1) * pageSize := by
        rw [hpow, Nat.add_assoc, Nat.add_mul]
      rw [hsum] at hstop hnew ⊢
      rw [hsum'] at hstop'
      have hfit : Fits b.base b.limit addr o := ⟨hle, hdvd, hlow, by omega⟩
      have hblock : ∀ x, Covers addr o x → ¬ b.pool.AvailAt x := fun x hc =>
        hnew x ⟨hc.1, by have := hc.2; omega⟩
      have hfirst := freeOne_spec hwf hfit hblock
      rw [blockSize_eq]
      refine .cons hfit hblock (ih m hfirst.wf ?_ ?_ ?_ (by omega) (by omega) (by omega) ?_)
        fun x => by simp only [Block.Covers]; omega
      · exact Nat.dvd_add haddr (by rw [hpow]; exact Nat.dvd_mul_left _ _)
      · rw [hfirst.base]; omega
      · rw [hfirst.limit]; exact hhigh
      · intro x hx
        refine hfirst.not_avail (hnew x (by omega)) fun hc => ?_
        simp only [Block.Covers] at hc; omega
    · obtain rfl : n = 0 := by
        rcases n with _ | n
        · rfl
        · rw [Nat.add_mul] at hstop; omega
      exact .nil fun x hx => by omega

section Region

variable {start size : Nat} (hwf : b.pool.Wf) (hstart : pageSize ∣ start)
  (hlow : b.base ≤ start) (hhigh : start + size ≤ b.limit)
  (hnew : ∀ x, start ≤ x ∧ x < start + size / pageSize * pageSize → ¬ b.pool.AvailAt x)

include hwf hstart hlow hhigh hnew

theorem addRegion_fills : Fills b (b.addRegion start size)
    fun x => start ≤ x ∧ x < start + size / pageSize * pageSize := by
  have hdiv := Nat.div_mul_le_self size pageSize
  have hmod : size < (size / pageSize + 1) * pageSize := by
    have := Nat.lt_div_mul_add (a := size) (b := pageSize) (by decide)
    rw [Nat.add_mul]; omega
  exact addRegionLoop_fills _ _ hwf hstart hlow hhigh (Nat.le_refl _) (by omega) (by omega) hnew

theorem addRegion_spec : Gains b (b.addRegion start size)
    fun x => start ≤ x ∧ x < start + size / pageSize * pageSize :=
  (addRegion_fills hwf hstart hlow hhigh hnew).gains hwf

end Region

end Buddy

end Rynex.Memory
