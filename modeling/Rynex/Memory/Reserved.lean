import Rynex.Memory.AllocSpec

/-! The reserved pages as long as none of them is available: no call of the allocator looks at them
then, and what each call does to the available memory is known exactly. -/

namespace Rynex.Memory

open Rynex.Lib

namespace Buddy

variable {b b' : Buddy} {a o order : Nat} {l : List Nat}

/-- The allocator with other reserved pages. -/
def setReserved (b : Buddy) (l : List Nat) : Buddy := { b with reserved := l }

@[simp] theorem pool_setReserved (b : Buddy) (l : List Nat) : (b.setReserved l).pool = b.pool := rfl

/-- The addresses are not available. -/
def Away (b : Buddy) (l : List Nat) : Prop := ∀ r ∈ l, ¬ b.pool.AvailAt r

/-! ### No call looks at them -/

theorem splitLoop_setReserved (so : Nat) (haway : ∀ r ∈ l, ¬ Covers a so r) (b : Buddy) :
    splitLoop order a so (b.setReserved l) = (splitLoop order a so (b.setReserved [])).setReserved
      l := by
  induction so generalizing b with
  | zero => rfl
  | succ so ih =>
    simp only [splitLoop]
    split
    · have hres : (b.setReserved l).isReserved (a + blockSize so) = false := by
        refine decide_eq_false fun hmem => ?_
        refine haway _ hmem (Block.covers_succ.mpr (.inr ?_))
        rw [blockSize_eq]
        exact Block.covers_self _ _ _
      have hbare : (b.setReserved []).isReserved (a + blockSize so) = false := by
        simp [isReserved, setReserved]
      rw [hres, hbare]
      exact ih (fun r hr hc => haway r hr (Block.covers_succ.mpr (.inl hc)))
        (b.pushBlock so (a + blockSize so))
    · rfl

theorem allocLoop_setReserved {os : List Nat} (haway : b.Away l) :
    allocLoop order os (b.setReserved l) =
      ((allocLoop order os (b.setReserved [])).1,
        (allocLoop order os (b.setReserved [])).2.setReserved l) := by
  induction os with
  | nil => rfl
  | cons o os ih =>
    have hlists : (b.setReserved l).freeLists o = (b.setReserved []).freeLists o := rfl
    simp only [allocLoop, hlists]
    cases hlist : (b.setReserved []).freeLists o with
    | nil => exact ih
    | cons a next =>
      have havail : ∀ r, Covers a o r → b.pool.AvailAt r := fun r hc =>
        .inl ⟨o, a, by rw [show b.pool.freeLists o = a :: next from hlist]; simp, hc⟩
      have hres : (b.setReserved l).isReserved a = false := by
        exact decide_eq_false fun hmem => haway a hmem (havail a (Block.covers_self _ _ _))
      have hbare : (b.setReserved []).isReserved a = false := by simp [isReserved, setReserved]
      simp only [hres, hbare, Bool.false_eq_true, if_false, takeBlock]
      have hclear : ∀ r ∈ l, ¬ Covers a o r := fun r hr hc => haway r hr (havail r hc)
      have hsplit : splitLoop order a o ((b.detach o a next).setReserved l) =
          (splitLoop order a o ((b.detach o a next).setReserved [])).setReserved l :=
        splitLoop_setReserved o hclear (b.detach o a next)
      exact congrArg (fun c : Buddy => (some a, c.pageTypeSet a .data)) hsplit

theorem alloc_setReserved (haway : b.Away l) (order : Nat) : (b.setReserved l).alloc order =
    (((b.setReserved []).alloc order).1, ((b.setReserved []).alloc order).2.setReserved l) :=
  allocLoop_setReserved haway

theorem mergeLoop_setReserved (fuel : Nat) (b : Buddy) (cur o : Nat) :
    mergeLoop fuel (b.setReserved l) cur o = ((mergeLoop fuel b cur o).1.setReserved l,
      (mergeLoop fuel b cur o).2) := by
  induction fuel generalizing b cur o with
  | zero => rfl
  | succ fuel ih =>
    simp only [mergeLoop]
    split
    · rfl
    have hmanaged : (b.setReserved l).isManaged (cur ^^^ blockSize o) =
        b.isManaged (cur ^^^ blockSize o) := rfl
    rw [hmanaged]
    split
    · rfl
    have hlist : (b.setReserved l).isOnFreeList (cur ^^^ blockSize o) o =
        b.isOnFreeList (cur ^^^ blockSize o) o := rfl
    have hhdr : (b.setReserved l).header = b.header := rfl
    rw [hlist, hhdr]
    split
    · exact ih (b.removeFromList o (cur ^^^ blockSize o)) _ _
    · rfl

theorem freeOne_setReserved (b : Buddy) (a o : Nat) :
    (b.setReserved l).freeOne a o = (b.freeOne a o).setReserved l := by
  unfold freeOne
  have hmanaged : (b.setReserved l).isManaged a = b.isManaged a := rfl
  have htype : (b.setReserved l).pageTypeGet a = b.pageTypeGet a := rfl
  rw [hmanaged, htype]
  split
  · rfl
  split
  · rfl
  rw [mergeLoop_setReserved]
  generalize mergeLoop maxOrder b a o = r
  obtain ⟨c, cur, o'⟩ := r
  have hlist : (c.setReserved l).isOnFreeList cur o' = c.isOnFreeList cur o' := rfl
  simp only [hlist]
  split <;> rfl

theorem release_setReserved {t : PageType} (hnot : ¬ (order = 0 ∧ t = .pte)) (b : Buddy) (a : Nat) :
    (b.setReserved l).release a order t = (b.release a order t).setReserved l := by
  unfold release
  simp only [if_neg hnot]
  exact freeOne_setReserved (b.cleared a) a (order % 256)

theorem free_setReserved (hmem : a ∉ l) (horder : order ≠ 0) (b : Buddy) :
    (b.setReserved l).free a order = ((b.setReserved []).free a order).setReserved l := by
  have hnoted : (b.setReserved l).noted a = ((b.setReserved []).noted a).setReserved l := by
    have hres : (b.setReserved l).isReserved a = false := decide_eq_false hmem
    have hbare : (b.setReserved []).isReserved a = false := decide_eq_false List.not_mem_nil
    simp only [noted, hres, hbare, Bool.false_eq_true, if_false]
    rfl
  have htrack : ((b.setReserved l).trackFreedPage a).1 = ((b.setReserved []).trackFreedPage a).1 :=
    rfl
  have hused : (b.setReserved l).usedSet ((b.setReserved l).pageIndex a) =
      (b.setReserved []).usedSet ((b.setReserved []).pageIndex a) := rfl
  have htype : (b.setReserved l).pageTypeGet a = (b.setReserved []).pageTypeGet a := rfl
  rw [free_eq, free_eq, htrack, hused, htype, hnoted,
    release_setReserved fun h => horder h.1]
  split
  · rfl
  · split <;> rfl

/-! ### What becomes of the available memory -/

/-- The allocator of a run: the pool is well formed, every page has an entry in the tables, and no
reserved page is available. -/
structure Sound (b : Buddy) : Prop where
  wf : b.pool.Wf
  pages : b.pages ≤ maxRefcPages
  away : b.Away b.reserved

theorem accepts_congr (hbase : b'.base = b.base) (htables : b'.tables = b.tables) (a : Nat) :
    b'.accepts a = b.accepts a := by
  cases b
  cases b'
  simp only [tables, Tables.mk.injEq] at hbase htables
  obtain ⟨rfl, rfl, rfl, rfl, rfl⟩ := htables
  subst hbase
  rfl

theorem physToIdx_lt (hfit : Fits b.base b.limit a o) (hpages : b.pages ≤ maxRefcPages) :
    b.physToIdx a < maxRefcPages := by
  have hup := hfit.upper
  have hpos := pageSize_le_size o
  have hlow := hfit.lower
  simp only [limit, pageSize] at hup hpos
  rw [physToIdx, if_neg (Nat.not_lt.mpr hlow), Nat.shiftRight_eq_div_pow]
  omega

theorem alloc_avail (hs : b.Sound) (h : b.alloc order = (some a, b')) (x : Nat) :
    b'.pool.AvailAt x ↔ b.pool.AvailAt x ∧ ¬ Covers a order x := by
  have hbare := alloc_setReserved hs.away order
  rw [show b.setReserved b.reserved = b from rfl, h] at hbare
  obtain ⟨ha, hb'⟩ := Prod.mk.inj hbare
  have hg := (alloc_some (b := b.setReserved []) hs.wf (Prod.ext ha.symm rfl)).1
  rw [hb', pool_setReserved]
  exact ⟨hg.sub x, fun ⟨hav, hout⟩ => hg.sup rfl x hav hout⟩

theorem alloc_none_pool (hs : b.Sound) (h : b.alloc order = (none, b')) : b'.pool = b.pool := by
  have hbare := alloc_setReserved hs.away order
  rw [show b.setReserved b.reserved = b from rfl, h] at hbare
  obtain ⟨ha, hb'⟩ := Prod.mk.inj hbare
  have hr := alloc_none (b := b.setReserved []) hs.wf (Prod.ext ha.symm rfl)
  have hsame : ((b.setReserved []).alloc order).2 = b.setReserved [] := hr.same rfl
  rw [hb', pool_setReserved, hsame, pool_setReserved]

theorem allocZeroedPage_avail (hs : b.Sound) (h : b.allocZeroedPage = (some a, b')) (x : Nat) :
    b'.pool.AvailAt x ↔ b.pool.AvailAt x ∧ ¬ Covers a 0 x := by
  refine ⟨(allocZeroedPage_some hs.wf h).1.sub x, fun ⟨hx, hout⟩ => ?_⟩
  rcases qPop_spec hs.wf with ⟨-, hpop⟩ | ⟨hcount, p, hp, -, hpop⟩
  · simp only [allocZeroedPage, hpop] at h
    split at h
    next c hc =>
      cases h
      simpa using (alloc_avail hs hc x).mpr ⟨hx, hout⟩
    · cases h
  · simp only [allocZeroedPage, hpop, Prod.mk.injEq, Option.some.injEq] at h
    obtain ⟨rfl, rfl⟩ := h
    have htake : b.qTake.pool.WaitingAt x ↔ b.pool.WaitingAt x ∧ ¬ Covers p 0 x :=
      hs.wf.waitingAt_take hcount hp
    have hav : b.qTake.pool.AvailAt x := hx.imp id fun hw => htake.mpr ⟨hw, hout⟩
    simpa using hav

theorem allocZeroedPage_none_pool (hs : b.Sound) (h : b.allocZeroedPage = (none, b')) :
    b'.pool = b.pool ∧ b'.tables = b.tables := by
  obtain ⟨hcount, hr⟩ := allocZeroedPage_none hs.wf h
  refine ⟨?_, hr.tables⟩
  rcases qPop_spec hs.wf with ⟨-, hpop⟩ | ⟨hne, -⟩
  · simp only [allocZeroedPage, hpop] at h
    split at h
    · cases h
    next c hc =>
      cases h
      exact alloc_none_pool hs hc
  · exact absurd hcount hne

theorem free_avail (hs : b.Sound) (ha : a ≠ 0) (hfit : Fits b.base b.limit a order)
    (hnew : ∀ x, Covers a order x → ¬ b.pool.AvailAt x) (hacc : b.accepts a = true)
    (hmem : a ∉ b.reserved) (horder : order ≠ 0) (x : Nat) :
    (b.free a order).pool.AvailAt x ↔ b.pool.AvailAt x ∨ Covers a order x := by
  have hfree := free_setReserved hmem horder b
  rw [show b.setReserved b.reserved = b from rfl] at hfree
  have hkeep : (b.setReserved []).drops a order = false := by simp [drops, horder]
  have hret := free_returns (b := b.setReserved []) hs.wf ha hfit hnew hacc hkeep
  rw [hfree, pool_setReserved]
  exact ⟨hret.sub x, hret.sup rfl x⟩

end Buddy

end Rynex.Memory
