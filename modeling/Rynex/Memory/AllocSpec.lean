import Rynex.Memory.Spec

/-! What `alloc`, `q_pop`, `alloc_zeroed_page` and `free` do: a granted block leaves the pool, a
refused request takes nothing, and a freed block goes back to a list or to the quarantine. -/

namespace Rynex.Memory

open Rynex.Lib

namespace Buddy

variable {b b' : Buddy} {a o x p order : Nat}

/-! ### Splitting -/

/-- The halves of the block of order `o` at `a` that are not part of the one of order `order`. -/
theorem splitLoop_spec (hwf : b.pool.Wf) (hfit : Fits b.base b.limit a o)
    (hnew : ∀ x, Covers a o x → ¬ b.pool.AvailAt x) (hle : order ≤ o) :
    Gains b (splitLoop order a o b) fun x => Covers a o x ∧ ¬ Covers a order x := by
  induction o generalizing b with
  | zero =>
    obtain rfl : order = 0 := by omega
    exact Gains.refl hwf fun x hx => hx.2 hx.1
  | succ so ih =>
    simp only [splitLoop, blockSize_eq]
    split
    · next hso =>
      have hsub : Block.size pageShift order ≤ Block.size pageShift so := Block.size_le_size hso
      have hhalf : Gains b
          (if b.isReserved (a + Block.size pageShift so) then b
            else b.pushBlock so (a + Block.size pageShift so))
          (Covers (a + Block.size pageShift so) so) := by
        split
        · next hres =>
          refine ⟨hwf, rfl, rfl, rfl, rfl, fun _ hf => .inl hf, fun hr => ?_⟩
          simp [isReserved, hr] at hres
        · exact Gains.push hwf hfit.half fun x hc => hnew x (Block.covers_succ.mpr (.inr hc))
      generalize (if b.isReserved (a + Block.size pageShift so) then b
        else b.pushBlock so (a + Block.size pageShift so)) = c at hhalf ⊢
      refine hhalf.trans (ih hhalf.wf ?_ ?_ hso) fun x => ?_
      · rw [hhalf.base, hhalf.limit]
        exact hfit.lower_part (Nat.le_succ so)
      · rintro x hc (hf | hw)
        · rcases hhalf.sub x hf with hf | hc'
          · exact hnew x (Block.covers_succ.mpr (.inl hc)) (.inl hf)
          · simp only [Block.Covers] at hc hc'; omega
        · simp only [Pool.WaitingAt, hhalf.queue] at hw
          exact hnew x (Block.covers_succ.mpr (.inl hc)) (.inr hw)
      · simp only [Block.Covers, Block.size_succ]; omega
    · obtain rfl : order = so + 1 := by omega
      exact Gains.refl hwf fun x hx => hx.2 hx.1

/-! ### Granting a block -/

/-- `b'` is `b` after it handed out the block of order `o` at `a`: the block was available, and
its addresses are not any more. Reserved blocks may drop out as well. -/
structure Grants (b b' : Buddy) (a o : Nat) : Prop where
  nonzero : a ≠ 0
  fits : Fits b.base b.limit a o
  avail : ∀ x, Covers a o x → b.pool.AvailAt x
  wf : b'.pool.Wf
  base : b'.base = b.base
  pages : b'.pages = b.pages
  sub : ∀ x, b'.pool.AvailAt x → b.pool.AvailAt x ∧ ¬ Covers a o x
  sup : b.reserved = [] → ∀ x, b.pool.AvailAt x → ¬ Covers a o x → b'.pool.AvailAt x

theorem Grants.congr {c : Buddy} (h : Grants b c a o) (hpool : b'.pool = c.pool) :
    Grants b b' a o :=
  ⟨h.nonzero, h.fits, h.avail, hpool ▸ h.wf, (congrArg Pool.base hpool).trans h.base,
    (congrArg Pool.pages hpool).trans h.pages, fun x hx => h.sub x (hpool ▸ hx),
      fun hr x hx hout => hpool ▸ h.sup hr x hx hout⟩

/-- The tables after `alloc_nolock` handed out the block at `a`. -/
def tablesTaken (b : Buddy) (a : Nat) : Tables :=
  { b.tables with
    used := setAt b.tables.used (b.physToIdx a) true
    freed := setAt b.tables.freed (b.physToIdx a) false
    pageType := setAt b.tables.pageType (b.physToIdx a) .data }

theorem tables_detach {next : List Nat} (h : b.base ≤ a) :
    (b.detach o a next).tables =
      { b.tables with
        used := setAt b.tables.used (b.physToIdx a) true
        freed := setAt b.tables.freed (b.physToIdx a) false } := by
  have hidx : (b.zeroPage a).pageIndex a = b.physToIdx a := pageIndex_eq h
  simp [detach, hidx]

/-- Taking the head of list `o` for a request of order `order`. -/
theorem takeBlock_spec {next : List Nat} (hwf : b.pool.Wf) (hlist : b.freeLists o = a :: next)
    (hle : order ≤ o) :
    Grants b (b.takeBlock order o a next) a order ∧
      (b.takeBlock order o a next).tables = b.tablesTaken a := by
  have hmem : a ∈ b.pool.freeLists o := by
    rw [show b.pool.freeLists o = a :: next from hlist]; exact List.mem_cons_self
  have hfit := hwf.fits hmem
  have hpool : (b.detach o a next).pool = b.pool.setList o ((b.pool.freeLists o).erase a) := by
    rw [show b.pool.freeLists o = a :: next from hlist, List.erase_cons_head]; rfl
  have hfree : ∀ x, (b.detach o a next).pool.FreeAt x ↔ b.pool.FreeAt x ∧ ¬ Covers a o x :=
    fun x => by
    rw [hpool, hwf.freeAt_erase hmem]
  have hcov : ∀ x, Covers a o x → b.pool.FreeAt x := fun x hc => ⟨o, a, hmem, hc⟩
  have hpart : ∀ x, Covers a order x → Covers a o x := fun x hc =>
    ⟨hc.1, hc.2.trans_le (Nat.add_le_add_left (Block.size_le_size hle) a)⟩
  have hsplit : Gains (b.detach o a next) (splitLoop order a o (b.detach o a next))
      fun x => Covers a o x ∧ ¬ Covers a order x := by
    refine splitLoop_spec (hpool ▸ hwf.of_sublist List.erase_sublist) hfit (fun x hc => ?_) hle
    rintro (hf | hw)
    · exact ((hfree x).mp hf).2 hc
    · exact hwf.qFree hw (hcov x hc)
  have hqueue : ∀ x, (b.takeBlock order o a next).pool.WaitingAt x ↔ b.pool.WaitingAt x := by
    intro x
    simp only [Pool.WaitingAt, takeBlock, pool_pageTypeSet, hsplit.queue]
    exact Iff.rfl
  refine ⟨⟨hwf.nonzero hmem, hfit.lower_part hle, fun x hc => .inl (hcov x (hpart x hc)),
    hsplit.wf, hsplit.base, hsplit.pages, fun x => ?_, fun hr x => ?_⟩, ?_⟩
  · rintro (hf | hw)
    · rcases hsplit.sub x hf with hf | hc
      · have := (hfree x).mp hf
        exact ⟨.inl this.1, fun hc => this.2 (hpart x hc)⟩
      · exact ⟨.inl (hcov x hc.1), hc.2⟩
    · have hw := (hqueue x).mp hw
      exact ⟨.inr hw, fun hc => hwf.qFree hw (hcov x (hpart x hc))⟩
  · rintro (hf | hw) hout
    · refine .inl (hsplit.sup hr (fun h0 => h0.2 ?_) x ?_)
      · obtain rfl : a = 0 := Nat.le_zero.mp h0.1.1
        exact Block.covers_self _ _ _
      · by_cases hc : Covers a o x
        exacts [.inr ⟨hc, hout⟩, .inl ((hfree x).mpr ⟨hf, hc⟩)]
    · exact .inr ((hqueue x).mpr hw)
  · simp only [takeBlock, tables_pageTypeSet, hsplit.tables, tables_detach hfit.lower,
      physToIdx_congr hsplit.base]
    rfl

theorem Grants.of_dropped {next : List Nat} (hlist : b.freeLists p = o :: next)
    (hres : b.reserved ≠ []) (h : Grants (b.setFreeList p next) b' a order) :
    Grants b b' a order := by
  have hsub : ∀ x, (b.setFreeList p next).pool.AvailAt x → b.pool.AvailAt x := by
    rintro x (hf | hw)
    · refine .inl (Pool.FreeAt.of_sublist (o := p) (l := next) ?_ hf)
      rw [show b.pool.freeLists p = o :: next from hlist]
      exact List.sublist_cons_self o next
    · exact .inr hw
  exact ⟨h.nonzero, h.fits, fun x hc => hsub x (h.avail x hc), h.wf, h.base, h.pages,
    fun x hx => ⟨hsub x (h.sub x hx).1, (h.sub x hx).2⟩, fun hr => absurd hr hres⟩

theorem wf_setFreeList_tail {next : List Nat} (hwf : b.pool.Wf)
    (hlist : b.freeLists o = a :: next) : (b.setFreeList o next).pool.Wf := by
  refine hwf.of_sublist ?_
  rw [show b.pool.freeLists o = a :: next from hlist]
  exact List.sublist_cons_self a next

theorem allocLoop_some {os : List Nat} (hwf : b.pool.Wf) (hos : ∀ o ∈ os, order ≤ o)
    (h : allocLoop order os b = (some a, b')) :
    Grants b b' a order ∧ b'.tables = b.tablesTaken a := by
  induction os generalizing b with
  | nil => simp [allocLoop] at h
  | cons o os ih =>
    have hrest : ∀ o ∈ os, order ≤ o := fun o ho => hos o (List.mem_cons_of_mem _ ho)
    simp only [allocLoop] at h
    split at h
    · exact ih hwf hrest h
    next head next hlist =>
    split at h
    · next hres =>
      -- the head is reserved: it is dropped and the search goes on
      split at h
      · obtain ⟨hg, ht⟩ := ih (wf_setFreeList_tail hwf hlist) hrest h
        refine ⟨hg.of_dropped hlist ?_, ht⟩
        rintro hr
        simp [isReserved, hr] at hres
      · cases h
    · cases h
      exact takeBlock_spec hwf hlist (hos o List.mem_cons_self)

/-- `b'` is `b` after a request that could not be met. -/
structure Refuses (b b' : Buddy) (os : List Nat) : Prop where
  wf : b'.pool.Wf
  base : b'.base = b.base
  pages : b'.pages = b.pages
  tables : b'.tables = b.tables
  sub : ∀ x, b'.pool.AvailAt x → b.pool.AvailAt x
  same : b.reserved = [] → b' = b
  empty : b.reserved = [] → ∀ o ∈ os, b.freeLists o = []

theorem allocLoop_none {os : List Nat} (hwf : b.pool.Wf)
    (h : allocLoop order os b = (none, b')) : Refuses b b' os := by
  induction os generalizing b with
  | nil =>
    cases h
    exact ⟨hwf, rfl, rfl, rfl, fun _ => id, fun _ => rfl, by simp⟩
  | cons o os ih =>
    simp only [allocLoop] at h
    split at h
    · next hnil =>
      have hr := ih hwf h
      refine { hr with empty := fun hres o' ho' => ?_ }
      rcases List.mem_cons.mp ho' with rfl | ho'
      exacts [hnil, hr.empty hres o' ho']
    next head next hlist =>
    split at h
    · next hres =>
      have hne : b.reserved ≠ [] := by
        rintro hr
        simp [isReserved, hr] at hres
      have hsub : ∀ x, (b.setFreeList o next).pool.AvailAt x → b.pool.AvailAt x := by
        rintro x (hf | hw)
        · refine .inl (Pool.FreeAt.of_sublist (o := o) (l := next) ?_ hf)
          rw [show b.pool.freeLists o = head :: next from hlist]
          exact List.sublist_cons_self head next
        · exact .inr hw
      split at h
      · have hr := ih (wf_setFreeList_tail hwf hlist) h
        exact ⟨hr.wf, hr.base, hr.pages, hr.tables, fun x hx => hsub x (hr.sub x hx),
          fun he => absurd he hne, fun he => absurd he hne⟩
      · cases h
        exact ⟨wf_setFreeList_tail hwf hlist, rfl, rfl, rfl, hsub, fun he => absurd he hne,
          fun he => absurd he hne⟩
    · cases h

theorem alloc_some (hwf : b.pool.Wf) (h : b.alloc order = (some a, b')) :
    Grants b b' a order ∧ b'.tables = b.tablesTaken a :=
  allocLoop_some hwf (fun _ ho => (List.mem_range'_1.mp ho).1) h

theorem alloc_none (hwf : b.pool.Wf) (h : b.alloc order = (none, b')) :
    Refuses b b' (List.range' order (maxOrder + 1 - order)) :=
  allocLoop_none hwf h

/-! ### The quarantine -/

theorem qPop_spec (hwf : b.pool.Wf) :
    (b.qCount = 0 ∧ b.qPop = (none, b)) ∨
    (b.qCount ≠ 0 ∧ ∃ p, p = b.quarantine b.qTail ∧ p ∈ b.pool.qContents ∧
      b.qPop = (some p, b.qTake.pteRefcInc p)) := by
  by_cases hcount : b.qCount = 0
  · exact .inl ⟨hcount, by simp [qPop, hcount, qPopLoop]⟩
  refine .inr ⟨hcount, b.quarantine b.qTail, rfl, ?_⟩
  have hmem : b.quarantine b.qTail ∈ b.pool.qContents := by
    rw [Pool.qContents_take hwf.qCount_le hcount]; exact List.mem_cons_self
  have hfit := hwf.qFits hmem
  have hup : b.quarantine b.qTail + Block.size pageShift 0 ≤ b.base + b.pages * pageSize :=
    hfit.upper
  have hpos := Block.size_pos pageShift 0
  have hguard : b.quarantine b.qTail ≠ 0 ∧ b.base ≤ b.quarantine b.qTail ∧
      b.quarantine b.qTail < b.base + b.pages * pageSize :=
    ⟨hwf.qNonzero hmem, hfit.lower, by omega⟩
  refine ⟨hmem, ?_⟩
  obtain ⟨n, hn⟩ := Nat.exists_eq_succ_of_ne_zero hcount
  rw [qPop, hn]
  simp only [qPopLoop, hcount, if_false]
  exact if_pos hguard

theorem qTake_grants (hwf : b.pool.Wf) (hcount : b.qCount ≠ 0) (hp : p = b.quarantine b.qTail) :
    Grants b b.qTake p 0 := by
  have hq := Pool.qContents_take hwf.qCount_le (P := b.pool) hcount
  have hmem : p ∈ b.pool.qContents := by
    rw [hq, hp]; exact List.mem_cons_self
  have hwait : ∀ x, b.qTake.pool.WaitingAt x ↔ b.pool.WaitingAt x ∧ ¬ Covers p 0 x := fun x =>
    hwf.waitingAt_take hcount hp
  have hcov : ∀ x, Covers p 0 x → b.pool.WaitingAt x := fun x hc => ⟨p, hmem, hc⟩
  refine ⟨hwf.qNonzero hmem, hwf.qFits hmem, fun x hc => .inr (hcov x hc), hwf.take hcount, rfl,
    rfl, ?_, fun _ => ?_⟩
  · rintro x (hf | hw)
    · exact ⟨.inl hf, fun hc => hwf.qFree (hcov x hc) hf⟩
    · exact ⟨.inr ((hwait x).mp hw).1, ((hwait x).mp hw).2⟩
  · rintro x (hf | hw) hout
    · exact .inl hf
    · exact .inr ((hwait x).mpr ⟨hw, hout⟩)

/-! ### Zeroed pages -/

/-- The tables after a zeroed page at `a` was handed out, with page-table count `v`. -/
def tablesZeroed (b : Buddy) (a v : Nat) : Tables where
  used := setAt b.tables.used (b.physToIdx a) true
  freed := setAt b.tables.freed (b.physToIdx a) false
  pageType := setAt b.tables.pageType (b.physToIdx a) .pte
  pteRefc := setAt b.tables.pteRefc (b.physToIdx a) v
  reserved := b.tables.reserved

theorem allocZeroedPage_some (hwf : b.pool.Wf) (h : b.allocZeroedPage = (some a, b')) :
    Grants b b' a 0 ∧ ∃ v, 1 ≤ v ∧ b'.tables = b.tablesZeroed a v := by
  rcases qPop_spec hwf with ⟨-, hpop⟩ | ⟨hcount, p, hp, -, hpop⟩
  · -- the quarantine is empty
    simp only [allocZeroedPage, hpop] at h
    split at h
    · next c hc =>
      cases h
      obtain ⟨hg, ht⟩ := alloc_some hwf hc
      refine ⟨hg.congr (by simp), min (b.tables.pteRefc (b.physToIdx a) + 1) u16Max,
        by simp [u16Max], ?_⟩
      simp [ht, tablesTaken, tablesZeroed, physToIdx_congr hg.base]
    · cases h
  · simp only [allocZeroedPage, hpop, Prod.mk.injEq, Option.some.injEq] at h
    obtain ⟨rfl, rfl⟩ := h
    -- `q_pop` has counted the page once already
    refine ⟨(qTake_grants hwf hcount hp).congr (by simp),
      min ((b.qTake.pteRefcInc p).tables.pteRefc (b.physToIdx p) + 1) u16Max,
      by simp [u16Max], ?_⟩
    simp [tablesZeroed]

theorem allocZeroedPage_none (hwf : b.pool.Wf) (h : b.allocZeroedPage = (none, b')) :
    b.qCount = 0 ∧ Refuses b b' (List.range' 0 (maxOrder + 1)) := by
  rcases qPop_spec hwf with ⟨hcount, hpop⟩ | ⟨hcount, p, hp, -, hpop⟩
  · simp only [allocZeroedPage, hpop] at h
    split at h
    · cases h
    · next c hc =>
      cases h
      exact ⟨hcount, alloc_none hwf hc⟩
  · simp [allocZeroedPage, hpop] at h

/-! ### Reservations -/

theorem setAt_of_imp {α : Type} {t : Nat → α} {i j : Nat} {v : α} {P : α → Prop} (hv : P v)
    (h : P (t j)) : P (setAt t i v j) := by
  unfold setAt
  split
  · by_cases hj : j = i
    · subst hj; simpa using hv
    · simpa [Function.update_of_ne hj] using h
  · exact h

theorem markAllocated_page : b.markAllocated a pageSize =
    b.removeIfFree a (maxOrderFor a pageSize) := by
  rw [markAllocated, show (pageSize + pageSize - 1) / pageSize = 0 + 1 by decide, markAllocatedLoop,
    if_pos (by simp [pageSize]), markAllocatedLoop, Nat.add_sub_cancel_left]

theorem reserve_sub (hwf : b.pool.Wf) :
    (b.reserve a).pool.Wf ∧ ∀ x, (b.reserve a).pool.AvailAt x → b.pool.AvailAt x := by
  have hrem : ∀ (l : List Nat) o, (({ b with reserved := l } : Buddy).removeIfFree a o).pool.Wf ∧
      ∀ x, (({ b with reserved := l } : Buddy).removeIfFree a o).pool.AvailAt x →
        b.pool.AvailAt x := by
    intro l o
    unfold removeIfFree
    split
    · refine ⟨hwf.of_sublist List.erase_sublist, fun x hx => ?_⟩
      rcases hx with hf | hw
      exacts [.inl (hf.of_sublist (P := b.pool) List.erase_sublist), .inr hw]
    · exact ⟨hwf, fun _ hx => hx⟩
  unfold reserve
  split
  · exact ⟨hwf, fun _ hx => hx⟩
  split
  · simp only [markAllocated_page]
    have h := hrem (b.reserved ++ [a]) (maxOrderFor a pageSize)
    split <;> exact h
  · exact ⟨hwf, fun _ hx => hx⟩

/-- Reserving a page that is not available leaves the pool alone. -/
theorem reserve_spec (h : ¬ b.pool.AvailAt a) :
    (b.reserve a).pool = b.pool ∧ ∃ used reserved, (∀ i, b.tables.used i = true → used i = true) ∧
      (b.reserve a).tables = { b.tables with used := used, reserved := reserved } := by
  have hlist : ∀ o, a ∉ b.pool.freeLists o := fun o hm =>
    h (.inl ⟨o, a, hm, Block.covers_self _ _ _⟩)
  -- the page is on no list, so `mark_allocated` finds nothing to unlink
  have hrem : ∀ (l : List Nat) o, (({ b with reserved := l } : Buddy).removeIfFree a o).pool =
    b.pool ∧
      (({ b with reserved := l } : Buddy).removeIfFree a o).tables =
        { b.tables with reserved := l } := by
    intro l o
    unfold removeIfFree
    split
    · refine ⟨?_, rfl⟩
      rw [pool_removeFromList]
      change b.pool.setList o ((b.pool.freeLists o).erase a) = b.pool
      rw [List.erase_of_not_mem (hlist o), Pool.setList, Function.update_eq_self]
    · exact ⟨rfl, rfl⟩
  unfold reserve
  split
  · exact ⟨rfl, b.tables.used, b.tables.reserved, fun _ => id, rfl⟩
  split
  · simp only [markAllocated_page]
    obtain ⟨hpool, htab⟩ := hrem (b.reserved ++ [a]) (maxOrderFor a pageSize)
    generalize ({ b with reserved := b.reserved ++ [a] } : Buddy).removeIfFree a
      (maxOrderFor a pageSize) = c at hpool htab ⊢
    split
    · exact ⟨hpool, b.tables.used, b.reserved ++ [a], fun _ => id, htab⟩
    · refine ⟨hpool, setAt b.tables.used (c.pageIndex a) true, b.reserved ++ [a],
        fun i hi => setAt_of_imp (P := (· = true)) rfl hi, ?_⟩
      rw [tables_usedMark, htab]
  · exact ⟨rfl, b.tables.used, b.tables.reserved, fun _ => id, rfl⟩

/-! ### Freeing -/

/-- `free` gets past its checks: the page is not recorded as freed, and is in use. -/
def accepts (b : Buddy) (a : Nat) : Bool :=
  !(b.trackFreedPage a).1 && b.usedSet (b.pageIndex a) && b.pageTypeGet a ≠ .free

/-- `free` does not return the page, because its page-table count stays above zero. -/
def drops (b : Buddy) (a order : Nat) : Bool :=
  order = 0 && b.pageTypeGet a = .pte && 1 < b.pteRefcGet a

/-- The allocator when `free` reaches its checks. -/
def noted (b : Buddy) (a : Nat) : Buddy :=
  if b.isReserved a then ((b.trackFreedPage a).2.unreserve a).2 else (b.trackFreedPage a).2

@[simp] theorem pool_noted : (b.noted a).pool = b.pool := by
  unfold noted; split <;> rfl

theorem tables_noted : (b.noted a).tables =
    { b.tables with
      freed := setAt b.tables.freed (b.physToIdx a) true
      reserved := b.tables.reserved.erase a } := by
  unfold noted
  split
  · simp
  · next h =>
    have : a ∉ b.tables.reserved := by
      simp only [isReserved, decide_eq_true_eq] at h
      exact h
    simp [List.erase_of_not_mem this]

theorem free_eq : b.free a order =
    if (b.trackFreedPage a).1 then (b.trackFreedPage a).2
    else if !b.usedSet (b.pageIndex a) || b.pageTypeGet a = .free then b.noted a
    else (b.noted a).release a order (b.pageTypeGet a) := by
  have hused : (b.noted a).usedSet ((b.noted a).pageIndex a) = b.usedSet (b.pageIndex a) := by
    unfold noted; split <;> rfl
  have htype : (b.noted a).pageTypeGet a = b.pageTypeGet a := by
    unfold noted; split <;> rfl
  rcases htr : b.trackFreedPage a with ⟨t, c⟩
  have hc : (if c.isReserved a then (c.unreserve a).2 else c) = b.noted a := by
    rw [noted, htr, show c.isReserved a = b.isReserved a by
      rw [show c = (b.trackFreedPage a).2 by rw [htr]]; rfl]
  cases t with
  | true => simp [free, htr]
  | false => simp only [free, htr, hc, hused, htype, Bool.false_eq_true, if_false]

theorem free_of_not_accepts (order : Nat) (h : b.accepts a = false) :
    (b.free a order).pool = b.pool ∧ ∃ reserved, reserved.Sublist b.tables.reserved ∧
      (b.free a order).tables = { b.tables with
        freed := setAt b.tables.freed (b.physToIdx a) true
        reserved := reserved } := by
  rw [free_eq]
  split
  · exact ⟨pool_trackFreedPage, b.tables.reserved, List.Sublist.refl _, by simp⟩
  next htr =>
  split
  · exact ⟨pool_noted, _, List.erase_sublist, tables_noted⟩
  · next hchk => simp_all [accepts]

theorem free_of_accepts (h : b.accepts a = true) :
    b.free a order = (b.noted a).release a order (b.pageTypeGet a) := by
  simp only [accepts, Bool.and_eq_true, Bool.not_eq_true', decide_eq_true_eq] at h
  simp [free_eq, h]

/-- The tables after the block at `a` was released. -/
def tablesReleased (b : Buddy) (a order : Nat) (t : PageType) : Tables :=
  { b.tables with
    used := setAt b.tables.used (b.physToIdx a) false
    pageType := setAt b.tables.pageType (b.physToIdx a) .free
    pteRefc := if order = 0 ∧ t = .pte then
      setAt b.tables.pteRefc (b.physToIdx a) (b.tables.pteRefc (b.physToIdx a) - 1)
      else b.tables.pteRefc }

/-- `b'` is `b` after the block of order `o` at `a` came back. -/
structure Returns (b b' : Buddy) (a o : Nat) : Prop where
  wf : b'.pool.Wf
  base : b'.base = b.base
  pages : b'.pages = b.pages
  sub : ∀ x, b'.pool.AvailAt x → b.pool.AvailAt x ∨ Covers a o x
  sup : b.reserved = [] → ∀ x, b.pool.AvailAt x ∨ Covers a o x → b'.pool.AvailAt x

theorem Gains.returns {b' : Buddy} (h : Gains b b' (Covers a o)) (ha : a ≠ 0) :
    Returns b b' a o := by
  have hwait : ∀ x, b'.pool.WaitingAt x ↔ b.pool.WaitingAt x := fun x => by
    simp only [Pool.WaitingAt, h.queue]
  have h0 : ¬ Covers a o 0 := fun hc => ha (Nat.le_zero.mp hc.1)
  refine ⟨h.wf, h.base, h.pages, ?_, fun hr => ?_⟩
  · rintro x (hf | hw)
    · rcases h.sub x hf with hf | hc
      exacts [.inl (.inl hf), .inr hc]
    · exact .inl (.inr ((hwait x).mp hw))
  · rintro x ((hf | hw) | hc)
    · exact .inl (h.sup hr h0 x (.inl hf))
    · exact .inr ((hwait x).mpr hw)
    · exact .inl (h.sup hr h0 x (.inr hc))

theorem pteRefcDec_fst : (b.pteRefcDec a).1 = true ↔ b.pteRefcGet a ≤ 1 := by
  simp only [pteRefcDec, pteRefcGet, Bool.or_eq_true, decide_eq_true_eq, beq_iff_eq]
  split <;> omega

theorem qPush_returns (hwf : b.pool.Wf) (ha : a ≠ 0) (hfit : Fits b.base b.limit a 0)
    (hnew : ∀ x, Covers a 0 x → ¬ b.pool.AvailAt x) (hcount : b.qCount < quarantineMaxCap) :
    Returns b (b.qPush a).2 a 0 := by
  have hpool : (b.qPush a).2.pool = b.pool.enqueue a := by simp [qPush, hcount]; rfl
  have hwait : ∀ x, (b.pool.enqueue a).WaitingAt x ↔ b.pool.WaitingAt x ∨ Covers a 0 x :=
    fun x => Pool.waitingAt_enqueue hwf.qHead_lt hcount
  refine ⟨hpool ▸ hwf.enqueue hcount ha hfit hnew, congrArg Pool.base hpool,
    congrArg Pool.pages hpool, fun x => ?_, fun _ x => ?_⟩
  · rw [hpool]
    rintro (hf | hw)
    · exact .inl (.inl hf)
    · rcases (hwait x).mp hw with hw | hc
      exacts [.inl (.inr hw), .inr hc]
  · rw [hpool]
    rintro ((hf | hw) | hc)
    exacts [.inl hf, .inr ((hwait x).mpr (.inl hw)), .inr ((hwait x).mpr (.inr hc))]

theorem Returns.congr {c c' : Buddy} (h : Returns c c' a o) (hpool : c.pool = b.pool)
    (hres : b.reserved = [] → c.reserved = []) (hpool' : b'.pool = c'.pool) :
    Returns b b' a o := by
  have hbase : c.base = b.base := congrArg Pool.base hpool
  have hpages : c.pages = b.pages := congrArg Pool.pages hpool
  refine ⟨hpool' ▸ h.wf, (congrArg Pool.base hpool').trans (h.base.trans hbase),
    (congrArg Pool.pages hpool').trans (h.pages.trans hpages), fun x hx => ?_, fun hr x hx => ?_⟩
  · rw [hpool'] at hx
    rw [← hpool]
    exact h.sub x hx
  · rw [hpool']
    rw [← hpool] at hx
    exact h.sup (hres hr) x hx

theorem retire_eq : b.retire a =
    if (b.pteRefcDec a).1 then
      if ((b.pteRefcDec a).2.qPush a).1 then ((b.pteRefcDec a).2.qPush a).2
      else ((b.pteRefcDec a).2.qPush a).2.freeOne a 0
    else (b.pteRefcDec a).2 := by
  unfold retire
  rcases b.pteRefcDec a with ⟨d, c⟩
  cases d with
  | false => rfl
  | true =>
    simp only [if_true]
    rcases c.qPush a with ⟨q, c'⟩
    cases q <;> rfl

theorem retire_returns (hwf : b.pool.Wf) (ha : a ≠ 0) (hfit : Fits b.base b.limit a 0)
    (hnew : ∀ x, Covers a 0 x → ¬ b.pool.AvailAt x) (hrefc : b.pteRefcGet a ≤ 1) :
    Returns b (b.retire a) a 0 ∧ (b.retire a).tables = (b.pteRefcDec a).2.tables := by
  rw [retire_eq, if_pos (pteRefcDec_fst.mpr hrefc)]
  by_cases hcount : b.qCount < quarantineMaxCap
  · have hpush : ((b.pteRefcDec a).2.qPush a).1 = true := by
      rw [qPush, if_pos (show (b.pteRefcDec a).2.qCount < quarantineMaxCap from hcount)]
    rw [if_pos hpush]
    have hret := qPush_returns (b := (b.pteRefcDec a).2) hwf ha hfit hnew hcount
    refine ⟨hret.congr rfl id rfl, ?_⟩
    rw [qPush, if_pos (show (b.pteRefcDec a).2.qCount < quarantineMaxCap from hcount)]
    rfl
  · have hfull : (b.pteRefcDec a).2.qPush a = (false, { (b.pteRefcDec a).2 with
        qFull := (b.pteRefcDec a).2.qFull + 1 }) := by
      rw [qPush, if_neg (show ¬ (b.pteRefcDec a).2.qCount < quarantineMaxCap from hcount)]
    have hg := freeOne_spec (b := { (b.pteRefcDec a).2 with
      qFull := (b.pteRefcDec a).2.qFull + 1 }) hwf hfit hnew
    rw [hfull, if_neg (by simp)]
    exact ⟨(hg.returns ha).congr rfl id rfl, hg.tables⟩

theorem retire_of_shared (hrefc : 1 < b.pteRefcGet a) : b.retire a = (b.pteRefcDec a).2 := by
  rw [retire_eq, if_neg]
  rw [pteRefcDec_fst]
  omega

theorem tables_cleared (h : b.base ≤ a) : (b.cleared a).tables =
    { b.tables with
      used := setAt b.tables.used (b.physToIdx a) false
      pageType := setAt b.tables.pageType (b.physToIdx a) .free } := by
  simp [cleared, pageIndex_eq h]

/-- What `free` does once its checks have passed: the block comes back, unless it is a page-table
page with a count above one, which leaves the pool as it was. -/
theorem release_spec {t : PageType} (hwf : b.pool.Wf) (ha : a ≠ 0)
    (hfit : Fits b.base b.limit a order) (hnew : ∀ x, Covers a order x → ¬ b.pool.AvailAt x) :
    (if order = 0 ∧ t = .pte ∧ 1 < b.pteRefcGet a then (b.release a order t).pool = b.pool
      else Returns b (b.release a order t) a order) ∧
    (b.release a order t).tables = b.tablesReleased a order t := by
  have hcl := tables_cleared hfit.lower
  by_cases hpte : order = 0 ∧ t = .pte
  · obtain ⟨rfl, rfl⟩ := hpte
    have hrel : b.release a 0 .pte = (b.cleared a).retire a := rfl
    have htab : ((b.cleared a).pteRefcDec a).2.tables = b.tablesReleased a 0 .pte := by
      rw [tables_pteRefcDec, hcl]; rfl
    rw [hrel]
    by_cases hrefc : 1 < b.pteRefcGet a
    · rw [if_pos ⟨rfl, rfl, hrefc⟩, retire_of_shared (b := b.cleared a) hrefc]
      exact ⟨rfl, htab⟩
    · rw [if_neg (by omega)]
      have hret := retire_returns (b := b.cleared a) hwf ha hfit hnew (Nat.not_lt.mp hrefc)
      exact ⟨hret.1.congr rfl id rfl, hret.2.trans htab⟩
  · have hrel : b.release a order t = (b.cleared a).freeOne a order := by
      have hlt : order < 256 := by
        have := hfit.order_le
        simp only [maxOrder] at this; omega
      rw [release, if_neg hpte, Nat.mod_eq_of_lt hlt]
    have hg := freeOne_spec (b := b.cleared a) hwf hfit hnew
    rw [if_neg (fun h => hpte ⟨h.1, h.2.1⟩), hrel]
    refine ⟨(hg.returns ha).congr rfl id rfl, ?_⟩
    rw [hg.tables, hcl, tablesReleased, if_neg hpte]

section Accepted

variable (hwf : b.pool.Wf) (ha : a ≠ 0) (hfit : Fits b.base b.limit a order)
  (hnew : ∀ x, Covers a order x → ¬ b.pool.AvailAt x) (hacc : b.accepts a = true)

include hwf ha hfit hnew hacc

theorem free_accepted :
    (if b.drops a order then (b.free a order).pool = b.pool
      else Returns b (b.free a order) a order) ∧
    (b.free a order).tables =
      { b.tablesReleased a order (b.pageTypeGet a) with
        freed := setAt b.tables.freed (b.physToIdx a) true
        reserved := b.tables.reserved.erase a } := by
  have hpool : (b.noted a).pool = b.pool := pool_noted
  have hbase : (b.noted a).base = b.base := congrArg Pool.base hpool
  have hlimit : (b.noted a).limit = b.limit := congrArg Pool.limit hpool
  have hrefc : (b.noted a).pteRefcGet a = b.pteRefcGet a := by
    unfold noted; split <;> rfl
  have hres : b.reserved = [] → (b.noted a).reserved = [] := fun hr => by
    have := congrArg Tables.reserved (tables_noted (b := b) (a := a))
    simpa [tables, hr] using this
  obtain ⟨hrel, htab⟩ := release_spec (b := b.noted a) (t := b.pageTypeGet a) (hpool ▸ hwf) ha
    (by rw [hbase, hlimit]; exact hfit) (by rw [hpool]; exact hnew)
  rw [free_of_accepts hacc, htab]
  refine ⟨?_, by simp only [tablesReleased, tables_noted, physToIdx_congr hbase]⟩
  rw [hrefc] at hrel
  simp only [drops, Bool.and_eq_true, decide_eq_true_eq, and_assoc]
  split at hrel
  · next hd => rw [if_pos hd]; exact hrel.trans hpool
  · next hd => rw [if_neg hd]; exact hrel.congr hpool hres rfl

theorem free_returns (hkeep : b.drops a order = false) :
    Returns b (b.free a order) a order := by
  simpa [hkeep] using (free_accepted hwf ha hfit hnew hacc).1

theorem free_drops (hdrop : b.drops a order = true) : (b.free a order).pool = b.pool := by
  simpa [hdrop] using (free_accepted hwf ha hfit hnew hacc).1

theorem free_accepted_sub :
    (b.free a order).pool.Wf ∧ (b.free a order).base = b.base ∧
      (b.free a order).pages = b.pages ∧
      ∀ x, (b.free a order).pool.AvailAt x → b.pool.AvailAt x ∨ Covers a order x := by
  cases hd : b.drops a order with
  | true =>
    have hpool := free_drops hwf ha hfit hnew hacc hd
    exact ⟨hpool ▸ hwf, congrArg Pool.base hpool, congrArg Pool.pages hpool,
      fun x hx => .inl (hpool ▸ hx)⟩
  | false =>
    have hret := free_returns hwf ha hfit hnew hacc hd
    exact ⟨hret.wf, hret.base, hret.pages, hret.sub⟩

end Accepted

end Buddy

end Rynex.Memory
