import Rynex.Lib.BlockSet
import Rynex.Memory.Conservation

/-! The free lists are canonical: while no page-table page is handed out, the headers of the free
blocks tell their orders, so that `free_one` finds every free buddy, and no two buddies below the
greatest order stay free. The lists are then determined by the addresses that are free, and once
every block is freed they list what they listed at boot. -/

namespace Rynex.Memory

open Rynex.Lib

namespace Buddy

variable {b b' : Buddy} {a o order : Nat}

/-- The headers of the free blocks are true, no two buddies are free, and no page is a page-table
page, in use or in the quarantine. -/
structure Tidy (b : Buddy) : Prop where
  wf : b.pool.Wf
  header : ∀ {o a}, a ∈ b.freeLists o → b.header a = ⟨magic, o⟩
  merged : ∀ {o a}, o < maxOrder → a ∈ b.freeLists o →
    a ^^^ Block.size pageShift o ∉ b.freeLists o
  plain : ∀ i, b.pageType i ≠ .pte
  idle : b.qCount = 0

theorem Tidy.canonical (h : b.Tidy) :
    Block.Canonical pageShift maxOrder fun o a => a ∈ b.freeLists o where
  order_le hm := (h.wf.fits hm).order_le
  aligned hm := (h.wf.fits hm).aligned
  exclusive hm hm' := h.wf.exclusive hm hm'
  merged ho hm := h.merged ho hm

theorem Tidy.pageTypeGet_ne (h : b.Tidy) : b.pageTypeGet a ≠ .pte := by
  simp only [pageTypeGet]
  split
  · exact h.plain _
  · simp

theorem Tidy.availAt_iff {x : Nat} (h : b.Tidy) : b.pool.AvailAt x ↔ b.pool.FreeAt x := by
  have hidle : b.pool.qCount = 0 := h.idle
  simp [Pool.AvailAt, Pool.WaitingAt, Pool.qContents, hidle]

/-! ### Linking and unlinking -/

theorem Tidy.drop {l : List Nat} (h : b.Tidy) (hpool : b'.pool = b.pool.setList o l)
    (hl : l.Sublist (b.freeLists o))
    (hheader : ∀ {o a}, a ∈ b'.freeLists o → b'.header a = b.header a)
    (hplain : ∀ i, b'.pageType i ≠ .pte) : b'.Tidy := by
  have hmem : ∀ {o' a'}, a' ∈ b'.freeLists o' → a' ∈ b.freeLists o' := by
    intro o' a' hm
    rw [show b'.freeLists = (b.pool.setList o l).freeLists from congrArg Pool.freeLists hpool,
      Pool.mem_setList] at hm
    split at hm
    · next heq => subst heq; exact hl.subset hm
    · exact hm
  exact ⟨hpool ▸ h.wf.of_sublist hl, fun hm => (hheader hm).trans (h.header (hmem hm)),
    fun ho hm hm' => h.merged ho (hmem hm) (hmem hm'), hplain,
    (congrArg Pool.qCount hpool).trans h.idle⟩

theorem Tidy.congr (h : b.Tidy) (hpool : b'.pool = b.pool) (hheader : b'.header = b.header)
    (hplain : ∀ i, b'.pageType i ≠ .pte) : b'.Tidy :=
  h.drop (o := 0) (hpool.trans (Pool.setList_self _ 0).symm) (List.Sublist.refl _)
    (fun _ => by rw [hheader]) hplain

theorem mem_pushBlock {o' a' : Nat} (h : a' ∈ (b.pushBlock o a).freeLists o') :
    a' ∈ b.freeLists o' ∨ o' = o ∧ a' = a := by
  by_cases heq : o' = o
  · subst heq
    simp only [pushBlock, Function.update_self] at h
    split at h
    · cases h
    · rcases List.mem_cons.mp h with rfl | h
      exacts [.inr ⟨rfl, rfl⟩, .inl h]
  · exact .inl (by simpa [pushBlock, Function.update_of_ne heq] using h)

theorem Tidy.push (h : b.Tidy) (hfit : Fits b.base b.limit a o)
    (hnew : ∀ x, Covers a o x → ¬ b.pool.AvailAt x)
    (hbuddy : o < maxOrder → a ^^^ Block.size pageShift o ∉ b.freeLists o) :
    (b.pushBlock o a).Tidy := by
  refine ⟨h.wf.push hfit hnew, fun {o' a'} hm => ?_, fun {o' a'} ho hm hm' => ?_, h.plain, h.idle⟩
  · rcases mem_pushBlock hm with hold | ⟨rfl, rfl⟩
    · have hne : a' ≠ a := by
        rintro rfl
        exact hnew a' (Block.covers_self _ _ _) (.inl ⟨o', a', hold, Block.covers_self _ _ _⟩)
      simpa [pushBlock, Function.update_of_ne hne] using h.header hold
    · simp [pushBlock]
  · rcases mem_pushBlock hm with hm | ⟨rfl, rfl⟩ <;> rcases mem_pushBlock hm' with hm' | ⟨ho', he⟩
    · exact h.merged ho hm hm'
    · subst ho'
      refine hbuddy ho ?_
      rwa [← he, Nat.xor_assoc, Nat.xor_self, Nat.xor_zero]
    · exact hbuddy ho hm'
    · -- no block is its own buddy
      have hpos := Block.size_pos pageShift o'
      have hzero : Block.size pageShift o' = 0 := by
        have := congrArg (a' ^^^ ·) he
        simpa [← Nat.xor_assoc] using this
      omega

theorem Tidy.removeFromList (h : b.Tidy) (hm : a ∈ b.freeLists o) :
    (b.removeFromList o a).Tidy := by
  refine h.drop (o := o) rfl List.erase_sublist (fun {o' a'} hm' => ?_) h.plain
  have hne : a' ≠ a := by
    rintro rfl
    have hfree : (b.removeFromList o a').pool.FreeAt a' := ⟨o', a', hm', Block.covers_self _ _ _⟩
    rw [pool_removeFromList, h.wf.freeAt_erase hm] at hfree
    exact hfree.2 (Block.covers_self _ _ _)
  simp [Buddy.removeFromList, hm, Function.update_of_ne hne]

/-! ### Freeing -/

/-- The merging loop ends with a block that has no free buddy. -/
theorem mergeLoop_tidy (fuel : Nat) {cur : Nat} (h : b.Tidy) (hfit : Fits b.base b.limit cur o)
    (hfuel : maxOrder ≤ fuel + o) :
    (mergeLoop fuel b cur o).1.Tidy ∧ ((mergeLoop fuel b cur o).2.2 < maxOrder →
      (mergeLoop fuel b cur o).2.1 ^^^ Block.size pageShift (mergeLoop fuel b cur o).2.2 ∉
        (mergeLoop fuel b cur o).1.freeLists (mergeLoop fuel b cur o).2.2) := by
  induction fuel generalizing b cur o with
  | zero => exact ⟨h, fun hlt => absurd hfuel (by simp only [mergeLoop] at hlt; omega)⟩
  | succ fuel ih =>
    simp only [mergeLoop, blockSize_eq]
    split
    · next hord => exact ⟨h, fun hlt => absurd hord (Nat.not_le.mpr hlt)⟩
    split
    · next hman =>
      refine ⟨h, fun _ hm => ?_⟩
      simp [isManaged_of_fits (b := b) (h.wf.fits hm)] at hman
    split
    · next hhdr =>
      have hm : cur ^^^ Block.size pageShift o ∈ b.freeLists o := by
        simpa [isOnFreeList] using hhdr.2.2
      have hmin : (if cur < cur ^^^ Block.size pageShift o then cur
          else cur ^^^ Block.size pageShift o) = min cur (cur ^^^ Block.size pageShift o) := by
        split <;> omega
      rw [hmin]
      exact ih (h.removeFromList hm) (hfit.join (h.wf.fits hm) (by omega)) (by omega)
    · next hhdr =>
      -- a free buddy would have passed the check of its header
      refine ⟨h, fun _ hm => hhdr ?_⟩
      simp [h.header hm, isOnFreeList, hm]

theorem freeOne_tidy (h : b.Tidy) (hfit : Fits b.base b.limit a o)
    (hnew : ∀ x, Covers a o x → ¬ b.pool.AvailAt x) : (b.freeOne a o).Tidy := by
  simp only [freeOne, isManaged_of_fits hfit, Bool.not_true, Bool.false_eq_true, if_false,
    h.pageTypeGet_ne, and_false]
  have hm := mergeLoop_spec maxOrder h.wf hfit fun x hc hf => hnew x hc (.inl hf)
  obtain ⟨htidy, hbuddy⟩ := mergeLoop_tidy maxOrder h hfit (Nat.le_add_right _ _)
  have havail := hm.not_avail h.wf hnew
  generalize mergeLoop maxOrder b a o = r at hm htidy hbuddy havail
  obtain ⟨c, cur, o'⟩ := r
  have hbase : c.base = b.base := hm.base
  have hlimit : c.limit = b.limit := by
    simp only [Buddy.limit, hbase, show c.pages = b.pages from hm.pages]
  dsimp only
  split
  · exact htidy
  · exact htidy.push (by rw [hbase, hlimit]; exact hm.fits) havail hbuddy

theorem Fills.tidy {S : Nat → Prop} (h : Fills b b' S) (htidy : b.Tidy) : b'.Tidy := by
  induction h with
  | nil => exact htidy
  | cons hfit hnew _ _ ih => exact ih (freeOne_tidy htidy hfit hnew)

theorem setAt_plain {types : Nat → PageType} {t : PageType} (h : ∀ i, types i ≠ .pte)
    (ht : t ≠ .pte) (i j : Nat) : setAt types i t j ≠ .pte :=
  setAt_of_imp (P := (· ≠ PageType.pte)) ht (h j)

theorem header_noted : (b.noted a).header = b.header := by
  unfold noted; split <;> rfl

theorem pageType_noted : (b.noted a).pageType = b.pageType := by
  unfold noted; split <;> rfl

theorem free_tidy (h : b.Tidy) (hfit : Fits b.base b.limit a order)
    (hnew : ∀ x, Covers a order x → ¬ b.pool.AvailAt x) : (b.free a order).Tidy := by
  have hnoted : (b.noted a).Tidy :=
    h.congr pool_noted header_noted (by rw [pageType_noted]; exact h.plain)
  rw [free_eq]
  split
  · exact h.congr rfl rfl h.plain
  split
  · exact hnoted
  · have hcleared : ((b.noted a).cleared a).Tidy :=
      hnoted.congr rfl rfl (setAt_plain (t := .free) hnoted.plain nofun _)
    have hpool : ((b.noted a).cleared a).pool = b.pool := pool_noted
    have hlt : order < 256 := by
      have := hfit.order_le
      simp only [maxOrder] at this; omega
    rw [release, if_neg (fun hp => h.pageTypeGet_ne hp.2), Nat.mod_eq_of_lt hlt]
    refine freeOne_tidy hcleared ?_ (by rw [hpool]; exact hnew)
    rw [show ((b.noted a).cleared a).base = b.base from congrArg Pool.base hpool,
      show ((b.noted a).cleared a).limit = b.limit from congrArg Pool.limit hpool]
    exact hfit

/-! ### Handing out -/

theorem splitLoop_tidy (h : b.Tidy) (hfit : Fits b.base b.limit a o)
    (hnew : ∀ x, Covers a o x → ¬ b.pool.AvailAt x) : (splitLoop order a o b).Tidy := by
  induction o generalizing b with
  | zero => exact h
  | succ so ih =>
    simp only [splitLoop, blockSize_eq]
    split
    · have hlow : ∀ x, Covers a so x → ¬ b.pool.AvailAt x := fun x hc =>
        hnew x (Block.covers_succ.mpr (.inl hc))
      have hfit' := hfit.lower_part (Nat.le_succ so)
      split
      · exact ih h hfit' hlow
      have hhalf : ∀ x, Covers (a + Block.size pageShift so) so x → ¬ b.pool.AvailAt x :=
        fun x hc => hnew x (Block.covers_succ.mpr (.inr hc))
      refine ih (h.push hfit.half hhalf fun _ hm => ?_) hfit' fun x hc => ?_
      · -- the buddy of the upper half is the lower half, which is not free
        rw [← Block.buddy_of_dvd hfit.aligned, Nat.xor_assoc, Nat.xor_self, Nat.xor_zero] at hm
        exact hlow a (Block.covers_self _ _ _) (.inl ⟨so, a, hm, Block.covers_self _ _ _⟩)
      · refine (Gains.push h.wf hfit.half hhalf).not_avail (hlow x hc) fun hc' => ?_
        simp only [Block.Covers] at hc hc'; omega
    · exact h

theorem takeBlock_tidy {next : List Nat} (h : b.Tidy) (hlist : b.freeLists o = a :: next) :
    (b.takeBlock order o a next).Tidy := by
  have hm : a ∈ b.freeLists o := by
    rw [hlist]; exact List.mem_cons_self
  have hfit := h.wf.fits hm
  have hpool : (b.detach o a next).pool = b.pool.setList o ((b.pool.freeLists o).erase a) := by
    rw [show b.pool.freeLists o = a :: next from hlist, List.erase_cons_head]; rfl
  have hout : ∀ x, Covers a o x → ¬ (b.detach o a next).pool.FreeAt x := fun x hc => by
    rw [hpool, h.wf.freeAt_erase hm]
    exact fun hf => hf.2 hc
  have hdetached : (b.detach o a next).Tidy := by
    refine h.drop hpool List.erase_sublist (fun {o' a'} hm' => ?_) h.plain
    have hne : a' ≠ a := by
      rintro rfl
      exact hout a' (Block.covers_self _ _ _) ⟨o', a', hm', Block.covers_self _ _ _⟩
    exact Function.update_of_ne hne _ _
  have hsplit : (splitLoop order a o (b.detach o a next)).Tidy :=
    splitLoop_tidy hdetached hfit fun x hc => by
      rw [hdetached.availAt_iff]
      exact hout x hc
  exact hsplit.congr rfl rfl (setAt_plain (t := .data) hsplit.plain nofun _)

theorem allocLoop_tidy {os : List Nat} (h : b.Tidy) : (allocLoop order os b).2.Tidy := by
  induction os generalizing b with
  | nil => exact h
  | cons o os ih =>
    simp only [allocLoop]
    split
    · exact ih h
    next head next hlist =>
    split
    · have hdrop : (b.setFreeList o next).Tidy :=
        h.drop (o := o) rfl (hlist ▸ List.sublist_cons_self head next) (fun _ => rfl) h.plain
      split
      exacts [ih hdrop, hdrop]
    · exact takeBlock_tidy h hlist

theorem alloc_tidy (h : b.Tidy) : (b.alloc order).2.Tidy := allocLoop_tidy h

end Buddy

namespace System

variable {s : System} {regions : List (Nat × Nat)}

/-! ### Runs -/

/-- Calls of `alloc` and matching frees, and writes of the holders; no page-table page is asked
for. -/
def Plain (s : System) : Call → Prop
  | .allocZeroedPage => False
  | c => s.Matched c

instance (s : System) : ∀ c, Decidable (s.Plain c)
  | .alloc order => inferInstanceAs (Decidable (s.Matched (.alloc order)))
  | .allocZeroedPage => inferInstanceAs (Decidable False)
  | .free addr order => inferInstanceAs (Decidable (s.Matched (.free addr order)))
  | .store addr words => inferInstanceAs (Decidable (s.Matched (.store addr words)))

theorem Plain.matched {c : Call} (h : s.Plain c) : s.Matched c := by
  cases c with
  | allocZeroedPage => exact h.elim
  | _ => exact h

structure Orderly (s : System) : Prop extends Inv s where
  tidy : s.buddy.Tidy

theorem Orderly.boot {base pages : Nat} (hregions : RegionsOk base pages regions) :
    Orderly (boot base pages regions) := by
  refine ⟨Inv.boot hregions, (boot_fills hregions).tidy ?_⟩
  exact ⟨Pool.wf_empty base pages _, nofun, nofun, fun _ => nofun, rfl⟩

theorem grant_buddy (order : Nat) (held : List (Nat × Nat)) (r : Option Nat × Buddy) :
    (System.grant order held r).buddy = r.2 := by
  rcases r with ⟨_ | a, b⟩ <;> rfl

theorem Orderly.step (h : Orderly s) {c : Call} (hc : s.Plain c) : Orderly (s.step c) := by
  refine ⟨h.toInv.step (h.allowed_of_matched hc.matched), ?_⟩
  cases c with
  | alloc order =>
    rw [System.step, grant_buddy]
    exact Buddy.alloc_tidy h.tidy
  | allocZeroedPage => exact hc.elim
  | free a o => exact Buddy.free_tidy h.tidy (h.fits _ hc) (h.out _ hc)
  | store a words =>
    obtain ⟨k, hk, hcov⟩ := hc
    refine h.tidy.drop (o := 0) (Pool.setList_self _ 0).symm (List.Sublist.refl _)
      (fun {o' a'} hm => ?_) h.tidy.plain
    -- the page that is written is held, so no list has it
    have hne : a' ≠ a := by
      rintro rfl
      exact h.out k hk a' hcov (.inl ⟨o', a', hm, Block.covers_self _ _ _⟩)
    exact Function.update_of_ne hne _ _

theorem Orderly.keeps (h : Orderly s) (c : Call) : s.Keeps c := by
  cases c with
  | free a o => simp [Keeps, Buddy.drops, h.tidy.pageTypeGet_ne]
  | _ => trivial

theorem Orderly.run {calls : List Call} (h : Orderly s) (hcalls : Steps System.step Plain s calls) :
    Orderly (calls.foldl System.step s) :=
  hcalls.invariant (fun _ _ h hc => h.step hc) h

theorem kept_run {calls : List Call} (h : Orderly s) (hclosed : Closed regions s)
    (hcalls : Steps System.step Plain s calls) (x : Nat) :
    (calls.foldl System.step s).Kept x ↔ s.Kept x := by
  induction calls generalizing s with
  | nil => exact Iff.rfl
  | cons c cs ih =>
    have hm := hcalls.1.matched
    exact (ih (h.step hcalls.1) (hclosed.step hm) hcalls.2).trans
      (kept_step hclosed hm (h.keeps c))

theorem Orderly.kept_iff_covered (h : Orderly s) (hheld : s.held = []) (x : Nat) :
    s.Kept x ↔ Block.Covered pageShift (fun o a => a ∈ s.buddy.freeLists o) x := by
  have hnone : ¬ s.HeldAt x := by simp [HeldAt, hheld]
  rw [Kept, or_iff_left hnone, h.tidy.availAt_iff]
  exact Iff.rfl

/-- The free lists of `s`: aligned blocks inside the managed range, listed once, that do not
overlap, and never two buddies of an order below the greatest. -/
structure CanonicalLists (b : Buddy) : Prop where
  aligned : ∀ o a, a ∈ b.freeLists o → Buddy.blockSize o ∣ a
  inside : ∀ o a, a ∈ b.freeLists o → b.base ≤ a ∧ a + Buddy.blockSize o ≤ b.limit
  once : ∀ o, (b.freeLists o).Nodup
  apart : ∀ o a o' a', a ∈ b.freeLists o → a' ∈ b.freeLists o' → (o, a) ≠ (o', a') →
    Apart a o a' o'
  merged : ∀ o a, o < maxOrder → a ∈ b.freeLists o → a ^^^ Buddy.blockSize o ∉ b.freeLists o

theorem Orderly.canonicalLists (h : Orderly s) : CanonicalLists s.buddy := by
  refine ⟨fun o a hm => ?_, fun o a hm => ?_, h.wf.nodup, fun o a o' a' hm hm' hne => ?_,
    fun o a ho hm => ?_⟩
  · rw [Buddy.blockSize_eq]
    exact (h.wf.fits hm).aligned
  · rw [Buddy.blockSize_eq]
    exact ⟨(h.wf.fits hm).lower, (h.wf.fits hm).upper⟩
  · refine apart_of_not_covers fun x hc hc' => hne ?_
    obtain ⟨rfl, rfl⟩ := h.wf.exclusive hm hm' hc hc'
    rfl
  · rw [Buddy.blockSize_eq]
    exact h.tidy.merged ho hm

/-- In every state that a run of `alloc`s and matching frees reaches, the free lists are canonical.
When the run ends with every block freed, in whatever order, they list exactly the blocks that they
listed at boot; the managed range is one that `memory::init` sets up, of which the tables track
every page. -/
theorem free_lists_canonical {base pages : Nat} (hregions : RegionsOk base pages regions)
    {calls : List Call} (hcalls : Steps step Plain (boot base pages regions) calls) :
    CanonicalLists (calls.foldl step (boot base pages regions)).buddy ∧
    (base + pages * pageSize ≤ identityLimit →
      (calls.foldl step (boot base pages regions)).held = [] → ∀ o a,
        a ∈ (calls.foldl step (boot base pages regions)).buddy.freeLists o ↔
          a ∈ (boot base pages regions).buddy.freeLists o) := by
  have hboot := Orderly.boot hregions
  have hrun := hboot.run hcalls
  refine ⟨hrun.canonicalLists, fun hlimit hheld => ?_⟩
  have hpages : pages ≤ maxRefcPages := by
    simp only [identityLimit, pageSize, maxRefcPages] at hlimit ⊢
    omega
  refine hrun.tidy.canonical.unique hboot.tidy.canonical fun x => ?_
  rw [← hrun.kept_iff_covered hheld, ← hboot.kept_iff_covered rfl]
  exact kept_run hboot (Closed.boot hregions hpages) hcalls x

/-- Two pages out of a block of four, freed in the order in which they came: the block is whole
again. -/
theorem free_lists_canonical_two_pages :
    ∃ calls, Steps step Plain (boot 0x100000 4 [(0x100000, 0x4000)]) calls ∧ calls.length = 4 ∧
      0x100000 ∈
        (calls.foldl step (boot 0x100000 4 [(0x100000, 0x4000)])).buddy.freeLists 2 := by
  have hcalls : Steps step Plain (boot 0x100000 4 [(0x100000, 0x4000)])
      [.alloc 0, .alloc 0, .free 0x100000 0, .free 0x101000 0] := by
    decide
  refine ⟨_, hcalls, rfl, ?_⟩
  refine ((free_lists_canonical ⟨by decide, by decide, by decide, by decide⟩ hcalls).2 (by decide)
    (by decide) 2 0x100000).mpr ?_
  decide

end System

end Rynex.Memory
