import Rynex.Lib.Run
import Rynex.Memory.AllocSpec

/-! The allocator with its holders: the blocks that were handed out and not freed yet, under any
sequence of calls. `Inv` is the invariant of every reachable state. -/

namespace Rynex.Memory

open Rynex.Lib

/-- The allocator and the blocks handed out, as address and order. -/
structure System where
  buddy : Buddy
  held : List (Nat × Nat)

/-- A call of the allocator, or a holder writing the first words of a page it holds. -/
inductive Call where
  | alloc (order : Nat)
  | allocZeroedPage
  | free (addr order : Nat)
  | store (addr : Nat) (words : Header)
deriving Repr

namespace System

/-- The blocks that `held` lists after a request was answered. -/
def grant (order : Nat) (held : List (Nat × Nat)) : Option Nat × Buddy → System
  | (some addr, b) => ⟨b, (addr, order) :: held⟩
  | (none, b) => ⟨b, held⟩

def step (s : System) : Call → System
  | .alloc order => grant order s.held (s.buddy.alloc order)
  | .allocZeroedPage => grant 0 s.held s.buddy.allocZeroedPage
  | .free addr order => ⟨s.buddy.free addr order, s.held.erase (addr, order)⟩
  | .store addr words =>
    { s with buddy := { s.buddy with header := Function.update s.buddy.header addr words } }

/-- Frees are of page-aligned managed addresses, and a handed-out block is freed with its own
order; only a holder writes to a page. -/
def Allowed (s : System) : Call → Prop
  | .free addr order => addr % pageSize = 0 ∧ s.buddy.isManaged addr = true ∧
      ∀ h ∈ s.held, h.1 = addr → h.2 = order
  | .store addr _ => ∃ h ∈ s.held, Covers h.1 h.2 addr
  | _ => True

instance (s : System) : ∀ c, Decidable (s.Allowed c)
  | .alloc _ => inferInstanceAs (Decidable True)
  | .allocZeroedPage => inferInstanceAs (Decidable True)
  | .free _ _ => inferInstanceAs (Decidable (_ ∧ _ ∧ ∀ h ∈ s.held, _ → _))
  | .store addr _ => inferInstanceAs (Decidable (∃ h ∈ s.held, Covers h.1 h.2 addr))

/-- The allocator at boot: `init`, then `add_region` for each free region. -/
def boot (base pages : Nat) (regions : List (Nat × Nat)) : System where
  buddy := regions.foldl (fun b r => b.addRegion r.1 r.2) (Buddy.init base pages)
  held := []

/-- The regions lie in the managed range, start at a page and do not overlap. -/
structure RegionsOk (base pages : Nat) (regions : List (Nat × Nat)) : Prop where
  aligned : ∀ r ∈ regions, pageSize ∣ r.1
  lower : ∀ r ∈ regions, base ≤ r.1
  upper : ∀ r ∈ regions, r.1 + r.2 ≤ base + pages * pageSize
  disjoint : regions.Pairwise fun r r' => r.1 + r.2 ≤ r'.1 ∨ r'.1 + r'.2 ≤ r.1

/-- What holds of every reachable state. -/
structure Inv (s : System) : Prop where
  /-- The free blocks and the quarantined pages are well formed. -/
  wf : s.buddy.pool.Wf
  /-- A block that is held fits the managed range. -/
  fits : ∀ h ∈ s.held, Fits s.buddy.base s.buddy.limit h.1 h.2
  nonzero : ∀ h ∈ s.held, h.1 ≠ 0
  nodup : s.held.Nodup
  /-- No address has two holders. -/
  exclusive : ∀ h ∈ s.held, ∀ h' ∈ s.held, ∀ x, Covers h.1 h.2 x → Covers h'.1 h'.2 x → h = h'
  /-- What is held is not available. -/
  out : ∀ h ∈ s.held, ∀ x, Covers h.1 h.2 x → ¬ s.buddy.pool.AvailAt x
  /-- The used bit is set on the first page of a held block alone. -/
  usedHeld : ∀ i < maxRefcPages, s.buddy.tables.used i = true →
    ∃ h ∈ s.held, s.buddy.physToIdx h.1 = i
  /-- `free` accepts the blocks that are held. -/
  live : ∀ h ∈ s.held, s.buddy.physToIdx h.1 < maxRefcPages →
    s.buddy.tables.used (s.buddy.physToIdx h.1) = true ∧
    s.buddy.tables.freed (s.buddy.physToIdx h.1) = false ∧
    s.buddy.tables.pageType (s.buddy.physToIdx h.1) ≠ .free

/-! ### Steps -/

variable {s : System} {b' : Buddy} {a o : Nat}

theorem Inv.idx_ne (hi : Inv s) {h : Nat × Nat} (hh : h ∈ s.held) (ha : pageSize ∣ a)
    (hl : s.buddy.base ≤ a) (hne : h.1 ≠ a) : s.buddy.physToIdx h.1 ≠ s.buddy.physToIdx a :=
  fun he => hne (Buddy.physToIdx_inj (hi.fits h hh).page_dvd ha (hi.fits h hh).lower hl he)

/-- A granted block is added to the held ones. -/
theorem Inv.grant {t : PageType} (hi : Inv s) (hg : Buddy.Grants s.buddy b' a o)
    (hused : b'.tables.used = Buddy.setAt s.buddy.tables.used (s.buddy.physToIdx a) true)
    (hfreed : b'.tables.freed = Buddy.setAt s.buddy.tables.freed (s.buddy.physToIdx a) false)
    (htype : b'.tables.pageType = Buddy.setAt s.buddy.tables.pageType (s.buddy.physToIdx a) t)
    (ht : t ≠ .free) : Inv ⟨b', (a, o) :: s.held⟩ := by
  have hlimit : b'.limit = s.buddy.limit := by simp [Buddy.limit, hg.base, hg.pages]
  have hidx : ∀ p, b'.physToIdx p = s.buddy.physToIdx p := Buddy.physToIdx_congr hg.base
  have hapart : ∀ h ∈ s.held, ∀ x, Covers h.1 h.2 x → ¬ Covers a o x := fun h hh x hc hc' =>
    hi.out h hh x hc (hg.avail x hc')
  have hstart : ∀ h ∈ s.held, h.1 ≠ a := fun h hh he =>
    hapart h hh h.1 (Block.covers_self _ _ _) (he ▸ Block.covers_self _ _ _)
  have hother : ∀ h ∈ s.held, s.buddy.physToIdx h.1 ≠ s.buddy.physToIdx a := fun h hh =>
    hi.idx_ne hh hg.fits.page_dvd hg.fits.lower (hstart h hh)
  constructor
  case wf => exact hg.wf
  case fits =>
    rintro h hh
    rw [hg.base, hlimit]
    rcases List.mem_cons.mp hh with rfl | hh
    exacts [hg.fits, hi.fits h hh]
  case nonzero =>
    rintro h hh
    rcases List.mem_cons.mp hh with rfl | hh
    exacts [hg.nonzero, hi.nonzero h hh]
  case nodup =>
    exact List.nodup_cons.mpr ⟨fun hh => hstart _ hh rfl, hi.nodup⟩
  case exclusive =>
    rintro h hh h' hh' x hc hc'
    rcases List.mem_cons.mp hh with rfl | hh <;> rcases List.mem_cons.mp hh' with rfl | hh'
    · rfl
    · exact absurd hc (hapart h' hh' x hc')
    · exact absurd hc' (hapart h hh x hc)
    · exact hi.exclusive h hh h' hh' x hc hc'
  case out =>
    rintro h hh x hc hav
    rcases List.mem_cons.mp hh with rfl | hh
    · exact (hg.sub x hav).2 hc
    · exact hi.out h hh x hc (hg.sub x hav).1
  case usedHeld =>
    intro i hlt hu
    by_cases hia : i = s.buddy.physToIdx a
    · exact ⟨(a, o), List.mem_cons_self, by rw [hidx, hia]⟩
    · rw [hused, Buddy.setAt_ne hia] at hu
      obtain ⟨h, hh, he⟩ := hi.usedHeld i hlt hu
      exact ⟨h, List.mem_cons_of_mem _ hh, by rw [hidx, he]⟩
  case live =>
    rintro h hh hlt
    rw [hidx] at hlt ⊢
    rw [hused, hfreed, htype]
    rcases List.mem_cons.mp hh with rfl | hh
    · simp [Buddy.setAt_self hlt, ht]
    · simpa [Buddy.setAt_ne (hother h hh)] using hi.live h hh hlt

theorem Inv.refuse {os : List Nat} (hi : Inv s) (hr : Buddy.Refuses s.buddy b' os) :
    Inv ⟨b', s.held⟩ := by
  have hlimit : b'.limit = s.buddy.limit := by simp [Buddy.limit, hr.base, hr.pages]
  have hidx : ∀ p, b'.physToIdx p = s.buddy.physToIdx p := Buddy.physToIdx_congr hr.base
  constructor
  case wf => exact hr.wf
  case fits => simpa only [hr.base, hlimit] using hi.fits
  case nonzero => exact hi.nonzero
  case nodup => exact hi.nodup
  case exclusive => exact hi.exclusive
  case out => exact fun h hh x hc hav => hi.out h hh x hc (hr.sub x hav)
  case usedHeld => simpa only [hr.tables, hidx] using hi.usedHeld
  case live => simpa only [hr.tables, hidx] using hi.live

theorem Inv.held_of_accepts (hi : Inv s) (ha : pageSize ∣ a) (hl : s.buddy.base ≤ a)
    (hacc : s.buddy.accepts a = true) : ∃ o, (a, o) ∈ s.held := by
  simp only [Buddy.accepts, Buddy.usedSet, Buddy.pageIndex_eq hl, Bool.and_eq_true,
    decide_eq_true_eq] at hacc
  obtain ⟨h, hh, he⟩ := hi.usedHeld _ hacc.1.2.1 hacc.1.2.2
  obtain rfl : h.1 = a := by
    by_contra hne
    exact hi.idx_ne hh ha hl hne he
  exact ⟨h.2, hh⟩

theorem Inv.accepts_of_held (hi : Inv s) (hh : (a, o) ∈ s.held)
    (hlt : s.buddy.physToIdx a < maxRefcPages) : s.buddy.accepts a = true := by
  obtain ⟨hused, hfreed, htype⟩ := hi.live _ hh hlt
  have hl : s.buddy.base ≤ a := (hi.fits _ hh).lower
  simp only [Buddy.tables] at hused hfreed htype
  simp [Buddy.accepts, Buddy.trackFreedPage, Buddy.usedSet, Buddy.pageIndex_eq hl,
    Buddy.pageTypeGet, hlt, hused, hfreed, htype]

/-- A block leaves the held ones: only its own addresses may become available, its used bit is
cleared, and the tables change at its own index alone. -/
theorem Inv.drop (hi : Inv s) (ha : pageSize ∣ a) (hl : s.buddy.base ≤ a)
    (hown : ∀ h ∈ s.held, h.1 = a → h.2 = o) (hwf : b'.pool.Wf) (hbase : b'.base = s.buddy.base)
    (hpages : b'.pages = s.buddy.pages)
    (hsub : ∀ x, b'.pool.AvailAt x → s.buddy.pool.AvailAt x ∨ (a, o) ∈ s.held ∧ Covers a o x)
    (hused : ∀ i < maxRefcPages, b'.tables.used i = true → s.buddy.tables.used i = true ∧
      (i = s.buddy.physToIdx a → (a, o) ∉ s.held))
    (hother : ∀ i, i ≠ s.buddy.physToIdx a → b'.tables.used i = s.buddy.tables.used i ∧
      b'.tables.freed i = s.buddy.tables.freed i ∧
      b'.tables.pageType i = s.buddy.tables.pageType i) :
    Inv ⟨b', s.held.erase (a, o)⟩ := by
  have hlimit : b'.limit = s.buddy.limit := by simp [Buddy.limit, hbase, hpages]
  have hphys : ∀ p, b'.physToIdx p = s.buddy.physToIdx p := Buddy.physToIdx_congr hbase
  -- what stays held starts at another page
  have hrest : ∀ h ∈ s.held.erase (a, o), h ∈ s.held ∧ h.1 ≠ a := fun h hh => by
    obtain ⟨hne, hh⟩ := (hi.nodup.mem_erase_iff).mp hh
    exact ⟨hh, fun he => hne (Prod.ext he (hown h hh he))⟩
  constructor
  case wf => exact hwf
  case fits =>
    intro h hh
    rw [hbase, hlimit]
    exact hi.fits h (hrest h hh).1
  case nonzero => exact fun h hh => hi.nonzero h (hrest h hh).1
  case nodup => exact hi.nodup.erase _
  case exclusive =>
    exact fun h hh h' hh' => hi.exclusive h (hrest h hh).1 h' (hrest h' hh').1
  case out =>
    intro h hh x hc hav
    rcases hsub x hav with hav | ⟨hheld, hc'⟩
    · exact hi.out h (hrest h hh).1 x hc hav
    · exact (hrest h hh).2 (congrArg Prod.fst (hi.exclusive h (hrest h hh).1 _ hheld x hc hc'))
  case usedHeld =>
    intro i hlt hu
    obtain ⟨hu, hnot⟩ := hused i hlt hu
    obtain ⟨h, hh, rfl⟩ := hi.usedHeld i hlt hu
    refine ⟨h, (hi.nodup.mem_erase_iff).mpr ⟨?_, hh⟩, hphys h.1⟩
    rintro rfl
    exact hnot rfl hh
  case live =>
    intro h hh hlt
    obtain ⟨hh, hne⟩ := hrest h hh
    rw [hphys] at hlt ⊢
    obtain ⟨hu, hf, ht⟩ := hother _ (hi.idx_ne hh ha hl hne)
    rw [hu, hf, ht]
    exact hi.live h hh hlt

theorem Inv.free (hi : Inv s) (hallow : s.Allowed (.free a o)) : Inv (s.step (.free a o)) := by
  obtain ⟨hmod, hman, hown⟩ := hallow
  have ha : pageSize ∣ a := Nat.dvd_of_mod_eq_zero hmod
  have hl : s.buddy.base ≤ a := by
    simp only [Buddy.isManaged, Bool.and_eq_true, decide_eq_true_eq] at hman
    exact hman.1
  by_cases hacc : s.buddy.accepts a = true
  · obtain ⟨o', hheld⟩ := hi.held_of_accepts ha hl hacc
    obtain rfl : o' = o := hown _ hheld rfl
    have hnz : a ≠ 0 := hi.nonzero _ hheld
    obtain ⟨hwf, hbase, hpages, hsub⟩ := Buddy.free_accepted_sub hi.wf hnz (hi.fits _ hheld)
      (hi.out _ hheld) hacc
    have htab := (Buddy.free_accepted hi.wf hnz (hi.fits _ hheld) (hi.out _ hheld) hacc).2
    refine hi.drop ha hl hown hwf hbase hpages (fun x hx => (hsub x hx).imp_right (⟨hheld, ·⟩))
      (fun i hlt hu => ?_) fun i hne => ?_
    · rw [htab] at hu
      by_cases hia : i = s.buddy.physToIdx a
      · subst hia
        simp [Buddy.tablesReleased, Buddy.setAt_self hlt] at hu
      · simp only [Buddy.tablesReleased, Buddy.setAt_ne hia] at hu
        exact ⟨hu, fun he => absurd he hia⟩
    · simp [htab, Buddy.tablesReleased, Buddy.setAt_ne hne]
  · obtain ⟨hpool, res, -, htab⟩ := Buddy.free_of_not_accepts o (Bool.not_eq_true _ ▸ hacc)
    refine hi.drop ha hl hown (hpool ▸ hi.wf) (congrArg Pool.base hpool)
      (congrArg Pool.pages hpool) (fun x hx => .inl (hpool ▸ hx)) (fun i hlt hu => ?_)
      fun i hne => ?_
    · rw [htab] at hu
      exact ⟨hu, fun he hheld => hacc (hi.accepts_of_held hheld (he ▸ hlt))⟩
    · simp [htab, Buddy.setAt_ne hne]

theorem Inv.step (hi : Inv s) {c : Call} (hallow : s.Allowed c) : Inv (s.step c) := by
  cases c with
  | alloc order =>
    rcases h : s.buddy.alloc order with ⟨_ | a, b'⟩
    · simpa [System.step, h, System.grant] using hi.refuse (Buddy.alloc_none hi.wf h)
    · obtain ⟨hg, ht⟩ := Buddy.alloc_some hi.wf h
      simpa [System.step, h, System.grant] using
        hi.grant (t := .data) hg (by rw [ht]; rfl) (by rw [ht]; rfl) (by rw [ht]; rfl) (by decide)
  | allocZeroedPage =>
    rcases h : s.buddy.allocZeroedPage with ⟨_ | a, b'⟩
    · simpa [System.step, h, System.grant] using hi.refuse (Buddy.allocZeroedPage_none hi.wf h).2
    · obtain ⟨hg, v, -, ht⟩ := Buddy.allocZeroedPage_some hi.wf h
      simpa [System.step, h, System.grant] using
        hi.grant (t := .pte) hg (by rw [ht]; rfl) (by rw [ht]; rfl) (by rw [ht]; rfl) (by decide)
  | free a o => exact hi.free hallow
  | store a w => exact { hi with }

/-! ### Boot -/

/-- The whole pages of a region. -/
def InRegion (r : Nat × Nat) (x : Nat) : Prop :=
  r.1 ≤ x ∧ x < r.1 + r.2 / pageSize * pageSize

theorem InRegion.lt {r : Nat × Nat} {x : Nat} (h : InRegion r x) : x < r.1 + r.2 :=
  h.2.trans_le (Nat.add_le_add_left (Nat.div_mul_le_self _ _) _)

/-- Adding regions that do not overlap makes exactly their pages available. -/
theorem addRegions_fills {regions : List (Nat × Nat)} {b : Buddy} (hwf : b.pool.Wf)
    (hok : RegionsOk b.base b.pages regions)
    (hnew : ∀ r ∈ regions, ∀ x, InRegion r x → ¬ b.pool.AvailAt x) :
    Buddy.Fills b (regions.foldl (fun b r => b.addRegion r.1 r.2) b)
      fun x => ∃ r ∈ regions, InRegion r x := by
  induction regions generalizing b with
  | nil => exact .nil (by simp)
  | cons r rs ih =>
    obtain ⟨hdis, hdis'⟩ := List.pairwise_cons.mp hok.disjoint
    have hfills : Buddy.Fills b (b.addRegion r.1 r.2) (InRegion r) :=
      Buddy.addRegion_fills hwf (hok.aligned r List.mem_cons_self) (hok.lower r List.mem_cons_self)
        (hok.upper r List.mem_cons_self) (hnew r List.mem_cons_self)
    have hfirst := hfills.gains hwf
    refine hfills.trans (ih hfirst.wf ?_ fun r' hr' x hx => ?_) (by simp)
    · rw [hfirst.base, hfirst.pages]
      exact ⟨fun r' h => hok.aligned r' (List.mem_cons_of_mem _ h),
        fun r' h => hok.lower r' (List.mem_cons_of_mem _ h),
        fun r' h => hok.upper r' (List.mem_cons_of_mem _ h), hdis'⟩
    · -- the first region made only its own pages available
      refine hfirst.not_avail (hnew r' (List.mem_cons_of_mem _ hr') x hx) fun hr => ?_
      have := hdis r' hr'
      have := hx.1
      have := hr.1
      have := hx.lt
      have := hr.lt
      omega

theorem boot_fills {base pages : Nat} {regions : List (Nat × Nat)}
    (hok : RegionsOk base pages regions) :
    Buddy.Fills (Buddy.init base pages) (boot base pages regions).buddy
      fun x => ∃ r ∈ regions, InRegion r x := by
  refine addRegions_fills (Pool.wf_empty base pages _) hok fun r _ x _ => ?_
  simp [Pool.AvailAt, Pool.FreeAt, Pool.WaitingAt, Pool.qContents, Buddy.pool, Buddy.init]

theorem boot_gains {base pages : Nat} {regions : List (Nat × Nat)}
    (hok : RegionsOk base pages regions) :
    Buddy.Gains (Buddy.init base pages) (boot base pages regions).buddy
      fun x => ∃ r ∈ regions, InRegion r x :=
  (boot_fills hok).gains (Pool.wf_empty base pages _)

theorem Inv.boot {base pages : Nat} {regions : List (Nat × Nat)}
    (hok : RegionsOk base pages regions) : Inv (boot base pages regions) := by
  have hg := boot_gains hok
  constructor
  case wf => exact hg.wf
  case usedHeld =>
    intro i _ hu
    rw [hg.tables] at hu
    cases hu
  all_goals simp [System.boot]

/-! ### Every run -/

/-- Two blocks that share no byte. -/
def Apart (a o a' o' : Nat) : Prop :=
  a + Buddy.blockSize o ≤ a' ∨ a' + Buddy.blockSize o' ≤ a

theorem apart_of_not_covers {a' o' : Nat} (h : ∀ x, Covers a o x → ¬ Covers a' o' x) :
    Apart a o a' o' := by
  have hpos := Block.size_pos pageShift o
  have hpos' := Block.size_pos pageShift o'
  have hmax := h (max a a')
  simp only [Block.Covers] at hmax
  simp only [Apart, Buddy.blockSize_eq]
  omega

/-- The blocks handed out are aligned to their size, lie in the managed range, and share no byte
with each other, with a free block or with a page in the quarantine. -/
structure NoSharing (s : System) : Prop where
  aligned : ∀ h ∈ s.held, Buddy.blockSize h.2 ∣ h.1
  managed : ∀ h ∈ s.held, s.buddy.base ≤ h.1 ∧
    h.1 + Buddy.blockSize h.2 ≤ s.buddy.base + s.buddy.pages * pageSize
  held : s.held.Pairwise fun h h' => Apart h.1 h.2 h'.1 h'.2
  free : ∀ h ∈ s.held, ∀ o, ∀ a ∈ s.buddy.freeLists o, Apart h.1 h.2 a o
  quarantine : ∀ h ∈ s.held, ∀ p ∈ s.buddy.pool.qContents, Apart h.1 h.2 p 0

theorem Inv.noSharing (hi : Inv s) : NoSharing s where
  aligned h hh := Buddy.blockSize_eq h.2 ▸ (hi.fits h hh).aligned
  managed h hh := ⟨(hi.fits h hh).lower, Buddy.blockSize_eq h.2 ▸ (hi.fits h hh).upper⟩
  held := (List.Pairwise.and_mem.mp hi.nodup).imp fun ⟨hh, hh', hne⟩ =>
    apart_of_not_covers fun x hc hc' => hne (hi.exclusive _ hh _ hh' x hc hc')
  free h hh o a hm := apart_of_not_covers fun x hc hc' =>
    hi.out h hh x hc (.inl ⟨o, a, hm, hc'⟩)
  quarantine h hh p hm := apart_of_not_covers fun x hc hc' =>
    hi.out h hh x hc (.inr ⟨p, hm, hc'⟩)

theorem Inv.run {calls : List Call} (hi : Inv s) (h : Steps System.step Allowed s calls) :
    Inv (calls.foldl System.step s) :=
  h.invariant (fun _ _ hi hallow => hi.step hallow) hi

/-- From boot with any free regions and under any sequence of calls, the allocator never gives a
page to two holders. -/
theorem allocator_never_shares {base pages : Nat} {regions : List (Nat × Nat)}
    (hregions : RegionsOk base pages regions) {calls : List Call}
    (hcalls : Steps step Allowed (boot base pages regions) calls) :
    NoSharing (calls.foldl step (boot base pages regions)) :=
  ((Inv.boot hregions).run hcalls).noSharing

/-- Four pages at 1 MiB: a block of two is handed out, its second page is freed at another order
while it is held, a zeroed page is handed out, and the block is freed twice. -/
theorem allocator_never_shares_four_pages :
    NoSharing ([.alloc 1, .free 0x101000 3, .allocZeroedPage, .free 0x100000 1, .free 0x100000 1,
      .alloc 0].foldl step (boot 0x100000 4 [(0x100000, 0x4000)])) :=
  allocator_never_shares ⟨by decide, by decide, by decide, by decide⟩ (by decide +kernel)

end System

end Rynex.Memory
