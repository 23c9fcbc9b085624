import Rynex.Memory.Holders

/-! Conservation of pages: where each page that was given to the allocator lies, over whole runs
of allocations and matching frees. A page-table page that is freed while its count is above one
goes nowhere, and this is the only way in which a page is lost. -/

namespace Rynex.Memory.System

open Rynex.Lib

variable {s : System} {regions : List (Nat × Nat)} {a o x : Nat}

/-- The free regions cover `x` with a whole page. -/
def Given (regions : List (Nat × Nat)) (x : Nat) : Prop := ∃ r ∈ regions, InRegion r x

/-- A block that was handed out covers `x`. -/
def HeldAt (s : System) (x : Nat) : Prop := ∃ h ∈ s.held, Covers h.1 h.2 x

/-- `x` is available or held. -/
def Kept (s : System) (x : Nat) : Prop := s.buddy.pool.AvailAt x ∨ s.HeldAt x

/-- Each free is of a block that was handed out and not freed since, with its own order. -/
def Matched (s : System) : Call → Prop
  | .free addr order => (addr, order) ∈ s.held
  | c => s.Allowed c

/-- No free is of a page-table page whose count is above one. -/
def Keeps (s : System) : Call → Prop
  | .free addr order => s.buddy.drops addr order = false
  | _ => True

instance (s : System) : ∀ c, Decidable (s.Matched c)
  | .alloc _ => inferInstanceAs (Decidable True)
  | .allocZeroedPage => inferInstanceAs (Decidable True)
  | .free addr order => inferInstanceAs (Decidable ((addr, order) ∈ s.held))
  | .store addr words => inferInstanceAs (Decidable (s.Allowed (.store addr words)))

instance (s : System) : ∀ c, Decidable (s.Keeps c)
  | .alloc _ => inferInstanceAs (Decidable True)
  | .allocZeroedPage => inferInstanceAs (Decidable True)
  | .free addr order => inferInstanceAs (Decidable (s.buddy.drops addr order = false))
  | .store _ _ => inferInstanceAs (Decidable True)

/-- The invariant of runs with matching frees: nothing is reserved, every page is tracked, and
only pages that were given are available or held. -/
structure Closed (regions : List (Nat × Nat)) (s : System) : Prop extends Inv s where
  reserved : s.buddy.reserved = []
  tracked : s.buddy.pages ≤ maxRefcPages
  given : ∀ x, s.Kept x → Given regions x

/-- Every page that was given is available or held. -/
def Full (regions : List (Nat × Nat)) (s : System) : Prop := ∀ x, Given regions x → s.Kept x

theorem Inv.allowed_of_matched (hi : Inv s) {c : Call} (hm : s.Matched c) : s.Allowed c := by
  cases c with
  | free a o =>
    have hfit := hi.fits _ hm
    refine ⟨Nat.mod_eq_zero_of_dvd hfit.page_dvd, Buddy.isManaged_of_fits hfit,
      fun h hh he => ?_⟩
    have hself : Covers h.1 h.2 h.1 := Block.covers_self _ _ _
    have hsame := hi.exclusive h hh (a, o) hm a (he ▸ hself) (Block.covers_self _ _ _)
    rw [hsame]
  | alloc _ => exact hm
  | allocZeroedPage => exact hm
  | store _ _ => exact hm

theorem Closed.accepts (hc : Closed regions s) (hh : (a, o) ∈ s.held) :
    s.buddy.accepts a = true := by
  have hfit := hc.fits _ hh
  have hup : a + Block.size pageShift o ≤ s.buddy.base + s.buddy.pages * pageSize := hfit.upper
  have hsize := pageSize_le_size o
  have hlow : s.buddy.base ≤ a := hfit.lower
  have htracked := hc.tracked
  refine hc.accepts_of_held hh ?_
  simp only [Buddy.physToIdx, Nat.not_lt.mpr hlow, if_false, Nat.shiftRight_eq_div_pow]
  simp only [pageSize] at *
  omega

/-! ### What one call does to the pages that are accounted for -/

theorem kept_grant {b' : Buddy} (hres : s.buddy.reserved = [])
    (hg : Buddy.Grants s.buddy b' a o) : Kept ⟨b', (a, o) :: s.held⟩ x ↔ s.Kept x := by
  constructor
  · rintro (hav | ⟨h, hh, hcov⟩)
    · exact .inl (hg.sub x hav).1
    · rcases List.mem_cons.mp hh with rfl | hh
      exacts [.inl (hg.avail x hcov), .inr ⟨h, hh, hcov⟩]
  · rintro (hav | ⟨h, hh, hcov⟩)
    · by_cases hcov : Covers a o x
      exacts [.inr ⟨(a, o), List.mem_cons_self, hcov⟩, .inl (hg.sup hres x hav hcov)]
    · exact .inr ⟨h, List.mem_cons_of_mem _ hh, hcov⟩

theorem kept_free (hc : Closed regions s) (hh : (a, o) ∈ s.held)
    (hkeep : s.buddy.drops a o = false) : (s.step (.free a o)).Kept x ↔ s.Kept x := by
  have hret := Buddy.free_returns hc.wf (hc.nonzero _ hh) (hc.fits _ hh) (hc.out _ hh)
    (hc.accepts hh) hkeep
  constructor
  · rintro (hav | ⟨h, hmem, hcov⟩)
    · exact (hret.sub x hav).imp_right fun hcov => ⟨(a, o), hh, hcov⟩
    · exact .inr ⟨h, List.mem_of_mem_erase hmem, hcov⟩
  · rintro (hav | ⟨h, hmem, hcov⟩)
    · exact .inl (hret.sup hc.reserved x (.inl hav))
    · by_cases he : h = (a, o)
      · subst he
        exact .inl (hret.sup hc.reserved x (.inr hcov))
      · exact .inr ⟨h, (hc.nodup.mem_erase_iff).mpr ⟨he, hmem⟩, hcov⟩

theorem kept_free_dropped (hc : Closed regions s) (hh : (a, o) ∈ s.held)
    (hdrop : s.buddy.drops a o = true) :
    (s.step (.free a o)).Kept x ↔ s.Kept x ∧ ¬ Covers a o x := by
  have hpool := Buddy.free_drops hc.wf (hc.nonzero _ hh) (hc.fits _ hh) (hc.out _ hh)
    (hc.accepts hh) hdrop
  have hav : (s.step (.free a o)).buddy.pool.AvailAt x ↔ s.buddy.pool.AvailAt x := by
    change (s.buddy.free a o).pool.AvailAt x ↔ _
    rw [hpool]
  constructor
  · rintro (h | ⟨h, hmem, hcov⟩)
    · have h := hav.mp h
      exact ⟨.inl h, fun hcov => hc.out _ hh x hcov h⟩
    · obtain ⟨hne, hmem⟩ := (hc.nodup.mem_erase_iff).mp hmem
      exact ⟨.inr ⟨h, hmem, hcov⟩, fun hcov' => hne (hc.exclusive h hmem _ hh x hcov hcov')⟩
  · rintro ⟨h | ⟨h, hmem, hcov⟩, hnot⟩
    · exact .inl (hav.mpr h)
    · refine .inr ⟨h, (hc.nodup.mem_erase_iff).mpr ⟨?_, hmem⟩, hcov⟩
      rintro rfl
      exact hnot hcov

theorem kept_step (hc : Closed regions s) {c : Call} (hm : s.Matched c) (hk : s.Keeps c) :
    (s.step c).Kept x ↔ s.Kept x := by
  cases c with
  | alloc order =>
    rcases h : s.buddy.alloc order with ⟨_ | a, b'⟩
    · simp [step, h, grant, (Buddy.alloc_none hc.wf h).same hc.reserved, Kept, HeldAt]
    · simpa [step, h, grant] using kept_grant hc.reserved (Buddy.alloc_some hc.wf h).1
  | allocZeroedPage =>
    rcases h : s.buddy.allocZeroedPage with ⟨_ | a, b'⟩
    · simp [step, h, grant, (Buddy.allocZeroedPage_none hc.wf h).2.same hc.reserved, Kept, HeldAt]
    · simpa [step, h, grant] using kept_grant hc.reserved (Buddy.allocZeroedPage_some hc.wf h).1
  | free a o => exact kept_free hc hm hk
  | store a w => exact Iff.rfl

theorem kept_of_step (hc : Closed regions s) {c : Call} (hm : s.Matched c)
    (h : (s.step c).Kept x) : s.Kept x := by
  by_cases hk : s.Keeps c
  · exact (kept_step hc hm hk).mp h
  · cases c with
    | free a o => exact ((kept_free_dropped hc hm (by simpa [Keeps] using hk)).mp h).1
    | _ => exact absurd trivial hk

theorem reserved_step (hc : Closed regions s) {c : Call} (hm : s.Matched c) :
    (s.step c).buddy.reserved = [] ∧ (s.step c).buddy.pages = s.buddy.pages := by
  have hres : s.buddy.tables.reserved = [] := hc.reserved
  cases c with
  | alloc order =>
    rcases h : s.buddy.alloc order with ⟨_ | a, b'⟩
    · simp [step, h, grant, (Buddy.alloc_none hc.wf h).same hc.reserved, hc.reserved]
    · obtain ⟨hg, ht⟩ := Buddy.alloc_some hc.wf h
      have hnil : b'.reserved = [] := (congrArg Buddy.Tables.reserved ht).trans hres
      simp [step, h, grant, hg.pages, hnil]
  | allocZeroedPage =>
    rcases h : s.buddy.allocZeroedPage with ⟨_ | a, b'⟩
    · simp [step, h, grant, (Buddy.allocZeroedPage_none hc.wf h).2.same hc.reserved, hc.reserved]
    · obtain ⟨hg, v, -, ht⟩ := Buddy.allocZeroedPage_some hc.wf h
      have hnil : b'.reserved = [] := (congrArg Buddy.Tables.reserved ht).trans hres
      simp [step, h, grant, hg.pages, hnil]
  | free a o =>
    have hfree := Buddy.free_accepted hc.wf (hc.nonzero _ hm) (hc.fits _ hm) (hc.out _ hm)
      (hc.accepts hm)
    have hpages := (Buddy.free_accepted_sub hc.wf (hc.nonzero _ hm) (hc.fits _ hm) (hc.out _ hm)
      (hc.accepts hm)).2.2.1
    have hnil : (s.buddy.free a o).reserved = s.buddy.tables.reserved.erase a :=
      congrArg Buddy.Tables.reserved hfree.2
    exact ⟨hnil.trans (by simp [hres]), hpages⟩
  | store a w => exact ⟨hc.reserved, rfl⟩

theorem Closed.step (hc : Closed regions s) {c : Call} (hm : s.Matched c) :
    Closed regions (s.step c) := by
  obtain ⟨hres, hpages⟩ := reserved_step hc hm
  exact ⟨hc.toInv.step (hc.allowed_of_matched hm), hres, hpages ▸ hc.tracked,
    fun x hx => hc.given x (kept_of_step hc hm hx)⟩

/-! ### Conservation -/

/-- Where an address of the managed memory may lie. -/
inductive Place where
  | free (order addr : Nat)
  | quarantine (addr : Nat)
  | held (addr order : Nat)

def Lies (s : System) (x : Nat) : Place → Prop
  | .free order addr => addr ∈ s.buddy.freeLists order ∧ Covers addr order x
  | .quarantine addr => addr ∈ s.buddy.pool.qContents ∧ Covers addr 0 x
  | .held addr order => (addr, order) ∈ s.held ∧ Covers addr order x

/-- Every page that was given lies in exactly one place, and some number of requests hands it out
if it is not held. -/
structure Conserved (regions : List (Nat × Nat)) (s : System) : Prop where
  unique : ∀ x, Given regions x → ∃! place, s.Lies x place
  obtainable : ∀ x, Given regions x →
    ∃ n, ((List.replicate n Call.allocZeroedPage).foldl step s).HeldAt x

theorem kept_iff_lies : s.Kept x ↔ ∃ place, s.Lies x place := by
  constructor
  · rintro ((⟨o, a, hm, hc⟩ | ⟨p, hm, hc⟩) | ⟨h, hm, hc⟩)
    exacts [⟨.free o a, hm, hc⟩, ⟨.quarantine p, hm, hc⟩, ⟨.held h.1 h.2, hm, hc⟩]
  · rintro ⟨place, hl⟩
    cases place with
    | free o a => exact .inl (.inl ⟨o, a, hl⟩)
    | quarantine p => exact .inl (.inr ⟨p, hl⟩)
    | held a o => exact .inr ⟨(a, o), hl⟩

theorem Inv.lies_unique (hi : Inv s) {p q : Place} (hp : s.Lies x p) (hq : s.Lies x q) :
    p = q := by
  have hfree : ∀ {o a}, s.Lies x (.free o a) → s.buddy.pool.FreeAt x := fun h => ⟨_, _, h⟩
  have hwait : ∀ {a}, s.Lies x (.quarantine a) → s.buddy.pool.WaitingAt x := fun h => ⟨_, h⟩
  cases p with
  | free o a =>
    cases q with
    | free o' a' =>
      obtain ⟨rfl, rfl⟩ := hi.wf.exclusive hp.1 hq.1 hp.2 hq.2
      rfl
    | quarantine a' => exact absurd (hfree hp) (hi.wf.qFree (hwait hq))
    | held a' o' => exact absurd (.inl (hfree hp)) (hi.out _ hq.1 x hq.2)
  | quarantine a =>
    cases q with
    | free o' a' => exact absurd (hfree hq) (hi.wf.qFree (hwait hp))
    | quarantine a' =>
      rw [Block.covers_unique (hi.wf.qFits hp.1).aligned (hi.wf.qFits hq.1).aligned hp.2 hq.2]
    | held a' o' => exact absurd (.inr (hwait hp)) (hi.out _ hq.1 x hq.2)
  | held a o =>
    cases q with
    | free o' a' => exact absurd (.inl (hfree hq)) (hi.out _ hp.1 x hp.2)
    | quarantine a' => exact absurd (.inr (hwait hq)) (hi.out _ hp.1 x hp.2)
    | held a' o' => cases hi.exclusive _ hp.1 _ hq.1 x hp.2 hq.2; rfl

open Classical in
/-- The number of bytes that the allocator may hand out. -/
noncomputable def availBytes (b : Buddy) : Nat :=
  ((Finset.range b.limit).filter fun x => b.pool.AvailAt x).card

open Classical in
theorem availBytes_grant {b b' : Buddy} (hwf : b.pool.Wf) (hg : Buddy.Grants b b' a o) :
    availBytes b' < availBytes b := by
  have hlimit : b'.limit = b.limit := by simp [Buddy.limit, hg.base, hg.pages]
  have hav : b.pool.AvailAt a := hg.avail a (Block.covers_self _ _ _)
  refine Finset.card_lt_card ⟨fun x hx => ?_, fun hsub => ?_⟩
  · rw [Finset.mem_filter, hlimit] at hx
    exact Finset.mem_filter.mpr ⟨hx.1, (hg.sub x hx.2).1⟩
  · have hmem := hsub (Finset.mem_filter.mpr ⟨Finset.mem_range.mpr (hwf.availAt_lt hav), hav⟩)
    exact (hg.sub a (Finset.mem_filter.mp hmem).2).2 (Block.covers_self _ _ _)

theorem Closed.alloc_of_avail (hc : Closed regions s) (hav : s.buddy.pool.AvailAt x) :
    ∃ a b', s.buddy.allocZeroedPage = (some a, b') := by
  rcases h : s.buddy.allocZeroedPage with ⟨_ | a, b'⟩
  · obtain ⟨hcount, hr⟩ := Buddy.allocZeroedPage_none hc.wf h
    rcases hav with ⟨o, a, hm, hcov⟩ | ⟨p, hm, hcov⟩
    · have hle := (hc.wf.fits hm).order_le
      have hnil := hr.empty hc.reserved o (List.mem_range'_1.mpr ⟨Nat.zero_le o, by omega⟩)
      exact absurd hm (by simp [Buddy.pool, hnil])
    · exact absurd hm (by simp [Pool.qContents, Buddy.pool, hcount])
  · exact ⟨a, b', rfl⟩

theorem Closed.obtainable (hc : Closed regions s) (hx : s.Kept x) :
    ∃ n, ((List.replicate n Call.allocZeroedPage).foldl System.step s).HeldAt x := by
  -- each request that is met takes bytes, so the requests cannot go on for ever
  induction hn : availBytes s.buddy using Nat.strong_induction_on generalizing s with
  | _ n ih =>
    rcases hx with hav | hheld
    · obtain ⟨a, b', h⟩ := hc.alloc_of_avail hav
      have hg := (Buddy.allocZeroedPage_some hc.wf h).1
      have hstep : s.step .allocZeroedPage = ⟨b', (a, 0) :: s.held⟩ := by
        simp [System.step, h, grant]
      have hm : s.Matched .allocZeroedPage := trivial
      have hkept := (kept_step hc hm trivial).mpr (.inl hav)
      obtain ⟨k, hk⟩ := ih _ (by rw [hstep, ← hn]; exact availBytes_grant hc.wf hg)
        (hc.step hm) hkept rfl
      exact ⟨k + 1, hk⟩
    · exact ⟨0, hheld⟩

theorem Closed.conserved_iff (hc : Closed regions s) : Conserved regions s ↔ Full regions s := by
  constructor
  · intro h x hx
    obtain ⟨place, hl, -⟩ := h.unique x hx
    exact kept_iff_lies.mpr ⟨place, hl⟩
  · intro h
    refine ⟨fun x hx => ?_, fun x hx => hc.obtainable (h x hx)⟩
    obtain ⟨place, hl⟩ := kept_iff_lies.mp (h x hx)
    exact ⟨place, hl, fun q hq => hc.lies_unique hq hl⟩

/-! ### Whole runs -/

theorem Full.step (hc : Closed regions s) (hf : Full regions s) {c : Call} (hm : s.Matched c)
    (hk : s.Keeps c) : Full regions (s.step c) :=
  fun x hx => (kept_step hc hm hk).mpr (hf x hx)

theorem not_full_step (hc : Closed regions s) {c : Call} (hm : s.Matched c) (hk : ¬ s.Keeps c) :
    ¬ Full regions (s.step c) := by
  cases c with
  | free a o =>
    intro hf
    have hheld : s.Kept a := .inr ⟨(a, o), hm, Block.covers_self _ _ _⟩
    exact ((kept_free_dropped hc hm (by simpa [Keeps] using hk)).mp (hf a (hc.given a hheld))).2
      (Block.covers_self _ _ _)
  | _ => exact absurd trivial hk

theorem full_run_iff {calls : List Call} (hc : Closed regions s) (hf : Full regions s)
    (hm : Steps step Matched s calls) :
    (∀ n, Full regions ((calls.take n).foldl step s)) ↔ Steps step Keeps s calls := by
  induction calls generalizing s with
  | nil => simpa [Steps] using hf
  | cons c cs ih =>
    constructor
    · intro h
      have hfirst : Full regions (s.step c) := by simpa using h 1
      have hk : s.Keeps c := by
        by_contra hk
        exact not_full_step hc hm.1 hk hfirst
      exact ⟨hk, (ih (hc.step hm.1) hfirst hm.2).mp fun n => by simpa using h (n + 1)⟩
    · rintro ⟨hk, hks⟩ n
      cases n with
      | zero => exact hf
      | succ n => exact (ih (hc.step hm.1) (hf.step hc hm.1 hk) hm.2).mpr hks n

theorem Closed.run {calls : List Call} (hc : Closed regions s)
    (hm : Steps System.step Matched s calls) : Closed regions (calls.foldl System.step s) :=
  hm.invariant (fun _ _ hc hm => hc.step hm) hc

section Boot

variable {base pages : Nat} (hregions : RegionsOk base pages regions)

include hregions

theorem boot_qContents : (boot base pages regions).buddy.pool.qContents = [] :=
  (boot_gains hregions).queue

theorem Closed.boot (hpages : pages ≤ maxRefcPages) : Closed regions (boot base pages regions) := by
  have hg := boot_gains hregions
  refine ⟨Inv.boot hregions, hg.reserved, hg.pages ▸ hpages, ?_⟩
  rintro x ((hf | ⟨p, hm, -⟩) | ⟨h, hh, -⟩)
  · exact (hg.sub x hf).resolve_left (by simp [Pool.FreeAt, Buddy.pool, Buddy.init])
  · rw [boot_qContents hregions] at hm
    cases hm
  · cases hh

theorem full_boot_iff : Full regions (boot base pages regions) ↔ ¬ Given regions 0 := by
  have hg := boot_gains hregions
  constructor
  · intro hf h0
    rcases hf 0 h0 with (⟨o, a, hm, hc⟩ | ⟨p, hm, -⟩) | ⟨h, hh, -⟩
    · exact hg.wf.nonzero hm (Nat.le_zero.mp hc.1)
    · rw [boot_qContents hregions] at hm
      cases hm
    · cases hh
  · exact fun h0 x hx => .inl (.inl (hg.sup rfl h0 x (.inr hx)))

end Boot

/-- `IDENTITY_LIMIT`: `memory::init` manages no page past it. -/
def identityLimit : Nat := 2 ^ 30

/-- Pages are conserved in every state of a run of matching calls exactly when physical page 0 is
not given to the allocator and no call frees a page-table page whose count is above one. -/
theorem pages_conserved_iff {base pages : Nat} (hregions : RegionsOk base pages regions)
    (hlimit : base + pages * pageSize ≤ identityLimit) {calls : List Call}
    (hcalls : Steps step Matched (boot base pages regions) calls) :
    (∀ n, Conserved regions ((calls.take n).foldl step (boot base pages regions))) ↔
      ¬ Given regions 0 ∧ Steps step Keeps (boot base pages regions) calls := by
  have hpages : pages ≤ maxRefcPages := by
    simp only [identityLimit, pageSize, maxRefcPages] at hlimit ⊢
    omega
  have hboot := Closed.boot hregions hpages
  have hconserved : ∀ n,
      Conserved regions ((calls.take n).foldl step (boot base pages regions)) ↔
        Full regions ((calls.take n).foldl step (boot base pages regions)) := fun n => by
    have hprefix := (Steps.append.mp ((List.take_append_drop n calls).symm ▸ hcalls)).1
    exact (hboot.run hprefix).conserved_iff
  simp only [hconserved]
  constructor
  · intro h
    have hfull : Full regions (boot base pages regions) := h 0
    exact ⟨(full_boot_iff hregions).mp hfull, (full_run_iff hboot hfull hcalls).mp h⟩
  · rintro ⟨h0, hk⟩
    exact (full_run_iff hboot ((full_boot_iff hregions).mpr h0) hcalls).mpr hk

/-- One page at 1 MiB, handed out zeroed, freed to the quarantine and handed out again. -/
theorem pages_conserved_one_page :
    Conserved [(0x100000, 0x1000)] ([Call.allocZeroedPage, .free 0x100000 0,
      .allocZeroedPage].foldl step (boot 0x100000 1 [(0x100000, 0x1000)])) := by
  have hall : ∀ n, Conserved [(0x100000, 0x1000)] (([Call.allocZeroedPage, .free 0x100000 0,
      .allocZeroedPage].take n).foldl step (boot 0x100000 1 [(0x100000, 0x1000)])) :=
    (pages_conserved_iff ⟨by decide, by decide, by decide, by decide⟩ (by decide)
      (by decide +kernel)).mpr ⟨by simp [Given, InRegion], by decide +kernel⟩
  have hlast := hall 3
  rwa [List.take_of_length_le (by decide)] at hlast

/-- The page of one region after two rounds of `alloc_zeroed_page` and `free`: the page came from
the quarantine the second time and was counted twice, so the second free leaves it nowhere. -/
theorem page_lost_through_quarantine :
    Steps step Matched (boot 0x100000 1 [(0x100000, 0x1000)])
      [.allocZeroedPage, .free 0x100000 0, .allocZeroedPage, .free 0x100000 0] ∧
    ¬ Conserved [(0x100000, 0x1000)] ([Call.allocZeroedPage, .free 0x100000 0, .allocZeroedPage,
      .free 0x100000 0].foldl step (boot 0x100000 1 [(0x100000, 0x1000)])) := by
  have hm : Steps step Matched (boot 0x100000 1 [(0x100000, 0x1000)])
      [.allocZeroedPage, .free 0x100000 0, .allocZeroedPage, .free 0x100000 0] := by
    decide +kernel
  have hboot : Closed [(0x100000, 0x1000)] (boot 0x100000 1 [(0x100000, 0x1000)]) :=
    Closed.boot ⟨by decide, by decide, by decide, by decide⟩ (by decide)
  refine ⟨hm, fun hcons => ?_⟩
  have hfull := (hboot.run hm).conserved_iff.mp hcons
  have hthree := Steps.append.mp (show Steps step Matched _
    ([.allocZeroedPage, .free 0x100000 0, .allocZeroedPage] ++ [.free 0x100000 0]) from hm)
  exact not_full_step (hboot.run hthree.1) hthree.2.1 (by decide +kernel) hfull

end Rynex.Memory.System
