import Rynex.Paging.Tree

/-! The invariant of copy-on-write sharing. Address spaces share tables and data pages; the counts
of a page never fall below the number of address spaces that reach it, and a page that an entry
lets its owner write belongs to that owner alone. -/

namespace Rynex.Paging

open Rynex.Memory Rynex.Lib Rynex.Lib.Radix

/-! ### What the primitives leave alone -/

/-- `IDENTITY_LIMIT`: the managed range ends below it. -/
def identityLimit : Nat := 1 <<< 30

/-- Pages in use stay in use, and page-table pages keep their type. -/
structure Steady (b b' : Buddy) : Prop where
  base : b'.base = b.base
  pages : b'.pages = b.pages
  used : ∀ i, b.used i = true → b'.used i = true
  type : ∀ i, b.pageType i = .pte → b'.pageType i = .pte

theorem Steady.refl (b : Buddy) : Steady b b := ⟨rfl, rfl, fun _ => id, fun _ => id⟩

theorem Steady.trans {b b' b'' : Buddy} (h : Steady b b') (h' : Steady b' b'') : Steady b b'' :=
  ⟨h'.base.trans h.base, h'.pages.trans h.pages, fun i hi => h'.used i (h.used i hi),
    fun i hi => h'.type i (h.type i hi)⟩

variable {m m' : Machine} {roots : Finset Nat} {r r' p q t c n i j : Nat} {π ρ : List Nat}

theorem liveTable_iff : m.liveTable p = true ↔ m.buddy.base ≤ p ∧ p < m.buddy.limit ∧
    m.buddy.usedSet (m.buddy.physToIdx p) = true ∧ m.buddy.pageTypeGet p = .pte := by
  simp [Machine.liveTable, Buddy.pageIsUsed, and_assoc]

theorem Steady.liveTable (h : Steady m.buddy m'.buddy) (hp : m.liveTable p = true) :
    m'.liveTable p = true := by
  rw [liveTable_iff] at hp ⊢
  obtain ⟨hlow, hhigh, hused, htype⟩ := hp
  have hidx : m'.buddy.physToIdx p = m.buddy.physToIdx p := Buddy.physToIdx_congr h.base p
  simp only [Buddy.usedSet, Bool.and_eq_true, decide_eq_true_eq] at hused ⊢
  simp only [Buddy.pageTypeGet, hidx, hused.1, if_true] at htype ⊢
  refine ⟨h.base ▸ hlow, ?_, ⟨trivial, h.used _ hused.2⟩, h.type _ htype⟩
  simpa only [Buddy.limit, h.base, h.pages] using hhigh

theorem physToIdx_lt {b : Buddy} (hlim : b.limit ≤ identityLimit) (hlow : b.base ≤ p)
    (hhigh : p < b.limit) : b.physToIdx p < maxRefcPages := by
  simp only [Buddy.physToIdx, Nat.not_lt.mpr hlow, if_false, Nat.shiftRight_eq_div_pow]
  simp only [identityLimit, Nat.one_shiftLeft] at hlim
  simp only [maxRefcPages]
  omega

theorem pteRefcGet_congr {b b' : Buddy} (hbase : b'.base = b.base)
    (hrefc : b'.pteRefc (b.physToIdx p) = b.pteRefc (b.physToIdx p)) :
    b'.pteRefcGet p = b.pteRefcGet p := by
  simp only [Buddy.pteRefcGet, Buddy.physToIdx_congr hbase, hrefc]

theorem pteRefcGet_setAt {b b' : Buddy} {v : Nat} (hbase : b'.base = b.base)
    (hrefc : b'.pteRefc = Buddy.setAt b.pteRefc (b.physToIdx n) v) (hn : pageSize ∣ n)
    (hlow : b.base ≤ n) (hq : pageSize ∣ q) (hne : q ≠ n) : b'.pteRefcGet q = b.pteRefcGet q := by
  by_cases hqlow : b.base ≤ q
  · refine pteRefcGet_congr hbase ?_
    rw [hrefc, Buddy.setAt_ne fun hidx => hne (Buddy.physToIdx_inj hq hn hqlow hlow hidx)]
  · have hidx : b.physToIdx q = u64Max := by simp [Buddy.physToIdx, Nat.not_le.mp hqlow]
    simp only [Buddy.pteRefcGet, Buddy.physToIdx_congr hbase, hidx]
    rfl

theorem pteRefcGet_le_pteRefcDec (b : Buddy) :
    b.pteRefcGet p ≤ (b.pteRefcDec p).2.pteRefcGet p + 1 := by
  have hidx : (b.pteRefcDec p).2.physToIdx p = b.physToIdx p := rfl
  have hrefc : (b.pteRefcDec p).2.pteRefc =
      Buddy.setAt b.pteRefc (b.physToIdx p) (b.pteRefc (b.physToIdx p) - 1) := rfl
  simp only [Buddy.pteRefcGet, hidx, hrefc]
  split
  · next hlt => rw [Buddy.setAt_self hlt]; omega
  · omega

theorem refcGet_le_refcDec (m : Machine) : m.refcGet p ≤ (m.refcDec p).refcGet p + 1 := by
  simp only [Machine.refcGet, Machine.refcDec]
  split
  · next hlt => rw [Buddy.setAt_self hlt]; omega
  · omega

theorem refcGet_refcDec_ne (hp : pageSize ∣ p) (hq : pageSize ∣ q) (hne : q ≠ p) :
    (m.refcDec p).refcGet q = m.refcGet q := by
  have hidx : Machine.refcIdx q ≠ Machine.refcIdx p := by
    simp only [Machine.refcIdx, Nat.shiftRight_eq_div_pow]
    simp only [pageSize] at hp hq
    omega
  simp only [Machine.refcGet, Machine.refcDec, Buddy.setAt_ne hidx]

theorem steady_reserve {b : Buddy} (h : ¬ b.pool.AvailAt p) : Steady b (b.reserve p) := by
  obtain ⟨hpool, used, reserved, hused, htab⟩ := Buddy.reserve_spec h
  refine ⟨congrArg Pool.base hpool, congrArg Pool.pages hpool, fun i hi => ?_, fun i hi => ?_⟩
  · exact (congrFun (congrArg Buddy.Tables.used htab) i).trans (hused i hi)
  · exact (congrFun (congrArg Buddy.Tables.pageType htab) i).trans hi

theorem pteRefcGet_reserve {b : Buddy} (h : ¬ b.pool.AvailAt p) :
    (b.reserve p).pteRefcGet q = b.pteRefcGet q := by
  obtain ⟨hpool, used, reserved, -, htab⟩ := Buddy.reserve_spec h
  exact pteRefcGet_congr (congrArg Pool.base hpool)
    (congrFun (congrArg Buddy.Tables.pteRefc htab) _)

/-! ### Allocation -/

/-- `m'` is `m` after `alloc_zeroed_page` returned `n`. -/
structure Allocated (m m' : Machine) (n : Nat) : Prop where
  grants : Buddy.Grants m.buddy m'.buddy n 0
  tables : ∃ v, 1 ≤ v ∧ m'.buddy.tables = m.buddy.tablesZeroed n v
  mem : m'.mem = Function.update m.mem n fun _ => 0
  refc : m'.pageRefc = m.pageRefc
  kernel : m'.kernelPml4 = m.kernelPml4

theorem allocZeroedPage_some (hwf : m.buddy.pool.Wf) (h : m.allocZeroedPage = (some n, m')) :
    Allocated m m' n := by
  unfold Machine.allocZeroedPage at h
  split at h
  · next b hb =>
    cases h
    obtain ⟨hg, ht⟩ := Buddy.allocZeroedPage_some hwf hb
    exact ⟨hg, ht, rfl, rfl, rfl⟩
  · cases h

namespace Allocated

variable (h : Allocated m m' n)

include h

theorem page_dvd : pageSize ∣ n := h.grants.fits.page_dvd

theorem lt_limit : n < m.buddy.limit := by
  have hup := h.grants.fits.upper
  have hpos := Block.size_pos pageShift 0
  omega

theorem limit : m'.buddy.limit = m.buddy.limit := by
  simp only [Buddy.limit, h.grants.base, h.grants.pages]

theorem addr (hlim : m.buddy.limit ≤ identityLimit) : Pte.addr n = n := by
  refine Pte.addr_of_dvd h.page_dvd ?_
  have hlt := h.lt_limit
  simp only [identityLimit, Nat.one_shiftLeft] at hlim
  omega

theorem avail : m.buddy.pool.AvailAt n := h.grants.avail n (Block.covers_self _ _ _)

theorem not_avail : ¬ m'.buddy.pool.AvailAt n := fun hx =>
  (h.grants.sub n hx).2 (Block.covers_self _ _ _)

theorem steady : Steady m.buddy m'.buddy := by
  obtain ⟨v, -, htab⟩ := h.tables
  refine ⟨h.grants.base, h.grants.pages, fun i hi => ?_, fun i hi => ?_⟩
  · rw [show m'.buddy.used = m'.buddy.tables.used from rfl, htab]
    exact Buddy.setAt_of_imp (P := (· = true)) rfl hi
  · rw [show m'.buddy.pageType = m'.buddy.tables.pageType from rfl, htab]
    exact Buddy.setAt_of_imp (P := (· = PageType.pte)) rfl hi

theorem liveTable (hlim : m.buddy.limit ≤ identityLimit) : m'.liveTable n = true := by
  obtain ⟨v, -, htab⟩ := h.tables
  have hlow := h.grants.fits.lower
  have hidx : m'.buddy.physToIdx n = m.buddy.physToIdx n :=
    Buddy.physToIdx_congr h.grants.base n
  have hlt := physToIdx_lt hlim hlow h.lt_limit
  have hused : m'.buddy.used (m.buddy.physToIdx n) = true := by
    rw [show m'.buddy.used = m'.buddy.tables.used from rfl, htab]
    exact Buddy.setAt_self hlt
  have htype : m'.buddy.pageType (m.buddy.physToIdx n) = .pte := by
    rw [show m'.buddy.pageType = m'.buddy.tables.pageType from rfl, htab]
    exact Buddy.setAt_self hlt
  rw [liveTable_iff]
  refine ⟨h.grants.base ▸ hlow, h.limit ▸ h.lt_limit, ?_, ?_⟩
  · simp [Buddy.usedSet, hidx, hlt, hused]
  · simp [Buddy.pageTypeGet, hidx, hlt, htype]

theorem pteRefcGet (hq : pageSize ∣ q) (hne : q ≠ n) :
    m'.buddy.pteRefcGet q = m.buddy.pteRefcGet q := by
  obtain ⟨v, -, htab⟩ := h.tables
  exact pteRefcGet_setAt h.grants.base (congrArg Buddy.Tables.pteRefc htab) h.page_dvd
    h.grants.fits.lower hq hne

end Allocated

/-! ### The invariant -/

/-- The count that `paging.rs` keeps for a page at depth `d`: `PTE_REFC` for tables and
`PAGE_REFC` for data pages. -/
def cnt (m : Machine) (d p : Nat) : Nat := if d ≤ 3 then m.buddy.pteRefcGet p else m.refcGet p

/-- What holds of the address spaces with the PML4s `roots` between two operations. -/
structure Sharing (m : Machine) (roots : Finset Nat) : Prop where
  wf : m.buddy.pool.Wf
  limit_le : m.buddy.limit ≤ identityLimit
  placed : Placed next m.mem roots
  held : ∀ r ∈ roots, ∀ π p, At next m.mem r π p → ¬ m.buddy.pool.AvailAt p
  live : ∀ r ∈ roots, ∀ π p, π.length ≤ 3 → At next m.mem r π p → m.liveTable p = true
  tracked : ∀ r ∈ roots, ∀ π p, π.length = 4 → At next m.mem r π p →
    Machine.refcIdx p < maxRefcPages
  counted : Counted next m.mem roots (cnt m)
  writable : ∀ r ∈ roots, ∀ π t i p, π.length = 3 → At next m.mem r π t →
    next 3 i (m.mem t i) = some p → Pte.writable (m.mem t i) = true →
    Sole next m.mem roots r (π ++ [i]) p
  kernel : ∀ r ∈ roots, ∀ i < 2, Pte.present (m.mem m.kernelPml4 i) = true →
    Pte.present (m.mem r i) = true
  kernel_fresh : Fresh next m.mem roots m.kernelPml4
  kernel_held : ¬ m.buddy.pool.AvailAt m.kernelPml4

theorem Sharing.fresh (hs : Sharing m roots) (hn : m.buddy.pool.AvailAt n) :
    Fresh next m.mem roots n :=
  fun r hr π hat => hs.held r hr π n hat hn

/-- The invariant after a change that leads every walk to the same page. -/
theorem Sharing.same_walks (hs : Sharing m roots)
    (hwalk : ∀ r ∈ roots, ∀ π, walk next m'.mem 0 r π = walk next m.mem 0 r π)
    (hwf : m'.buddy.pool.Wf)
    (havail : ∀ x, m'.buddy.pool.AvailAt x → m.buddy.pool.AvailAt x)
    (hsteady : Steady m.buddy m'.buddy)
    (hcnt : ∀ r ∈ roots, ∀ π p, π ≠ [] → At next m.mem r π p → cnt m π.length p ≤ cnt m' π.length p)
    (hleaf : ∀ r ∈ roots, ∀ π t i p, π.length = 3 → At next m.mem r π t →
      next 3 i (m'.mem t i) = some p → Pte.writable (m'.mem t i) = true →
      Sole next m.mem roots r (π ++ [i]) p)
    (hkernel : m'.kernelPml4 = m.kernelPml4)
    (hkmem : ∀ i, m'.mem m.kernelPml4 i = m.mem m.kernelPml4 i)
    (htop : ∀ r ∈ roots, ∀ i, Pte.present (m.mem r i) = true → Pte.present (m'.mem r i) = true) :
    Sharing m' roots := by
  have hat : ∀ {r π p}, r ∈ roots → At next m'.mem r π p → At next m.mem r π p :=
    fun hr h => (hwalk _ hr _).symm.trans h
  have hsole : ∀ {r π p}, Sole next m.mem roots r π p → Sole next m'.mem roots r π p :=
    fun h r' hr' h' => h r' hr' (hat hr' h')
  constructor
  case wf => exact hwf
  case limit_le => simpa only [Buddy.limit, hsteady.base, hsteady.pages] using hs.limit_le
  case placed =>
    intro r hr r' hr' π π' p h h'
    exact hs.placed r hr r' hr' π π' p (hat hr h) (hat hr' h')
  case held => exact fun r hr π p h hx => hs.held r hr π p (hat hr h) (havail p hx)
  case live =>
    exact fun r hr π p hlen h => hsteady.liveTable (hs.live r hr π p hlen (hat hr h))
  case tracked => exact fun r hr π p hlen h => hs.tracked r hr π p hlen (hat hr h)
  case counted =>
    intro r hr π p hπ h
    have howners : owners next m'.mem roots π p ≤ owners next m.mem roots π p := by
      classical
      refine Finset.card_le_card fun r' hr' => ?_
      rw [Finset.mem_filter] at hr' ⊢
      exact ⟨hr'.1, hat hr'.1 hr'.2⟩
    have hle := hs.counted r hr π p hπ (hat hr h)
    have hmono := hcnt r hr π p hπ (hat hr h)
    omega
  case writable =>
    exact fun r hr π t i p hlen ht hp hw => hsole (hleaf r hr π t i p hlen (hat hr ht) hp hw)
  case kernel =>
    intro r hr i hi hk
    rw [hkernel, hkmem] at hk
    exact htop r hr i (hs.kernel r hr i hi hk)
  case kernel_fresh =>
    intro r hr π h
    rw [hkernel] at h
    exact hs.kernel_fresh r hr π (hat hr h)
  case kernel_held => exact fun hx => hs.kernel_held (hkernel ▸ havail _ hx)

section Alloc

variable (hs : Sharing m roots) (ha : Allocated m m' n)

include hs ha

theorem Sharing.ne_alloc (hr : r ∈ roots) (h : At next m.mem r π p) : p ≠ n := fun hpn =>
  hs.fresh ha.avail r hr π (hpn ▸ h)

omit hs in
theorem Allocated.mem_ne (hq : q ≠ n) : m'.mem q = m.mem q := by
  rw [ha.mem, Function.update_of_ne hq]

theorem Sharing.walk_alloc (hr : r ∈ roots) : walk next m'.mem 0 r π = walk next m.mem 0 r π :=
  walk_congr fun ρ i t _ ht => by rw [ha.mem_ne (hs.ne_alloc ha hr ht)]

theorem Sharing.kernel_ne_alloc : m.kernelPml4 ≠ n := fun hk =>
  hs.kernel_held (hk ▸ ha.avail)

theorem Sharing.alloc : Sharing m' roots := by
  have hne : ∀ r ∈ roots, ∀ π p, At next m.mem r π p → p ≠ n := fun r hr π p h =>
    hs.ne_alloc ha hr h
  have hmem : ∀ q, q ≠ n → m'.mem q = m.mem q := fun q hq => ha.mem_ne hq
  refine hs.same_walks (fun r hr π => hs.walk_alloc ha hr) ha.grants.wf
    (fun x hx => (ha.grants.sub x hx).1) ha.steady (fun r hr π p hπ h => ?_)
    (fun r hr π t i p hlen ht hp hw => ?_) ha.kernel
    (fun i => by rw [hmem _ (hs.kernel_ne_alloc ha)])
    fun r hr i hi => by rwa [hmem r (hne r hr [] r walk_nil)]
  · have hdvd : pageSize ∣ p := addr_of_at hπ h ▸ Pte.page_dvd_addr p
    simp only [cnt, Machine.refcGet, ha.refc, ha.pteRefcGet hdvd (hne r hr π p h)]
    exact le_refl _
  · rw [hmem t (hne r hr π t ht)] at hp hw
    exact hs.writable r hr π t i p hlen ht hp hw

end Alloc

theorem Sharing.relink (hs : Sharing m roots)
    (h : Relink next m.mem m'.mem roots r ρ i t c n) (hpool : m'.buddy.pool = m.buddy.pool)
    (hsteady : Steady m.buddy m'.buddy) (hheld : ¬ m.buddy.pool.AvailAt n)
    (hlive : m.liveTable n = true) (hkernel : m'.kernelPml4 = m.kernelPml4)
    (hnk : n ≠ m.kernelPml4) (hold : cnt m (ρ.length + 1) c ≤ cnt m' (ρ.length + 1) c + 1)
    (hcnt : ∀ r' ∈ roots, ∀ π q, π ≠ [] → At next m.mem r' π q → q ≠ c →
      cnt m π.length q ≤ cnt m' π.length q) : Sharing m' roots := by
  have hp := hs.placed
  have hat : ∀ {r' π q}, r' ∈ roots → At next m'.mem r' π q →
      (r' = r ∧ π = ρ ++ [i] ∧ q = n) ∨ At next m.mem r' π q := fun hr' hq =>
    ((h.at_iff hp hr').mp hq).imp id fun hq => hq.2
  have htk : t ≠ m.kernelPml4 := fun htk => hs.kernel_fresh r h.root ρ (htk ▸ h.table)
  have hkmem : ∀ j, m'.mem m.kernelPml4 j = m.mem m.kernelPml4 j := fun j =>
    h.other _ j (Ne.symm hnk) fun hkt => absurd hkt.symm htk
  constructor
  case wf => exact hpool ▸ hs.wf
  case placed => exact h.placed hp
  case counted => exact h.counted hp hs.counted hold hcnt
  case limit_le => simpa only [Buddy.limit, hsteady.base, hsteady.pages] using hs.limit_le
  case held =>
    intro r' hr' π q hq
    rw [hpool]
    rcases hat hr' hq with ⟨-, -, rfl⟩ | hq
    · exact hheld
    · exact hs.held r' hr' π q hq
  case live =>
    intro r' hr' π q hlen hq
    rcases hat hr' hq with ⟨-, -, rfl⟩ | hq
    · exact hsteady.liveTable hlive
    · exact hsteady.liveTable (hs.live r' hr' π q hlen hq)
  case tracked =>
    intro r' hr' π q hlen hq
    rcases hat hr' hq with ⟨-, -, rfl⟩ | hq
    · have hlt := (liveTable_iff.mp hlive).2.1
      have hlim := hs.limit_le
      simp only [identityLimit, Nat.one_shiftLeft] at hlim
      simp only [Machine.refcIdx, Nat.shiftRight_eq_div_pow, maxRefcPages]
      omega
    · exact hs.tracked r' hr' π q hlen hq
  case writable =>
    intro r' hr' π t' i' q hlen ht' hq hw
    by_cases hlink : r' = r ∧ π = ρ ∧ i' = i
    · -- the relinked entry itself: its page is the copy
      obtain ⟨rfl, rfl, rfl⟩ := hlink
      have hqn : q = n := by
        have hchild := ht'.concat (hlen ▸ hq)
        exact hchild.unique (h.at_copy hp)
      exact hqn ▸ h.sole_copy hp
    · obtain ⟨t₀, ht₀, heq⟩ := h.entry hp hr' ht' hlink
      rw [heq] at hq hw
      have hqold := ht₀.concat (hlen ▸ hq)
      intro r'' hr'' hq''
      rcases hat hr'' hq'' with ⟨-, -, rfl⟩ | hq''
      · exact absurd hqold (h.fresh r' hr' _)
      · exact hs.writable r' hr' π t₀ i' q hlen ht₀ hq hw r'' hr'' hq''
  case kernel =>
    intro r' hr' j hj hk
    rw [hkernel, hkmem] at hk
    have hold := hs.kernel r' hr' j hj hk
    by_cases hlink : r' = t ∧ j = i
    · obtain ⟨rfl, rfl⟩ := hlink
      exact (next_eq_some.mp h.link).1
    · rw [h.other r' j (fun hn => h.fresh r' hr' [] (by rw [hn]; exact walk_nil))
        fun ht hji => hlink ⟨ht, hji⟩]
      exact hold
  case kernel_fresh =>
    intro r' hr' π hk
    rw [hkernel] at hk
    rcases hat hr' hk with ⟨-, -, hkn⟩ | hk
    · exact hnk hkn.symm
    · exact hs.kernel_fresh r' hr' π hk
  case kernel_held => rw [hpool, hkernel]; exact hs.kernel_held

end Rynex.Paging
