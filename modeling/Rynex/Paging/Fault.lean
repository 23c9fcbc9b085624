import Rynex.Paging.Sharing

/-! A write fault keeps the sharing invariant and changes no word that an address space reads: it
gives the faulting address space copies of the tables on the way and of the page, as far as they
are shared. -/

namespace Rynex.Paging

open Rynex.Memory Rynex.Lib Rynex.Lib.Radix

variable {m m' m₁ : Machine} {roots : Finset Nat} {r r' p q t c c' n i j virt v : Nat}
  {π ρ : List Nat}

theorem relink_of_copy (hr : r ∈ roots) (ht : At next m.mem r ρ t)
    (hsole : Sole next m.mem roots r ρ t) (hc : next ρ.length i (m.mem t i) = some c)
    (hfresh : Fresh next m.mem roots n) (hv : next ρ.length i v = some n)
    (hmem : m'.mem = ((m.copyPage c n).write t i v).mem) :
    Relink next m.mem m'.mem roots r ρ i t c n := by
  have htn : t ≠ n := fun h => hfresh r hr ρ (h ▸ ht)
  refine ⟨hr, ht, hsole, ht.concat hc, hfresh, ?_, fun j => ?_, fun q j hqn hqt => ?_⟩
  · simpa [hmem, Machine.write] using hv
  · simp [hmem, Machine.write, Machine.copyPage, Machine.writePage, Function.update_of_ne htn.symm]
  · rw [hmem]
    by_cases hq : q = t
    · subst hq
      simp [Machine.write, Machine.copyPage, Machine.writePage, Function.update_of_ne (hqt rfl),
        Function.update_of_ne hqn]
    · simp [Machine.write, Machine.copyPage, Machine.writePage, Function.update_of_ne hq,
        Function.update_of_ne hqn]

/-! ### Opening the way to a leaf -/

/-- `m'` is `m` after the tables down to `t`, at the path `ρ` under `r`, were made private: what
lies below that depth is where it was and reads as it did. -/
structure Opened (m m' : Machine) (roots : Finset Nat) (r : Nat) (ρ : List Nat) (t : Nat) :
    Prop where
  sharing : Sharing m' roots
  table : At next m'.mem r ρ t
  sole : Sole next m'.mem roots r ρ t
  walk : ∀ r' ∈ roots, ∀ π, ρ.length < π.length →
    walk next m'.mem 0 r' π = walk next m.mem 0 r' π
  content : ∀ r' ∈ roots, ∀ π j, ρ.length ≤ π.length →
    content next m'.mem r' π j = content next m.mem r' π j

theorem Opened.root (hs : Sharing m roots) : Opened m m roots r [] r :=
  ⟨hs, walk_nil, sole_root, fun _ _ _ _ => rfl, fun _ _ _ _ _ => rfl⟩

theorem Opened.trans {t' : Nat} (h : Opened m m₁ roots r ρ t)
    (h' : Opened m₁ m' roots r (ρ ++ [i]) t') : Opened m m' roots r (ρ ++ [i]) t' := by
  have hlt : ρ.length < (ρ ++ [i]).length := by simp
  refine ⟨h'.sharing, h'.table, h'.sole, fun r' hr' π hπ => ?_, fun r' hr' π j hπ => ?_⟩
  · exact (h'.walk r' hr' π hπ).trans (h.walk r' hr' π (hlt.trans hπ))
  · exact (h'.content r' hr' π j hπ).trans (h.content r' hr' π j (hlt.le.trans hπ))

theorem Opened.of_relink (hs : Sharing m roots) (hs' : Sharing m' roots)
    (h : Relink next m.mem m'.mem roots r ρ i t c n) : Opened m m' roots r (ρ ++ [i]) n := by
  refine ⟨hs', h.at_copy hs.placed, h.sole_copy hs.placed, fun r' hr' π hπ => ?_,
    fun r' hr' π j hπ => ?_⟩
  · classical
    rw [h.walk hs.placed hr', if_neg]
    rintro ⟨-, rfl⟩
    exact lt_irrefl _ hπ
  · refine h.content hs.placed hr' ?_
    rintro rfl
    simp at hπ

theorem Opened.entry (h : Opened m m' roots r ρ t) (hr : r ∈ roots)
    (hp : At next m.mem r (ρ ++ i :: π) p) : ∃ c, next ρ.length i (m'.mem t i) = some c := by
  have hp' : At next m'.mem r (ρ ++ i :: π) p := (h.walk r hr _ (by simp)).trans hp
  rw [At, walk_append, show Radix.walk next m'.mem 0 r ρ = some t from h.table,
    Option.bind_some, Radix.walk, Nat.zero_add] at hp'
  obtain ⟨c, hc, -⟩ := Option.bind_eq_some_iff.mp hp'
  exact ⟨c, hc⟩

section Copy

variable (hs : Sharing m roots) (hr : r ∈ roots) (ht : At next m.mem r ρ t)
  (hsole : Sole next m.mem roots r ρ t) (hc : next ρ.length i (m.mem t i) = some c)

include hs hr ht hsole hc

/-- A page that was just handed out takes the place of `c`, with what `c` holds, and the count of
`c` drops by one at most. -/
theorem copy_spec (ha : Allocated m m₁ n) (hv : next ρ.length i v = some n)
    (hmem : m'.mem = ((m₁.copyPage c n).write t i v).mem)
    (hpool : m'.buddy.pool = m₁.buddy.pool) (hsteady : Steady m₁.buddy m'.buddy)
    (hkernel : m'.kernelPml4 = m₁.kernelPml4)
    (hold : cnt m₁ (ρ.length + 1) c ≤ cnt m' (ρ.length + 1) c + 1)
    (hcnt : ∀ d q, pageSize ∣ q → q ≠ c → cnt m₁ d q ≤ cnt m' d q) :
    Opened m m' roots r (ρ ++ [i]) n := by
  have hs₁ : Sharing m₁ roots := hs.alloc ha
  have hwalk : ∀ r' ∈ roots, ∀ π, walk next m₁.mem 0 r' π = walk next m.mem 0 r' π :=
    fun r' hr' π => hs.walk_alloc ha hr'
  have hat : ∀ {r' π q}, r' ∈ roots → (At next m₁.mem r' π q ↔ At next m.mem r' π q) :=
    fun hr' => by rw [At, At, hwalk _ hr']
  have hfresh : Fresh next m₁.mem roots n := fun r' hr' π h =>
    hs.ne_alloc ha hr' ((hat hr').mp h) rfl
  have hrel : Relink next m₁.mem m'.mem roots r ρ i t c n := by
    refine relink_of_copy hr ((hat hr).mpr ht) (fun r' hr' h => hsole r' hr' ((hat hr').mp h)) ?_
      hfresh hv hmem
    rw [ha.mem_ne (hs.ne_alloc ha hr ht)]
    exact hc
  have hs' : Sharing m' roots := by
    refine hs₁.relink hrel hpool hsteady ha.not_avail (ha.liveTable hs.limit_le) hkernel
      (ha.kernel ▸ (hs.kernel_ne_alloc ha).symm) hold fun r' hr' π q hπ hq => hcnt _ q ?_
    exact addr_of_at hπ hq ▸ Pte.page_dvd_addr q
  have hopen := Opened.of_relink hs₁ hs' hrel
  refine ⟨hs', hopen.table, hopen.sole, fun r' hr' π hπ => ?_, fun r' hr' π j hπ => ?_⟩
  · exact (hopen.walk r' hr' π hπ).trans (hwalk r' hr' π)
  · rw [hopen.content r' hr' π j hπ, content, content, hwalk r' hr']
    cases hq : walk next m.mem 0 r' π with
    | none => rfl
    | some q => exact congrArg some (congrFun (ha.mem_ne (hs.ne_alloc ha hr' hq)) j)

theorem cowTable_spec (hlen : ρ.length < 3) (h : m.cowTable t i = (some c', m')) :
    Opened m m' roots r (ρ ++ [i]) c' := by
  have hchild : At next m.mem r (ρ ++ [i]) c := ht.concat hc
  have hlive := liveTable_iff.mp (hs.live r hr _ c (by simpa using hlen) hchild)
  have hdvd : pageSize ∣ c := addr_of_at (by simp) hchild ▸ Pte.page_dvd_addr c
  obtain rfl : Pte.addr (m.mem t i) = c := (next_eq_some.mp hc).2.2
  simp only [Machine.cowTable] at h
  split at h
  · split at h
    · cases h
    next n m₁ halloc =>
    have ha := allocZeroedPage_some hs.wf halloc
    cases h
    have hrefc : ∀ q, pageSize ∣ q → q ≠ Pte.addr (m.mem t i) →
        (m₁.buddy.pteRefcDec (Pte.addr (m.mem t i))).2.pteRefcGet q = m₁.buddy.pteRefcGet q :=
      fun q hq hne => pteRefcGet_setAt rfl rfl hdvd (ha.grants.base ▸ hlive.1) hq hne
    refine copy_spec hs hr ht hsole hc ha (next_or_flags (ha.addr hs.limit_le) hc) rfl rfl
      ⟨rfl, rfl, fun _ => id, fun _ => id⟩ rfl ?_ fun d q hq hne => ?_
    · simpa [cnt, Nat.succ_le_of_lt hlen] using pteRefcGet_le_pteRefcDec m₁.buddy
    · simp [cnt, hrefc q hq hne, Machine.refcGet]
  · next hshared =>
    cases h
    refine ⟨hs, hchild, ?_, fun _ _ _ _ => rfl, fun _ _ _ _ _ => rfl⟩
    refine hs.counted.sole hr (by simp) hchild ?_
    simpa [cnt, hlen] using Nat.not_lt.mp hshared

end Copy

/-! ### The leaf -/

theorem cowWalkPte_spec (hs : Sharing m roots) (hr : r ∈ roots)
    (hp : At next m.mem r (path virt) p) (h : m.cowWalkPte r virt = (some t, m')) :
    Opened m m' roots r (dir virt) t := by
  have hroot : Opened m m roots r [] r := Opened.root hs
  simp only [Machine.cowWalkPte] at h
  split at h
  · cases h
  split at h
  · cases h
  next pdpt m₁ hpdpt =>
  obtain ⟨c₁, hc₁⟩ := hroot.entry (π := [vpn virt 1, vpn virt 2, vpn virt 3]) hr hp
  have hopen₁ := cowTable_spec hs hr hroot.table hroot.sole hc₁ (by decide) hpdpt
  split at h
  · cases h
  split at h
  · cases h
  next pd m₂ hpd =>
  obtain ⟨c₂, hc₂⟩ := hopen₁.entry (π := [vpn virt 2, vpn virt 3]) hr hp
  have hopen₂ := hopen₁.trans
    (cowTable_spec hopen₁.sharing hr hopen₁.table hopen₁.sole hc₂ (by simp) hpd)
  split at h
  · cases h
  obtain ⟨c₃, hc₃⟩ := hopen₂.entry (π := [vpn virt 3]) hr hp
  exact hopen₂.trans (cowTable_spec hopen₂.sharing hr hopen₂.table hopen₂.sole hc₃ (by simp) h)

theorem Sharing.reserveMeta (hs : Sharing m roots) (h : ¬ m.buddy.pool.AvailAt p) (virt : Nat) :
    Sharing (m.reserveMeta virt p) roots := by
  unfold Machine.reserveMeta
  split
  · obtain ⟨hpool, -⟩ := Buddy.reserve_spec h
    exact hs.same_walks (fun _ _ _ => rfl) (hpool ▸ hs.wf) (fun x hx => hpool ▸ hx)
      (steady_reserve h) (fun r hr π q _ _ => by
        simp only [cnt, Machine.setBuddy, Machine.refcGet, pteRefcGet_reserve h]; exact le_refl _)
      (hs.writable) rfl (fun _ => rfl) fun _ _ _ => id
  · exact hs

/-- `m'` is `m` after a write fault of `r` at `va` was resolved: every address space reads the same
words, and `r` may write at `va`. -/
structure Resolved (m m' : Machine) (roots : Finset Nat) (r va : Nat) : Prop where
  sharing : Sharing m' roots
  word : ∀ r' ∈ roots, ∀ va', userWord m' r' va' = userWord m r' va'
  leaf : ∃ t p, At next m'.mem r (dir va) t ∧
    next 3 (vpn va 3) (m'.mem t (vpn va 3)) = some p ∧ Pte.writable (m'.mem t (vpn va 3)) = true

section Leaf

variable (hs : Sharing m roots) (hr : r ∈ roots) (ht : At next m.mem r (dir virt) t)
  (hsole : Sole next m.mem roots r (dir virt) t)
  (hp : next 3 (vpn virt 3) (m.mem t (vpn virt 3)) = some p)

include hs hr ht hsole hp

/-- A page that belongs to `r` alone is made writable in place. -/
theorem leaf_in_place (hrefc : m.refcGet p = 0) :
    Resolved m (m.write t (vpn virt 3) (p ||| Pte.flags (m.mem t (vpn virt 3)) ||| pteWritable))
      roots r virt := by
  obtain rfl : Pte.addr (m.mem t (vpn virt 3)) = p := (next_eq_some.mp hp).2.2
  generalize hm : m.write t (vpn virt 3) _ = m'
  have hleaf : m'.mem t (vpn virt 3) = Pte.addr (m.mem t (vpn virt 3)) |||
      Pte.flags (m.mem t (vpn virt 3)) ||| pteWritable := by simp [← hm, Machine.write]
  have hother : ∀ q j, (q = t → j ≠ vpn virt 3) → m'.mem q j = m.mem q j := by
    intro q j hne
    rw [← hm]
    by_cases hq : q = t
    · subst hq; simp [Machine.write, Function.update_of_ne (hne rfl)]
    · simp [Machine.write, Function.update_of_ne hq]
  have hnext : ∀ d q j, next d j (m'.mem q j) = next d j (m.mem q j) := by
    intro d q j
    by_cases hqj : q = t ∧ j = vpn virt 3
    · rw [hqj.1, hqj.2, hleaf, next_or_writable, next_addr_or_flags]
    · rw [hother q j fun hq hj => hqj ⟨hq, hj⟩]
  have hwalk : ∀ r' π, walk next m'.mem 0 r' π = walk next m.mem 0 r' π := fun r' π =>
    walk_of_next hnext
  have hbuddy : m'.buddy = m.buddy := by rw [← hm]; rfl
  have hpageRefc : m'.pageRefc = m.pageRefc := by rw [← hm]; rfl
  have hown : Sole next m.mem roots r (dir virt ++ [vpn virt 3])
      (Pte.addr (m.mem t (vpn virt 3))) :=
    hs.counted.sole hr (by simp) (ht.concat hp) (by simp [cnt, dir, hrefc])
  have hkt : m.kernelPml4 ≠ t := fun hk => hs.kernel_fresh r hr _ (hk ▸ ht)
  refine ⟨hs.same_walks (fun r' _ π => hwalk r' π) (hbuddy ▸ hs.wf) (fun x hx => hbuddy ▸ hx)
      (hbuddy ▸ Steady.refl _) (fun r' _ π q _ _ => by simp [cnt, Machine.refcGet, hbuddy,
        hpageRefc])
      (fun r' hr' π t' i q hlen ht' hq hw => ?_) (by rw [← hm]; rfl)
      (fun i => hother _ i fun hk => absurd hk hkt) fun r' hr' i hi => ?_, fun r' hr' va' => ?_, ?_⟩
  · rw [hnext] at hq
    by_cases hti : t' = t ∧ i = vpn virt 3
    · obtain ⟨rfl, rfl⟩ := hti
      obtain rfl : π = dir virt := hs.placed r' hr' r hr _ _ t' ht' ht
      obtain rfl : r' = r := hsole r' hr' ht'
      rwa [← (next_eq_some.mp hq).2.2]
    · rw [hother t' i fun h h' => hti ⟨h, h'⟩] at hw
      exact hs.writable r' hr' π t' i q hlen ht' hq hw
  · rw [hother r' i fun h => ?_]
    · exact hi
    · subst h
      have := hs.placed r' hr' r hr [] (dir virt) r' walk_nil ht
      simp [dir] at this
  · rw [userWord, userWord, content, content, hwalk]
    cases hq : walk next m.mem 0 r' (path va') with
    | none => rfl
    | some q =>
      refine congrArg some (hother q _ fun h => ?_)
      subst h
      have := congrArg List.length (hs.placed r' hr' r hr _ _ q hq ht)
      simp [dir] at this
  · exact ⟨t, _, (hwalk r _).trans ht, (hnext _ _ _).trans hp, by rw [hleaf]; simp⟩

theorem leaf_copy {m₁ : Machine}
    (halloc : ((m.refcDec p).reserveMeta virt p).allocZeroedPage = (some n, m₁)) :
    Resolved m (((m₁.copyPage p n).reserveMeta virt n).write t (vpn virt 3)
      (n ||| Pte.flags (m.mem t (vpn virt 3)) ||| pteWritable)) roots r virt := by
  have hpage : At next m.mem r (dir virt ++ [vpn virt 3]) p := ht.concat hp
  have hdvd : pageSize ∣ p := addr_of_at (by simp) hpage ▸ Pte.page_dvd_addr p
  have hs₀ : Sharing (m.reserveMeta virt p) roots :=
    hs.reserveMeta (hs.held r hr _ p hpage) virt
  -- the early drop of the count does not matter to the allocation
  have hcomm : (m.refcDec p).reserveMeta virt p = (m.reserveMeta virt p).refcDec p := by
    unfold Machine.reserveMeta; split <;> rfl
  rw [hcomm] at halloc
  have ha' := allocZeroedPage_some (m := (m.reserveMeta virt p).refcDec p) hs₀.wf halloc
  have ha : Allocated (m.reserveMeta virt p) { m₁ with pageRefc := m.pageRefc } n :=
    ⟨ha'.grants, ha'.tables, ha'.mem, by simp, ha'.kernel⟩
  have hreserve := Buddy.reserve_spec ha.not_avail
  generalize hm' : ((m₁.copyPage p n).reserveMeta virt n).write t (vpn virt 3) _ = m'
  have hbuddy : m'.buddy = m₁.buddy ∨ m'.buddy = m₁.buddy.reserve n := by
    rw [← hm']
    unfold Machine.reserveMeta
    split
    · exact .inr rfl
    · exact .inl rfl
  have hrefc : m'.refcGet = (m.refcDec p).refcGet := by
    funext q
    rw [← hm']
    simp [Machine.refcGet, ha'.refc, Machine.refcDec]
  have hpte : m'.buddy.pteRefcGet = m₁.buddy.pteRefcGet := by
    funext q
    rcases hbuddy with h | h
    · rw [h]
    · rw [h]; exact pteRefcGet_reserve ha.not_avail
  have hnext : next (dir virt).length (vpn virt 3)
      (n ||| Pte.flags (m.mem t (vpn virt 3)) ||| pteWritable) = some n := by
    rw [next_or_writable]
    exact next_or_flags (ha.addr hs₀.limit_le) hp
  have hopen : Opened (m.reserveMeta virt p) m' roots r (dir virt ++ [vpn virt 3]) n := by
    refine copy_spec hs₀ hr (by simpa using ht) (by simpa using hsole) (by simpa using hp) ha hnext
      ?_ ?_ ?_ ?_ ?_ fun d q hq hne => ?_
    · rw [← hm']; simp [Machine.write, Machine.copyPage, Machine.writePage]
    · rcases hbuddy with h | h
      · rw [h]
      · rw [h]; exact hreserve.1
    · rcases hbuddy with h | h
      · rw [h]; exact Steady.refl _
      · rw [h]; exact steady_reserve ha.not_avail
    · rw [← hm']; simp [Machine.copyPage, Machine.writePage]
    · simp only [cnt, length_dir, Nat.reduceAdd, Nat.reduceLeDiff, if_false, hrefc]
      exact refcGet_le_refcDec m
    · have := refcGet_refcDec_ne (m := m) hdvd hq hne
      simp only [cnt, hpte, hrefc, this]
      exact le_refl _
  refine ⟨hopen.sharing, fun r' hr' va' => ?_, ?_⟩
  · rw [userWord, hopen.content r' hr' _ _ (by simp [dir])]
    simp [userWord]
  · have htn : t ≠ n := hs₀.ne_alloc ha hr (by simpa using ht)
    have hmem : ∀ q, q ≠ t → q ≠ n → m'.mem q = m.mem q := fun q hqt hqn => by
      rw [← hm']
      simp [Machine.write, Machine.copyPage, Machine.writePage, Function.update_of_ne hqt,
        Function.update_of_ne hqn, ha'.mem, Machine.refcDec]
    have hwalk : walk next m'.mem 0 r (dir virt) = walk next m.mem 0 r (dir virt) := by
      refine walk_congr fun ρ i q hpre hq => ?_
      rw [hmem q (fun hqt => ?_) (hs₀.ne_alloc ha hr (by simpa using hq))]
      have hρ : ρ = dir virt := hs.placed r hr r hr _ _ q hq (hqt ▸ ht)
      have hle := hpre.length_le
      simp [hρ] at hle
    have hleaf : m'.mem t (vpn virt 3) =
        n ||| Pte.flags (m.mem t (vpn virt 3)) ||| pteWritable := by
      simp [← hm', Machine.write]
    exact ⟨t, n, hwalk.trans ht, hleaf ▸ hnext, by rw [hleaf]; simp⟩

end Leaf

theorem cowRemapIn_spec (hs : Sharing m roots) (hr : r ∈ roots)
    (hp : At next m.mem r (path virt) p) (h : m.cowRemapIn r virt = (true, m')) :
    Resolved m m' roots r virt := by
  simp only [Machine.cowRemapIn] at h
  split at h
  · cases h
  next t m₁ hwalk =>
  have hopen := cowWalkPte_spec hs hr hp hwalk
  obtain ⟨q, hq⟩ := hopen.entry (π := []) hr hp
  have hword : ∀ r' ∈ roots, ∀ va', userWord m₁ r' va' = userWord m r' va' := fun r' hr' va' =>
    hopen.content r' hr' _ _ (by simp)
  obtain rfl : Pte.addr (m₁.mem t (vpn virt 3)) = q := (next_eq_some.mp hq).2.2
  -- what remains is the leaf entry, which is there and not writable
  have hleaf : Resolved m₁ m' roots r virt := by
    split at h
    · cases h
    split at h
    · cases h
    split at h
    · next hrefc =>
      cases h
      exact leaf_in_place hopen.sharing hr hopen.table hopen.sole hq hrefc
    · split at h
      · cases h
      next n m₂ halloc =>
      cases h
      exact leaf_copy hopen.sharing hr hopen.table hopen.sole hq halloc
  exact ⟨hleaf.sharing, fun r' hr' va' => (hleaf.word r' hr' va').trans (hword r' hr' va'),
    hleaf.leaf⟩

theorem pageFaultResolve_writeFault {b : Bool}
    (h : m.pageFaultResolve r virt writeFault 3 = (b, m')) (hb : b = true) :
    m.cowRemapIn r virt = (true, m') := by
  subst hb
  unfold Machine.pageFaultResolve at h
  split at h
  · cases h
  · simp only [writeFault] at h
    rcases hc : m.cowRemapIn r virt with ⟨done, m₁⟩
    simp [hc] at h
    split at h
    · next hdone => simp_all
    · cases h

/-! ### Faults that are not resolved -/

/-- The allocator is where a refused request for a zeroed page left it. -/
def OutOfMemory (m : Machine) : Prop := ∃ b : Buddy, b.allocZeroedPage = (none, m.buddy)

theorem allocZeroedPage_none (h : m.allocZeroedPage = (none, m')) : OutOfMemory m' := by
  unfold Machine.allocZeroedPage at h
  split at h
  · cases h
  · next b hb =>
    cases h
    exact ⟨m.buddy, hb⟩

theorem cowTable_none (h : m.cowTable t i = (none, m')) : OutOfMemory m' := by
  simp only [Machine.cowTable] at h
  split at h
  · split at h
    · next m₁ halloc =>
      cases h
      exact allocZeroedPage_none halloc
    · cases h
  · cases h

/-- The walk to a mapped page ends early only when a table cannot be copied. -/
theorem cowWalkPte_none (hs : Sharing m roots) (hr : r ∈ roots)
    (hp : At next m.mem r (path virt) p) (h : m.cowWalkPte r virt = (none, m')) :
    OutOfMemory m' := by
  have hroot : Opened m m roots r [] r := Opened.root hs
  obtain ⟨c₁, hc₁⟩ := hroot.entry (π := [vpn virt 1, vpn virt 2, vpn virt 3]) hr hp
  simp only [Machine.cowWalkPte, (next_eq_some.mp hc₁).1, Bool.not_true, Bool.false_eq_true,
    if_false] at h
  split at h
  · next m₁ hnone =>
    cases h
    exact cowTable_none hnone
  next pdpt m₁ hpdpt =>
  have hopen₁ := cowTable_spec hs hr hroot.table hroot.sole hc₁ (by decide) hpdpt
  obtain ⟨c₂, hc₂⟩ := hopen₁.entry (π := [vpn virt 2, vpn virt 3]) hr hp
  have hleads₂ : Pte.huge (m₁.mem pdpt (vpn virt 1)) = false := by
    have hl := (next_eq_some.mp hc₂).2.1
    simp_all [leads]
  simp only [(next_eq_some.mp hc₂).1, hleads₂, Bool.not_true, Bool.or_self, Bool.false_eq_true,
    if_false] at h
  split at h
  · next m₂ hnone =>
    cases h
    exact cowTable_none hnone
  next pd m₂ hpd =>
  have hopen₂ := hopen₁.trans
    (cowTable_spec hopen₁.sharing hr hopen₁.table hopen₁.sole hc₂ (by simp) hpd)
  obtain ⟨c₃, hc₃⟩ := hopen₂.entry (π := [vpn virt 3]) hr hp
  have hleads₃ : Pte.huge (m₂.mem pd (vpn virt 2)) = false := by
    have hl := (next_eq_some.mp hc₃).2.1
    simp_all [leads]
  simp only [(next_eq_some.mp hc₃).1, hleads₃, Bool.not_true, Bool.or_self, Bool.false_eq_true,
    if_false] at h
  exact cowTable_none h

theorem cowRemapIn_false {e : Nat} (hs : Sharing m roots) (hr : r ∈ roots)
    (hp : At next m.mem r (path virt) p)
    (he : content next m.mem r (dir virt) (vpn virt 3) = some e) (hw : Pte.writable e = false)
    (h : m.cowRemapIn r virt = (false, m')) : OutOfMemory m' := by
  simp only [Machine.cowRemapIn] at h
  split at h
  · next m₁ hnone =>
    cases h
    exact cowWalkPte_none hs hr hp hnone
  next t m₁ hwalk =>
  have hopen := cowWalkPte_spec hs hr hp hwalk
  obtain ⟨q, hq⟩ := hopen.entry (π := []) hr hp
  -- the entry itself is as it was
  have hentry : m₁.mem t (vpn virt 3) = e := by
    have hc := (hopen.content r hr (dir virt) (vpn virt 3) (le_refl _)).trans he
    rw [content, show walk next m₁.mem 0 r (dir virt) = some t from hopen.table] at hc
    exact Option.some.inj hc
  rw [hentry] at hq
  simp only [hentry, (next_eq_some.mp hq).1, hw, Bool.not_true, Bool.false_eq_true, if_false] at h
  split at h
  · cases h
  split at h
  · next m₂ hnone =>
    cases h
    exact allocZeroedPage_none hnone
  · cases h

/-! ### Stores -/

theorem storeWord_eq {va w : Nat} (h : m.storeWord r va w = some m') :
    ∃ t p, At next m.mem r (dir va) t ∧ next 3 (vpn va 3) (m.mem t (vpn va 3)) = some p ∧
      Pte.writable (m.mem t (vpn va 3)) = true ∧ m' = m.write p (wordIdx va) w := by
  unfold Machine.storeWord at h
  split at h
  · cases h
  next e he =>
  split at h
  · cases h
  next p hp =>
  split at h
  · next hw =>
    obtain ⟨t, ht, rfl⟩ := Option.map_eq_some_iff.mp he
    exact ⟨t, p, ht, hp, hw, (Option.some.inj h).symm⟩
  · cases h

/-- A store is visible in its own address space, at its own word, and nowhere else. -/
theorem storeWord_spec {va w : Nat} (hs : Sharing m roots) (hr : r ∈ roots) (hva : va < 2 ^ 47)
    (h : m.storeWord r va w = some m') :
    Sharing m' roots ∧ ∀ r' ∈ roots, ∀ va' < 2 ^ 47, userWord m' r' va' =
      if r' = r ∧ va' / 8 = va / 8 then some w else userWord m r' va' := by
  obtain ⟨t, p, ht, hp, hw, rfl⟩ := storeWord_eq h
  have hsole : Sole next m.mem roots r (path va) p :=
    hs.writable r hr (dir va) t (vpn va 3) p rfl ht hp hw
  have hpage : At next m.mem r (path va) p := ht.concat hp
  have hplace : ∀ r' ∈ roots, ∀ π, At next m.mem r' π p → π = path va := fun r' hr' π h =>
    hs.placed r' hr' r hr π _ p h hpage
  have hother : ∀ q, q ≠ p → (m.write p (wordIdx va) w).mem q = m.mem q := fun q hq => by
    simp [Machine.write, Function.update_of_ne hq]
  have hwalk : ∀ r' ∈ roots, ∀ π,
      walk next (m.write p (wordIdx va) w).mem 0 r' π = walk next m.mem 0 r' π := by
    intro r' hr' π
    refine walk_write_leaf hr' (fun r'' hr'' π j e h => next_deep ?_) hother
    rw [hplace r'' hr'' π h, length_path]
  have hne : ∀ r' ∈ roots, ∀ π q, π.length ≠ 4 → At next m.mem r' π q → q ≠ p := by
    intro r' hr' π q hlen hq hqp
    exact hlen (by rw [hplace r' hr' π (hqp ▸ hq), length_path])
  refine ⟨hs.same_walks hwalk hs.wf (fun _ => id) (Steady.refl _) (fun _ _ _ _ _ _ => le_refl _)
    (fun r' hr' π t' i q hlen ht' hq hw' => ?_) rfl (fun i => ?_) (fun r' hr' i hi => ?_),
    fun r' hr' va' hva' => ?_⟩
  · rw [hother t' (hne r' hr' π t' (by omega) ht')] at hq hw'
    exact hs.writable r' hr' π t' i q hlen ht' hq hw'
  · rw [hother _ fun hk => hs.kernel_fresh r hr _ (hk ▸ hpage)]
  · rw [hother r' (hne r' hr' [] r' (by simp) walk_nil)]
    exact hi
  · rw [userWord, userWord, content, content, hwalk r' hr']
    split
    · next hsame =>
      -- the same word of the same address space
      obtain ⟨rfl, hdiv⟩ := hsame
      obtain ⟨hpath, hword⟩ := path_congr hdiv
      rw [hpath, show walk next m.mem 0 r' (path va) = some p from hpage, hword]
      simp [Machine.write]
    · next hdiff =>
      cases hq : walk next m.mem 0 r' (path va') with
      | none => rfl
      | some q =>
        refine congrArg some ?_
        by_cases hqp : q = p
        · subst hqp
          have hpath := hplace r' hr' _ hq
          have hr'' : r' = r := hsole r' hr' (hpath ▸ hq)
          have hword : wordIdx va' ≠ wordIdx va := fun hword =>
            hdiff ⟨hr'', word_eq hva' hva hpath hword⟩
          simp [Machine.write, Function.update_of_ne hword]
        · exact congrFun (hother q hqp) _

theorem userStore_spec {va w : Nat} (hs : Sharing m roots) (hr : r ∈ roots) (hva : va < 2 ^ 47)
    (h : m.userStore r va w = some m') :
    Sharing m' roots ∧ ∀ r' ∈ roots, ∀ va' < 2 ^ 47, userWord m' r' va' =
      if r' = r ∧ va' / 8 = va / 8 then some w else userWord m r' va' := by
  unfold Machine.userStore at h
  split at h
  · next m₁ hstore =>
    cases h
    exact storeWord_spec hs hr hva hstore
  split at h
  · cases h
  next hmapped =>
  obtain ⟨p, hp⟩ : ∃ p, userPage m r va = some p := by
    simpa [Option.isNone_iff_eq_none, ← Option.ne_none_iff_exists'] using hmapped
  split at h
  · next m₁ hfault =>
    have hres := cowRemapIn_spec hs hr hp (pageFaultResolve_writeFault hfault rfl)
    obtain ⟨hs', hword⟩ := storeWord_spec hres.sharing hr hva h
    refine ⟨hs', fun r' hr' va' hva' => ?_⟩
    rw [hword r' hr' va' hva', hres.word r' hr']
  · cases h

theorem storeWord_of_leaf {va w : Nat} (ht : At next m.mem r (dir va) t)
    (hp : next 3 (vpn va 3) (m.mem t (vpn va 3)) = some p)
    (hw : Pte.writable (m.mem t (vpn va 3)) = true) :
    m.storeWord r va w = some (m.write p (wordIdx va) w) := by
  have hc : content next m.mem r (dir va) (vpn va 3) = some (m.mem t (vpn va 3)) := by
    rw [content, show walk next m.mem 0 r (dir va) = some t from ht]
    rfl
  simp [Machine.storeWord, hc, hp, hw]

/-- A store to a mapped page is performed, unless the allocator refuses a page on the way. -/
theorem userStore_performed {va : Nat} (w : Nat) (hs : Sharing m roots) (hr : r ∈ roots)
    (hr0 : r ≠ 0) (hp : userPage m r va = some p) :
    (m.userStore r va w).isSome = true ∨
      OutOfMemory (m.pageFaultResolve r va writeFault 3).2 := by
  obtain ⟨t, ht, hleaf⟩ := At.of_concat (show At next m.mem r (dir va ++ [vpn va 3]) p from hp)
  cases hw : Pte.writable (m.mem t (vpn va 3)) with
  | true =>
    left
    simp [Machine.userStore, storeWord_of_leaf ht hleaf hw]
  | false =>
    have hc : content next m.mem r (dir va) (vpn va 3) = some (m.mem t (vpn va 3)) := by
      rw [content, show walk next m.mem 0 r (dir va) = some t from ht]
      rfl
    have hnone : m.storeWord r va w = none := by
      simp [Machine.storeWord, hc, show next 3 (vpn va 3) (m.mem t (vpn va 3)) = some p from hleaf,
        hw]
    rcases hres : m.cowRemapIn r va with ⟨done, m₁⟩
    have hfault : m.pageFaultResolve r va writeFault 3 = (done, m₁) := by
      cases done <;> simp [Machine.pageFaultResolve, hr0, writeFault, hres]
    cases done with
    | false =>
      right
      rw [hfault]
      exact cowRemapIn_false hs hr hp hc hw hres
    | true =>
      left
      obtain ⟨t', p', ht', hp', hw'⟩ := (cowRemapIn_spec hs hr hp hres).leaf
      simp [Machine.userStore, hnone, hp, hfault, storeWord_of_leaf ht' hp' hw']

end Rynex.Paging
