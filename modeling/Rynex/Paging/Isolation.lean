import Rynex.Paging.Fault
import Rynex.Paging.ForkSpec

/-! Isolation: address spaces that share their pages by copy-on-write read as if each had a
private memory, copied from its parent at the fork. The private memories are the specification;
runs of the machine refine runs of it. -/

namespace Rynex.Paging

open Rynex.Memory Rynex.Lib Rynex.Lib.Radix

def maxTasks : Nat := 64

/-- What the user half of the address spaces goes through: address space `i` forks, or stores the
word `w` at `va`. -/
inductive Event where
  | fork (i : Nat)
  | store (i va w : Nat)
deriving DecidableEq, Repr

/-! ### Private memories -/

/-- The word at each user address, where one is mapped. -/
abbrev View := Nat → Option Nat

/-- A store overlays the word that holds `va`. -/
def View.store (v : View) (va w : Nat) : View :=
  fun va' => if va' / 8 = va / 8 then some w else v va'

/-- With private memories, a fork copies the memory of its parent, and a store is seen by the one
who made it. -/
def privateStep (views : List View) : Event → List View
  | .fork i => views ++ views[i]?.toList
  | .store i va w => views.modify i fun v => v.store va w

/-! ### The machine -/

/-- The machine with the PML4s of its address spaces, in the order they were made. -/
structure Spaces where
  machine : Machine
  pml4s : List Nat

namespace Spaces

/-- One event on the machine; `none` when it cannot be carried out. -/
def step (s : Spaces) : Event → Option Spaces
  | .fork i =>
    match s.pml4s[i]? with
    | none => none
    | some old =>
      if s.pml4s.length < maxTasks then
        match s.machine.cowForkPml4 old with
        | (none, _) => none
        | (some new, m) => some ⟨m, s.pml4s ++ [new]⟩
      else none
  | .store i va w =>
    match s.pml4s[i]? with
    | none => none
    | some pml4 =>
      if va < 2 ^ 47 then (s.machine.userStore pml4 va w).map fun m => ⟨m, s.pml4s⟩ else none

end Spaces

/-- A user address space as the loader builds it, alone on the machine: its tables are live and
form a tree with its user pages, none of these pages is free, every user page has a count, and the
kernel's low entries are in its PML4. -/
structure UserSpace (m : Machine) (pml4 : Nat) : Prop where
  wf : m.buddy.pool.Wf
  limit_le : m.buddy.limit ≤ identityLimit
  nonzero : pml4 ≠ 0
  tree : ∀ π π' p, At next m.mem pml4 π p → At next m.mem pml4 π' p → π = π'
  held : ∀ π p, At next m.mem pml4 π p → ¬ m.buddy.pool.AvailAt p
  live : ∀ π p, π.length ≤ 3 → At next m.mem pml4 π p → m.liveTable p = true
  tracked : ∀ π p, π.length = 4 → At next m.mem pml4 π p → Machine.refcIdx p < maxRefcPages
  kernel : ∀ i < 2, Pte.present (m.mem m.kernelPml4 i) = true → Pte.present (m.mem pml4 i) = true
  kernel_fresh : ∀ π, ¬ At next m.mem pml4 π m.kernelPml4
  kernel_held : ¬ m.buddy.pool.AvailAt m.kernelPml4

theorem UserSpace.sharing {m : Machine} {pml4 : Nat} (h : UserSpace m pml4) :
    Sharing m {pml4} := by
  constructor
  case wf => exact h.wf
  case limit_le => exact h.limit_le
  case placed =>
    intro r hr r' hr' π π' p hp hp'
    rw [Finset.mem_singleton] at hr hr'
    subst hr hr'
    exact h.tree π π' p hp hp'
  case held => simpa using h.held
  case live => simpa using h.live
  case tracked => simpa using h.tracked
  case counted =>
    intro r hr π p hπ hp
    exact le_max_of_le_left (owners_le.trans (by simp))
  case writable =>
    intro r hr π t i p hlen ht hp hw r' hr' _
    rw [Finset.mem_singleton] at hr hr'
    rw [hr, hr']
  case kernel => simpa using h.kernel
  case kernel_fresh => simpa [Fresh] using h.kernel_fresh
  case kernel_held => exact h.kernel_held

/-! ### Refinement -/

/-- The address space reads the private memory. -/
def Reads (m : Machine) (pml4 : Nat) (v : View) : Prop :=
  ∀ va < 2 ^ 47, userWord m pml4 va = v va

/-- The machine and the private memories agree, and sharing is sound. -/
structure Refines (s : Spaces) (views : List View) : Prop where
  sharing : Sharing s.machine s.pml4s.toFinset
  nodup : s.pml4s.Nodup
  nonzero : ∀ r ∈ s.pml4s, r ≠ 0
  length_le : s.pml4s.length ≤ maxTasks
  length_eq : views.length = s.pml4s.length
  reads : ∀ {i : Nat} {r v}, s.pml4s[i]? = some r → views[i]? = some v → Reads s.machine r v

variable {s s' : Spaces} {views : List View} {m m' : Machine} {i old new va w : Nat}

theorem Refines.start {pml4 : Nat} (h : UserSpace m pml4) :
    Refines ⟨m, [pml4]⟩ [userWord m pml4] := by
  refine ⟨by simpa using h.sharing, by simp, by simpa using h.nonzero, by simp [maxTasks], rfl, ?_⟩
  intro i r v hr hv va _
  cases i with
  | zero =>
    obtain rfl : pml4 = r := by simpa using hr
    obtain rfl : userWord m pml4 = v := by simpa using hv
    rfl
  | succ i => simp at hr

theorem Refines.fork (h : Refines s views) (hi : s.pml4s[i]? = some old)
    (hlen : s.pml4s.length < maxTasks) (hf : s.machine.cowForkPml4 old = (some new, m')) :
    Refines ⟨m', s.pml4s ++ [new]⟩ (privateStep views (.fork i)) := by
  have hmem : ∀ {i : Nat} {r}, s.pml4s[i]? = some r → r ∈ s.pml4s.toFinset := fun hr =>
    List.mem_toFinset.mpr (List.mem_of_getElem? hr)
  have hcard : s.pml4s.toFinset.card < u8Max := by
    refine (List.toFinset_card_le _).trans_lt (hlen.trans_le ?_)
    decide
  obtain ⟨hnew0, hfresh, hsharing, hold, hchild⟩ := cowForkPml4_spec h.sharing (hmem hi) hcard hf
  obtain ⟨vold, hvold⟩ : ∃ v, views[i]? = some v := by
    have hlt := (List.getElem?_eq_some_iff.mp hi).1
    exact ⟨_, List.getElem?_eq_getElem (h.length_eq ▸ hlt)⟩
  have hviews : privateStep views (.fork i) = views ++ [vold] := by simp [privateStep, hvold]
  rw [hviews]
  refine ⟨?_, ?_, ?_, ?_, by simp [h.length_eq], ?_⟩
  · simpa [Finset.union_comm] using hsharing
  · rw [List.nodup_append]
    refine ⟨h.nodup, List.nodup_singleton _, fun a ha b hb hab => hfresh ?_⟩
    rw [List.mem_singleton] at hb
    exact List.mem_toFinset.mpr (hb ▸ hab ▸ ha)
  · intro r hr
    rcases List.mem_append.mp hr with hr | hr
    · exact h.nonzero r hr
    · rw [List.mem_singleton.mp hr]; exact hnew0
  · simpa using hlen
  · intro j r v hr hv va hva
    by_cases hj : j < s.pml4s.length
    · rw [List.getElem?_append_left hj] at hr
      rw [List.getElem?_append_left (h.length_eq ▸ hj)] at hv
      rw [hold r (hmem hr)]
      exact h.reads hr hv va hva
    · rw [List.getElem?_append_right (by omega)] at hr
      rw [List.getElem?_append_right (by have := h.length_eq; omega), h.length_eq] at hv
      obtain ⟨rfl, hj0⟩ : r = new ∧ j - s.pml4s.length = 0 := by
        cases hk : j - s.pml4s.length with
        | zero => rw [hk] at hr; simpa using hr.symm
        | succ k => rw [hk] at hr; simp at hr
      obtain rfl : vold = v := by simpa [hj0] using hv
      rw [hchild]
      exact h.reads hi hvold va hva

theorem Refines.store {pml4 : Nat} (h : Refines s views) (hi : s.pml4s[i]? = some pml4)
    (hva : va < 2 ^ 47) (hf : s.machine.userStore pml4 va w = some m') :
    Refines ⟨m', s.pml4s⟩ (privateStep views (.store i va w)) := by
  have hmem : ∀ {i : Nat} {r}, s.pml4s[i]? = some r → r ∈ s.pml4s.toFinset := fun hr =>
    List.mem_toFinset.mpr (List.mem_of_getElem? hr)
  obtain ⟨hsharing, hword⟩ := userStore_spec h.sharing (hmem hi) hva hf
  refine ⟨hsharing, h.nodup, h.nonzero, h.length_le, by simp [privateStep, h.length_eq], ?_⟩
  intro j r v hr hv va' hva'
  rw [hword r (hmem hr) va' hva']
  simp only [privateStep, List.getElem?_modify] at hv
  obtain ⟨v₀, hv₀, rfl⟩ := Option.map_eq_some_iff.mp hv
  have hread := h.reads hr hv₀ va' hva'
  by_cases hij : i = j
  · subst hij
    obtain rfl : pml4 = r := Option.some.inj (hi.symm.trans hr)
    simp [View.store, hread]
  · have hne : r ≠ pml4 := fun hrp => hij <| by
      subst hrp
      have hlt := (List.getElem?_eq_some_iff.mp hi).1
      exact (List.getElem?_inj hlt h.nodup).mp (hi.trans hr.symm)
    simp [hij, hne, hread]

theorem Refines.step {e : Event} (h : Refines s views) (hs : s.step e = some s') :
    Refines s' (privateStep views e) := by
  cases e with
  | fork i =>
    simp only [Spaces.step] at hs
    split at hs
    · cases hs
    next old hi =>
    split at hs
    · next hlen =>
      split at hs
      · cases hs
      next new m' hf =>
      cases hs
      exact h.fork hi hlen hf
    · cases hs
  | store i va w =>
    simp only [Spaces.step] at hs
    split at hs
    · cases hs
    next pml4 hi =>
    split at hs
    · next hva =>
      obtain ⟨m', hf, rfl⟩ := Option.map_eq_some_iff.mp hs
      exact h.store hi hva hf
    · cases hs

theorem Refines.run {es : List Event} (h : Refines s views)
    (hs : es.foldlM Spaces.step s = some s') :
    Refines s' (es.foldl privateStep views) := by
  induction es generalizing s views with
  | nil =>
    cases hs
    exact h
  | cons e es ih =>
    rw [List.foldlM_cons] at hs
    obtain ⟨s₁, hs₁, hs⟩ := Option.bind_eq_some_iff.mp hs
    exact ih (h.step hs₁) hs

/-- Copy-on-write isolation: after any run of forks and stores from one user address space, each
address space reads its private memory, the snapshot of its parent at the fork overlaid with its
own stores. And a store to a mapped page is performed, unless memory runs out. -/
theorem cow_isolation {pml4 : Nat} (h : UserSpace m pml4) (es : List Event)
    (hrun : es.foldlM Spaces.step ⟨m, [pml4]⟩ = some s) :
    (∀ (i : Nat) r, s.pml4s[i]? = some r →
      ∃ v, (es.foldl privateStep [userWord m pml4])[i]? = some v ∧
        ∀ va < 2 ^ 47, userWord s.machine r va = v va) ∧
    ∀ (i : Nat) r va w, s.pml4s[i]? = some r → va < 2 ^ 47 →
      (userPage s.machine r va).isSome = true →
      (s.step (.store i va w)).isSome = true ∨
        OutOfMemory (s.machine.pageFaultResolve r va writeFault 3).2 := by
  have href := (Refines.start h).run hrun
  refine ⟨fun i r hi => ?_, fun i r va w hi hva hp => ?_⟩
  · have hlt := (List.getElem?_eq_some_iff.mp hi).1
    have hv := List.getElem?_eq_getElem (href.length_eq ▸ hlt)
    exact ⟨_, hv, href.reads hi hv⟩
  · have hmem := List.mem_of_getElem? hi
    obtain ⟨p, hp⟩ := Option.isSome_iff_exists.mp hp
    rcases userStore_performed w href.sharing (List.mem_toFinset.mpr hmem) (href.nonzero r hmem) hp
      with hdone | hoom
    · left
      simpa only [Spaces.step, hi, hva, if_true, Option.isSome_map] using hdone
    · exact .inr hoom

/-! ### One page, one fork -/

/-- A machine whose first managed pages are a PML4, a PDPT, a page directory, a page table and the
user page that they map at address 0. -/
def onePage : Machine where
  buddy := { (Buddy.init 0x200000 16).addRegion 0x208000 0x8000 with
    used := fun i => i < 5
    pageType := fun i => if i < 5 then .pte else .free }
  mem := fun p i =>
    if i = 0 ∧ 0x200000 ≤ p ∧ p < 0x204000 then p + 0x1000 + 7
    else if i = 0 ∧ p = 0x204000 then 42
    else 0
  pageRefc := fun _ => 0
  kernelPml4 := 0x1000
  vmas := []

/-- Tables that follow one another in memory, each leading to the next by its first entry alone. -/
theorem at_chain {lead : Nat → Nat → Nat → Option Nat} {mem : Nat → Nat → Nat} {π : List Nat}
    {depth p : Nat} (h : At lead mem 0x200000 π p)
    (hlead : ∀ k ≤ depth, ∀ i q, lead k i (mem (0x200000 + k * 0x1000) i) = some q →
      k ≠ depth ∧ i = 0 ∧ q = 0x200000 + (k + 1) * 0x1000) :
    π.length ≤ depth ∧ π = List.replicate π.length 0 ∧ p = 0x200000 + π.length * 0x1000 := by
  induction π using List.reverseRecOn generalizing p with
  | nil => exact ⟨by simp, rfl, (Option.some.inj h).symm⟩
  | append_singleton π i ih =>
    obtain ⟨t, ht, hp⟩ := h.of_concat
    obtain ⟨hlen, hπ, rfl⟩ := ih ht
    obtain ⟨hne, rfl, rfl⟩ := hlead π.length hlen i p hp
    rw [List.length_append, List.length_singleton]
    refine ⟨by omega, ?_, rfl⟩
    rw [List.replicate_succ', ← hπ]

theorem onePage_at {π : List Nat} {p : Nat} (h : At next onePage.mem 0x200000 π p) :
    π.length ≤ 4 ∧ π = List.replicate π.length 0 ∧ p = 0x200000 + π.length * 0x1000 := by
  refine at_chain h fun k hk i q hq => ?_
  have h4 : k ≠ 4 := by
    rintro rfl
    rw [next_deep (le_refl 4)] at hq
    cases hq
  obtain rfl : i = 0 := by
    by_contra hi
    have hzero : onePage.mem (0x200000 + k * 0x1000) i = 0 := by simp [onePage, hi]
    rw [hzero, next_zero] at hq
    cases hq
  have haddr : ∀ k < 4, Pte.addr (onePage.mem (0x200000 + k * 0x1000) 0) =
      0x200000 + (k + 1) * 0x1000 := by decide
  exact ⟨h4, rfl, by rw [← (next_eq_some.mp hq).2.2, haddr k (by omega)]⟩

theorem onePage_avail : onePage.buddy.pool.Wf ∧
    ∀ x, onePage.buddy.pool.AvailAt x → 0x208000 ≤ x := by
  have hempty : ∀ x, ¬ (Buddy.init 0x200000 16).pool.AvailAt x := by
    rintro x (⟨o, a, hm, -⟩ | ⟨p, hm, -⟩)
    · cases hm
    · cases hm
  have hregion : Buddy.Gains (Buddy.init 0x200000 16)
      ((Buddy.init 0x200000 16).addRegion 0x208000 0x8000) _ :=
    Buddy.addRegion_spec (Pool.wf_empty _ _ _) (by decide) (by decide) (by decide)
      fun x _ => hempty x
  refine ⟨hregion.wf, fun x hx => ?_⟩
  rcases hx with hf | ⟨p, hm, -⟩
  · rcases hregion.sub x hf with ⟨o, a, hm, -⟩ | h
    · cases hm
    · exact h.1
  · have hq : onePage.buddy.pool.qContents = [] := hregion.queue
    rw [hq] at hm
    cases hm

theorem onePage_userSpace : UserSpace onePage 0x200000 := by
  obtain ⟨hwf, havail⟩ := onePage_avail
  have hbase : onePage.buddy.base = 0x200000 := by decide
  have hpages : onePage.buddy.pages = 16 := by decide
  have hlow : ∀ {π p}, At next onePage.mem 0x200000 π p → 0x200000 ≤ p ∧ p < 0x205000 := by
    intro π p h
    obtain ⟨hlen, -, rfl⟩ := onePage_at h
    omega
  constructor
  case wf => exact hwf
  case limit_le => simp [Buddy.limit, hbase, hpages, pageSize, identityLimit]
  case nonzero => decide
  case tree =>
    intro π π' p h h'
    obtain ⟨-, hπ, hp⟩ := onePage_at h
    obtain ⟨-, hπ', hp'⟩ := onePage_at h'
    rw [hπ, hπ', show π.length = π'.length by omega]
  case held =>
    intro π p h hx
    have := hlow h
    have := havail p hx
    omega
  case live =>
    intro π p hlen h
    obtain ⟨-, -, rfl⟩ := onePage_at h
    have hall : ∀ k < 4, onePage.liveTable (0x200000 + k * 0x1000) = true := by decide
    exact hall π.length (by omega)
  case tracked =>
    intro π p hlen h
    have := hlow h
    simp only [Machine.refcIdx, Nat.shiftRight_eq_div_pow, maxRefcPages]
    omega
  case kernel => decide
  case kernel_fresh =>
    intro π h
    have := hlow h
    simp [onePage] at this
  case kernel_held =>
    intro hx
    have := havail _ hx
    simp [onePage] at this

/-- The parent writes to its page and forks; the child reads what the parent wrote. -/
theorem cow_isolation_one_page : ∃ s : Spaces,
    [Event.store 0 0 7, .fork 0].foldlM Spaces.step ⟨onePage, [0x200000]⟩ = some s ∧
      ∃ r, s.pml4s[1]? = some r ∧ userWord s.machine r 0 = some 7 := by
  have hstore : Spaces.step ⟨onePage, [0x200000]⟩ (.store 0 0 7) =
      some ⟨onePage.write 0x204000 0 7, [0x200000]⟩ := by
    have hleaf : onePage.storeWord 0x200000 0 7 = some (onePage.write 0x204000 0 7) :=
      storeWord_of_leaf (t := 0x203000) (by unfold At; decide) (by decide)
        (by decide)
    simp [Spaces.step, Machine.userStore, hleaf]
  obtain ⟨n, halloc⟩ : ∃ n, (onePage.write 0x204000 0 7).allocZeroedPage.1 = some n :=
    ⟨0x208000, by decide⟩
  obtain ⟨m', hfork⟩ : ∃ m', (onePage.write 0x204000 0 7).cowForkPml4 0x200000 = (some n, m') := by
    rcases hz : (onePage.write 0x204000 0 7).allocZeroedPage with ⟨p, m₁⟩
    rw [hz] at halloc
    obtain rfl : p = some n := halloc
    rw [Machine.cowForkPml4, hz]
    exact ⟨_, rfl⟩
  have hrun : [Event.store 0 0 7, .fork 0].foldlM Spaces.step ⟨onePage, [0x200000]⟩ =
      some ⟨m', [0x200000, n]⟩ := by
    rw [List.foldlM_cons, hstore]
    simp [Spaces.step, hfork, maxTasks]
  obtain ⟨v, hv, hread⟩ := (cow_isolation onePage_userSpace _ hrun).1 1 n rfl
  refine ⟨_, hrun, n, rfl, (hread 0 (by decide)).trans ?_⟩
  obtain rfl : View.store (userWord onePage 0x200000) 0 7 = v := by
    simpa [privateStep] using hv
  rfl

end Rynex.Paging
