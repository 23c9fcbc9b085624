import Rynex.Paging.Stays

/-! Page faults make progress. An access of user mode that faults is executed again whenever
`page_fault_resolve` says that it resolved the fault. On a tree-shaped address space each such call
comes closer to a present and writable page, and it touches the translation of no other page. -/

namespace Rynex.Paging

open Rynex.Memory Rynex.Lib Rynex.Lib.Radix

variable {m m' : Machine} {a va virt : Nat}

/-! ### Accesses -/

/-- What user mode does with an address. -/
inductive Access where
  | read
  | write
  | fetch
deriving DecidableEq, Repr

/-- No entry on the way to `va` forbids the execution of code. -/
def executable (m : Machine) (va : Nat) : Nat → Nat → Bool
  | 0, t => m.mem t (vpn va 3) &&& pteNoExecute == 0
  | levels + 1, t =>
    let e := m.mem t (vpn va (2 - levels))
    e &&& pteNoExecute == 0 && (levels ≠ 2 && Pte.huge e || executable m va levels (Pte.addr e))

/-- The error code of the fault that the access raises, if it raises one: bit 0 says that the page
is present, bit 1 that it was a write, bit 2 user mode and bit 4 an instruction fetch. -/
def faultCode (m : Machine) (a va : Nat) (k : Access) : Option Nat :=
  let bits := match k with
    | .read => 4
    | .write => 4 ||| 2
    | .fetch => 4 ||| 16
  match view m a va with
  | none => some bits
  | some (_, w, u) =>
    let allowed := match k with
      | .read => u
      | .write => u && w
      | .fetch => u && executable m va 3 a
    if allowed then none else some (bits ||| 1)

/-- A call of `page_fault_resolve`: the machine before it, its answer and the machine after it. -/
structure FaultCall where
  before : Machine
  done : Bool
  after : Machine

/-- The access is executed until it raises no fault (`some true`) or a fault is not resolved
(`some false`), or until more than `budget` faults were resolved (`none`); with the calls made. -/
def reexecute (a va : Nat) (k : Access) (budget : Nat) (m : Machine) :
    Option Bool × List FaultCall :=
  match faultCode m a va k with
  | none => (some true, [])
  | some code =>
    match m.pageFaultResolve a va code 3 with
    | (false, m') => (some false, [⟨m, false, m'⟩])
    | (true, m') =>
      match budget with
      | 0 => (none, [⟨m, true, m'⟩])
      | budget + 1 =>
        ((reexecute a va k budget m').1, ⟨m, true, m'⟩ :: (reexecute a va k budget m').2)

theorem faultCode_bits {k : Access} {code : Nat} (h : faultCode m a va k = some code) :
    (code &&& 2 != 0) = decide (k = .write) ∧ (code &&& 1 != 0) = (view m a va).isSome := by
  unfold faultCode at h
  cases hv : view m a va with
  | none =>
    simp only [hv, Option.some.injEq] at h
    subst h
    cases k <;> decide
  | some v =>
    cases k <;>
    · simp only [hv] at h
      split_ifs at h
      obtain rfl := Option.some.inj h
      exact ⟨by decide, by rw [Option.isSome_some]; decide⟩

/-! ### Progress -/

/-- How many faults may still be resolved: none once the leaf entry is present and writable, one
while the page is present, two while it is not. -/
def rank (m : Machine) (a va : Nat) : Nat :=
  if (leafOf m a va).any fun e => Pte.present e && Pte.writable e then 0
  else if (view m a va).isSome then 1
  else 2

theorem rank_le (m : Machine) (a va : Nat) : rank m a va ≤ 2 := by
  unfold rank
  split
  · decide
  split <;> decide

theorem view_of_leaf {e : Nat} (h : leafOf m a va = some e) (hp : Pte.present e = true) :
    (view m a va).isSome = true := by
  have hf := frameAt_of_leaf h hp
  rw [frameAt] at hf
  obtain ⟨v, hv, -⟩ := Option.map_eq_some_iff.mp hf
  rw [hv]
  rfl

theorem rank_of_none (h : view m a va = none) : rank m a va = 2 := by
  rw [rank, if_neg, h]
  · rfl
  cases hl : leafOf m a va with
  | none => simp
  | some e =>
    rintro he
    simp only [Option.any_some, Bool.and_eq_true] at he
    have hv := view_of_leaf hl he.1
    rw [h] at hv
    cases hv

/-- What a call of the handler for a fault of the access does. A fault on a present page is resolved
for a write alone, and then the leaf entry lacked the write bit. -/
structure Handled (m m' : Machine) (a va : Nat) (k : Access) (done : Bool) : Prop where
  elsewhere : Elsewhere m m' a va
  stays : done = false → Stays m m' a
  closer : done = true → rank m' a va < rank m a va
  zero : done = true → view m a va = none →
    ∃ vma p, m.vmaFind a va = some vma ∧ ZeroPage m' a va vma.flags p
  found : done = true → view m a va ≠ none → k = .write ∧
    ∃ e, leafOf m a va = some e ∧ Pte.present e = true ∧ Pte.writable e = false

theorem Handled.refused (h : Stays m m' a) (va : Nat) (k : Access) : Handled m m' a va k false :=
  ⟨h.elsewhere va, fun _ => h, nofun, nofun, nofun⟩

theorem TreeShaped.resolve {k : Access} {code : Nat} {done : Bool} (h : TreeShaped m a)
    (hcode : faultCode m a va k = some code) (hm : m.pageFaultResolve a va code 3 = (done, m')) :
    Handled m m' a va k done := by
  obtain ⟨hwrite, hpresent⟩ := faultCode_bits hcode
  unfold Machine.pageFaultResolve at hm
  simp only [hwrite, hpresent] at hm
  split at hm
  · cases hm
    exact .refused (.refl h) va k
  cases hv : view m a va with
  | none =>
    simp only [hv, Option.isSome_none, Bool.and_false, Bool.false_eq_true, if_false, Bool.not_false,
      Bool.and_true, decide_true, if_true] at hm
    obtain ⟨hel, hst, hdone⟩ := h.handleDemandPage (translation_eq_none.mpr hv) hm
    refine ⟨hel, hst, fun hd => ?_, fun hd _ => hdone hd, fun _ hne => absurd hv hne⟩
    obtain ⟨vma, p, -, hz⟩ := hdone hd
    have hpres : Pte.present (p ||| vma.flags ||| ptePresent) = true := by
      rw [Pte.present_eq, Nat.testBit_or]
      simp [ptePresent]
    rw [rank_of_none hv, rank]
    split
    · decide
    · rw [if_pos (view_of_leaf hz.leaf hpres)]
      decide
  | some v =>
    simp only [hv, Option.isSome_some, Bool.and_true, Bool.not_true, Bool.and_false,
      Bool.false_eq_true, if_false] at hm
    rcases hr : (if decide (k = .write) = true then m.cowRemapIn a va else (false, m)) with ⟨d, m₁⟩
    rw [hr] at hm
    split at hr
    · next hk =>
      obtain ⟨hel, hst, hdone⟩ := h.cowRemapIn hr
      cases d with
      | false =>
        simp only [Bool.false_eq_true, if_false] at hm
        cases hm
        exact .refused (hst rfl) va k
      | true =>
        simp only [if_true] at hm
        cases hm
        obtain ⟨e, e', ⟨he, hp, hw⟩, he', hp', hw', -⟩ := hdone rfl
        refine ⟨hel, fun hd => absurd hd.symm Bool.false_ne_true, fun _ => ?_,
          fun _ hn => absurd (hv.symm.trans hn) (Option.some_ne_none v),
          fun _ _ => ⟨by simpa using hk, e, he, hp, hw⟩⟩
        rw [rank, rank, if_pos (by simp [he', hp', hw']), if_neg (by simp [he, hw])]
        split <;> decide
    · cases hr
      simp only [Bool.false_eq_true, if_false] at hm
      cases hm
      exact .refused (.refl h) va k

/-- The regions' flags are flags alone. -/
def PoolOk (m : Machine) : Prop := ∀ v ∈ m.vmas, Pte.addr v.flags = 0

/-- A call of the handler leaves the translation of other pages alone, and when it resolves a fault
on a page that is not present, the page reads as zero and has the flags of the region found. -/
structure CallOk (a va : Nat) (c : FaultCall) : Prop where
  others : ∀ va', pageOf va' ≠ pageOf va → frameAt c.after a va' = frameAt c.before a va'
  zero : c.done = true → frameAt c.before a va = none → ∃ vma p,
    c.before.vmaFind a va = some vma ∧ frameAt c.after a va = some p ∧
    (∀ j, c.after.mem p j = 0) ∧ leafOf c.after a va = some (p ||| vma.flags ||| ptePresent)

theorem ZeroPage.frameAt {flags p : Nat} (h : ZeroPage m a va flags p)
    (hflags : Pte.addr flags = 0) : frameAt m a va = some p := by
  have hpres : Pte.present (p ||| flags ||| ptePresent) = true := by
    rw [Pte.present_eq, Nat.testBit_or]
    simp [ptePresent]
  rw [frameAt_of_leaf h.leaf hpres]
  have hp := Pte.addr_of_dvd h.page.1 h.page.2
  have hpresent : Pte.addr ptePresent = 0 := by decide
  simp only [Pte.addr, Nat.and_or_distrib_right] at hp hflags hpresent ⊢
  rw [hp, hflags, hpresent, Nat.or_zero, Nat.or_zero]

theorem Handled.callOk {k : Access} {done : Bool} (h : Handled m m' a va k done)
    (hpool : PoolOk m) :
    CallOk a va ⟨m, done, m'⟩ := by
  refine ⟨fun va' hva => ?_, fun hd hn => ?_⟩
  · rw [frameAt_eq_translation, frameAt_eq_translation, h.elsewhere.same va' hva]
  · obtain ⟨vma, p, hvma, hz⟩ := h.zero hd (frameAt_eq_none.mp hn)
    exact ⟨vma, p, hvma, hz.frameAt (hpool vma (List.mem_of_find?_eq_some hvma)), hz.zero, hz.leaf⟩

/-- Each fault that is resolved brings the access closer, so `rank` of them are enough. -/
theorem reexecute_spec {k : Access} (budget : Nat) (h : TreeShaped m a) (hpool : PoolOk m)
    (hrank : rank m a va ≤ budget) :
    (reexecute a va k budget m).1.isSome = true ∧
      ∀ c ∈ (reexecute a va k budget m).2, CallOk a va c := by
  induction budget generalizing m with
  | zero =>
    unfold reexecute
    split
    · exact ⟨rfl, nofun⟩
    next code hcode =>
    split
    · next m' hm =>
      exact ⟨rfl, by simpa using (h.resolve hcode hm).callOk hpool⟩
    · next m' hm =>
      have := (h.resolve hcode hm).closer rfl
      omega
  | succ budget ih =>
    unfold reexecute
    split
    · exact ⟨rfl, nofun⟩
    next code hcode =>
    split
    · next m' hm =>
      exact ⟨rfl, by simpa using (h.resolve hcode hm).callOk hpool⟩
    · next m' hm =>
      have hres := h.resolve hcode hm
      have hpool' : PoolOk m' := fun v hv => hpool v (hres.elsewhere.vmas ▸ hv)
      have hlt := hres.closer rfl
      obtain ⟨hsome, hcalls⟩ := ih hres.elsewhere.tree hpool' (by omega)
      refine ⟨hsome, fun c hc => ?_⟩
      rcases List.mem_cons.mp hc with rfl | hc
      exacts [hres.callOk hpool, hcalls c hc]

/-- At most two faults are resolved before the access completes or a fault is not resolved. -/
theorem page_faults_progress (h : TreeShaped m a) (hpool : PoolOk m) (va : Nat) (k : Access) :
    (reexecute a va k 2 m).1.isSome = true ∧ ∀ c ∈ (reexecute a va k 2 m).2, CallOk a va c :=
  reexecute_spec 2 h hpool (rank_le m a va)

/-- A read-only region of two pages that are not present. -/
def lazyRegion : Machine :=
  { hugePages with vmas := [⟨0x200000, 0x50000000, 0x50002000, protFlags 1⟩] }

/-- A write to the region: a cleared page comes in read-only, and is then made writable. -/
theorem page_faults_progress_lazy : lazyRegion.vmaFind 0x200000 0x50000000 ≠ none ∧
    (reexecute 0x200000 0x50000000 .write 2 lazyRegion).1.isSome = true := by
  have htree : TreeShaped lazyRegion 0x200000 :=
    ⟨hugePages_treeShaped.wf, hugePages_treeShaped.small, hugePages_treeShaped.placed,
      hugePages_treeShaped.held⟩
  have hpool : PoolOk lazyRegion := by
    intro v hv
    obtain rfl := List.mem_singleton.mp hv
    decide
  exact ⟨by decide, (page_faults_progress htree hpool 0x50000000 .write).1⟩

end Rynex.Paging
