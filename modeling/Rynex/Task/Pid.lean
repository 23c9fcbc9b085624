import Rynex.Sched.Creation

/-! The pid bitmap under any interleaving of the atomic steps of its callers. A caller works on a
snapshot of the bitmap, which a failed compare-exchange renews; a pid changes hands at a successful
compare-exchange and at the `fetch_and` of `free_pid`. -/

namespace Rynex.Task.Pid

open Rynex.Lib

def maxTasks : Nat := 64

def trailingOnes (x : BitVec 64) : Nat :=
  ((List.range 64).find? fun i => !x.getLsbD i).getD 64

/-- The slot that a turn of the loop of `alloc_pid_from` tries, if there is one. -/
def freeSlot (minSlot : Nat) (bm : BitVec 64) : Option Nat :=
  let shifted := bm >>> minSlot
  let bit := if shifted = BitVec.allOnes 64 then maxTasks else minSlot + trailingOnes shifted
  if maxTasks ≤ bit then none else some bit

inductive Call where
  | kernelPid
  | userPid
  | specific (slot : Nat)
deriving DecidableEq, Repr

namespace Call

/-- `alloc_kernel_pid` and `alloc_user_pid` are `alloc_pid_from(2)` and `alloc_pid_from(1)`. -/
def target : Call → BitVec 64 → Option Nat
  | .kernelPid, bm => freeSlot 2 bm
  | .userPid, bm => freeSlot 1 bm
  | .specific slot, bm => if bm &&& 1#64 <<< slot ≠ 0 then none else some slot

/-- The call returns before it looks at the bitmap. -/
def outOfRange : Call → Bool
  | .specific slot => maxTasks ≤ slot
  | _ => false

end Call

/-- Where a caller stands. `moments` is the history of the call: the bitmap when it began and after
every step since, the latest first. -/
inductive Ctrl where
  | idle
  | load (c : Call) (moments : List (BitVec 64))
  | loop (c : Call) (snapshot : BitVec 64) (moments : List (BitVec 64))
  | done (c : Call) (result : Option Nat) (moments : List (BitVec 64))
  | freeing (pid : Nat)

/-- The bitmap, the pids that are handed out and not being freed, and the callers. -/
structure State where
  bitmap : BitVec 64
  held : List Nat
  callers : Nat → Ctrl

/-- Pid 0 is the idle task's. -/
def init : State := ⟨1#64, [], fun _ => .idle⟩

/-- A caller begins a call, begins to free a pid that is held, or takes its next step. -/
inductive Event where
  | call (t : Nat) (c : Call)
  | free (t pid : Nat)
  | step (t : Nat)

/-- Every call under way goes through this moment. -/
def Ctrl.see (bm : BitVec 64) : Ctrl → Ctrl
  | .load c ms => .load c (bm :: ms)
  | .loop c b ms => .loop c b (bm :: ms)
  | ctrl => ctrl

namespace State

def setCaller (s : State) (t : Nat) (c : Ctrl) : State :=
  { s with callers := Function.update s.callers t c }

def advance (s : State) (t : Nat) : State :=
  match s.callers t with
  | .idle => s
  | .load c ms =>
    if c.outOfRange then s.setCaller t (.done c none ms) else s.setCaller t (.loop c s.bitmap ms)
  | .loop c bm ms =>
    match c.target bm with
    | none => s.setCaller t (.done c none ms)
    | some bit =>
      if s.bitmap = bm then
        { s with bitmap := bm ||| 1#64 <<< bit, held := bit :: s.held }.setCaller t
          (.done c (some bit) ms)
      else s.setCaller t (.loop c s.bitmap ms)
  | .done _ _ _ => s.setCaller t .idle
  | .freeing pid =>
    if pid = 0 ∨ maxTasks ≤ pid then s.setCaller t .idle
    else { s with bitmap := s.bitmap &&& ~~~(1#64 <<< pid) }.setCaller t .idle

def act (s : State) : Event → State
  | .call t c => match s.callers t with
    | .idle => s.setCaller t (.load c [])
    | _ => s
  | .free t pid => match s.callers t with
    | .idle =>
      if pid ∈ s.held then { s with held := s.held.erase pid }.setCaller t (.freeing pid) else s
    | _ => s
  | .step t => s.advance t

def step (s : State) (e : Event) : State :=
  let s := s.act e
  { s with callers := fun t => (s.callers t).see s.bitmap }

end State

/-! ### The bits -/

variable {bm x : BitVec 64} {p bit slot minSlot : Nat}

theorem getLsbD_bit (hp : p < 64) : (1#64 <<< bit).getLsbD p = decide (p = bit) := by
  rw [BitVec.getLsbD_shiftLeft, BitVec.getLsbD_one]
  by_cases h : p = bit
  · simp [h]
    omega
  · by_cases hlt : p < bit
    · simp [h, hlt]
    · simp [h, hlt, hp]
      omega

theorem and_bit_eq_zero_iff (hs : slot < 64) : bm &&& 1#64 <<< slot = 0 ↔
    bm.getLsbD slot = false := by
  constructor
  · intro h
    have hbit := congrArg (fun b : BitVec 64 => b.getLsbD slot) h
    simpa [getLsbD_bit hs] using hbit
  · intro h
    refine BitVec.eq_of_getLsbD_eq fun i hi => ?_
    rw [BitVec.getLsbD_and, getLsbD_bit hi]
    by_cases hi' : i = slot
    · simp [hi', h]
    · simp [hi']

theorem trailingOnes_spec (x : BitVec 64) : (∀ i < trailingOnes x, x.getLsbD i = true) ∧
    (trailingOnes x < 64 → x.getLsbD (trailingOnes x) = false) := by
  unfold trailingOnes
  cases hfind : (List.range 64).find? fun i => !x.getLsbD i with
  | none =>
    refine ⟨fun i hi => ?_, fun h => absurd h (by simp)⟩
    have hall := List.find?_eq_none.mp hfind i (List.mem_range.mpr hi)
    simpa using hall
  | some n =>
    obtain ⟨hn, hlt, hbefore⟩ := List.find?_range_eq_some.mp hfind
    refine ⟨fun i hi => ?_, fun _ => by simpa using hn⟩
    simpa using hbefore i hi

theorem freeSlot_some (h : freeSlot minSlot bm = some bit) :
    minSlot ≤ bit ∧ bit < 64 ∧ bm.getLsbD bit = false ∧
      ∀ i, minSlot ≤ i → i < bit → bm.getLsbD i = true := by
  unfold freeSlot at h
  simp only [maxTasks] at h
  obtain ⟨hones, hzero⟩ := trailingOnes_spec (bm >>> minSlot)
  split at h
  · cases h
  split at h
  · cases h
  obtain rfl := Option.some.inj h
  refine ⟨by omega, by omega, ?_, fun i hle hi => ?_⟩
  · have hbit := hzero (by omega)
    rwa [BitVec.getLsbD_ushiftRight] at hbit
  · have hbit := hones (i - minSlot) (by omega)
    rwa [BitVec.getLsbD_ushiftRight, Nat.add_sub_cancel' hle] at hbit

theorem freeSlot_none (h : freeSlot minSlot bm = none) (p : Nat) (hle : minSlot ≤ p) (hp : p < 64) :
    bm.getLsbD p = true := by
  have hshift : (bm >>> minSlot).getLsbD (p - minSlot) = bm.getLsbD p := by
    rw [BitVec.getLsbD_ushiftRight, Nat.add_sub_cancel' hle]
  rw [← hshift]
  unfold freeSlot at h
  simp only [maxTasks] at h
  split at h
  next hall =>
    rw [hall, BitVec.getLsbD_allOnes]
    exact decide_eq_true (by omega)
  · split at h
    next => exact (trailingOnes_spec (bm >>> minSlot)).1 _ (by omega)
    · cases h

def exhausted (bm : BitVec 64) : Call → Bool
  | .kernelPid => (List.range 64).all fun p => p < 2 || bm.getLsbD p
  | .userPid => (List.range 64).all fun p => p < 1 || bm.getLsbD p
  | .specific slot => maxTasks ≤ slot || bm.getLsbD slot

theorem exhausted_of_target {c : Call} (hr : c.outOfRange = false) (h : c.target bm = none) :
    exhausted bm c = true := by
  cases c with
  | kernelPid =>
    simp only [exhausted, List.all_eq_true, Bool.or_eq_true, decide_eq_true_eq]
    intro p hp
    rcases Nat.lt_or_ge p 2 with hlt | hge
    · exact .inl hlt
    · exact .inr (freeSlot_none h p hge (List.mem_range.mp hp))
  | userPid =>
    simp only [exhausted, List.all_eq_true, Bool.or_eq_true, decide_eq_true_eq]
    intro p hp
    rcases Nat.lt_or_ge p 1 with hlt | hge
    · exact .inl hlt
    · exact .inr (freeSlot_none h p hge (List.mem_range.mp hp))
  | specific slot =>
    have hr : slot < 64 := Nat.lt_of_not_le (of_decide_eq_false hr)
    simp only [Call.target, ne_eq, ite_not] at h
    split at h
    · cases h
    next hset =>
      rw [and_bit_eq_zero_iff hr, Bool.not_eq_false] at hset
      simp [exhausted, hset]

theorem target_some {c : Call} (hr : c.outOfRange = false) (h : c.target bm = some bit) :
    bit < 64 ∧ bm.getLsbD bit = false ∧ (c = .kernelPid → 2 ≤ bit) := by
  cases c with
  | kernelPid =>
    obtain ⟨hle, hlt, hfree, -⟩ := freeSlot_some h
    exact ⟨hlt, hfree, fun _ => hle⟩
  | userPid =>
    obtain ⟨-, hlt, hfree, -⟩ := freeSlot_some h
    exact ⟨hlt, hfree, fun hc => by cases hc⟩
  | specific slot =>
    have hr : slot < 64 := Nat.lt_of_not_le (of_decide_eq_false hr)
    simp only [Call.target, ne_eq, ite_not] at h
    split at h
    next hclear =>
      obtain rfl := Option.some.inj h
      exact ⟨hr, (and_bit_eq_zero_iff hr).mp hclear, fun hc => by cases hc⟩
    · cases h

/-! ### One step -/

/-- What is known of a caller between two steps; `now` holds the bitmap while the moment of the
step that was taken last is not yet written down. -/
def Ctrl.Ok (now : List (BitVec 64)) : Ctrl → Prop
  | .idle => True
  | .load _ ms => now ++ ms ≠ []
  | .loop c b ms => c.outOfRange = false ∧ b ∈ now ++ ms
  | .done c none ms => ∃ bm ∈ ms, exhausted bm c = true
  | .done c (some p) _ => p ≠ 0 ∧ (c = .kernelPid → 2 ≤ p)
  | .freeing p => 0 < p ∧ p < 64

namespace Ctrl

variable {ctrl : Ctrl}

theorem Ok.now (h : ctrl.Ok []) (bm : BitVec 64) : ctrl.Ok [bm] := by
  match ctrl, h with
  | .idle, _ => trivial
  | .load _ _, _ => exact List.cons_ne_nil _ _
  | .loop _ _ _, ⟨hr, hb⟩ => exact ⟨hr, List.mem_cons_of_mem _ hb⟩
  | .done _ none _, h => exact h
  | .done _ (some _) _, h => exact h
  | .freeing _, h => exact h

theorem Ok.see (h : ctrl.Ok [bm]) : (ctrl.see bm).Ok [] := by
  match ctrl, h with
  | .idle, _ => trivial
  | .load _ _, _ => exact List.cons_ne_nil _ _
  | .loop _ _ _, h => exact h
  | .done _ none _, h => exact h
  | .done _ (some _) _, h => exact h
  | .freeing _, h => exact h

@[simp] theorem see_eq_freeing : ctrl.see bm = .freeing p ↔ ctrl = .freeing p := by
  cases ctrl <;> simp [Ctrl.see]

end Ctrl

/-- The bitmap says which pids are taken: by the idle task, by a holder, or by one who is about to
give the pid back. No pid is taken twice. -/
structure Held (bitmap : BitVec 64) (held : List Nat) (callers : Nat → Ctrl) : Prop where
  idle : bitmap.getLsbD 0 = true
  bits : ∀ p, 0 < p → p < 64 → (bitmap.getLsbD p = true ↔ p ∈ held ∨ ∃ t, callers t = .freeing p)
  range : ∀ p ∈ held, 0 < p ∧ p < 64
  nodup : held.Nodup
  apart : ∀ t p, callers t = .freeing p → p ∉ held
  unique : ∀ t u p, callers t = .freeing p → callers u = .freeing p → t = u

namespace Held

variable {held : List Nat} {callers : Nat → Ctrl} {t : Nat} {ctrl : Ctrl}

theorem congr {callers' : Nat → Ctrl} (h : Held bm held callers)
    (hf : ∀ t p, callers' t = .freeing p ↔ callers t = .freeing p) : Held bm held callers' where
  idle := h.idle
  bits p hp hlt := by simp only [hf, h.bits p hp hlt]
  range := h.range
  nodup := h.nodup
  apart t p ht := h.apart t p ((hf t p).mp ht)
  unique t u p ht hu := h.unique t u p ((hf t p).mp ht) ((hf u p).mp hu)

theorem update (h : Held bm held callers) (hold : ∀ p, callers t ≠ .freeing p)
    (hnew : ∀ p, ctrl ≠ .freeing p) : Held bm held (Function.update callers t ctrl) := by
  refine h.congr fun u p => ?_
  by_cases hu : u = t
  · subst hu
    simp [hold, hnew]
  · simp [hu]

theorem take (h : Held bm held callers) (hp : bit < 64) (hfree : bm.getLsbD bit = false) :
    0 < bit ∧ Held (bm ||| 1#64 <<< bit) (bit :: held) callers := by
  have hpos : 0 < bit := by
    rcases Nat.eq_zero_or_pos bit with rfl | hpos
    · rw [h.idle] at hfree
      cases hfree
    · exact hpos
  have hnot : ¬ (bit ∈ held ∨ ∃ t, callers t = .freeing bit) := fun hb =>
    absurd ((h.bits bit hpos hp).mpr hb) (by simp [hfree])
  refine ⟨hpos, ?_, fun p h0 hlt => ?_, fun p hmem => ?_, ?_, fun t p ht hmem => ?_, h.unique⟩
  · rw [BitVec.getLsbD_or, h.idle, Bool.true_or]
  · rw [BitVec.getLsbD_or, getLsbD_bit hlt, Bool.or_eq_true, h.bits p h0 hlt, decide_eq_true_eq,
      List.mem_cons]
    tauto
  · rcases List.mem_cons.mp hmem with rfl | hmem
    · exact ⟨hpos, hp⟩
    · exact h.range p hmem
  · exact List.nodup_cons.mpr ⟨fun hb => hnot (.inl hb), h.nodup⟩
  · rcases List.mem_cons.mp hmem with rfl | hmem
    · exact hnot (.inr ⟨t, ht⟩)
    · exact h.apart t p ht hmem

theorem giveUp (h : Held bm held callers) (hmem : p ∈ held) (hold : ∀ q, callers t ≠ .freeing q) :
    Held bm (held.erase p) (Function.update callers t (.freeing p)) := by
  have hupd : ∀ u q, Function.update callers t (.freeing p) u = .freeing q ↔
      (u = t ∧ q = p) ∨ callers u = .freeing q := by
    intro u q
    by_cases hu : u = t
    · subst hu
      simp [hold, eq_comm]
    · simp [hu]
  refine ⟨h.idle, fun q h0 hlt => ?_, fun q hq => h.range q (List.mem_of_mem_erase hq),
    h.nodup.erase p, fun u q hu hq => ?_, fun u v q hu hv => ?_⟩
  · simp only [hupd, h.bits q h0 hlt, h.nodup.mem_erase_iff]
    by_cases hq : q = p
    · subst hq
      simp [hmem]
    · simp [hq]
  · rw [h.nodup.mem_erase_iff] at hq
    rcases (hupd u q).mp hu with ⟨-, rfl⟩ | hu
    · exact hq.1 rfl
    · exact h.apart u q hu hq.2
  · rcases (hupd u q).mp hu with ⟨hut, rfl⟩ | hu <;>
      rcases (hupd v q).mp hv with ⟨hvt, hq⟩ | hv
    · rw [hut, hvt]
    · exact absurd hmem (h.apart v q hv)
    · exact absurd (hq ▸ hmem) (h.apart u q hu)
    · exact h.unique u v q hu hv

/-- The `fetch_and` of the one who frees a pid clears the bit that is theirs. -/
theorem clear (h : Held bm held callers) (ht : callers t = .freeing p) (hpos : 0 < p) :
    Held (bm &&& ~~~(1#64 <<< p)) held (Function.update callers t .idle) := by
  have hupd : ∀ u q, Function.update callers t .idle u = .freeing q ↔
      u ≠ t ∧ callers u = .freeing q := by
    intro u q
    by_cases hu : u = t
    · simp [hu]
    · simp [hu]
  have hbit : ∀ q < 64, (bm &&& ~~~(1#64 <<< p)).getLsbD q = (bm.getLsbD q && !decide (q = p)) := by
    intro q hq
    rw [BitVec.getLsbD_and, BitVec.getLsbD_not, getLsbD_bit hq]
    simp [hq]
  refine ⟨?_, fun q h0 hlt => ?_, h.range, h.nodup, fun u q hu => h.apart u q ((hupd u q).mp hu).2,
    fun u v q hu hv => h.unique u v q ((hupd u q).mp hu).2 ((hupd v q).mp hv).2⟩
  · rw [hbit 0 (by decide), h.idle]
    simp
    omega
  · simp only [hbit q hlt, hupd, Bool.and_eq_true, h.bits q h0 hlt, Bool.not_eq_true',
      decide_eq_false_iff_not]
    by_cases hq : q = p
    · subst hq
      have hgone : ∀ u, ¬ (u ≠ t ∧ callers u = .freeing q) := fun u hu =>
        hu.1 (h.unique u t q hu.2 ht)
      simp only [not_true_eq_false, and_false, hgone, exists_false, or_false, false_iff]
      exact h.apart t q ht
    · have hu : ∀ u, callers u = .freeing q → u ≠ t := by
        rintro u hu rfl
        rw [ht] at hu
        exact hq (Ctrl.freeing.inj hu).symm
      simp only [hq, not_false_eq_true, and_true]
      exact or_congr_right (exists_congr fun u => ⟨fun h => ⟨hu u h, h⟩, And.right⟩)

end Held

namespace State

variable {s : State} {t : Nat} {ctrl : Ctrl}

/-- The invariant of a run; `now` is as in `Ctrl.Ok`. -/
structure Inv (s : State) (now : List (BitVec 64)) : Prop where
  held : Held s.bitmap s.held s.callers
  callers : ∀ t, (s.callers t).Ok now

theorem Inv.see (h : s.Inv [s.bitmap]) :
    Inv { s with callers := fun t => (s.callers t).see s.bitmap } [] where
  held := h.held.congr fun _ _ => Ctrl.see_eq_freeing
  callers t := (h.callers t).see

theorem Inv.update (h : s.Inv []) {bitmap : BitVec 64} {held : List Nat}
    (hheld : Held bitmap held (Function.update s.callers t ctrl)) (hok : ctrl.Ok [bitmap]) :
    Inv ⟨bitmap, held, Function.update s.callers t ctrl⟩ [bitmap] where
  held := hheld
  callers u := by
    by_cases hu : u = t
    · subst hu
      simpa using hok
    · simpa [hu] using (h.callers u).now bitmap

theorem Inv.setCaller (h : s.Inv []) (hold : ∀ p, s.callers t ≠ .freeing p)
    (hnew : ∀ p, ctrl ≠ .freeing p) (hok : ctrl.Ok [s.bitmap]) :
    (s.setCaller t ctrl).Inv [s.bitmap] :=
  h.update (h.held.update hold hnew) hok

theorem Inv.stay (h : s.Inv []) : s.Inv [s.bitmap] := ⟨h.held, fun t => (h.callers t).now _⟩

theorem Inv.advance (h : s.Inv []) (t : Nat) : (s.advance t).Inv [(s.advance t).bitmap] := by
  have hok := h.callers t
  unfold State.advance
  match hc : s.callers t with
  | .idle => exact h.stay
  | .load c ms =>
    rw [hc] at hok
    simp only
    split
    next hr =>
      refine h.setCaller (by simp [hc]) (by simp) ?_
      obtain ⟨bm, hbm⟩ := List.exists_mem_of_ne_nil ms hok
      refine ⟨bm, hbm, ?_⟩
      cases c with
      | kernelPid | userPid => cases hr
      | specific slot => exact Bool.or_eq_true_iff.mpr (.inl hr)
    next hr =>
      exact h.setCaller (by simp [hc]) (by simp)
        ⟨Bool.eq_false_of_not_eq_true hr, List.mem_cons_self⟩
  | .loop c bm ms =>
    rw [hc] at hok
    simp only
    split
    next hnone =>
      exact h.setCaller (by simp [hc]) (by simp) ⟨bm, hok.2, exhausted_of_target hok.1 hnone⟩
    next bit hbit =>
      split
      next hsame =>
        obtain ⟨hlt, hfree, hmin⟩ := target_some hok.1 hbit
        subst hsame
        obtain ⟨hpos, htaken⟩ := h.held.take hlt hfree
        exact h.update (htaken.update (by simp [hc]) (by simp)) ⟨Nat.ne_of_gt hpos, hmin⟩
      next =>
        exact h.setCaller (by simp [hc]) (by simp) ⟨hok.1, List.mem_cons_self⟩
  | .done c r ms => exact h.setCaller (by simp [hc]) (by simp) trivial
  | .freeing p =>
    rw [hc] at hok
    have hvalid : ¬ (p = 0 ∨ maxTasks ≤ p) := by
      rintro (rfl | hge)
      · exact lt_irrefl 0 hok.1
      · exact Nat.not_lt.mpr hge hok.2
    simp only
    rw [if_neg hvalid]
    exact h.update (h.held.clear hc hok.1) trivial

theorem Inv.act (h : s.Inv []) (e : Event) : (s.act e).Inv [(s.act e).bitmap] := by
  match e with
  | .call t c =>
    simp only [State.act]
    split
    next hc => exact h.setCaller (by simp [hc]) (by simp) (List.cons_ne_nil _ _)
    · exact h.stay
  | .free t p =>
    simp only [State.act]
    split
    next hc =>
      split
      next hmem => exact h.update (h.held.giveUp hmem (by simp [hc])) (h.held.range p hmem)
      · exact h.stay
    · exact h.stay
  | .step t => exact h.advance t

theorem Inv.step (h : s.Inv []) (e : Event) : (s.step e).Inv [] := (h.act e).see

theorem inv_init : init.Inv [] where
  held :=
    { idle := by decide
      bits := fun p hpos hlt => by
        have hbit : (1#64).getLsbD p = false := by
          rw [BitVec.getLsbD_one]
          simp [hpos.ne']
        simp [init, hbit]
      range := by simp [init]
      nodup := List.nodup_nil
      apart := by simp [init]
      unique := by simp [init] }
  callers _ := trivial

theorem inv_run (es : List Event) (h : s.Inv []) : (es.foldl State.step s).Inv [] := by
  induction es generalizing s with
  | nil => exact h
  | cons e es ih => exact ih (h.step e)

end State

/-- In every interleaving: no pid is held twice, nor held while another caller is still giving it
back; pid 0 is never handed out and pid 1 never to a kernel task; and a call that failed went
through a moment at which every slot that it could have taken was taken. -/
theorem pids_exclusive (es : List Event) :
    let s := es.foldl State.step init
    s.held.Nodup ∧ (∀ t p, s.callers t = .freeing p → p ∉ s.held) ∧
    (∀ t u p, s.callers t = .freeing p → s.callers u = .freeing p → t = u) ∧
    0 ∉ s.held ∧ (∀ t c ms, s.callers t ≠ .done c (some 0) ms) ∧
    (∀ t ms, s.callers t ≠ .done .kernelPid (some 1) ms) ∧
    ∀ t c ms, s.callers t = .done c none ms → ∃ bm ∈ ms, exhausted bm c = true := by
  have h := State.inv_run es State.inv_init
  refine ⟨h.held.nodup, h.held.apart, h.held.unique, fun h0 => ?_, fun t c ms hc => ?_,
    fun t ms hc => ?_, fun t c ms hc => ?_⟩
  · exact absurd (h.held.range 0 h0).1 (lt_irrefl 0)
  all_goals
    have hok := h.callers t
    rw [hc] at hok
  · exact hok.1 rfl
  · exact absurd (hok.2 rfl) (by decide)
  · exact hok

end Rynex.Task.Pid
