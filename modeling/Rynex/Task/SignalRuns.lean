import Rynex.Task.SignalSets

/-! A task that catches every signal, over every history of signals sent to it, changes of its mask,
ends of system calls and returns from its handlers. -/

namespace Rynex.Task

open Rynex.Lib Rynex.Lib.Bytes

/-- The signal whose handler the end of a call goes to, by the number that the handler is passed. -/
def Thread.entered (s : Thread) (k : KStack) (sysRet : Word) : Option Nat :=
  match s.delivery k sysRet, (s.leave k sysRet).1 with
  | some _, some r => some r.rdi.toNat
  | _, _ => none

namespace Signals

variable {s : Signals} {sig n : Nat}

theorem isPending_setPending (hsig : sig < 64) (hn : n < 64) :
    (s.setPending sig).isPending n = (s.isPending n || decide (n = sig)) := by
  rw [isPending_getLsbD _ hn, isPending_getLsbD _ hn, setPending, UInt64.toBitVec_or,
    BitVec.getLsbD_or, getLsbD_bit hsig]

theorem isPending_enter (hsig : sig < 64) (hn : n < 64) :
    (s.enter sig).isPending n = (s.isPending n && !decide (n = sig)) := by
  rw [isPending_getLsbD _ hn, isPending_getLsbD _ hn, enter, UInt64.toBitVec_and,
    BitVec.getLsbD_and,
    UInt64.toBitVec_not, BitVec.getLsbD_not, getLsbD_bit hsig, decide_eq_true hn, Bool.true_and]

theorem changeMask_kept (s : Signals) (how : Int) (mask : UInt64) :
    (s.changeMask how mask).2.pending = s.pending ∧
      (s.changeMask how mask).2.handlers = s.handlers := by
  unfold changeMask
  dsimp only
  split_ifs <;> exact ⟨rfl, rfl⟩

theorem send_of_catches (h : (s.handlers sig).Catches) (hcatch : catchable sig = true) :
    s.send sig = some (s.setPending sig) := by
  have hkill : ¬ (sig = sigKill || sig = sigStop) = true := by
    simpa [catchable] using hcatch
  simp only [send, if_neg hkill, if_neg h.1, if_pos h.2.1]

end Signals

/-- The signal of the lowest number that is pending and not blocked. -/
structure Signals.Lowest (s : Signals) (sig : Nat) : Prop where
  low : 1 ≤ sig
  high : sig < signalCount
  pending : s.isPending sig = true
  unblocked : s.isBlocked sig = false
  least : ∀ l, 1 ≤ l → l < sig → s.isPending l = true → s.isBlocked l = true

/-- A thread, with the signals sent to it since their handlers were last entered. -/
structure Course where
  thread : Thread
  sent : Nat → Bool

namespace Course

/-- What happens to the task: a signal is sent to it, it changes its mask, it writes to its memory,
a system call ends, and the restorer of a handler calls `rt_sigreturn`. -/
inductive Event where
  | send (sig : Nat)
  | mask (how : Int) (mask : UInt64)
  | write (mem : Bytes)
  | leave (k : KStack) (sysRet : Word)
  | sigreturn (below : KStack) (r : Regs)

abbrev signals (c : Course) : Signals := c.thread.sig.signals

def setSignals (c : Course) (signals : Signals) : Thread.Event :=
  .run { c.thread.sig with signals := signals } c.thread.mem

def onThread (c : Course) : Event → Thread.Event
  | .send sig => c.setSignals ((c.signals.send sig).getD c.signals)
  | .mask how mask => c.setSignals (c.signals.changeMask how mask).2
  | .write mem => .run c.thread.sig mem
  | .leave k sysRet => .leave k sysRet
  | .sigreturn below r => .sigreturn below r

def step (c : Course) (e : Event) : Course where
  thread := c.thread.step (c.onThread e)
  sent :=
    match e with
    | .send sig => Function.update c.sent sig true
    | .leave k sysRet =>
      match c.thread.entered k sysRet with
      | none => c.sent
      | some sig => Function.update c.sent sig false
    | _ => c.sent

/-- The signals that are sent can be caught; handlers leave the stack from their frames upwards
alone and return through their restorers. -/
def Legal (c : Course) : Event → Prop
  | .send sig => 1 ≤ sig ∧ sig < signalCount ∧ Signals.catchable sig = true
  | .mask _ _ => True
  | .write mem => ∀ f ∈ c.thread.pending, ∀ a, Within f.saved.frame f.saved.span a →
    mem a = c.thread.mem a
  | .leave k sysRet => c.thread.Legal (.leave k sysRet)
  | .sigreturn below r => c.thread.Legal (.sigreturn below r)

/-- Every signal that can be caught is caught; the pending signals are those that were sent and not
yet handled. -/
structure Sound (c : Course) : Prop where
  thread : c.thread.Sound
  live : c.thread.sig.empty = false
  catches : ∀ sig, 1 ≤ sig → sig < signalCount → Signals.catchable sig = true →
    (c.signals.handlers sig).Catches
  pending : ∀ sig, 1 ≤ sig → sig < signalCount → c.signals.isPending sig = c.sent sig
  catchable : ∀ sig, c.sent sig = true → Signals.catchable sig = true

variable {c : Course} {e : Event}

theorem Sound.legal (h : Sound c) (hok : c.Legal e) : c.thread.Legal (c.onThread e) := by
  cases e with
  | send sig => exact ⟨rfl, h.thread.parked, fun _ _ _ _ => rfl⟩
  | mask how mask => exact ⟨rfl, h.thread.parked, fun _ _ _ _ => rfl⟩
  | write mem => exact ⟨rfl, h.thread.parked, hok⟩
  | leave k sysRet => exact hok
  | sigreturn below r => exact hok

theorem Sound.delivery (h : Sound c) {sig : Nat} (hlow : 1 ≤ sig) (hhigh : sig < signalCount) :
    c.signals.delivery sig =
      if c.signals.isPending sig && !c.signals.isBlocked sig then .enter else .skip := by
  cases hp : c.signals.isPending sig with
  | false => simp [Signals.delivery_of_not_pending hp]
  | true =>
    have hcatch := h.catchable sig ((h.pending sig hlow hhigh).symm.trans hp)
    rw [Signals.delivery_of_catches (h.catches sig hlow hhigh hcatch), hp]

theorem Sound.deliverable_iff (h : Sound c) {sig : Nat} :
    c.signals.deliverable = some sig ↔ c.signals.Lowest sig := by
  rw [Signals.deliverable_eq_some_iff]
  constructor
  · rintro ⟨hlow, hhigh, hne, hleast⟩
    rw [h.delivery hlow hhigh] at hne
    obtain ⟨hp, hb⟩ : c.signals.isPending sig = true ∧ c.signals.isBlocked sig = false := by
      by_contra hnot
      exact hne (if_neg (by simpa using hnot))
    refine ⟨hlow, hhigh, hp, hb, fun l hl hlt hpl => ?_⟩
    have hskip := hleast l hl hlt
    rw [h.delivery hl (lt_trans hlt hhigh), hpl, Bool.true_and] at hskip
    by_contra hbl
    rw [Bool.not_eq_true] at hbl
    simp [hbl] at hskip
  · intro hlow
    refine ⟨hlow.low, hlow.high, ?_, fun l hl hlt => ?_⟩
    · rw [h.delivery hlow.low hlow.high, hlow.pending, hlow.unblocked]
      decide
    · rw [h.delivery hl (lt_trans hlt hlow.high), if_neg]
      simpa using hlow.least l hl hlt

theorem Sound.running (h : Sound c) : (c.thread.sig.id = 0 || c.thread.sig.empty) = false := by
  simp [h.thread.id, h.live]

theorem Sound.leave_lowest (h : Sound c) {sig : Nat} (hsig : c.signals.Lowest sig) (k : KStack)
    (sysRet : Word) :
    c.thread.entered k sysRet = some sig ∧ (∃ f, c.thread.Enters k sysRet sig f) ∧
      (c.thread.step (.leave k sysRet)).sig =
        { c.thread.sig with signals := c.signals.enter sig } := by
  have hfound := h.deliverable_iff.mpr hsig
  have henter : c.signals.delivery sig = .enter := by
    rw [h.delivery hsig.low hsig.high, hsig.pending, hsig.unblocked]
    rfl
  obtain ⟨f, hf⟩ := (Thread.enters_iff h.thread.parked h.running hsig.high).mpr ⟨hfound, henter⟩
  refine ⟨?_, ⟨f, hf⟩, ?_⟩
  · obtain ⟨hdelivery, r, hr, -, hrdi⟩ := hf
    have hlt := hsig.high
    rw [Thread.entered, hdelivery, hr]
    simp only [hrdi, BitVec.toNat_ofNat, Option.some.injEq, signalCount] at hlt ⊢
    omega
  · rw [Thread.leave_of_enter k sysRet h.thread.parked h.running hfound henter]
    rfl

theorem Sound.leave_none (h : Sound c) (hnone : ∀ sig, ¬ c.signals.Lowest sig) (k : KStack)
    (sysRet : Word) :
    c.thread.delivery k sysRet = none ∧
      c.thread.leave k sysRet = (some (syscallExit k sysRet c.thread.mem), c.thread) := by
  have hloop : c.signals.deliverable = none := by
    rw [Option.eq_none_iff_forall_ne_some]
    exact fun sig hsig => hnone sig (h.deliverable_iff.mp hsig)
  have hplain : c.thread.sig.checkDeliverSignal k sysRet c.thread.mem = .plain c.thread.sig := by
    simp only [SigState.checkDeliverSignal, h.thread.parked, h.running, hloop, Bool.false_eq_true,
      if_false]
  exact ⟨by rw [Thread.delivery, hplain], by rw [Thread.leave, hplain]⟩

theorem Sound.next (h : Sound c) (hok : c.Legal e)
    (hempty : (c.step e).thread.sig.empty = c.thread.sig.empty)
    (hhandlers : (c.step e).signals.handlers = c.signals.handlers)
    (hpending : ∀ sig, 1 ≤ sig → sig < signalCount →
      (c.step e).signals.isPending sig = (c.step e).sent sig)
    (hsent : ∀ sig, (c.step e).sent sig = true → Signals.catchable sig = true) :
    Sound (c.step e) where
  thread := Thread.sound_step h.thread _ (h.legal hok)
  live := hempty.trans h.live
  catches := hhandlers ▸ h.catches
  pending := hpending
  catchable := hsent

theorem sound_step (h : Sound c) (e : Event) (hok : c.Legal e) : Sound (c.step e) := by
  cases e with
  | send sig =>
    obtain ⟨hlow, hhigh, hcatch⟩ := hok
    have hsent : c.signals.send sig = some (c.signals.setPending sig) :=
      Signals.send_of_catches (h.catches sig hlow hhigh hcatch) hcatch
    have hsignals : (c.step (.send sig)).signals = c.signals.setPending sig := by
      change (c.signals.send sig).getD c.signals = _
      rw [hsent, Option.getD_some]
    refine h.next ⟨hlow, hhigh, hcatch⟩ rfl (by rw [hsignals]; rfl) (fun n hn hlt => ?_) fun n hn =>
      ?_
    · rw [hsignals, Signals.isPending_setPending (lt_trans hhigh (by decide))
        (lt_trans hlt (by decide)),
        h.pending n hn hlt]
      by_cases hsame : n = sig
      · simp [step, hsame]
      · simp [step, hsame]
    · by_cases hsame : n = sig
      · exact hsame ▸ hcatch
      · exact h.catchable n (by simpa [step, hsame] using hn)
  | mask how mask =>
    have hkept := c.signals.changeMask_kept how mask
    exact h.next hok rfl hkept.2 (fun n hn hlt => (congrArg (fun p => decide (p &&& bit n ≠ 0))
      hkept.1).trans (h.pending n hn hlt)) h.catchable
  | write mem => exact h.next hok rfl rfl h.pending h.catchable
  | leave k sysRet =>
    by_cases hsome : ∃ sig, c.signals.Lowest sig
    · obtain ⟨sig, hsig⟩ := hsome
      obtain ⟨hentered, -, hnew⟩ := h.leave_lowest hsig k sysRet
      have hsignals : (c.step (.leave k sysRet)).signals = c.signals.enter sig :=
        congrArg SigState.signals hnew
      have hsent : (c.step (.leave k sysRet)).sent = Function.update c.sent sig false := by
        simp only [step, hentered]
      have hempty := congrArg SigState.empty hnew
      refine h.next hok hempty (by rw [hsignals]; rfl)
        (fun n hn hlt => ?_) fun n hn => ?_
      · rw [hsignals, hsent, Signals.isPending_enter (lt_trans hsig.high (by decide))
          (lt_trans hlt (by decide)), h.pending n hn hlt]
        by_cases hsame : n = sig
        · simp [hsame]
        · simp [hsame]
      · rw [hsent] at hn
        by_cases hsame : n = sig
        · simp [hsame] at hn
        · exact h.catchable n (by simpa [hsame] using hn)
    · obtain ⟨hnone, hleave⟩ := h.leave_none (fun sig hsig => hsome ⟨sig, hsig⟩) k sysRet
      have hthread : (c.step (.leave k sysRet)).thread = c.thread := by
        simp only [step, onThread, Thread.step, hnone, hleave, Option.toList_none, List.nil_append]
      have hsent : (c.step (.leave k sysRet)).sent = c.sent := by
        simp only [step, Thread.entered, hnone]
      exact h.next hok (by rw [hthread]) (by rw [signals, hthread])
        (fun n hn hlt => by rw [signals, hthread, hsent]; exact h.pending n hn hlt)
        (hsent ▸ h.catchable)
  | sigreturn below r =>
    have hback := c.thread.sigreturn_restored below r h.thread.id
    have hempty := congrArg (fun x => x.2.sig.empty) hback
    have hhandlers := congrArg (fun x => x.2.sig.signals.handlers) hback
    have hpending := fun n => congrArg (fun x => x.2.sig.signals.isPending n) hback
    exact h.next hok hempty hhandlers (fun n hn hlt => (hpending n).trans (h.pending n hn hlt))
      h.catchable

theorem Sound.entered_iff (h : Sound c) (k : KStack) (sysRet : Word) (sig : Nat) :
    c.thread.entered k sysRet = some sig ↔ c.signals.Lowest sig := by
  refine ⟨fun hentered => ?_, fun hsig => (h.leave_lowest hsig k sysRet).1⟩
  by_cases hsome : ∃ sig, c.signals.Lowest sig
  · obtain ⟨other, hother⟩ := hsome
    have hsame := (h.leave_lowest hother k sysRet).1.symm.trans hentered
    exact Option.some.inj hsame ▸ hother
  · have hnone := (h.leave_none (fun sig hsig => hsome ⟨sig, hsig⟩) k sysRet).1
    simp [Thread.entered, hnone] at hentered

/-- A task that has been sent nothing and whose handlers catch every signal that can be caught. -/
structure Fresh (c : Course) : Prop where
  id : c.thread.sig.id ≠ 0
  live : c.thread.sig.empty = false
  parked : c.thread.sig.pendingRestore = none
  frames : c.thread.pending = []
  pending : c.signals.pending = 0
  sent : c.sent = fun _ => false
  catches : ∀ sig, 1 ≤ sig → sig < signalCount → Signals.catchable sig = true →
    (c.signals.handlers sig).Catches

theorem Fresh.sound (h : Fresh c) : Sound c where
  thread := ⟨h.id, h.parked, by simp [h.frames], by simp [h.frames]⟩
  live := h.live
  catches := h.catches
  pending sig _ _ := by simp [Signals.isPending, h.pending, h.sent]
  catchable sig hsig := by simp [h.sent] at hsig

/-- In every history of the task: a signal that was sent is pending until its handler is entered;
a handler is entered only for a signal that was sent since the last time, and with its bit of the
mask clear; the end of a call enters the handler of the lowest signal that is pending and not
blocked, with the signal and its `sa_mask` added to the mask; and `rt_sigreturn` goes back from the
handler that was entered last to the context and the mask before it. -/
theorem signals_handled {start : Course} {es : List Event} (hstart : Fresh start)
    (h : Steps step Legal start es) :
    let c := es.foldl step start
    (∀ sig, 1 ≤ sig → sig < signalCount → c.signals.isPending sig = c.sent sig) ∧
    (∀ k sysRet sig, c.thread.entered k sysRet = some sig →
      c.sent sig = true ∧ c.signals.isBlocked sig = false) ∧
    (∀ k sysRet sig, c.signals.Lowest sig →
      ∃ f, c.thread.Enters k sysRet sig f ∧ f.context = syscallExit k sysRet c.thread.mem ∧
        f.mask = c.signals.blocked ∧
        (c.step (.leave k sysRet)).signals.blocked =
          c.signals.blocked ||| (bit sig ||| (c.signals.handlers sig).mask) ∧
        (c.step (.leave k sysRet)).thread.pending = f :: c.thread.pending) ∧
    (∀ k sysRet, (∀ sig, ¬ c.signals.Lowest sig) →
      c.thread.entered k sysRet = none ∧
        c.thread.leave k sysRet = (some (syscallExit k sysRet c.thread.mem), c.thread)) ∧
    ∀ f fs, c.thread.pending = f :: fs → ∀ below r, r.rsp = f.saved.frame + 8 →
      (c.thread.sigreturn below r).1 = some f.context ∧
        (c.step (.sigreturn below r)).signals.blocked = f.mask ∧
        (c.step (.sigreturn below r)).thread.pending = fs := by
  intro c
  have hc : Sound c := h.invariant (I := Sound) (fun _ e hs => sound_step hs e) hstart.sound
  refine ⟨hc.pending, fun k sysRet sig hentered => ?_, fun k sysRet sig hsig => ?_,
    fun k sysRet hnone => ?_, fun f fs hframes below r hrsp => ?_⟩
  · have hsig := (hc.entered_iff k sysRet sig).mp hentered
    exact ⟨(hc.pending sig hsig.low hsig.high).symm.trans hsig.pending, hsig.unblocked⟩
  · obtain ⟨-, ⟨f, hf⟩, hnew⟩ := hc.leave_lowest hsig k sysRet
    have hcontext := Thread.delivery_context hf.1
    refine ⟨f, hf, hcontext.2.1, hcontext.2.2, ?_, ?_⟩
    · exact congrArg (fun s => s.signals.blocked) hnew
    · simp [step, onThread, Thread.step, hf.1]
  · have hleave := hc.leave_none hnone k sysRet
    exact ⟨by simp [Thread.entered, hleave.1], hleave.2⟩
  · have hmem : f ∈ c.thread.pending := hframes ▸ List.mem_cons_self
    have hback : c.thread.sigreturn below r = _ :=
      Thread.sigreturn_eq (hc.thread.intact f hmem) hc.thread.id hrsp
    refine ⟨by rw [hback], congrArg (fun x => x.2.sig.signals.blocked) hback, ?_⟩
    simp only [step, onThread, Thread.step, hframes, List.tail_cons]

def quiet : Course where
  thread :=
    { sig :=
        { id := 1
          empty := false
          signals := ⟨0, 0, fun _ => ⟨0x400000, 0, saRestorer, 0x401000⟩⟩
          pendingRestore := none }
      mem := fun _ => 0
      pending := [] }
  sent := fun _ => false

def twoSent : Course := [Event.send 12, .send 10].foldl step quiet

theorem signals_handled_two :
    ∃ f, twoSent.thread.Enters (Thread.saveArea 0x7fff0000) 7 10 f ∧ f.mask = 0 ∧
      (twoSent.step (.leave (Thread.saveArea 0x7fff0000) 7)).signals.blocked = bit 10 := by
  have hcatch : SignalAction.Catches ⟨0x400000, 0, saRestorer, 0x401000⟩ := by decide
  have hrun : Steps step Legal quiet [.send 12, .send 10] :=
    ⟨⟨by decide, by decide, rfl⟩, ⟨by decide, by decide, rfl⟩, trivial⟩
  have hlower : ∀ l < 10, twoSent.signals.isPending l = false := by decide
  have hsig : twoSent.signals.Lowest 10 := ⟨by decide, by decide, by decide,
    by decide, fun l _ hlt hp => by rw [hlower l hlt] at hp; cases hp⟩
  have hadded : twoSent.signals.blocked ||| (bit 10 ||| (twoSent.signals.handlers 10).mask) =
    bit 10 := by
    decide
  have hall := (signals_handled ⟨by decide, rfl, rfl, rfl, rfl, rfl, fun _ _ _ _ => hcatch⟩
    hrun).2.2.1
  change ∀ k sysRet sig, twoSent.signals.Lowest sig → _ at hall
  obtain ⟨f, hf, -, hmask, hblocked, -⟩ := hall (Thread.saveArea 0x7fff0000) 7 10 hsig
  exact ⟨f, hf, hmask, hblocked.trans hadded⟩

end Course

end Rynex.Task
