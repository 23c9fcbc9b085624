import Rynex.Task.SignalReturn

/-! `rt_sigsuspend` puts a mask in place of that of the task, and waits for a signal. It puts the
old mask back before it returns, so that the end of the call looks for a handler under the old
mask. -/

namespace Rynex.Task

open Rynex.Errno

namespace SigState

/-- How `rt_sigsuspend` goes on once it has looked at the pending signals: it returns, or the task
sleeps with the mask `old` kept in a local variable. -/
inductive Suspended where
  | returns (rax : Int) (s : SigState)
  | sleeps (old : UInt64) (s : SigState)

def setBlocked (s : SigState) (mask : UInt64) : SigState :=
  { s with signals := { s.signals with blocked := mask } }

/-- The words that other tasks have set while this one slept. -/
def setPending (s : SigState) (pending : UInt64) : SigState :=
  { s with signals := { s.signals with pending := pending } }

/-- `sys_rt_sigsuspend` up to `force_schedule`; `null` says that no mask was passed. -/
def sysRtSigsuspend (s : SigState) (null : Bool) (mask : UInt64) : Suspended :=
  if s.id = 0 then .returns (-einval) s
  else if null then .returns (-einval) s
  else
    let oldMask := s.signals.blocked
    let t := s.setBlocked mask
    if t.signals.ready then .returns (-eintr) (t.setBlocked oldMask)
    else .sleeps oldMask t

/-- The whole call with a mask: `wake` are the pending signals when the task runs again, if it
slept. -/
def suspend (s : SigState) (mask wake : UInt64) : Int × SigState :=
  match s.sysRtSigsuspend false mask with
  | .returns rax s => (rax, s)
  | .sleeps old s => (-eintr, (s.setPending wake).setBlocked old)

/-- The signal `sig` has a handler, is pending when the call returns, and is not in the temporary
mask. -/
structure Interrupts (t : SigState) (mask : UInt64) (sig : Nat) : Prop where
  low : 1 ≤ sig
  high : sig < signalCount
  pending : t.signals.isPending sig = true
  unmasked : (t.setBlocked mask).signals.isBlocked sig = false
  caught : (t.signals.handlers sig).handler ≠ sigIgn ∧ (t.signals.handlers sig).handler ≠ sigDfl

theorem suspend_spec (s : SigState) (mask wake : UInt64) (h : s.id ≠ 0) :
    (s.suspend mask wake).1 = -eintr ∧
      (s.suspend mask wake).2 = s.setPending (s.suspend mask wake).2.signals.pending := by
  unfold suspend sysRtSigsuspend
  rw [if_neg h, if_neg Bool.false_ne_true]
  dsimp only
  by_cases hready : (s.setBlocked mask).signals.ready = true
  · rw [if_pos hready]
    exact ⟨rfl, rfl⟩
  · rw [if_neg hready]
    exact ⟨rfl, rfl⟩

end SigState

namespace Thread

/-- The thread when `rt_sigsuspend` has returned to the exit path. -/
def suspend (s : Thread) (mask wake : UInt64) : Thread :=
  { s with sig := (s.sig.suspend mask wake).2 }

/-- A signal that interrupts `rt_sigsuspend` has its handler entered at the end of the call, with
the old mask to go back to, exactly if the old mask does not hold it back, its action has a
restorer, and the old mask lets through no signal of a lower number. -/
theorem suspend_enters_iff (s : Thread) (mask wake : UInt64) (k : KStack) (sig : Nat)
    (hid : s.sig.id ≠ 0) (hempty : s.sig.empty = false) (hparked : s.sig.pendingRestore = none)
    (h : (s.suspend mask wake).sig.Interrupts mask sig) :
    (∃ f, (s.suspend mask wake).Enters k (BitVec.ofInt 64 (-eintr)) sig f ∧
        f.mask = s.sig.signals.blocked) ↔
      s.sig.signals.isBlocked sig = false ∧
        (s.sig.signals.handlers sig).restorer ≠ 0 ∧
        (s.sig.signals.handlers sig).flags &&& saRestorer ≠ 0 ∧
        ∀ l, 1 ≤ l → l < sig → (s.suspend mask wake).sig.signals.delivery l = .skip := by
  have hsame : (s.suspend mask wake).sig = s.sig.setPending
    (s.suspend mask wake).sig.signals.pending :=
    (s.sig.suspend_spec mask wake hid).2
  generalize s.suspend mask wake = t at h hsame ⊢
  have hparked' : t.sig.pendingRestore = none := by rw [hsame]; exact hparked
  have hlive : (t.sig.id = 0 || t.sig.empty) = false := by
    rw [hsame]
    simp [SigState.setPending, hid, hempty]
  have hblocked : t.sig.signals.blocked = s.sig.signals.blocked := by rw [hsame]; rfl
  have hisBlocked : t.sig.signals.isBlocked sig = s.sig.signals.isBlocked sig := by
    rw [Signals.isBlocked, hblocked, Signals.isBlocked]
  have hhandlers : t.sig.signals.handlers = s.sig.signals.handlers := by rw [hsame]; rfl
  -- the frame keeps the mask of the exit path, which is the old one
  have hmask : (∃ f, t.Enters k (BitVec.ofInt 64 (-eintr)) sig f ∧ f.mask = s.sig.signals.blocked) ↔
      ∃ f, t.Enters k (BitVec.ofInt 64 (-eintr)) sig f :=
    exists_congr fun f => and_iff_left_of_imp fun hf => hblocked ▸ (delivery_context hf.1).2.2
  rw [hmask, enters_iff hparked' hlive h.high, Signals.deliverable_eq_some_iff,
    Signals.delivery_eq_enter_iff, hisBlocked, hhandlers]
  have hcaught := h.caught
  rw [hhandlers] at hcaught
  constructor
  · rintro ⟨⟨-, -, -, hlower⟩, -, hopen, -, -, hrestorer, hflag⟩
    exact ⟨hopen, hrestorer, hflag, hlower⟩
  · rintro ⟨hopen, hrestorer, hflag, hlower⟩
    have henter : t.sig.signals.delivery sig = .enter := by
      rw [Signals.delivery_eq_enter_iff, hisBlocked, hhandlers]
      exact ⟨h.pending, hopen, hcaught.1, hcaught.2, hrestorer, hflag⟩
    refine ⟨⟨h.low, h.high, ?_, hlower⟩, h.pending, hopen, hcaught.1, hcaught.2, hrestorer, hflag⟩
    rw [henter]
    decide

/-- SIGCHLD with a handler is pending and, with the mask `blocked`, held back: the usual state
before a call of `rt_sigsuspend` that lets it through. -/
def childSignal (blocked : UInt64) : Thread where
  sig :=
    { id := 1
      empty := false
      signals :=
        { pending := bit sigChld
          blocked := blocked
          handlers := fun _ => ⟨0x400000, 0, saRestorer, 0x401000⟩ }
      pendingRestore := none }
  mem := fun _ => 0
  pending := []

theorem suspend_enters_open :
    ∃ f, ((childSignal 0).suspend 0 0).Enters (saveArea 0x7fff0000)
      (BitVec.ofInt 64 (-eintr)) sigChld
      f ∧ f.mask = 0 :=
  (suspend_enters_iff (childSignal 0) 0 0 (saveArea 0x7fff0000) sigChld (by decide) rfl rfl
    ⟨by decide, by decide, by decide, by decide, by decide⟩).mpr
    ⟨by decide, by decide, by decide, by decide⟩

/-- The signal that the call was made to wait for, and for which it returns, stays pending: the end
of the call finds it in the old mask. -/
theorem suspend_misses_signal :
    ((childSignal (bit sigChld)).sig.suspend 0 0).1 = -eintr ∧
      ((childSignal (bit sigChld)).suspend 0 0).sig.Interrupts 0 sigChld ∧
      ∀ k f, ¬ ((childSignal (bit sigChld)).suspend 0 0).Enters k (BitVec.ofInt 64 (-eintr)) sigChld
        f := by
  refine ⟨by decide,
    ⟨by decide, by decide, by decide, by decide, by decide⟩, ?_⟩
  intro k f hf
  have hloop := (enters_iff rfl (by decide) (by decide)).mp ⟨f, hf⟩
  have hskip : ((childSignal (bit sigChld)).suspend 0 0).sig.signals.delivery sigChld = .skip := by
    decide
  rw [hskip] at hloop
  cases hloop.2

end Thread

end Rynex.Task
