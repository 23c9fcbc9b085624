import Rynex.Task.SignalSafety

/-! The signals that a word of user code stands for. In the interface of Linux, signal `n` is bit
`n - 1` of a set; the kernel tests bit `n` of the same word. The calls that pass sets are followed
beside the sets that they name, over every history of a task. -/

namespace Rynex.Task

open Rynex.Lib Rynex.Errno

/-! ### Words as bits -/

theorem getLsbD_bit {sig n : Nat} (h : sig < 64) :
    (bit sig).toBitVec.getLsbD n = decide (n = sig) := by
  have hshift : (bit sig).toBitVec = BitVec.twoPow 64 sig := by
    rw [bit, UInt64.toBitVec_shiftLeft, BitVec.shiftLeft_eq', BitVec.twoPow]
    congr 1
    simp [BitVec.toNat_umod, h]
  rw [hshift, BitVec.getLsbD_twoPow, decide_eq_true h, Bool.true_and]
  exact decide_eq_decide.mpr eq_comm

theorem Signals.isBlocked_getLsbD (s : Signals) {sig : Nat} (h : sig < 64) :
    s.isBlocked sig = s.blocked.toBitVec.getLsbD sig := isBlocked_eq s s.blocked.toBitVec h

theorem Signals.isPending_getLsbD (s : Signals) {sig : Nat} (h : sig < 64) :
    s.isPending sig = s.pending.toBitVec.getLsbD sig := by
  have hbit : (s.pending &&& bit sig).toBitVec =
      if s.pending.toBitVec.getLsbD sig then (bit sig).toBitVec else 0 := by
    refine BitVec.eq_of_getLsbD_eq fun n hn => ?_
    rw [UInt64.toBitVec_and, BitVec.getLsbD_and, getLsbD_bit h]
    by_cases hsame : n = sig
    · subst hsame
      cases hp : s.pending.toBitVec.getLsbD n <;> simp [getLsbD_bit h]
    · cases s.pending.toBitVec.getLsbD sig <;> simp [getLsbD_bit h, hsame]
  have hne : bit sig ≠ 0 := fun h0 => by
    have hself := getLsbD_bit (n := sig) h
    rw [h0] at hself
    simp at hself
  refine Bool.eq_iff_iff.mpr ((decide_eq_true_iff).trans ?_)
  rw [ne_eq, ← UInt64.toBitVec_inj, hbit]
  cases s.pending.toBitVec.getLsbD sig
  · simp
  · exact iff_of_true (fun h0 => hne (UInt64.toBitVec_inj.mp h0)) rfl

/-! ### Sending and holding back -/

/-- User code has registered a handler and a restorer. -/
def SignalAction.Catches (act : SignalAction) : Prop :=
  act.handler ≠ sigIgn ∧ act.handler ≠ sigDfl ∧ act.restorer ≠ 0 ∧ act.flags &&& saRestorer ≠ 0

instance (act : SignalAction) : Decidable act.Catches := inferInstanceAs (Decidable (_ ∧ _))

namespace Signals

theorem delivery_of_catches {s : Signals} {sig : Nat} (h : (s.handlers sig).Catches) :
    s.delivery sig = if s.isPending sig && !s.isBlocked sig then .enter else .skip := by
  cases hp : s.isPending sig with
  | false => simp [delivery_of_not_pending hp]
  | true =>
    cases hb : s.isBlocked sig with
    | true => simp [delivery_of_blocked hb]
    | false => simpa using delivery_eq_enter_iff.mpr ⟨hp, hb, h⟩

/-- What `sig_deliver_to_task` leaves of the signal state of its target, or nothing if the target
ends. The signal is one of `1..SIGNAL_COUNT`. -/
def send (s : Signals) (sig : Nat) : Option Signals :=
  let act := s.handlers sig
  if sig = sigKill || sig = sigStop then none
  else if act.handler = sigIgn then some s
  else if act.handler ≠ sigDfl then some (s.setPending sig)
  else if terminates sig then if s.isBlocked sig then some (s.setPending sig) else none
  else some s

/-- `sys_rt_sigprocmask` of a task: its answer, the word for `oldset`, and the state after it; `set`
is the word that was read, unless the pointer is null. -/
def sysRtSigprocmask (s : Signals) (how : Int) (set : Option UInt64) : Int × UInt64 × Signals :=
  let old := s.blocked
  match set with
  | none => (0, old, s)
  | some mask =>
    let (rax, s) := s.changeMask how mask
    (rax, old, s)

def enter (s : Signals) (sig : Nat) : Signals :=
  { s with
    blocked := s.blocked ||| (bit sig ||| (s.handlers sig).mask)
    pending := s.pending &&& ~~~ bit sig }

def catching (s : Signals) : Signals :=
  { s with handlers := fun _ => ⟨0x400000, 0, saRestorer, 0x401000⟩ }

theorem catching_catches (s : Signals) (sig : Nat) : (s.catching.handlers sig).Catches := by
  have h : SignalAction.Catches ⟨0x400000, 0, saRestorer, 0x401000⟩ := by decide
  exact h

/-- The mask holds `sig` back: a task that catches it is sent it, goes on, and does not enter the
handler at the end of its next system call. -/
def holdsBack (s : Signals) (sig : Nat) : Bool :=
  match s.catching.send sig with
  | none => false
  | some t => t.delivery sig = .skip

def catchable (sig : Nat) : Bool := sig ≠ sigKill && sig ≠ sigStop

/-- The signals that are held back are read off the mask by their own numbers. -/
theorem holdsBack_eq (s : Signals) {sig : Nat} (h : sig < signalCount) :
    s.holdsBack sig = (s.blocked.toBitVec.getLsbD sig && catchable sig) := by
  have hlt : sig < 64 := lt_trans h (by decide)
  by_cases hkill : (sig = sigKill || sig = sigStop) = true
  · have hcatch : catchable sig = false := by
      rcases Bool.or_eq_true _ _ |>.mp hkill with hs | hs
      · rw [decide_eq_true_eq.mp hs]
        rfl
      · rw [decide_eq_true_eq.mp hs]
        rfl
    simp only [holdsBack, send, hkill, if_true, hcatch, Bool.and_false]
  · have hcatch : catchable sig = true := by
      simp only [Bool.or_eq_true, decide_eq_true_eq, not_or] at hkill
      simp [catchable, hkill.1, hkill.2]
    have hsent : s.catching.send sig = some (s.catching.setPending sig) := by
      simp only [send, Bool.not_eq_true] at hkill ⊢
      rw [hkill]
      rfl
    have hpending : (s.catching.setPending sig).isPending sig = true := by
      rw [isPending_getLsbD _ hlt, setPending, UInt64.toBitVec_or, BitVec.getLsbD_or,
        getLsbD_bit hlt]
      simp
    have hcaught : ((s.catching.setPending sig).handlers sig).Catches := s.catching_catches sig
    have hdelivery := delivery_of_catches hcaught
    have hblocked : (s.catching.setPending sig).isBlocked sig = s.isBlocked sig := rfl
    rw [hpending, hblocked] at hdelivery
    rw [← isBlocked_getLsbD s hlt, hcatch, Bool.and_true, holdsBack, hsent]
    dsimp only
    rw [hdelivery]
    cases s.isBlocked sig <;> rfl

end Signals

/-! ### Masks and the sets that they stand for -/

def sigset (w : UInt64) (n : Nat) : Bool := w.toBitVec.getLsbD (n - 1)

/-- The signals that a word names and that a mask may hold. -/
def blockable (w : UInt64) (n : Nat) : Bool := sigset w n && Signals.catchable n

/-- A mask as the kernel keeps it, beside the set that was asked for. -/
structure Mask where
  word : UInt64
  set : Nat → Bool

/-- The mask holds back the signals of the set. -/
def Mask.Exact (m : Mask) : Prop :=
  ∀ n, 1 ≤ n → n < signalCount → (m.word.toBitVec.getLsbD n && Signals.catchable n) = m.set n

/-- Each bit of a word agrees with the one below it, which names the same signal; SIGKILL and
SIGSTOP do not count. -/
def Aligned (w : UInt64) : Prop :=
  ∀ n < signalCount, 1 ≤ n → Signals.catchable n = true →
    w.toBitVec.getLsbD n = w.toBitVec.getLsbD (n - 1)

instance (w : UInt64) : Decidable (Aligned w) :=
  inferInstanceAs (Decidable (∀ n < signalCount, _))

/-- The word names the signals that it holds back: it is aligned, and it names neither SIGKILL nor
SIGSTOP. -/
def Reportable (w : UInt64) : Prop :=
  Aligned w ∧ sigset w sigKill = false ∧ sigset w sigStop = false

theorem Mask.exact_empty : Mask.Exact ⟨0, fun _ => false⟩ := fun n _ _ => by simp

variable {w : UInt64} {b : UInt64} {set : Nat → Bool} {sig n : Nat}

theorem Mask.Exact.set_eq (h : Exact ⟨b, set⟩) (hlow : 1 ≤ n) (hhigh : n < signalCount) :
    set n = (b.toBitVec.getLsbD n && Signals.catchable n) := (h n hlow hhigh).symm

theorem Aligned.exact (h : Aligned w) : Mask.Exact ⟨w, blockable w⟩ := fun n hlow hhigh => by
  cases hc : Signals.catchable n with
  | false => simp [blockable, hc]
  | true => simp [blockable, hc, sigset, h n hhigh hlow hc]

theorem getLsbD_notBlockable (hn : n < 64) :
    (~~~ (bit sigKill ||| bit sigStop)).toBitVec.getLsbD n = Signals.catchable n := by
  rw [UInt64.toBitVec_not, BitVec.getLsbD_not, UInt64.toBitVec_or, BitVec.getLsbD_or,
    getLsbD_bit (by decide), getLsbD_bit (by decide), decide_eq_true hn, Bool.true_and]
  simp [Signals.catchable]

/-- The set after `rt_sigprocmask` with the set that `w` names. -/
def asked (how : Int) (w : UInt64) (set : Nat → Bool) (n : Nat) : Bool :=
  if how = 0 then set n || blockable w n
  else if how = 1 then set n && !sigset w n
  else if how = 2 then blockable w n
  else set n

theorem Mask.Exact.changeMask {s : Signals} (h : Exact ⟨s.blocked, set⟩) (hw : Aligned w)
    (how : Int) :
    Exact ⟨(s.changeMask how w).2.blocked, asked how w set⟩ := by
  intro n hlow hhigh
  have hnot := getLsbD_notBlockable (lt_trans hhigh (by decide))
  have hset := h n hlow hhigh
  have hword := hw.exact n hlow hhigh
  simp only [blockable, sigset] at hset hword
  unfold Signals.changeMask asked
  dsimp only
  split_ifs with h0 h1 h2
  · simp only [UInt64.toBitVec_or, UInt64.toBitVec_and, BitVec.getLsbD_or, BitVec.getLsbD_and, hnot,
      ← hset, blockable, sigset, ← hword]
    cases Signals.catchable n <;> simp
  · rw [UInt64.toBitVec_and, BitVec.getLsbD_and, UInt64.toBitVec_not, BitVec.getLsbD_not,
      UInt64.toBitVec_and, BitVec.getLsbD_and, hnot, ← hset, sigset,
      decide_eq_true (lt_trans hhigh (show signalCount < 64 by decide)), Bool.true_and]
    cases hc : Signals.catchable n with
    | false => simp
    | true => rw [Bool.and_true, Bool.and_true, Bool.and_true, hw n hhigh hlow hc]
  · simp only [UInt64.toBitVec_and, BitVec.getLsbD_and, hnot, blockable, sigset, ← hword]
    cases Signals.catchable n <;> simp
  · exact hset

def entered (sig : Nat) (w : UInt64) (set : Nat → Bool) (n : Nat) : Bool :=
  set n || (decide (n = sig) && Signals.catchable n) || blockable w n

theorem Mask.Exact.enter {s : Signals} (h : Exact ⟨s.blocked, set⟩) (hsig : sig < signalCount)
    (hw : Aligned (s.handlers sig).mask) :
    Exact ⟨(s.enter sig).blocked, entered sig (s.handlers sig).mask set⟩ := by
  intro n hlow hhigh
  have hset := h n hlow hhigh
  have hword := hw.exact n hlow hhigh
  simp only [blockable, sigset] at hset hword
  simp only [Signals.enter, UInt64.toBitVec_or, BitVec.getLsbD_or,
    getLsbD_bit (lt_trans hsig (show signalCount < 64 by decide)), entered, ← hset, blockable,
      sigset,
    ← hword]
  cases Signals.catchable n <;> simp [Bool.or_assoc]

theorem Mask.Exact.report_iff (h : Exact ⟨b, set⟩) :
    (∀ n, 1 ≤ n → n < signalCount → sigset b n = set n) ↔ Reportable b := by
  constructor
  · intro hnamed
    have hstop : ∀ n, 1 ≤ n → n < signalCount → Signals.catchable n = false → sigset b n = false :=
      fun n hlow hhigh hc => by
        rw [hnamed n hlow hhigh, h.set_eq hlow hhigh, hc, Bool.and_false]
    refine ⟨fun n hhigh hlow hc => ?_, hstop _ (by decide) (by decide) rfl,
      hstop _ (by decide) (by decide) rfl⟩
    have hn := hnamed n hlow hhigh
    rw [h.set_eq hlow hhigh, hc, Bool.and_true] at hn
    exact hn.symm
  · rintro ⟨haligned, hkill, hstop⟩ n hlow hhigh
    rw [h.set_eq hlow hhigh]
    cases hc : Signals.catchable n with
    | true => rw [Bool.and_true, haligned n hhigh hlow hc, sigset]
    | false =>
      have hn : n = sigKill ∨ n = sigStop := by
        simpa [Signals.catchable, or_iff_not_imp_left] using hc
      rcases hn with rfl | rfl
      · rw [hkill, Bool.and_false]
      · rw [hstop, Bool.and_false]

/-! ### Histories -/

/-- The signal state of a task and the masks in the frames of its handlers, innermost first; `old`
is the mask that a sleeping `rt_sigsuspend` keeps. The sets that were asked for are history. -/
structure Masks where
  signals : Signals
  set : Nat → Bool
  frames : List Mask
  old : Option Mask

namespace Masks

def init (pending : UInt64) (handlers : Nat → SignalAction) : Masks :=
  ⟨⟨pending, 0, handlers⟩, fun _ => false, [], none⟩

def mask (s : Masks) : Mask := ⟨s.signals.blocked, s.set⟩

def setMask (s : Masks) (m : Mask) : Masks :=
  { s with signals := { s.signals with blocked := m.word }, set := m.set }

/-- The calls that read or write the mask. An accepted `rt_sigaction` has registered its action;
`exit` is the end of a system call, and `rt_sigreturn` returns from the innermost handler. -/
inductive Call where
  | sigprocmask (how : Int) (set : Option UInt64)
  | sigaction (sig : Nat) (act : SignalAction)
  | sigsuspend (mask : UInt64)
  | exit
  | sigreturn

inductive Event where
  | call (c : Call)
  | send (sig : Nat)
  /-- A sleeping `rt_sigsuspend` goes on. -/
  | wake

def call (s : Masks) : Call → Masks
  | .sigprocmask how set =>
    { s with
      signals := (s.signals.sysRtSigprocmask how set).2.2
      set := match set with
        | none => s.set
        | some w => asked how w s.set }
  | .sigaction sig act =>
    { s with signals := { s.signals with handlers := Function.update s.signals.handlers sig act } }
  | .sigsuspend mask =>
    if { s.signals with blocked := mask : Signals }.ready then s
    else { s.setMask ⟨mask, blockable mask⟩ with old := some s.mask }
  | .exit =>
    match s.signals.deliverable with
    | none => s
    | some sig =>
      if s.signals.delivery sig = .enter then
        { s with
          signals := s.signals.enter sig
          set := entered sig (s.signals.handlers sig).mask s.set
          frames := s.mask :: s.frames }
      else s
  | .sigreturn =>
    match s.frames with
    | [] => s
    | m :: ms => { s.setMask m with frames := ms }

/-- A task that sleeps in `rt_sigsuspend` makes no calls. -/
def step (s : Masks) : Event → Masks
  | .call c => if s.old.isSome then s else s.call c
  | .send sig => { s with signals := (s.signals.send sig).getD s.signals }
  | .wake =>
    match s.old with
    | none => s
    | some m => { s.setMask m with old := none }

/-- The sets that a step brings in are the same in both readings. -/
def Fits (s : Masks) : Event → Prop
  | .call (.sigprocmask _ set) => ∀ w ∈ set, Aligned w
  | .call (.sigsuspend mask) => Aligned mask
  | .call .exit => ∀ sig ∈ s.signals.deliverable, Aligned (s.signals.handlers sig).mask
  | _ => True

/-- Every mask that is or will be in place holds back the signals that were asked for. -/
structure Sound (s : Masks) : Prop where
  mask : s.mask.Exact
  frames : ∀ m ∈ s.frames, m.Exact
  old : ∀ m ∈ s.old, m.Exact

theorem sound_init (pending : UInt64) (handlers : Nat → SignalAction) :
    Sound (init pending handlers) :=
  ⟨Mask.exact_empty, by simp [init], by simp [init]⟩

theorem send_blocked (s : Signals) (sig : Nat) : ((s.send sig).getD s).blocked = s.blocked := by
  unfold Signals.send
  dsimp only
  split_ifs <;> rfl

theorem sound_call {s : Masks} (h : Sound s) (c : Call) (hok : s.Fits (.call c)) :
    Sound (s.call c) := by
  cases c with
  | sigprocmask how set =>
    refine ⟨?_, h.frames, h.old⟩
    cases set with
    | none => exact h.mask
    | some w => exact h.mask.changeMask (hok w rfl) how
  | sigaction sig act => exact ⟨h.mask, h.frames, h.old⟩
  | sigsuspend mask =>
    rw [call]
    split
    · exact h
    · exact ⟨Aligned.exact hok, h.frames, fun m hm => Option.some.inj hm ▸ h.mask⟩
  | exit =>
    rw [call]
    split
    · exact h
    · rename_i sig hfound
      split
      · have hsig := (Signals.deliverable_eq_some_iff.mp hfound).2.1
        refine ⟨h.mask.enter hsig (hok sig hfound), fun m hm => ?_, h.old⟩
        rcases List.mem_cons.mp hm with rfl | hm
        · exact h.mask
        · exact h.frames m hm
      · exact h
  | sigreturn =>
    rw [call]
    split
    · exact h
    · rename_i m ms hframes
      have hall := h.frames
      rw [hframes, List.forall_mem_cons] at hall
      exact ⟨hall.1, hall.2, h.old⟩

theorem sound_step {s : Masks} (h : Sound s) (e : Event) (hok : s.Fits e) : Sound (s.step e) := by
  cases e with
  | call c =>
    rw [step]
    split
    · exact h
    · exact sound_call h c hok
  | send sig =>
    refine ⟨?_, h.frames, h.old⟩
    have hmask : (s.step (.send sig)).mask = s.mask :=
      congrArg (Mask.mk · s.set) (send_blocked s.signals sig)
    exact hmask ▸ h.mask
  | wake =>
    rw [step]
    split
    · exact h
    · rename_i m hold
      exact ⟨h.old m hold, h.frames, by simp⟩

/-- In every history whose sets are the same in both readings, exactly the signals that were asked
for are held back, and `oldset` names them exactly if the word of the mask is the same in both
readings and names neither SIGKILL nor SIGSTOP. -/
theorem sets_exact {pending : UInt64} {handlers : Nat → SignalAction} {es : List Event}
    (h : Steps step Fits (init pending handlers) es) :
    let s := es.foldl step (init pending handlers)
    (∀ n, 1 ≤ n → n < signalCount → s.signals.holdsBack n = s.set n) ∧
      ∀ how set, (∀ n, 1 ≤ n → n < signalCount →
          sigset (s.signals.sysRtSigprocmask how set).2.1 n = s.set n) ↔
        Reportable s.signals.blocked := by
  intro s
  have hsound : Sound s := h.invariant (I := Sound) (fun _ e hs => sound_step hs e)
    (sound_init pending handlers)
  refine ⟨fun n hlow hhigh => ?_, fun how set => ?_⟩
  · rw [Signals.holdsBack_eq _ hhigh]
    exact hsound.mask n hlow hhigh
  · have hold : (s.signals.sysRtSigprocmask how set).2.1 = s.signals.blocked := by
      cases set <;> rfl
    rw [hold]
    exact hsound.mask.report_iff

/-- All signals are blocked, and one that is sent stays pending past the end of a call. -/
theorem sets_exact_full :
    let handlers := fun _ => ⟨0x400000, 0, saRestorer, 0x401000⟩
    let s := [Event.call (.sigprocmask 2 (some 0xFFFFFFFFFFFFFFFF)), .send 10, .call .exit].foldl
      step
      (init 0 handlers)
    s.set 10 = true ∧ s.signals.isPending 10 = true ∧ s.signals.holdsBack 10 = s.set 10 := by
  intro handlers s
  have hfits : Steps step Fits (init 0 handlers)
      [.call (.sigprocmask 2 (some 0xFFFFFFFFFFFFFFFF)), .send 10, .call .exit] := by
    refine ⟨fun w hw => ?_, trivial, fun sig _ => ?_, trivial⟩
    · obtain rfl := Option.some.inj hw
      decide
    · have hzero : Aligned 0 := by decide
      exact hzero
  exact ⟨by decide, by decide, (sets_exact hfits).1 10 (by decide) (by decide)⟩

/-- A program blocks SIGCHLD, signal 17, and nothing else: signal 16 is held back in its place. -/
theorem child_set_blocks_other :
    let s := (init 0 fun _ => .empty).step (.call (.sigprocmask 2 (some 0x10000)))
    s.set 17 = true ∧ s.signals.holdsBack 17 = false ∧ s.set 16 = false ∧
      s.signals.holdsBack 16 = true := by
  decide

end Masks

end Rynex.Task
