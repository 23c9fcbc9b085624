import Rynex.Task.SignalReturn

/-! What user code can make the kernel return to: the context that `rt_sigreturn` takes from the
user stack, and the handlers that `rt_sigaction` registers. -/

namespace Rynex.Task

open Rynex.Lib Rynex.Lib.Bytes Rynex.Errno

/-- The flags that user code may change: CF, PF, AF, ZF, SF, TF, DF, OF, NT, AC and ID. -/
def userFlags : Word := 0x244DD5

/-- The flags that `sysretq` takes and user code must not change: IF, IOPL, VIF and VIP. -/
def systemFlags : Word := 0x183200

/-- IF. -/
def interruptFlag : Word := 0x200

/-- IOPL. -/
def iopl : Word := 0x3000

/-- A context that may be returned to, by the flags of the task before. -/
structure SafeReturn (flags : Word) (r : Regs) (signals : Signals) : Prop where
  rip : r.rip.toNat < 2 ^ 47
  flags : (r.rflags ^^^ flags) &&& ~~~ userFlags = 0
  privilege : r.rflags &&& (iopl ||| interruptFlag) = interruptFlag
  kill : signals.isBlocked sigKill = false
  stop : signals.isBlocked sigStop = false

/-- The frame that `rt_sigreturn` finds below the stack pointer is one that may be returned to. -/
structure FrameSafe (m : Bytes) (r : Regs) : Prop where
  rip : (sigReadU64 m (r.rsp - 8 + BitVec.ofNat 64 sigRip)).toNat < 2 ^ 47
  eflags : sigReadU64 m (r.rsp - 8 + BitVec.ofNat 64 sigEflags) &&& systemFlags = interruptFlag
  kill : (sigReadU64 m (r.rsp - 8 + BitVec.ofNat 64 sigSigmask)).getLsbD sigKill = false
  stop : (sigReadU64 m (r.rsp - 8 + BitVec.ofNat 64 sigSigmask)).getLsbD sigStop = false

theorem isBlocked_eq (s : Signals) (w : Word) {sig : Nat} (h : sig < 64) :
    { s with blocked := ⟨w⟩ : Signals }.isBlocked sig = w.getLsbD sig := by
  have hshift : ((⟨w⟩ : UInt64) >>> sig.toUInt64).toBitVec = w >>> sig := by
    rw [UInt64.toBitVec_shiftRight, BitVec.ushiftRight_eq']
    congr 1
    simp [BitVec.toNat_umod, h]
  have hbit : ∀ x : Word, x &&& 1 ≠ 0 ↔ x.getLsbD 0 = true := by
    intro x
    rw [show (1 : Word) = 1#64 from rfl, BitVec.and_one_eq_setWidth_ofBool_getLsbD]
    cases x.getLsbD 0 <;> decide
  refine Bool.eq_iff_iff.mpr ((decide_eq_true_iff).trans ?_)
  rw [ne_eq, ← UInt64.toBitVec_inj, UInt64.toBitVec_and, hshift]
  refine (hbit _).trans ?_
  rw [BitVec.getLsbD_ushiftRight, Nat.add_zero]

theorem entry_word (below : KStack) (r : Regs) (m : Bytes) {off : Nat} (hlow : 8 ≤ off)
    (hhigh : off ≤ 312) :
    sigReadU64 (syscallEntry below r m).mem (r.rsp - 8 + BitVec.ofNat 64 off) =
      sigReadU64 m (r.rsp - 8 + BitVec.ofNat 64 off) := by
  refine read_congr fun a ha => syscallEntry_mem below r fun hin => ?_
  have h8 : (8 : Word).toNat = 8 := rfl
  have h40 : (40 : Word).toNat = 40 := rfl
  simp only [Within, BitVec.toNat_sub, BitVec.toNat_add, BitVec.toNat_ofNat] at ha hin
  omega

theorem xor_and (x y z : Word) : (x ^^^ y) &&& z = (x &&& z) ^^^ (y &&& z) := by
  ext i
  simp only [BitVec.getElem_and, BitVec.getElem_xor, Bool.and_xor_distrib_right]

theorem or_and (x y z : Word) : (x ||| y) &&& z = (x &&& z) ||| (y &&& z) := by
  ext i
  simp only [BitVec.getElem_and, BitVec.getElem_or, Bool.and_or_distrib_right]

theorem and_or_self (x y z : Word) : x &&& (y ||| z) ||| z = x &&& y ||| z := by
  ext i
  simp only [BitVec.getElem_and, BitVec.getElem_or]
  cases x[i] <;> cases y[i] <;> cases z[i] <;> rfl

theorem flags_iff {flags w : Word} (h : flags &&& ~~~ userFlags = interruptFlag ||| 2) :
    ((w &&& sysretFlags ||| 2) ^^^ flags) &&& ~~~ userFlags = 0 ↔
      w &&& systemFlags = interruptFlag := by
  have hmask : (w &&& sysretFlags ||| 2) &&& ~~~ userFlags = w &&& systemFlags ||| 2 := by
    have hsys : sysretFlags &&& ~~~ userFlags = systemFlags ||| 2 := by decide
    have htwo : (2 : Word) &&& ~~~ userFlags = 2 := by decide
    rw [or_and, BitVec.and_assoc, hsys, htwo, and_or_self]
  have hback : (w &&& systemFlags ||| 2) &&& systemFlags = w &&& systemFlags := by
    have htwo : (2 : Word) &&& systemFlags = 0 := by decide
    rw [or_and, BitVec.and_assoc, BitVec.and_self, htwo]
    exact BitVec.or_zero
  rw [xor_and, show (0 : Word) = 0#64 from rfl, BitVec.xor_eq_zero_iff, hmask, h]
  constructor
  · intro heq
    rw [← hback, heq]
    decide
  · exact fun heq => by rw [heq]

theorem privilege_of_flags {flags w : Word} (h : flags &&& ~~~ userFlags = interruptFlag ||| 2)
    (hw : (w ^^^ flags) &&& ~~~ userFlags = 0) :
    w &&& (iopl ||| interruptFlag) = interruptFlag := by
  rw [xor_and, show (0 : Word) = 0#64 from rfl, BitVec.xor_eq_zero_iff, h] at hw
  have hsub : iopl ||| interruptFlag = ~~~ userFlags &&& (iopl ||| interruptFlag) := by decide
  rw [hsub, ← BitVec.and_assoc, hw]
  decide

/-! ### The handlers -/

/-- A call of `rt_sigaction`: the signal, and the new action if there is one, with the answer of
`user_range_valid` for where it was read. -/
structure SigactionCall where
  sig : Int
  act : Option (Bool × SignalAction)

def SigState.sysRtSigaction (s : SigState) (c : SigactionCall) : Int × SigState :=
  if c.sig ≤ 0 || (signalCount : Int) ≤ c.sig then (-einval, s)
  else if c.sig = sigKill || c.sig = sigStop then (-einval, s)
  else if s.id = 0 then (-einval, s)
  else
    match c.act with
    | none => (0, s)
    | some (valid, ka) =>
      if !valid then (-efault, s)
      else if !Paging.isUserAddr ka.handler.toNat then (-efault, s)
      else if !Paging.isUserAddr ka.restorer.toNat then (-efault, s)
      else (0, { s with signals := { s.signals with
        handlers := Function.update s.signals.handlers c.sig.toNat ka } })

def UserHandlers (s : SigState) : Prop := ∀ sig, (s.signals.handlers sig).handler.toNat < 2 ^ 47

theorem userHandlers_sysRtSigaction {s : SigState} (h : UserHandlers s) (c : SigactionCall) :
    UserHandlers (s.sysRtSigaction c).2 := by
  unfold SigState.sysRtSigaction
  split
  · exact h
  split
  · exact h
  split
  · exact h
  split
  · exact h
  split
  · exact h
  split
  · exact h
  split
  · exact h
  · rename_i ka _ huser _
    intro sig
    by_cases hsig : sig = c.sig.toNat
    · simpa [hsig, Paging.isUserAddr] using huser
    · simpa [hsig] using h sig

theorem enterHandler_rip (s : SigState) (sig : Nat) (k : KStack) (sysRet : Word) (m : Bytes) :
    (syscallExit (s.enterHandler sig k sysRet m).2.1 sysRet
      (s.enterHandler sig k sysRet m).2.2).rip =
      (s.signals.handlers sig).handler.toBitVec := rfl

/-- The context of a frame is one that may be returned to exactly if the frame's words are; and the
handlers that any calls of `rt_sigaction` register are entered in the user half. -/
theorem sigreturn_safe_iff (s : Thread) (below : KStack) (r : Regs) (hid : s.sig.id ≠ 0)
    (hflags : r.rflags &&& ~~~ userFlags = interruptFlag ||| 2) :
    ((∃ c, (s.sigreturn below r).1 = some c ∧
        SafeReturn r.rflags c (s.sigreturn below r).2.sig.signals) ↔ FrameSafe s.mem r) ∧
      ∀ (start : SigState) (calls : List SigactionCall) (k : KStack) (sysRet : Word) (m : Bytes),
        (∀ sig, start.signals.handlers sig = .empty) →
        let sig := calls.foldl (fun s c => (s.sysRtSigaction c).2) start
        ∀ sig' k' m', sig.pendingRestore = none →
          sig.checkDeliverSignal k sysRet m = .rewritten sig' k' m' →
          (syscallExit k' sysRet m').rip.toNat < 2 ^ 47 := by
  have hword : ∀ off, 8 ≤ off → off ≤ 312 →
      sigReadU64 (syscallEntry below r s.mem).mem (r.rsp - 8 + BitVec.ofNat 64 off) =
        sigReadU64 s.mem (r.rsp - 8 + BitVec.ofNat 64 off) := fun _ => entry_word below r s.mem
  have hrip := hword sigRip (by decide) (by decide)
  have heflags := hword sigEflags (by decide) (by decide)
  have hmask := hword sigSigmask (by decide) (by decide)
  constructor
  · simp only [s.sigreturn_restored below r hid, Option.some.injEq, exists_eq_left', hmask]
    constructor
    · rintro ⟨hr, hf, -, hkill, hstop⟩
      simp only [Thread.restored, hrip, heflags] at hr hf
      rw [isBlocked_eq _ _ (by decide)] at hkill hstop
      exact ⟨hr, (flags_iff hflags).mp hf, hkill, hstop⟩
    · rintro ⟨hr, hf, hkill, hstop⟩
      have hflags' := (flags_iff hflags).mpr hf
      refine ⟨?_, ?_, ?_, ?_, ?_⟩
      · simpa only [Thread.restored, hrip] using hr
      · simpa only [Thread.restored, heflags] using hflags'
      · simpa only [Thread.restored, heflags] using privilege_of_flags hflags hflags'
      · rw [isBlocked_eq _ _ (by decide), hkill]
      · rw [isBlocked_eq _ _ (by decide), hstop]
  · intro start calls k sysRet m hempty sig sig' k' m' hparked hcheck
    have huser : UserHandlers sig :=
      List.foldlRecOn (motive := UserHandlers) calls _
        (fun n => by rw [hempty n]; decide) fun _ h c _ => userHandlers_sysRtSigaction h c
    rcases sig.checkDeliverSignal_cases k sysRet m hparked with hp | ⟨_, hp⟩ | ⟨n, -, -, hp⟩
    · rw [hp] at hcheck
      cases hcheck
    · rw [hp] at hcheck
      cases hcheck
    · rw [hp] at hcheck
      obtain ⟨-, rfl, rfl⟩ := Delivered.rewritten.inj hcheck
      rw [enterHandler_rip]
      exact huser n

def quietThread (m : Bytes) : Thread where
  sig := ⟨1, false, ⟨0, 0, fun _ => .empty⟩, none⟩
  mem := m
  pending := []

/-- The registers of a task in user mode, with the stack pointer above a frame at `0x10000`. -/
def atFrame : Regs := ⟨15, 0, 0, 0, 0, 0, 0, 0x10008, 0, 0, 0, 0, 0, 0, 0, 0, 0, 0x202⟩

/-- A frame with IF set. -/
theorem sigreturn_safe_iff_interrupts :
    ∃ c, ((quietThread fun a => if a = 0x100b9 then 2 else 0).sigreturn (fun _ => 0) atFrame).1 =
      some c ∧ SafeReturn 0x202 c ((quietThread fun a => if a = 0x100b9 then 2 else 0).sigreturn
        (fun _ => 0) atFrame).2.sig.signals :=
  (sigreturn_safe_iff _ _ atFrame (by decide) (by decide)).1.mpr
    ⟨by decide +kernel, by decide +kernel, by decide +kernel, by decide +kernel⟩

/-- A frame of ones: the return goes to the kernel half with IOPL 3, and SIGKILL is blocked. -/
theorem sigreturn_installs_frame_of_ones :
    let s := quietThread fun _ => 0xFF
    s.sig.id ≠ 0 ∧ atFrame.rflags &&& ~~~ userFlags = interruptFlag ||| 2 ∧
      ∃ c, (s.sigreturn (fun _ => 0) atFrame).1 = some c ∧ 2 ^ 47 ≤ c.rip.toNat ∧
        c.rflags &&& iopl = iopl ∧
        (s.sigreturn (fun _ => 0) atFrame).2.sig.signals.isBlocked sigKill = true := by
  intro s
  refine ⟨by decide, by decide, _, congrArg Prod.fst (s.sigreturn_restored _ _ (by decide)), ?_⟩
  decide +kernel

end Rynex.Task
