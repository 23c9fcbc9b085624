import Rynex.Task.SignalFrame

/-! A handler that leaves the stack from its frame upwards alone returns to the interrupted
context. Deliveries nest: a handler can be interrupted in its turn, and the frames that are pending
are returned from in the reverse order. -/

namespace Rynex.Task

open Rynex.Lib Rynex.Lib.Bytes

variable {m m' : Bytes} {k : KStack} {a : Word}

def exitRegs (k : KStack) (rax r10 : Word) : Regs :=
  { rax := rax, rbx := k 112, rcx := k 64, rdx := k 48, rsi := k 32, rdi := k 40, rbp := k 104
    rsp := k.origRsp, r8 := k 24, r9 := k 16, r10 := r10, r11 := k 56, r12 := k 96, r13 := k 88
    r14 := k 80, r15 := k 72, rip := k 64, rflags := k 56 &&& sysretFlags ||| 2 }

theorem syscallExit_eq (k : KStack) (rax : Word) (m : Bytes) :
    syscallExit k rax m = exitRegs k rax (sigReadU64 m (k.origRsp - 8)) := rfl

/-! ### The frame below the stack pointer -/

/-- The number of bytes from the frame to the interrupted stack pointer. -/
def KStack.span (k : KStack) : Nat := (k.origRsp - k.frame).toNat

theorem align_down (y : Word) : (y &&& ~~~ 15#64).toNat = y.toNat - y.toNat % 16 := by
  have hshift : y &&& ~~~ 15#64 = y >>> 4 <<< 4 := by
    refine BitVec.eq_of_getLsbD_eq fun i hi => ?_
    by_cases hlow : i < 4
    · have : i = 0 ∨ i = 1 ∨ i = 2 ∨ i = 3 := by omega
      rcases this with rfl | rfl | rfl | rfl <;> simp
    · have hhigh : (15#64).getLsbD i = false := by
        rw [BitVec.getLsbD_ofNat, Nat.testBit_lt_two_pow (show 15 < 2 ^ i from ?_), Bool.and_false]
        exact lt_of_lt_of_le (show 15 < 2 ^ 4 by decide)
          (Nat.pow_le_pow_right (by decide) (by omega))
      have hsum : 4 + (i - 4) = i := by omega
      rw [BitVec.getLsbD_and, BitVec.getLsbD_not, hhigh, BitVec.getLsbD_shiftLeft,
        BitVec.getLsbD_ushiftRight, hsum]
      simp [hi, hlow]
  rw [hshift, BitVec.toNat_shiftLeft, BitVec.toNat_ushiftRight, Nat.shiftLeft_eq,
    Nat.shiftRight_eq_div_pow]
  have := y.isLt
  omega

theorem KStack.span_bounds (k : KStack) : 320 ≤ k.span ∧ k.span < 336 := by
  have hframe : k.frame = (k.origRsp - 320) &&& ~~~ 15#64 := rfl
  rw [KStack.span, BitVec.toNat_sub, hframe, align_down, BitVec.toNat_sub]
  have := k.origRsp.isLt
  have h320 : (320 : Word).toNat = 320 := rfl
  omega

theorem KStack.origRsp_sub (k : KStack) :
    k.origRsp - 8 = k.frame + BitVec.ofNat 64 (k.span - 8) := by
  have h := k.span_bounds
  have h8 : (8 : Word).toNat = 8 := rfl
  refine BitVec.eq_of_toNat_eq ?_
  simp only [KStack.span, BitVec.toNat_sub, BitVec.toNat_add, BitVec.toNat_ofNat] at h ⊢
  omega

/-- A delivery that was not returned from: the save area and the answer of the interrupted call, the
`r10` that its entry code pushed, and the signal mask. -/
structure Pending where
  saved : KStack
  sysRet : Word
  r10 : Word
  mask : UInt64

namespace Pending

variable {f g : Pending}

/-- The context that the call would have returned to. -/
def context (f : Pending) : Regs := exitRegs f.saved f.sysRet f.r10

def fields (f : Pending) : List Field := savedFields f.mask.toBitVec f.saved f.sysRet f.r10

/-- The stack holds what the return needs: the frame, and `r10` above it. -/
structure Intact (m : Bytes) (f : Pending) : Prop where
  fields : ∀ x ∈ f.fields, m.read (f.saved.frame + BitVec.ofNat 64 x.off) x.size = x.word
  r10 : sigReadU64 m (f.saved.origRsp - 8) = f.r10

theorem fields_spans (f : Pending) : f.fields.map (fun x => (x.off, x.size)) =
    (savedFields 0 (fun _ => 0) 0 0).map fun x => (x.off, x.size) := rfl

theorem fields_bounds (f : Pending) : ∀ x ∈ f.fields, sigUc ≤ x.off ∧ x.off + x.size ≤ 312 := by
  intro x hx
  have hspan := List.mem_map_of_mem (f := fun x => (x.off, x.size)) hx
  rw [f.fields_spans] at hspan
  have hall : ∀ y ∈ (savedFields 0 (fun _ => 0) 0 0).map (fun x => (x.off, x.size)),
      sigUc ≤ y.1 ∧ y.1 + y.2 ≤ 312 := by decide
  exact hall _ hspan

theorem fields_disjoint (f : Pending) : f.fields.Pairwise Field.Disjoint := by
  have hall : ((savedFields 0 (fun _ => 0) 0 0).map fun x => (x.off, x.size)).Pairwise
      fun x y => x.1 + x.2 ≤ y.1 ∨ y.1 + y.2 ≤ x.1 := by decide
  rw [← f.fields_spans] at hall
  rw [List.pairwise_map] at hall
  exact hall

theorem Intact.congr (h : Intact m f)
    (hsame : ∀ a, 8 ≤ (a - f.saved.frame).toNat → (a - f.saved.frame).toNat < f.saved.span →
    m' a = m a) :
    Intact m' f where
  fields x hx := by
    have hx' := f.fields_bounds x hx
    rw [sigUc] at hx'
    have hspan := f.saved.span_bounds
    refine (read_congr fun a ha => ?_).trans (h.fields x hx)
    have ha' := (within_offset (by omega)).mp ha
    exact hsame a (by omega) (by omega)
  r10 := by
    have hspan := f.saved.span_bounds
    refine Eq.trans (read_congr fun a ha => ?_) h.r10
    rw [f.saved.origRsp_sub] at ha
    have ha' := (within_offset (by omega)).mp ha
    exact hsame a (by omega) (by omega)

theorem intact_store {restorer : Word} (f : Pending)
    (hr10 : f.r10 = sigReadU64 m (f.saved.origRsp - 8)) :
    Intact ((m.write (f.saved.frame + BitVec.ofNat 64 sigPretcode) 8 restorer).store f.saved.frame
      f.fields) f where
  fields x hx := read_store (fun y hy => by have := f.fields_bounds y hy; omega) f.fields_disjoint
    hx
  r10 := by
    have hspan := f.saved.span_bounds
    rw [hr10, f.saved.origRsp_sub, sigReadU64, read_store_apart (by omega) fun x hx => ?_]
    · exact read_write_apart (apart_offsets (by omega) (by decide)
        (.inr (by rw [sigPretcode]; omega)))
    · have := f.fields_bounds x hx
      omega

end Pending

/-! ### The second entry -/

section Entry

variable (below : KStack) (r : Regs)

theorem syscallEntry_userRsp : (syscallEntry below r m).userRsp = r.rsp := sub_add_cancel _ _

theorem syscallEntry_mem (h : ¬ Within (r.rsp - 40) 40 a) :
    (syscallEntry below r m).mem a = m a := by
  have hpush : ∀ c : Nat, 8 ≤ c → c ≤ 40 → ¬ Within (r.rsp - BitVec.ofNat 64 c) 8 a := by
    intro c hlow hhigh hin
    have h40 : (40 : Word).toNat = 40 := rfl
    simp only [Within, BitVec.toNat_sub, BitVec.toNat_ofNat] at h hin
    omega
  have h32 : r.rsp - 24 - 8 = r.rsp - BitVec.ofNat 64 32 := by rw [sub_sub]; rfl
  have h40 : r.rsp - 24 - 16 = r.rsp - BitVec.ofNat 64 40 := by rw [sub_sub]; rfl
  simp only [syscallEntry, h32, h40]
  refine (write_of_not_within (hpush 40 (by decide) (by decide))).trans ?_
  refine (write_of_not_within (hpush 32 (by decide) (by decide))).trans ?_
  refine (write_of_not_within (hpush 24 (by decide) (by decide))).trans ?_
  refine (write_of_not_within (hpush 16 (by decide) (by decide))).trans ?_
  exact write_of_not_within (hpush 8 (by decide) (by decide))

end Entry

theorem Pending.Intact.entry {f : Pending} {below : KStack} {r : Regs} (h : f.Intact m)
    (hrsp : r.rsp = f.saved.frame + 8) : f.Intact (syscallEntry below r m).mem :=
  h.congr fun a hlow hhigh => syscallEntry_mem below r (by
    have hspan := f.saved.span_bounds
    have h8 : (8 : Word).toNat = 8 := rfl
    have h40 : (40 : Word).toNat = 40 := rfl
    rw [hrsp]
    simp only [Within, BitVec.toNat_sub, BitVec.toNat_add] at hlow hhigh ⊢
    omega)

theorem SigState.checkDeliverSignal_cases (s : SigState) (k : KStack) (sysRet : Word) (m : Bytes)
    (h : s.pendingRestore = none) :
    s.checkDeliverSignal k sysRet m = .plain s ∨
      (∃ status, s.checkDeliverSignal k sysRet m = .exitTask status) ∨
      ∃ sig, s.signals.deliverable = some sig ∧ s.signals.delivery sig = .enter ∧
        s.checkDeliverSignal k sysRet m = .rewritten (s.enterHandler sig k sysRet m).1
          (s.enterHandler sig k sysRet m).2.1 (s.enterHandler sig k sysRet m).2.2 := by
  simp only [checkDeliverSignal, h]
  by_cases hid : (s.id = 0 || s.empty) = true
  · exact .inl (if_pos hid)
  · simp only [if_neg hid]
    cases s.signals.deliverable with
    | none => exact .inl rfl
    | some sig =>
      by_cases henter : s.signals.delivery sig = .enter
      · exact .inr (.inr ⟨sig, rfl, henter, if_pos henter⟩)
      · exact .inr (.inl ⟨_, if_neg henter⟩)

/-! ### A thread with pending deliveries -/

/-- The signal state and the memory of a task, with the history of its deliveries. -/
structure Thread where
  sig : SigState
  mem : Bytes
  pending : List Pending

namespace Thread

/-- The end of a system call: the registers with which user mode goes on, if the task does not
exit. -/
def leave (s : Thread) (k : KStack) (sysRet : Word) : Option Regs × Thread :=
  match s.sig.checkDeliverSignal k sysRet s.mem with
  | .plain sig => (some (syscallExit k sysRet s.mem), { s with sig := sig })
  | .rewritten sig k m => (some (syscallExit k sysRet m), { s with sig := sig, mem := m })
  | .exitTask _ => (none, s)

def sigreturn (s : Thread) (below : KStack) (r : Regs) : Option Regs × Thread :=
  let e := syscallEntry below r s.mem
  let (rax, sig) := s.sig.sysRtSigreturn e.userRsp e.mem
  { s with sig := sig, mem := e.mem }.leave e.kstack rax

variable {s : Thread} {f : Pending} {below : KStack} {r : Regs}

theorem origRsp_restore (k : KStack) (ctx : Fin 14 → Word) : (k.restore ctx).origRsp = ctx 7 :=
  sub_add_cancel _ _

/-- The context that `rt_sigreturn` takes from a frame. -/
def restored (m : Bytes) (frame : Word) : Regs :=
  let word := fun off => sigReadU64 m (frame + BitVec.ofNat 64 off)
  { rax := word sigRax, rbx := word sigRbx, rcx := word sigRip, rdx := word sigRdx
    rsi := word sigRsi, rdi := word sigRdi, rbp := word sigRbp, rsp := word sigRsp
    r8 := word sigR8, r9 := word sigR9, r10 := sigReadU64 m (word sigRsp - 8)
    r11 := word sigEflags, r12 := word sigR12, r13 := word sigR13, r14 := word sigR14
    r15 := word sigR15, rip := word sigRip
    rflags := word sigEflags &&& sysretFlags ||| 2 }

theorem sigreturn_restored (s : Thread) (below : KStack) (r : Regs) (hid : s.sig.id ≠ 0) :
    let m := (syscallEntry below r s.mem).mem
    s.sigreturn below r = (some (restored m (r.rsp - 8)),
      { s with
        sig := { s.sig with
          signals := { s.sig.signals with
            blocked := ⟨sigReadU64 m (r.rsp - 8 + BitVec.ofNat 64 sigSigmask)⟩ }
          pendingRestore := none }
        mem := m }) := by
  have hrsp : (syscallEntry below r s.mem).userRsp = r.rsp := syscallEntry_userRsp below r
  simp only [sigreturn, hrsp, SigState.sysRtSigreturn, if_neg hid, leave,
    SigState.checkDeliverSignal, syscallExit_eq, exitRegs, origRsp_restore]
  rfl

theorem sigreturn_eq (h : f.Intact s.mem) (hid : s.sig.id ≠ 0)
    (hrsp : r.rsp = f.saved.frame + 8) :
    s.sigreturn below r = (some f.context,
      { s with
        sig := { s.sig with
          signals := { s.sig.signals with blocked := f.mask }
          pendingRestore := none }
        mem := (syscallEntry below r s.mem).mem }) := by
  have hI : f.Intact (syscallEntry below r s.mem).mem := h.entry hrsp
  have hword := hI.fields
  simp only [Pending.fields, savedFields, List.forall_mem_cons] at hword
  obtain ⟨hmask, hr8, hr9, -, -, hr12, hr13, hr14, hr15, hrdi, hrsi, hrbp, hrbx, hrdx, hrax, -,
    hrsp', hrip, heflags, -⟩ := hword
  have hframe : r.rsp - 8 = f.saved.frame := hrsp ▸ add_sub_cancel_right _ _
  have hr10 := hI.r10
  simp only [sigReadU64] at hr10
  simp only [sigreturn_restored s below r hid, hframe, restored, sigReadU64, hmask, hr8, hr9, hr12,
    hr13, hr14, hr15, hrdi, hrsi, hrbp, hrbx, hrdx, hrax, hrsp', hrip, heflags, hr10]
  rfl

/-! ### Runs -/

/-- What happens to a thread: user code runs, and the kernel on its behalf; a system call ends; the
restorer of a handler calls `rt_sigreturn`. -/
inductive Event where
  | run (sig : SigState) (mem : Bytes)
  | leave (k : KStack) (sysRet : Word)
  | sigreturn (below : KStack) (r : Regs)

/-- The delivery that the end of the call makes, if it builds a frame. -/
def delivery (s : Thread) (k : KStack) (sysRet : Word) : Option Pending :=
  match s.sig.checkDeliverSignal k sysRet s.mem with
  | .rewritten _ _ _ => some ⟨k, sysRet, sigReadU64 s.mem (k.origRsp - 8), s.sig.signals.blocked⟩
  | _ => none

def step (s : Thread) : Event → Thread
  | .run sig mem => { s with sig := sig, mem := mem }
  | .leave k sysRet =>
    { (s.leave k sysRet).2 with pending := (s.delivery k sysRet).toList ++ s.pending }
  | .sigreturn below r => { (s.sigreturn below r).2 with pending := s.pending.tail }

/-- The stack of a delivery and what its return pushes do not meet the stack that an earlier one
still needs. -/
def Below (f g : Pending) : Prop :=
  Apart (f.saved.frame - 32) (f.saved.span + 32) g.saved.frame g.saved.span

/-- Handlers leave the stack from their frames upwards alone, also by where their own stack pointer
stands when they are interrupted, and return to the restorer with it just above `pretcode`. -/
def Legal (s : Thread) : Event → Prop
  | .run sig mem => sig.id = s.sig.id ∧ sig.pendingRestore = none ∧
    ∀ f ∈ s.pending, ∀ a, Within f.saved.frame f.saved.span a → mem a = s.mem a
  | .leave k sysRet => ∀ f ∈ s.delivery k sysRet, ∀ g ∈ s.pending, Below f g
  | .sigreturn _ r => ∃ f ∈ s.pending.head?, r.rsp = f.saved.frame + 8

/-- Between system calls no context is parked, and every pending delivery can be returned from. -/
structure Sound (s : Thread) : Prop where
  id : s.sig.id ≠ 0
  parked : s.sig.pendingRestore = none
  intact : ∀ f ∈ s.pending, f.Intact s.mem
  nested : s.pending.Pairwise Below

variable {sysRet : Word}

theorem leave_cases (k : KStack) (sysRet : Word) (h : s.sig.pendingRestore = none) :
    (s.delivery k sysRet = none ∧ (s.leave k sysRet).2 = s) ∨
      ∃ (f : Pending) (sig : SigState) (restorer : Word), s.delivery k sysRet = some f ∧
        f.saved = k ∧ f.r10 = sigReadU64 s.mem (k.origRsp - 8) ∧ sig.id = s.sig.id ∧
        sig.pendingRestore = none ∧
        (s.leave k sysRet).2 = { s with
          sig := sig
          mem := (s.mem.write (k.frame + BitVec.ofNat 64 sigPretcode) 8 restorer).store k.frame
            f.fields } := by
  rcases s.sig.checkDeliverSignal_cases k sysRet s.mem h with
    hplain | ⟨status, hexit⟩ | ⟨sig, -, -, henter⟩
  · exact .inl (by simp only [delivery, leave, hplain, and_self])
  · exact .inl (by simp only [delivery, leave, hexit, and_self])
  · simp only [delivery, leave, henter]
    exact .inr ⟨_, (s.sig.enterHandler sig k sysRet s.mem).1, _, rfl, rfl, rfl, rfl, h, rfl⟩

theorem store_below {restorer : Word} {f : Pending} (h : ¬ Within f.saved.frame f.saved.span a) :
    ((m.write (f.saved.frame + BitVec.ofNat 64 sigPretcode) 8 restorer).store f.saved.frame
      f.fields) a = m a := by
  have hspan := f.saved.span_bounds
  have hpretcode : ¬ Within (f.saved.frame + BitVec.ofNat 64 sigPretcode) 8 a := fun hin => by
    have := (within_offset (by decide)).mp hin
    simp only [sigPretcode, Within] at this h
    omega
  rw [store_of_not_within (by omega) (fun x hx => ?_) h, write_of_not_within hpretcode]
  have := f.fields_bounds x hx
  omega

theorem within_zone {f : Pending} {i : Nat} (hi : i ≤ 32) {n : Nat} (hn : n ≤ f.saved.span + i)
    (h : Within (f.saved.frame - BitVec.ofNat 64 i) n a) :
    Within (f.saved.frame - 32) (f.saved.span + 32) a := by
  have hspan := f.saved.span_bounds
  have h32 : (32 : Word).toNat = 32 := rfl
  simp only [Within, BitVec.toNat_sub, BitVec.toNat_ofNat] at h ⊢
  omega

theorem sound_step (h : Sound s) (e : Event) (hok : s.Legal e) : Sound (s.step e) := by
  cases e with
  | run sig mem =>
    obtain ⟨hid, hparked, hsame⟩ := hok
    exact
      { id := hid ▸ h.id
        parked := hparked
        intact := fun f hf => (h.intact f hf).congr fun a _ ha => hsame f hf a ha
        nested := h.nested }
  | leave k sysRet =>
    rcases leave_cases k sysRet h.parked with
      ⟨hnone, hsame⟩ | ⟨f, sig, restorer, hsome, hk, hr10, hid, hparked, hnew⟩
    · simp only [step, hnone, hsame, Option.toList_none, List.nil_append]
      exact h
    · subst hk
      simp only [step, hsome, hnew, Option.toList_some, List.singleton_append]
      have hbelow : ∀ g ∈ s.pending, Below f g := fun g hg => hok f hsome g hg
      refine ⟨hid ▸ h.id, hparked, fun g hg => ?_, List.pairwise_cons.mpr ⟨hbelow, h.nested⟩⟩
      rcases List.mem_cons.mp hg with rfl | hg
      · exact g.intact_store hr10
      · refine (h.intact g hg).congr fun a _ ha => store_below fun hin => ?_
        have hin : Within (f.saved.frame - BitVec.ofNat 64 0) f.saved.span a := by
          rwa [show BitVec.ofNat 64 0 = 0 from rfl, sub_zero]
        exact hbelow g hg a (within_zone (by omega) (by omega) hin) ha
  | sigreturn below r =>
    obtain ⟨f, hf, hrsp⟩ := hok
    obtain ⟨fs, hpending⟩ : ∃ fs, s.pending = f :: fs := List.head?_eq_some_iff.mp hf
    have hmem : f ∈ s.pending := hpending ▸ List.mem_cons_self
    have hnested := h.nested
    rw [hpending, List.pairwise_cons] at hnested
    simp only [step, sigreturn_eq (h.intact f hmem) h.id hrsp, hpending, List.tail_cons]
    refine ⟨h.id, rfl, fun g hg => ?_, hnested.2⟩
    refine (h.intact g (hpending ▸ List.mem_cons_of_mem _ hg)).congr fun a _ ha =>
      syscallEntry_mem below r fun hin => ?_
    have hpush : r.rsp - 40 = f.saved.frame - BitVec.ofNat 64 32 := by
      have h8 : (8 : Word).toNat = 8 := rfl
      have h40 : (40 : Word).toNat = 40 := rfl
      refine BitVec.eq_of_toNat_eq ?_
      rw [hrsp]
      simp only [BitVec.toNat_sub, BitVec.toNat_add, BitVec.toNat_ofNat]
      omega
    rw [hpush] at hin
    have hspan := f.saved.span_bounds
    exact hnested.1 g hg a (within_zone (by omega) (by omega) hin) ha

theorem delivery_context {s : Thread} (h : s.delivery k sysRet = some f) :
    f.saved = k ∧ f.context = syscallExit k sysRet s.mem ∧ f.mask = s.sig.signals.blocked := by
  unfold delivery at h
  split at h
  · obtain rfl := Option.some.inj h
    exact ⟨rfl, (syscallExit_eq _ _ _).symm, rfl⟩
  · cases h

/-- The end of the call goes to the handler of `sig`, with `f` to return from. -/
def Enters (s : Thread) (k : KStack) (sysRet : Word) (sig : Nat) (f : Pending) : Prop :=
  s.delivery k sysRet = some f ∧ ∃ r, (s.leave k sysRet).1 = some r ∧
    r.rip = (s.sig.signals.handlers sig).handler.toBitVec ∧ r.rdi = BitVec.ofNat 64 sig

/-- A handler is entered exactly for the signal that the loop stops at. -/
theorem enters_iff {sig : Nat} (hparked : s.sig.pendingRestore = none)
    (hlive : (s.sig.id = 0 || s.sig.empty) = false) (hsig : sig < signalCount) :
    (∃ f, s.Enters k sysRet sig f) ↔
      s.sig.signals.deliverable = some sig ∧ s.sig.signals.delivery sig = .enter := by
  constructor
  · rintro ⟨f, hf, r, hr, -, hrdi⟩
    rcases s.sig.checkDeliverSignal_cases k sysRet s.mem hparked with
      hplain | ⟨status, hexit⟩ | ⟨sig', hfound, henter, hnew⟩
    · simp [delivery, hplain] at hf
    · simp [delivery, hexit] at hf
    · have hloop := Signals.deliverable_eq_some_iff.mp hfound
      -- the handler is told the number of its signal
      have hnumber : BitVec.ofNat 64 sig' = BitVec.ofNat 64 sig := by
        simp only [leave, hnew, Option.some.injEq] at hr
        rw [← hrdi, ← hr, syscallExit_eq]
        rfl
      have hsame : sig' = sig := by
        have := congrArg BitVec.toNat hnumber
        simp only [BitVec.toNat_ofNat, signalCount] at this hsig hloop
        omega
      exact ⟨hsame ▸ hfound, hsame ▸ henter⟩
  · rintro ⟨hfound, henter⟩
    have hnew : s.sig.checkDeliverSignal k sysRet s.mem =
        .rewritten (s.sig.enterHandler sig k sysRet s.mem).1
          (s.sig.enterHandler sig k sysRet s.mem).2.1
          (s.sig.enterHandler sig k sysRet s.mem).2.2 := by
      simp only [SigState.checkDeliverSignal, hparked, hlive, hfound, henter, Bool.false_eq_true,
        if_false, if_true]
    refine ⟨⟨k, sysRet, sigReadU64 s.mem (k.origRsp - 8), s.sig.signals.blocked⟩, ?_,
      syscallExit (s.sig.enterHandler sig k sysRet s.mem).2.1 sysRet
        (s.sig.enterHandler sig k sysRet s.mem).2.2, ?_, rfl, rfl⟩
    · simp only [delivery, hnew]
    · simp only [leave, hnew]

/-- In every run of handlers that leave the stack from their frames upwards alone, the innermost
pending delivery returns to the context and the mask that it interrupted. -/
theorem sigreturn_restores_context {start : Thread} {es : List Event} (hid : start.sig.id ≠ 0)
    (hparked : start.sig.pendingRestore = none) (hstart : start.pending = [])
    (h : Steps step Legal start es) :
    let s := es.foldl step start
    (∀ k sysRet f, s.delivery k sysRet = some f →
      f.context = syscallExit k sysRet s.mem ∧ f.mask = s.sig.signals.blocked ∧
      (s.step (.leave k sysRet)).pending = f :: s.pending) ∧
    ∀ f fs, s.pending = f :: fs → ∀ below r, r.rsp = f.saved.frame + 8 →
      (s.sigreturn below r).1 = some f.context ∧
      (s.sigreturn below r).2.sig.signals.blocked = f.mask ∧
      (s.step (.sigreturn below r)).pending = fs := by
  intro s
  have hsound : Sound s := h.invariant (I := Sound) (fun _ e hs => sound_step hs e)
    ⟨hid, hparked, by simp [hstart], by simp [hstart]⟩
  refine ⟨fun k sysRet f hf => ?_, fun f fs hpending below r hrsp => ?_⟩
  · have hcontext := delivery_context hf
    exact ⟨hcontext.2.1, hcontext.2.2, by simp [step, hf]⟩
  · have hmem : f ∈ s.pending := hpending ▸ List.mem_cons_self
    have heq : s.sigreturn below r = _ := sigreturn_eq (hsound.intact f hmem) hsound.id hrsp
    exact ⟨by rw [heq], by rw [heq], by rw [step, hpending, List.tail_cons]⟩

theorem below_of_le {f g : Pending} (hlow : 368 ≤ f.saved.origRsp.toNat)
    (hlow' : 368 ≤ g.saved.origRsp.toNat) (h : f.saved.origRsp.toNat ≤ g.saved.frame.toNat) :
    Below f g := by
  have hf := f.saved.span_bounds
  have hg := g.saved.span_bounds
  have h32 : (32 : Word).toNat = 32 := rfl
  refine apart_of_le ?_ ?_
  all_goals
    simp only [KStack.span, BitVec.toNat_sub] at hf hg ⊢
    omega

/-- Two signals with a handler, pending at the end of two calls. -/
def twoSignals : Thread where
  sig :=
    { id := 1
      empty := false
      signals :=
        { pending := bit 10 ||| bit 12
          blocked := 0
          handlers := fun _ => ⟨0x400000, 0, saRestorer, 0x401000⟩ }
      pendingRestore := none }
  mem := fun _ => 0
  pending := []

/-- A save area with its own offsets for registers. -/
def saveArea (userRsp : Word) : KStack :=
  fun off => if off = 8 then userRsp else BitVec.ofNat 64 off

theorem leave_of_enter (k : KStack) (sysRet : Word) {sig : Nat} (h : s.sig.pendingRestore = none)
    (hid : (s.sig.id = 0 || s.sig.empty) = false) (hsig : s.sig.signals.deliverable = some sig)
    (henter : s.sig.signals.delivery sig = .enter) :
    s.step (.leave k sysRet) =
      { sig := (s.sig.enterHandler sig k sysRet s.mem).1
        mem := (s.sig.enterHandler sig k sysRet s.mem).2.2
        pending := ⟨k, sysRet, sigReadU64 s.mem (k.origRsp - 8), s.sig.signals.blocked⟩ ::
          s.pending } := by
  simp only [step, delivery, leave, SigState.checkDeliverSignal, h, hid, hsig, henter,
    Bool.false_eq_true, if_false, if_true]
  rfl

/-- A handler is interrupted, and the second of two deliveries is returned from first. -/
theorem sigreturn_restores_context_nested :
    ∃ es f g, Steps step Legal twoSignals es ∧ (es.foldl step twoSignals).pending = [f, g] ∧
      ∃ r, ((es.foldl step twoSignals).sigreturn (fun _ => 0) r).1 = some f.context := by
  have h1 := leave_of_enter (s := twoSignals) (saveArea 0x7fff0000) 7 rfl rfl
    (show _ = some 10 by decide) (by decide)
  have h2 := leave_of_enter (s := twoSignals.step (.leave (saveArea 0x7fff0000) 7))
    (saveArea 0x7ffe0000) 9 (by rw [h1]; rfl) (by rw [h1]; rfl)
    (show _ = some 12 by rw [h1]; decide) (by rw [h1]; decide)
  have hsteps : Steps step Legal twoSignals
      [.leave (saveArea 0x7fff0000) 7, .leave (saveArea 0x7ffe0000) 9] := by
    refine ⟨fun f _ g hg => absurd hg List.not_mem_nil, fun f hf g hg => ?_, trivial⟩
    rw [h1] at hg
    obtain rfl := List.mem_singleton.mp hg
    have hsaved := (delivery_context hf).1
    refine below_of_le ?_ (by decide) ?_
    all_goals
      rw [hsaved]
      decide
  have hpending := congrArg Thread.pending h2
  rw [show (twoSignals.step (.leave (saveArea 0x7fff0000) 7)).pending = [_] from
    congrArg Thread.pending h1] at hpending
  let r : Regs := ⟨0, 0, 0, 0, 0, 0, 0, (saveArea 0x7ffe0000).frame + 8, 0, 0, 0, 0, 0, 0, 0, 0, 0,
    0⟩
  refine ⟨_, _, _, hsteps, hpending, r, ?_⟩
  exact ((sigreturn_restores_context (by decide) rfl rfl hsteps).2 _ _ hpending _ _ rfl).1

end Thread

end Rynex.Task
