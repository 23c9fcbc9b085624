import Rynex.Lib.Bytes
import Rynex.Lib.Run
import Rynex.Task.Pointers

/-! The way into a signal handler and back: the entry and exit code of a system call, the frame that
`check_deliver_signal` builds on the user stack, and `rt_sigreturn`. They share three layouts: the
save area on the kernel stack, the words that the entry code pushes on the user stack, and the
frame. -/

namespace Rynex.Task

open Rynex.Lib

abbrev Word := BitVec 64

@[ext]
structure Regs where
  rax : Word
  rbx : Word
  rcx : Word
  rdx : Word
  rsi : Word
  rdi : Word
  rbp : Word
  rsp : Word
  r8 : Word
  r9 : Word
  r10 : Word
  r11 : Word
  r12 : Word
  r13 : Word
  r14 : Word
  r15 : Word
  rip : Word
  rflags : Word

def sigReadU64 (m : Bytes) (p : Word) : Word := m.read p 8

/-! ### The entry and exit code -/

/-- The words of the kernel stack, by their offset from its pointer. -/
abbrev KStack := Nat → Word

namespace KStack

def push (k : KStack) (w : Word) : KStack := fun off => if off = 0 then w else k (off - 8)

def pop (k : KStack) : Word × KStack := (k 0, fun off => k (off + 8))

def set (k : KStack) (off : Nat) (w : Word) : KStack := Function.update k off w

end KStack

/-- What `syscall_entry` has set up when it calls `syscall_handler`. -/
structure Entry where
  kstack : KStack
  /-- `SYSCALL_USER_RSP` -/
  userRsp : Word
  mem : Bytes

/-- `syscall_entry`, from the registers at the `syscall` instruction, which leaves `rip` in `rcx`
and `rflags` in `r11`. -/
def syscallEntry (below : KStack) (r : Regs) (m : Bytes) : Entry :=
  let m := m.write (r.rsp - 8) 8 r.r10
  let m := m.write (r.rsp - 16) 8 r.r8
  let m := m.write (r.rsp - 24) 8 r.r9
  let r10 := r.rsp - 24
  let m := m.write (r10 - 8) 8 r.rax
  let m := m.write (r10 - 16) 8 r.rip
  -- on the kernel stack `rcx` is loaded again
  let rcx := sigReadU64 m (r10 - 16)
  let k := below.push r.rbx |>.push r.rbp |>.push r.r12 |>.push r.r13 |>.push r.r14 |>.push r.r15
  let k := k.push rcx |>.push r.rflags |>.push r.rdx |>.push r.rdi |>.push r.rsi |>.push r.r8
    |>.push r.r9
  let k := k.push r10 |>.push (sigReadU64 m r10)
  ⟨k, r10 + 24, m⟩

def sysretFlags : Word := 0x3C7FD7

/-- The code after `check_deliver_signal`, up to and with `sysretq`. -/
def syscallExit (k : KStack) (rax : Word) (m : Bytes) : Regs :=
  let (_, k) := k.pop
  let (userRsp, k) := k.pop
  let (r9, k) := k.pop
  let (r8, k) := k.pop
  let (rsi, k) := k.pop
  let (rdi, k) := k.pop
  let (rdx, k) := k.pop
  let (r11, k) := k.pop
  let (rcx, k) := k.pop
  let (r15, k) := k.pop
  let (r14, k) := k.pop
  let (r13, k) := k.pop
  let (r12, k) := k.pop
  let (rbp, k) := k.pop
  let (rbx, _) := k.pop
  let rsp := userRsp + 24
  { rax := rax, rbx := rbx, rcx := rcx, rdx := rdx, rsi := rsi, rdi := rdi, rbp := rbp, rsp := rsp
    r8 := r8, r9 := r9, r10 := sigReadU64 m (rsp - 8), r11 := r11, r12 := r12, r13 := r13
    r14 := r14, r15 := r15, rip := rcx, rflags := r11 &&& sysretFlags ||| 2 }

/-! ### The frame -/

abbrev sigPretcode : Nat := 0
abbrev sigUc : Nat := 8
abbrev sigMctx : Nat := 48
abbrev sigR8 : Nat := sigMctx + 0
abbrev sigR9 : Nat := sigMctx + 8
abbrev sigR10 : Nat := sigMctx + 16
abbrev sigR11 : Nat := sigMctx + 24
abbrev sigR12 : Nat := sigMctx + 32
abbrev sigR13 : Nat := sigMctx + 40
abbrev sigR14 : Nat := sigMctx + 48
abbrev sigR15 : Nat := sigMctx + 56
abbrev sigRdi : Nat := sigMctx + 64
abbrev sigRsi : Nat := sigMctx + 72
abbrev sigRbp : Nat := sigMctx + 80
abbrev sigRbx : Nat := sigMctx + 88
abbrev sigRdx : Nat := sigMctx + 96
abbrev sigRax : Nat := sigMctx + 104
abbrev sigRcx : Nat := sigMctx + 112
abbrev sigRsp : Nat := sigMctx + 120
abbrev sigRip : Nat := sigMctx + 128
abbrev sigEflags : Nat := sigMctx + 136
abbrev sigCs : Nat := sigMctx + 144
abbrev sigGs : Nat := sigMctx + 146
abbrev sigFs : Nat := sigMctx + 148
abbrev sigSigmask : Nat := 304

/-- `orig_rsp`, from the save area. -/
def KStack.origRsp (k : KStack) : Word := (Task.origRsp ⟨k 8⟩).toBitVec

def KStack.frame (k : KStack) : Word := (sigFrame ⟨k 8⟩).toBitVec

/-- The words of the frame above `pretcode`, in the order in which they are written. -/
def savedFields (mask : Word) (k : KStack) (sysRet r10 : Word) : List Bytes.Field :=
  [⟨sigSigmask, 8, mask⟩, ⟨sigR8, 8, k 24⟩, ⟨sigR9, 8, k 16⟩, ⟨sigR10, 8, r10⟩,
    ⟨sigR11, 8, k 56⟩, ⟨sigR12, 8, k 96⟩, ⟨sigR13, 8, k 88⟩, ⟨sigR14, 8, k 80⟩, ⟨sigR15, 8, k 72⟩,
    ⟨sigRdi, 8, k 40⟩, ⟨sigRsi, 8, k 32⟩, ⟨sigRbp, 8, k 104⟩, ⟨sigRbx, 8, k 112⟩,
    ⟨sigRdx, 8, k 48⟩, ⟨sigRax, 8, sysRet⟩, ⟨sigRcx, 8, k 64⟩, ⟨sigRsp, 8, k.origRsp⟩,
    ⟨sigRip, 8, k 64⟩, ⟨sigEflags, 8, k 56⟩, ⟨sigCs, 2, 0x33⟩, ⟨sigGs, 2, 0⟩, ⟨sigFs, 2, 0⟩]

/-- The signal state of the current task, with the context that `rt_sigreturn` parks. -/
structure SigState where
  id : Nat
  empty : Bool
  signals : Signals
  pendingRestore : Option (Fin 14 → Word)

/-- How `check_deliver_signal` ends: it leaves the exit path as it is, it has rewritten it, or the
task exits. -/
inductive Delivered where
  | plain (s : SigState)
  | rewritten (s : SigState) (k : KStack) (m : Bytes)
  | exitTask (status : Nat)

/-- The parked context is put in the slots of the exit path. -/
def KStack.restore (k : KStack) (ctx : Fin 14 → Word) : KStack :=
  k.set 40 (ctx 0) |>.set 32 (ctx 1) |>.set 48 (ctx 2) |>.set 24 (ctx 3) |>.set 16 (ctx 4)
    |>.set 64 (ctx 5) |>.set 56 (ctx 6) |>.set 8 (ctx 7 - 24) |>.set 72 (ctx 8) |>.set 80 (ctx 9)
    |>.set 88 (ctx 10) |>.set 96 (ctx 11) |>.set 104 (ctx 12) |>.set 112 (ctx 13)

namespace SigState

/-- The frame for `sig`, and the exit path that enters its handler. -/
def enterHandler (s : SigState) (sig : Nat) (k : KStack) (sysRet : Word) (m : Bytes) :
    SigState × KStack × Bytes :=
  let act := s.signals.handlers sig
  let userR10 := sigReadU64 m (k.origRsp - 8)
  let m := m.write (k.frame + BitVec.ofNat 64 sigPretcode) 8 act.restorer.toBitVec
  let m := m.store k.frame (savedFields s.signals.blocked.toBitVec k sysRet userR10)
  ({ s with signals := { s.signals with
      blocked := s.signals.blocked ||| (bit sig ||| act.mask)
      pending := s.signals.pending &&& ~~~ bit sig } },
    (k.set 40 (BitVec.ofNat 64 sig) |>.set 32 (k.frame + BitVec.ofNat 64 sigUc)
      |>.set 64 act.handler.toBitVec |>.set 8 (k.frame - 24)),
    m)

def checkDeliverSignal (s : SigState) (k : KStack) (sysRet : Word) (m : Bytes) : Delivered :=
  match s.pendingRestore with
  | some ctx => .rewritten { s with pendingRestore := none } (k.restore ctx) m
  | none =>
    if s.id = 0 || s.empty then .plain s
    else
      match s.signals.deliverable with
      | none => .plain s
      | some sig =>
        if s.signals.delivery sig = .enter then
          let (s, k, m) := s.enterHandler sig k sysRet m
          .rewritten s k m
        else .exitTask (128 + sig)

/-- `sys_rt_sigreturn`: its answer, and the state with the parked context. -/
def sysRtSigreturn (s : SigState) (userRsp : Word) (m : Bytes) : Word × SigState :=
  if s.id = 0 then (BitVec.ofInt 64 (-Errno.einval), s)
  else
    let frame := userRsp - 8
    let word := fun off => sigReadU64 m (frame + BitVec.ofNat 64 off)
    let ctx := ![word sigRdi, word sigRsi, word sigRdx, word sigR8, word sigR9, word sigRip,
      word sigEflags, word sigRsp, word sigR15, word sigR14, word sigR13, word sigR12, word sigRbp,
      word sigRbx]
    (word sigRax, { s with
      pendingRestore := some ctx
      signals := { s.signals with blocked := ⟨word sigSigmask⟩ } })

end SigState

end Rynex.Task
