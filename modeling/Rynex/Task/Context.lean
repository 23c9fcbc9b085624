import Mathlib

/-! The register context of a child. `sys_fork` and `sys_clone` start from the registers that were
saved for the parent, which date from its last context switch, and lay the values over them that
`syscall_entry` captured. `sys_clone` also sets the selectors, `sys_fork` does not. -/

namespace Rynex.Task

def kernelCodeSelector : UInt64 := 0x08
def kernelDataSelector : UInt64 := 0x10
def userCodeSelector : UInt64 := 0x20
def userDataSelector : UInt64 := 0x18
def cloneSettls : UInt64 := 0x00080000

structure Registers where
  rax : UInt64
  rbx : UInt64
  rcx : UInt64
  rdx : UInt64
  rsi : UInt64
  rdi : UInt64
  rbp : UInt64
  rsp : UInt64
  r8 : UInt64
  r9 : UInt64
  r10 : UInt64
  r11 : UInt64
  r12 : UInt64
  r13 : UInt64
  r14 : UInt64
  r15 : UInt64
  rip : UInt64
  rflags : UInt64
  cs : UInt64
  ss : UInt64
  fsBase : UInt64
deriving DecidableEq, Repr

namespace Registers

def newKernel (entry stackTop : UInt64) : Registers where
  rax := 0
  rbx := 0
  rcx := 0
  rdx := 0
  rsi := 0
  rdi := 0
  rbp := 0
  rsp := stackTop - 8
  r8 := 0
  r9 := 0
  r10 := 0
  r11 := 0
  r12 := 0
  r13 := 0
  r14 := 0
  r15 := 0
  rip := entry
  rflags := 0x202
  cs := kernelCodeSelector
  ss := kernelDataSelector
  fsBase := 0

def newUser (entry stackTop : UInt64) : Registers :=
  { newKernel entry stackTop with
    rsp := stackTop, cs := userCodeSelector ||| 3, ss := userDataSelector ||| 3 }

end Registers

/-! ### The system call -/

/-- `SYSCALL_USER_RIP` and the other statics that `syscall_entry` fills for `fork`. -/
structure Capture where
  userRip : UInt64
  userRsp : UInt64
  userRflags : UInt64
  userFsBase : UInt64
  calleeRegs : Vector UInt64 6

/-- The capture for `fork` in `syscall_entry`, on the registers of the caller with `rip` after the
`syscall` instruction. The three arguments are pushed on the user stack, and the captured stack
pointer is back above them. -/
def syscallCapture (user : Registers) : Capture :=
  let rcx := user.rip
  let r11 := user.rflags
  let r10 := user.rsp - 8 - 8 - 8
  { userRip := rcx
    userRsp := r10 + 24
    userRflags := r11
    userFsBase := user.fsBase
    calleeRegs := #v[user.rbx, user.rbp, user.r12, user.r13, user.r14, user.r15] }

def forkRegs (parent : Registers) (c : Capture) : Registers :=
  { parent with
    rip := c.userRip
    rsp := c.userRsp
    rflags := c.userRflags
    fsBase := c.userFsBase
    rax := 0
    rbx := c.calleeRegs[0]
    rbp := c.calleeRegs[1]
    r12 := c.calleeRegs[2]
    r13 := c.calleeRegs[3]
    r14 := c.calleeRegs[4]
    r15 := c.calleeRegs[5] }

def cloneRegs (parent : Registers) (c : Capture) (flags childStack tls func : UInt64) : Registers :=
  { parent with
    rip := c.userRip
    rsp := childStack
    rflags := c.userRflags
    fsBase := if flags &&& cloneSettls ≠ 0 then tls else c.userFsBase
    cs := userCodeSelector ||| 3
    ss := userDataSelector ||| 3
    rax := 0
    rbx := c.calleeRegs[0]
    rbp := c.calleeRegs[1]
    r12 := c.calleeRegs[2]
    r13 := c.calleeRegs[3]
    r14 := c.calleeRegs[4]
    r15 := c.calleeRegs[5]
    r9 := func }

/-- A context in which the child returns from the system call of the parent in user mode, on the
stack `rsp`. -/
structure ReturnsToUser (child user : Registers) (rsp : UInt64) : Prop where
  cs : child.cs = userCodeSelector ||| 3
  ss : child.ss = userDataSelector ||| 3
  rip : child.rip = user.rip
  rsp : child.rsp = rsp
  rflags : child.rflags = user.rflags
  rbx : child.rbx = user.rbx
  rbp : child.rbp = user.rbp
  r12 : child.r12 = user.r12
  r13 : child.r13 = user.r13
  r14 : child.r14 = user.r14
  r15 : child.r15 = user.r15
  rax : child.rax = 0

theorem syscallCapture_userRsp (user : Registers) : (syscallCapture user).userRsp = user.rsp := by
  simp only [syscallCapture]
  grind

theorem cloneRegs_returnsToUser (parent user : Registers) (flags childStack tls func : UInt64) :
    ReturnsToUser (cloneRegs parent (syscallCapture user) flags childStack tls func) user
      childStack := by
  constructor <;> rfl

/-! ### Where the saved registers come from -/

/-- What writes the registers of a task. -/
inductive Save where
  /-- The task is created, or calls `execve`, and is to start in user mode. -/
  | user (entry stackTop : UInt64)
  /-- The task blocks or yields inside a system call: `context_switch` saves the live registers. -/
  | switch (live : Registers)
  /-- The timer interrupts the task: `save_interrupt_context`, which does nothing while the task
  is in a system call. -/
  | tick (frame : Registers) (inSyscall : Bool)

def Registers.save (regs : Registers) : Save → Registers
  | .user entry stackTop => .newUser entry stackTop
  | .switch live =>
    -- The FS base is not among the registers that `context_switch` saves.
    { live with
      rflags := (live.rflags ||| 0x200) &&& 0xFFFFFFFFFFFFFEFF
      fsBase := regs.fsBase }
  | .tick frame inSyscall =>
    if inSyscall then regs
    else if frame.cs &&& 3 = 3 then frame
    else { frame with ss := kernelDataSelector }

def Registers.Ring3 (regs : Registers) : Prop :=
  regs.cs = userCodeSelector ||| 3 ∧ regs.ss = userDataSelector ||| 3

instance (regs : Registers) : Decidable regs.Ring3 := inferInstanceAs (Decidable (_ ∧ _))

/-! ### The children -/

theorem forkRegs_returnsToUser (parent user : Registers) :
    ReturnsToUser (forkRegs parent (syscallCapture user)) user user.rsp ↔ parent.Ring3 := by
  refine ⟨fun h => ⟨h.cs, h.ss⟩, fun h => ?_⟩
  constructor
  case cs => exact h.1
  case ss => exact h.2
  case rsp => exact syscallCapture_userRsp user
  all_goals rfl

/-- The child of `sys_clone` returns to user mode whatever was saved for the parent. The child of
`sys_fork` does so exactly when the saved selectors are those of ring 3. -/
theorem fork_returnsToUser_iff (parent user : Registers) :
    (∀ flags childStack tls func,
      ReturnsToUser (cloneRegs parent (syscallCapture user) flags childStack tls func) user
        childStack) ∧
    (ReturnsToUser (forkRegs parent (syscallCapture user)) user user.rsp ↔ parent.Ring3) :=
  ⟨cloneRegs_returnsToUser parent user, forkRegs_returnsToUser parent user⟩

/-- A task of user mode at `0x400000` waits once inside a system call and then forks at
`0x401000`: its child is to run there in ring 0. -/
theorem fork_after_wait_kernel_mode :
    let parent := (Registers.newUser 0x400000 0x7000).save (.switch (.newKernel 0x110000 0x9000))
    let user := Registers.newUser 0x401000 0x6FF0
    let child := forkRegs parent (syscallCapture user)
    child.cs = kernelCodeSelector ∧ child.ss = kernelDataSelector ∧ child.rip = 0x401000 ∧
      (cloneRegs parent (syscallCapture user) 0 0x5000 0 0).cs = userCodeSelector ||| 3 := by
  decide

end Rynex.Task
