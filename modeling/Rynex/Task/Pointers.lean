import Rynex.Ipc.Model
import Rynex.Paging.UserRange
import Rynex.Task.Signal

/-! The handlers that follow a pointer or the stack pointer of user mode, with what they read and
write there. -/

namespace Rynex.Task

open Rynex.Memory Rynex.Paging

/-- Bytes that the kernel reads or writes at a user-supplied address. -/
structure Access where
  addr : Nat
  len : Nat
deriving DecidableEq, Repr

/-- All of it lies in pages that user mode has access to. -/
def Access.InUser (m : Machine) (a : Nat) (acc : Access) : Prop :=
  ∀ x, acc.addr ≤ x → x < acc.addr + acc.len → UserPage m a x

/-- A call of the memory functions with a null pointer or no bytes does nothing. -/
def accessIf (c : Bool) (addr len : Nat) : List Access := if c then [⟨addr, len⟩] else []

/-! ### `ipc_call` and `ipc_reply` -/

/-- The words of the header of a message page, and the rest of the page as it was. -/
def msgHeader (src replyId len : Nat) (old : Nat → Nat) (i : Nat) : Nat :=
  if i = 0 then src else if i = 1 then replyId else if i = 2 then len <<< 32 else old i

/-- The critical section of `ipc_call` that posts the request: the accesses through `buf`, and the
machine in which they are made. -/
def ipcCallPost (m : Machine) (a : Nat) (ipc : Ipc.Sys) (src replyId port buf len : Nat) :
    Machine × List Access :=
  if Ipc.ipcMsgMax < len then (m, [])
  else match ipc.portIdxById port with
  | none => (m, [])
  | some i =>
    if (ipc.ports i).count < Ipc.portSlots then
      match m.allocPage with
      | (none, m) => (m, [])
      | (some page, m) =>
        let m := m.writePage page (msgHeader src replyId len (m.mem page))
        if len = 0 then (m, [])
        else
          match m.userRangeValid a buf len false with
          | (false, m) => (m.setBuddy (m.buddy.free page 0), [])
          | (true, m) => (m, [⟨buf, len⟩])
    else (m, [])

/-- `ipc_call`, when the reply has come: `min(len, out_len)` bytes go to `out`. -/
def ipcCallFinish (ipc : Ipc.Sys) (replyId out outLen : Nat) : List Access :=
  let rlen := min (ipc.replies replyId).len outLen
  accessIf (0 < rlen && out ≠ 0) out rlen

def ipcReply (ipc : Ipc.Sys) (replyId buf len : Nat) : List Access :=
  if Ipc.maxReplies ≤ replyId || !(ipc.replies replyId).used then []
  else if (ipc.replies replyId).done then []
  else
    let n := min len Ipc.ipcMsgMax
    accessIf (0 < n && buf ≠ 0) buf n

/-! ### Signal masks -/

/-- `word` is what is read at `set`, when it is read. -/
def sysRtSigprocmask (id : Nat) (s : Signals) (how : Int) (set oldset : Nat) (word : UInt64) :
    Int × Signals × List Access :=
  if id = 0 then (-Errno.einval, s, [])
  else
    let old := accessIf (oldset ≠ 0) oldset 8
    if set = 0 then (0, s, old)
    else
      let (ret, s) := s.changeMask how word
      (ret, s, old ++ [⟨set, 8⟩])

/-- `rt_sigsuspend` up to where it returns or parks; `word` is what is read at `mask_set`. -/
def sysRtSigsuspend (id : Nat) (s : Signals) (maskSet : Nat) (word : UInt64) :
    Option Int × Signals × List Access :=
  if id = 0 then (some (-Errno.einval), s, [])
  else if maskSet = 0 then (some (-Errno.einval), s, [])
  else
    let masked := { s with blocked := word }
    if masked.ready then (some (-Errno.eintr), s, [⟨maskSet, 8⟩])
      else (none, masked, [⟨maskSet, 8⟩])

/-! ### `wait4` -/

/-- What `sys_waitpid` reads of a task slot. -/
structure Slot where
  id : Nat
  parent : Option Nat
  zombie : Bool
  childTidptr : Nat
deriving DecidableEq, Repr

/-- The slots that the loops of `sys_waitpid` do not skip. -/
def Slot.awaited (current : Nat) (pid : Int) (t : Slot) : Bool :=
  t.id ≠ 0 && t.parent = some current && !(0 < pid && (t.id : Int) ≠ pid) && !(pid < -1)

/-- One round of the loop of `sys_waitpid`: a zombie is reaped, or the thread word of the first
child is read before the task waits on it. -/
def waitpidRound (current : Nat) (tasks : List Slot) (pid : Int) (statusPtr : Nat)
    (wnohang : Bool) :
    List Access :=
  if current = 0 then []
  else if tasks.any fun t => t.awaited current pid && t.zombie then
    accessIf (statusPtr ≠ 0) statusPtr 4
  else if wnohang then []
  else
    match tasks.find? (Slot.awaited current pid) with
    | none => []
    | some t => accessIf (t.childTidptr ≠ 0) t.childTidptr 4

/-! ### The signal frame -/

def sigFrameSize : UInt64 := 320

/-- Offsets and widths of the fields of the frame: `pretcode`, the registers and flags, the three
selectors, and the signal mask. -/
def sigFrameFields : List (Nat × Nat) :=
  (0, 8) :: (List.range 18).map (fun k => (48 + 8 * k, 8)) ++
    [(192, 2), (194, 2), (196, 2), (304, 8)]

/-- The stack pointer of user mode before the three pushes of the entry code. -/
def origRsp (userRsp : UInt64) : UInt64 := userRsp + 24

/-- `(orig_rsp - SIG_FRAME_SIZE) & !0xF`. -/
def sigFrame (userRsp : UInt64) : UInt64 := (origRsp userRsp - sigFrameSize) &&& ~~~ 0xF

/-- `check_deliver_signal`: what it reads and writes on the user stack, with the stack pointer in
the save area. A context that `rt_sigreturn` parked goes to the kernel stack only. -/
def checkDeliverSignal (id : Nat) (parked empty : Bool) (s : Signals) (userRsp : UInt64) :
    List Access :=
  if parked || id = 0 || empty then []
  else
    match s.deliverable with
    | none => []
    | some sig =>
      if s.delivery sig = .enter then
        ⟨(origRsp userRsp - 8).toNat, 8⟩ ::
          sigFrameFields.map fun f => ⟨(sigFrame userRsp + f.1.toUInt64).toNat, f.2⟩
      else []

/-! ### The condition -/

/-- The range ends in the user half, and the entry of each of its pages has the user bit: what
`user_range_valid` tests, without paging anything in. -/
def allowed (m : Machine) (a addr len : Nat) : Bool :=
  len = 0 || addr + len ≤ 2 ^ 47 &&
    (pagesFrom (pageAlignDown addr) (addr + len)).all fun p => m.pageAllows a p false

theorem allowed_iff {m : Machine} {a addr len : Nat} (h : OpenSpace m a) :
    allowed m a addr len = true ↔ Access.InUser m a ⟨addr, len⟩ := by
  have hany : ∀ p, m.pageAllows a p false = (m.resolvePhysFlags a p).any fun r => Pte.user r.2 := by
    simp [Machine.pageAllows]
  have hpage : pageSize = 4096 := rfl
  simp only [allowed, Bool.or_eq_true, decide_eq_true_eq, Bool.and_eq_true, List.all_eq_true]
  constructor
  · rintro (h0 | ⟨hend, hall⟩) x hlo hhi
    · simp only [h0] at hhi hlo
      omega
    · simp only at hlo hhi
      have hx := hall _ (pageAlignDown_mem_pagesFrom hlo hhi)
      exact userPage_pageAlignDown.mp (h.userPage (by simp only [pageAlignDown]; omega) hx)
  · intro hin
    by_cases h0 : len = 0
    · exact .inl h0
    have hlast := (hin (addr + len - 1) (by simp only; omega) (by simp only; omega)).1
    refine .inr ⟨by omega, fun p hp => ?_⟩
    obtain ⟨k, hk, hlt⟩ := mem_pagesFrom.mp hp
    -- the page holds the first byte of the range, or starts within it
    have hx : UserPage m a (max addr p) := hin _ (le_max_left _ _) (by simp only; omega)
    have hdown : pageAlignDown (max addr p) = p := by
      simp only [pageAlignDown, hpage] at hk ⊢
      omega
    obtain ⟨hhalf, huser⟩ := userPage_pageAlignDown.mpr hx
    rw [hdown] at hhalf huser
    rwa [hany, ← h.view_user hhalf]

/-- The kernel as the handlers of one task see it. -/
structure Kernel where
  machine : Machine
  pml4 : Nat
  ipc : Ipc.Sys
  id : Nat
  signals : Signals
  parked : Bool
  empty : Bool
  tasks : List Slot

/-- The handlers. Those that block are cut where they do. -/
inductive Handler where
  | ipcCallPost (replyId port buf len : Nat)
  | ipcCallFinish (replyId out outLen : Nat)
  | ipcReply (replyId buf len : Nat)
  | rtSigprocmask (how : Int) (set oldset : Nat) (word : UInt64)
  | rtSigsuspend (maskSet : Nat) (word : UInt64)
  | wait4 (pid : Int) (statusPtr : Nat) (wnohang : Bool)
  | checkDeliverSignal (userRsp : UInt64)

namespace Kernel

/-- What a handler reads and writes through user pointers, and the machine in which it does. -/
def accesses (k : Kernel) : Handler → Machine × List Access
  | .ipcCallPost replyId port buf len =>
    Task.ipcCallPost k.machine k.pml4 k.ipc k.id replyId port buf len
  | .ipcCallFinish replyId out outLen => (k.machine, Task.ipcCallFinish k.ipc replyId out outLen)
  | .ipcReply replyId buf len => (k.machine, Task.ipcReply k.ipc replyId buf len)
  | .rtSigprocmask how set oldset word =>
    (k.machine, (sysRtSigprocmask k.id k.signals how set oldset word).2.2)
  | .rtSigsuspend maskSet word => (k.machine, (sysRtSigsuspend k.id k.signals maskSet word).2.2)
  | .wait4 pid statusPtr wnohang => (k.machine, waitpidRound k.id k.tasks pid statusPtr wnohang)
  | .checkDeliverSignal userRsp =>
    (k.machine, Task.checkDeliverSignal k.id k.parked k.empty k.signals userRsp)

/-- A null pointer, or a range that user mode has access to. -/
def fair (k : Kernel) (addr len : Nat) : Bool := addr = 0 || allowed k.machine k.pml4 addr len

/-- The pointers that the handler follows without a check are fair. -/
def Fair (k : Kernel) : Handler → Prop
  | .ipcCallPost .. => True
  | .ipcCallFinish replyId out outLen => k.fair out (min (k.ipc.replies replyId).len outLen)
  | .ipcReply replyId buf len =>
    replyId < Ipc.maxReplies → (k.ipc.replies replyId).used = true →
      (k.ipc.replies replyId).done = false → k.fair buf (min len Ipc.ipcMsgMax)
  | .rtSigprocmask _ set oldset _ => k.id ≠ 0 → k.fair oldset 8 ∧ k.fair set 8
  | .rtSigsuspend maskSet _ => k.id ≠ 0 → k.fair maskSet 8
  | .wait4 pid statusPtr wnohang => k.id ≠ 0 →
    if k.tasks.any fun t => t.awaited k.id pid && t.zombie then k.fair statusPtr 4
    else wnohang = false → ∀ t ∈ k.tasks.find? (Slot.awaited k.id pid), k.fair t.childTidptr 4
  | .checkDeliverSignal userRsp =>
    k.parked = false → k.id ≠ 0 → k.empty = false →
      ∀ sig ∈ k.signals.deliverable, k.signals.delivery sig = .enter →
        allowed k.machine k.pml4 (origRsp userRsp - 8).toNat 8 ∧
          allowed k.machine k.pml4 (sigFrame userRsp).toNat 312

end Kernel

section

variable {m : Machine} {a addr len : Nat}

/-- The request of `ipc_call` is read after the check, and only where it passed. -/
theorem ipcCallPost_inUser {ipc : Ipc.Sys} {src replyId port buf : Nat} (h : OpenSpace m a) :
    ∀ acc ∈ (ipcCallPost m a ipc src replyId port buf len).2,
      acc.InUser (ipcCallPost m a ipc src replyId port buf len).1 a := by
  unfold ipcCallPost
  split
  · simp
  split
  · simp
  split
  case isFalse => simp
  split
  · simp
  next page m₁ ha =>
  have htook := allocPage_took h.wf ha
  have hp : ¬ IsTable m a page := fun hT => h.held page hT (htook.page page rfl).1
  have hsp := htook.spares h.guarded
  have hs := hsp.trans (hsp.spares_writePage hp (msgHeader src replyId len (m₁.mem page)))
  have hspace := (h.spares hs fun x hx => h.small x (htook.sub x hx)).1.space
  simp only
  split
  · simp
  split
  · simp
  next m₂ hvalid =>
  intro acc hacc
  obtain rfl := List.mem_singleton.mp hacc
  exact (hspace.userRangeValid hvalid).2 rfl

theorem accessIf_inUser {c : Bool} (h : OpenSpace m a) :
    (∀ acc ∈ accessIf c addr len, acc.InUser m a) ↔ (c = true → allowed m a addr len = true) := by
  rw [allowed_iff h]
  cases c <;> simp [accessIf]

theorem allowed_zero_len : allowed m a addr 0 = true := by simp [allowed]

/-- The fields of the frame lie in the pages of its first and of its last field. -/
theorem sigFrame_inUser {frame : UInt64} (h : OpenSpace m a) :
    (∀ f ∈ sigFrameFields, Access.InUser m a ⟨(frame + f.1.toUInt64).toNat, f.2⟩) ↔
      allowed m a frame.toNat 312 = true := by
  rw [allowed_iff h]
  have hfields : ∀ f ∈ sigFrameFields, f.1 + f.2 ≤ 312 ∧ f.2 ≠ 0 := by decide
  have hoff : ∀ f ∈ sigFrameFields, f.1.toUInt64.toNat = f.1 := by decide
  have hfrom : ∀ f ∈ sigFrameFields, frame.toNat + 312 ≤ 2 ^ 47 →
      (frame + f.1.toUInt64).toNat = frame.toNat + f.1 := by
    intro f hf hend
    rw [UInt64.toNat_add, hoff f hf]
    have := hfields f hf
    omega
  constructor
  · intro hall
    have hfirst := hall (0, 8) (by decide)
    have hlast := hall (304, 8) (by decide)
    have hlow : frame.toNat < 2 ^ 47 := by
      have := (hfirst frame.toNat (by simp) (by simp)).1
      exact this
    have h304 : (frame + (304 : Nat).toUInt64).toNat = frame.toNat + 304 := by
      rw [UInt64.toNat_add, hoff (304, 8) (by decide)]
      omega
    simp only [h304] at hlast
    -- the frame meets at most two pages, and both hold a field
    intro x hlo hhi
    simp only at hlo hhi
    have hpage : pageSize = 4096 := rfl
    by_cases hx : x / 4096 = frame.toNat / 4096
    · refine userPage_pageAlignDown.mp ?_
      have hdown : pageAlignDown x = pageAlignDown frame.toNat := by
        simp only [pageAlignDown, hpage]
        omega
      rw [hdown]
      exact userPage_pageAlignDown.mpr (hfirst frame.toNat (by simp) (by simp))
    · refine userPage_pageAlignDown.mp ?_
      have hdown : pageAlignDown x = pageAlignDown (frame.toNat + 311) := by
        simp only [pageAlignDown, hpage]
        omega
      rw [hdown]
      exact userPage_pageAlignDown.mpr (hlast _ (by simp only; omega) (by simp only; omega))
  · intro hall f hf x hlo hhi
    have hend : frame.toNat + 312 ≤ 2 ^ 47 := by
      have := (hall (frame.toNat + 311) (by simp) (by simp)).1
      omega
    have hlen := hfields f hf
    simp only [hfrom f hf hend] at hlo hhi
    exact hall x (by simp only; omega) (by simp only; omega)

end

theorem accessIf_fair {k : Kernel} {addr len : Nat} (h : OpenSpace k.machine k.pml4) :
    (∀ acc ∈ accessIf (0 < len && addr ≠ 0) addr len, acc.InUser k.machine k.pml4) ↔
      k.fair addr len = true := by
  rw [accessIf_inUser h]
  rcases Nat.eq_zero_or_pos len with rfl | hlen
  · simp [Kernel.fair, allowed_zero_len]
  · simp only [Kernel.fair, hlen, decide_true, Bool.true_and, Bool.or_eq_true, decide_eq_true_eq]
    exact ⟨fun hc => or_iff_not_imp_left.mpr fun h0 => hc (by simpa using h0),
      fun hf hc => hf.resolve_left (by simpa using hc)⟩

theorem accessIf_ne_zero_fair {k : Kernel} {addr len : Nat} (h : OpenSpace k.machine k.pml4)
    (hlen : 0 < len) : (∀ acc ∈ accessIf (addr ≠ 0) addr len, acc.InUser k.machine k.pml4) ↔
      k.fair addr len = true := by
  rw [← accessIf_fair h]
  simp [hlen]

namespace Kernel

variable {k : Kernel} (h : OpenSpace k.machine k.pml4)

include h

theorem inUser_fair {addr len : Nat} (haddr : addr ≠ 0) :
    Access.InUser k.machine k.pml4 ⟨addr, len⟩ ↔ k.fair addr len = true := by
  rw [← allowed_iff h]
  simp [fair, haddr]

theorem ipcReply_fair (replyId buf len : Nat) :
    (∀ acc ∈ Task.ipcReply k.ipc replyId buf len, acc.InUser k.machine k.pml4) ↔
      k.Fair (.ipcReply replyId buf len) := by
  unfold Task.ipcReply
  by_cases hid : replyId < Ipc.maxReplies
  case neg => simp [Fair, hid, Nat.not_lt.mp hid]
  cases hu : (k.ipc.replies replyId).used
  · simp [Fair, hu]
  cases hd : (k.ipc.replies replyId).done
  · have hopen : (decide (Ipc.maxReplies ≤ replyId) || !true) = false := by
      simpa using hid
    simp only [hopen, Fair, hid, hu, hd, Bool.false_eq_true, if_false, forall_const]
    exact accessIf_fair h
  · simp [Fair, hd]

theorem sigprocmask_fair (how : Int) (set oldset : Nat) (word : UInt64) :
    (∀ acc ∈ (sysRtSigprocmask k.id k.signals how set oldset word).2.2,
      acc.InUser k.machine k.pml4) ↔ k.Fair (.rtSigprocmask how set oldset word) := by
  unfold sysRtSigprocmask
  by_cases hid : k.id = 0
  · simp [Fair, hid]
  have hold : (∀ acc ∈ accessIf (oldset ≠ 0) oldset 8, acc.InUser k.machine k.pml4) ↔
      k.fair oldset 8 = true := accessIf_ne_zero_fair h (by decide)
  simp only [Fair, hid, if_false, ne_eq, not_false_eq_true, forall_const] at hold ⊢
  by_cases hs : set = 0
  · have hnull : k.fair 0 8 = true := by simp [fair]
    simp only [hs, if_true, hold, hnull, and_true]
  · simp only [hs, if_false, List.mem_append, List.mem_singleton, or_imp, forall_and, forall_eq,
      hold, inUser_fair h hs]

theorem sigsuspend_fair (maskSet : Nat) (word : UInt64) :
    (∀ acc ∈ (sysRtSigsuspend k.id k.signals maskSet word).2.2, acc.InUser k.machine k.pml4) ↔
      k.Fair (.rtSigsuspend maskSet word) := by
  unfold sysRtSigsuspend
  by_cases hid : k.id = 0
  · simp [Fair, hid]
  by_cases hs : maskSet = 0
  · simp [Fair, hid, hs, fair]
  simp only [Fair, hid, hs, if_false, ne_eq, not_false_eq_true, forall_const]
  split <;> simp only [List.mem_singleton, forall_eq, inUser_fair h hs]

theorem waitpid_fair (pid : Int) (statusPtr : Nat) (wnohang : Bool) :
    (∀ acc ∈ waitpidRound k.id k.tasks pid statusPtr wnohang, acc.InUser k.machine k.pml4) ↔
      k.Fair (.wait4 pid statusPtr wnohang) := by
  unfold waitpidRound
  by_cases hid : k.id = 0
  · simp [Fair, hid]
  simp only [Fair, hid, if_false, ne_eq, not_false_eq_true, forall_const]
  split_ifs with hz hw
  · exact accessIf_ne_zero_fair h (by decide)
  · simp [hw]
  · cases k.tasks.find? (Slot.awaited k.id pid) with
    | none => simp
    | some t =>
      rw [accessIf_ne_zero_fair h (by decide)]
      simp [hw]

theorem checkDeliverSignal_fair (userRsp : UInt64) :
    (∀ acc ∈ Task.checkDeliverSignal k.id k.parked k.empty k.signals userRsp,
      acc.InUser k.machine k.pml4) ↔ k.Fair (.checkDeliverSignal userRsp) := by
  unfold Task.checkDeliverSignal
  by_cases hskip : (k.parked || decide (k.id = 0) || k.empty) = true
  · rw [if_pos hskip]
    simp only [Bool.or_eq_true, decide_eq_true_eq] at hskip
    refine iff_of_true (by simp) fun hp hi he => ?_
    simp [hp, hi, he] at hskip
  have hrun : k.parked = false ∧ k.id ≠ 0 ∧ k.empty = false := by simpa [and_assoc] using hskip
  rw [if_neg hskip]
  simp only [Fair, hrun.1, hrun.2.1, hrun.2.2, ne_eq, not_false_eq_true, forall_const]
  cases k.signals.deliverable with
  | none => simp
  | some sig =>
    by_cases he : k.signals.delivery sig = .enter
    · simp only [he, if_true, List.forall_mem_cons, List.forall_mem_map, Option.mem_some_iff,
        forall_eq', forall_const]
      rw [sigFrame_inUser h, ← allowed_iff h]
    · simp [he]

end Kernel

/-- Each handler stays within user pages of its caller exactly when the pointers it does not check
are fair. -/
theorem handlers_stay_in_user_pages {k : Kernel} (h : OpenSpace k.machine k.pml4) (c : Handler) :
    (∀ acc ∈ (k.accesses c).2, acc.InUser (k.accesses c).1 k.pml4) ↔ k.Fair c := by
  cases c with
  | ipcCallPost replyId port buf len => exact iff_of_true (ipcCallPost_inUser h) trivial
  | ipcCallFinish replyId out outLen => exact accessIf_fair h
  | ipcReply replyId buf len => exact Kernel.ipcReply_fair h replyId buf len
  | rtSigprocmask how set oldset word => exact Kernel.sigprocmask_fair h how set oldset word
  | rtSigsuspend maskSet word => exact Kernel.sigsuspend_fair h maskSet word
  | wait4 pid statusPtr wnohang => exact Kernel.waitpid_fair h pid statusPtr wnohang
  | checkDeliverSignal userRsp => exact Kernel.checkDeliverSignal_fair h userRsp

/-! ### A user page next to a kernel page -/

theorem kernelPage_openSpace : OpenSpace kernelPage 0x200000 := by
  refine ⟨kernelPage_space, fun π q k hq hlen _ => ?_⟩
  obtain ⟨-, -, rfl⟩ := kernelPage_at hq
  by_cases hk : k = 0
  · have hall : ∀ d < 3, gate d (kernelPage.mem (0x200000 + d * 0x1000) 0) = true := by
      decide
    exact hk ▸ hall π.length hlen
  · have hzero : kernelPage.mem (0x200000 + π.length * 0x1000) k = 0 := by
      simp [kernelPage, onePage, hk]
      omega
    rw [hzero]
    simp [gate, Pte.present, Pte.huge]

/-- Task 1 on that machine, with no signals and no other task. -/
def kernelPageTask : Kernel :=
  ⟨kernelPage, 0x200000, Ipc.Sys.init, 1, ⟨0, 0, fun _ => .empty⟩, false, false, []⟩

theorem handlers_stay_in_user_pages_sigprocmask :
    (kernelPageTask.accesses (.rtSigprocmask 0 0 0x100 0)).2 = [⟨0x100, 8⟩] ∧
    ∀ acc ∈ (kernelPageTask.accesses (.rtSigprocmask 0 0 0x100 0)).2,
      acc.InUser (kernelPageTask.accesses (.rtSigprocmask 0 0 0x100 0)).1 0x200000 :=
  ⟨rfl, (handlers_stay_in_user_pages (k := kernelPageTask) kernelPage_openSpace _).mpr
    fun _ => by decide⟩

/-- `rt_sigprocmask` writes the old mask over a page of the kernel. -/
theorem sigprocmask_writes_kernel_page : ∃ k : Kernel, OpenSpace k.machine k.pml4 ∧
    view k.machine k.pml4 0x1000 = some (0x205000, true, false) ∧
    k.accesses (.rtSigprocmask 0 0 0x1000 0) = (k.machine, [⟨0x1000, 8⟩]) ∧
    ¬ Access.InUser k.machine k.pml4 ⟨0x1000, 8⟩ := by
  refine ⟨kernelPageTask, kernelPage_openSpace, by decide, rfl, fun hin => ?_⟩
  have hpage : UserPage kernelPage 0x200000 0x1000 := hin 0x1000 (by decide) (by decide)
  exact absurd hpage (by decide)

end Rynex.Task
