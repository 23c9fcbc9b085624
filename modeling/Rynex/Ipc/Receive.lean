import Rynex.Ipc.Model

/-! The four receive functions on a buffer that they refuse. `ipc_recv`, `ipc_recv_ex`, `ipc_peek`
and `ipc_peek_ex` take the message off the ring, wake a sender, and only then look at the buffer:
by the time they answer `EFAULT` the message is lost. -/

namespace Rynex.Ipc

open Rynex.Errno Rynex.Lib

/-- The buffer argument of a receive: whether the pointer is null, whether it is one of the
kernel's own, which is not checked, and what `user_range_valid` answers for a length. -/
structure Buffer where
  null : Bool
  kernel : Bool
  valid : Nat → Bool

/-- Whether `n` bytes may be copied out. Nothing is written to a null buffer. -/
def Buffer.admits (b : Buffer) (n : Nat) : Bool := b.null || b.kernel || b.valid n

namespace Sys

/-- What the check of the buffer says in the next step of a task. -/
def checked (s : Sys) (b : Buffer) : Pc → Bool
  | .drain p maxLen _ => b.admits (min (s.msgs p).payload.length maxLen)
  | _ => true

/-- Task `t` makes its next step. -/
def go (s : Sys) (t : Nat) (b : Buffer) : Sys := s.step (.run t none (s.checked b (s.tasks t)))

/-- A receive with no other task in between: three steps bring it to its return, or to the block
on an empty mailbox. -/
def receive (s : Sys) (t : Nat) (op : Op) (b : Buffer) : Sys :=
  (((s.step (.start t op)).go t b).go t b).go t b

def ipcRecv (s : Sys) (t port : Nat) (b : Buffer) (maxLen : Nat) : Sys :=
  s.receive t (.recv port maxLen) { b with kernel := false }

def ipcRecvExImpl (s : Sys) (t port : Nat) (b : Buffer) (maxLen : Nat) : Sys :=
  s.receive t (.recv port maxLen) b

def ipcPeek (s : Sys) (t port : Nat) (b : Buffer) (maxLen : Nat) : Sys :=
  s.receive t (.peek port maxLen) { b with kernel := false }

def ipcPeekExImpl (s : Sys) (t port : Nat) (b : Buffer) (maxLen : Nat) : Sys :=
  s.receive t (.peek port maxLen) b

/-- Nothing of a receive by `t` is left behind: the mailboxes hold the same messages, no page was
freed, and no other task was woken. -/
structure Undisturbed (t : Nat) (s s' : Sys) : Prop where
  queue : ∀ i < maxPorts, (s'.ports i).queue = (s.ports i).queue
  msgs : s'.msgs = s.msgs
  live : s'.live = s.live
  others : ∀ t' ≠ t, s'.tasks t' = s.tasks t'

/-- A message is there, some of it would be copied, and the buffer does not admit it. -/
def Refuses (s : Sys) (port : Nat) (b : Buffer) (maxLen : Nat) : Prop :=
  ∃ i, s.portIdxById port = some i ∧ (s.ports i).count ≠ 0 ∧
    let n := min (s.msgs ((s.ports i).slots (s.ports i).head)).payload.length maxLen
    0 < n ∧ b.admits n = false

section Steps

variable {s : Sys} {t i port maxLen : Nat} {b : Buffer} {block : Bool}

theorem go_of_pc (ht : t < maxTasks) {pc : Pc} (h : s.tasks t = pc) :
    s.go t b = s.exec t none (s.checked b pc) pc := by
  subst h
  exact if_pos ht

theorem go_ret (ht : t < maxTasks) {v : Int} {data : List UInt8} {token : Nat}
    (h : s.tasks t = .ret v data token) : s.go t b = s :=
  go_of_pc ht h

theorem go_go_ret (ht : t < maxTasks) {v : Int} {data : List UInt8} {token : Nat}
    (h : s.tasks t = .ret v data token) : ((s.go t b).go t b).tasks t = .ret v data token := by
  rw [go_ret ht h, go_ret ht h, h]

/-- Without the port the receive fails; on an empty mailbox it returns at once or blocks. -/
theorem take_nothing (ht : t < maxTasks) (h : s.tasks t = .take port maxLen block)
    (hnone : ∀ i, s.portIdxById port = some i → (s.ports i).count = 0) :
    (((s.go t b).go t b).go t b).tasks t ≠ .ret (-efault) [] 0 := by
  rw [go_of_pc ht h]
  cases hi : s.portIdxById port with
  | none =>
    have htake : s.takeLocked port = (.missing, s) := by unfold takeLocked; rw [hi]
    simp only [exec, htake]
    rw [go_go_ret ht (setTask_self ..)]
    decide
  | some i =>
    have htake : s.takeLocked port = (.empty i, s) := by
      unfold takeLocked; rw [hi]; exact if_pos (hnone i hi)
    simp only [exec, htake]
    cases block with
    | false =>
      rw [if_neg Bool.false_ne_true, go_go_ret ht (setTask_self ..)]
      decide
    | true =>
      -- The idle task is not blocked: it gets `EAGAIN`.
      rw [if_pos rfl, go_of_pc (s := s.setTask t _) ht (setTask_self ..)]
      by_cases h0 : t = 0
      · simp only [exec, if_pos h0, Pc.call, fail]
        rw [go_ret ht (setTask_self ..), setTask_self]
        decide
      · simp only [exec, if_neg h0]
        rw [go_of_pc ht (setTask_self ..)]
        simp only [exec, setTask_self]
        exact Pc.noConfusion

/-- How a receive answers for the message that it took. -/
def answered (b : Buffer) (maxLen : Nat) (msg : Msg) : Pc :=
  let n := min msg.payload.length maxLen
  if 0 < n && !b.admits n then .ret (-efault) [] 0
  else .ret msg.payload.length (msg.payload.take n) msg.replyId

theorem go_drain (ht : t < maxTasks) {p : Nat} {msg : Msg} (h : s.tasks t = .drain p maxLen msg) :
    s.go t b = (s.freeMsg p).setTask t (answered b maxLen (s.msgs p)) := by
  rw [go_of_pc ht h]
  simp only [exec, checked]
  exact (apply_ite ((s.freeMsg p).setTask t) _ _ _).symm

theorem takeLocked_got (hi : s.portIdxById port = some i) (hc : (s.ports i).count ≠ 0) :
    ∃ port', s.takeLocked port = (.got i ((s.ports i).slots (s.ports i).head), s.setPort i port') ∧
      port'.count = (s.ports i).count - 1 := by
  unfold takeLocked
  rw [hi]
  dsimp only
  rw [if_neg hc]
  exact ⟨_, rfl, rfl⟩

/-- A receive that finds a message answers for it, and its ring has one message less. -/
theorem take_message (ht : t < maxTasks) (h : s.tasks t = .take port maxLen block)
    (hi : s.portIdxById port = some i) (hc : (s.ports i).count ≠ 0) :
    let s' := ((s.go t b).go t b).go t b
    s'.tasks t = answered b maxLen (s.msgs ((s.ports i).slots (s.ports i).head)) ∧
      (s'.ports i).queue.length + 1 = (s.ports i).queue.length := by
  intro s'
  rw [show s' = ((s.go t b).go t b).go t b from rfl, go_of_pc ht h]
  obtain ⟨port', htake, hport'⟩ := takeLocked_got hi hc
  have hlen : ∀ {u : Sys}, u.ports i = port' →
      (u.ports i).queue.length + 1 = (s.ports i).queue.length := by
    intro u hu
    rw [Port.queue, Port.queue, Ring.length_window, Ring.length_window, hu, hport']
    omega
  simp only [exec, htake]
  cases block with
  | true =>
    rw [if_pos rfl, go_of_pc ht (setTask_self ..)]
    simp only [exec]
    rw [go_drain ht (setTask_self ..)]
    refine ⟨setTask_self .., hlen ?_⟩
    exact Function.update_self ..
  | false =>
    rw [if_neg Bool.false_ne_true, go_drain ht (setTask_self ..)]
    have hret : ∀ {u : Sys} {msg : Msg}, (u.setTask t (answered b maxLen msg)).go t b =
        u.setTask t (answered b maxLen msg) := by
      intro u msg
      unfold answered
      dsimp only
      split <;> exact go_ret ht (setTask_self ..)
    rw [hret]
    refine ⟨setTask_self .., hlen ?_⟩
    exact Function.update_self ..

theorem answered_eq_fault (msg : Msg) : answered b maxLen msg = .ret (-efault) [] 0 ↔
    0 < min msg.payload.length maxLen ∧ b.admits (min msg.payload.length maxLen) = false := by
  unfold answered
  dsimp only
  split
  next h => simpa using h
  next h =>
    have hne : (msg.payload.length : Int) ≠ -efault := by unfold efault; omega
    simp only [Pc.ret.injEq, hne, false_and, false_iff]
    simpa using h

theorem take_fault_iff (ht : t < maxTasks) (h : s.tasks t = .take port maxLen block) :
    (((s.go t b).go t b).go t b).tasks t = .ret (-efault) [] 0 ↔ s.Refuses port b maxLen := by
  constructor
  · intro hf
    by_contra hno
    refine take_nothing ht h (fun i hi => ?_) hf
    by_contra hc
    rw [(take_message ht h hi hc).1, answered_eq_fault] at hf
    exact hno ⟨i, hi, hc, hf⟩
  · rintro ⟨i, hi, hc, hn⟩
    rw [(take_message ht h hi hc).1]
    exact (answered_eq_fault _).mpr hn

end Steps

/-- The receive functions. -/
inductive Receiver where
  | recv
  | recvEx
  | peek
  | peekEx
deriving DecidableEq, Repr

def Receiver.run : Receiver → Sys → Nat → Nat → Buffer → Nat → Sys
  | .recv => ipcRecv
  | .recvEx => ipcRecvExImpl
  | .peek => ipcPeek
  | .peekEx => ipcPeekExImpl

/-- The buffer as the function checks it: only the `_ex` functions know of kernel buffers. -/
def Receiver.buffer (f : Receiver) (b : Buffer) : Buffer :=
  match f with
  | .recv | .peek => { b with kernel := false }
  | .recvEx | .peekEx => b

variable {s : Sys} {t i port maxLen : Nat} {b : Buffer}

theorem step_start (ht : t < maxTasks) {v : Int} {data : List UInt8} {token : Nat}
    (h : s.tasks t = .ret v data token) (op : Op) : s.step (.start t op) = s.enter t op := by
  unfold step
  dsimp only
  rw [h]
  exact if_pos ht

theorem Receiver.run_eq (f : Receiver) (port maxLen : Nat) (b : Buffer) (ht : t < maxTasks)
    {v : Int} {data : List UInt8} {token : Nat} (h : s.tasks t = .ret v data token) : ∃ block,
      f.run s t port b maxLen = (((s.setTask t (.take port maxLen block)).go t (f.buffer b)).go t
        (f.buffer b)).go t (f.buffer b) := by
  have hrecv : s.step (.start t (.recv port maxLen)) = s.setTask t (.take port maxLen true) :=
    step_start ht h _
  have hpeek : s.step (.start t (.peek port maxLen)) = s.setTask t (.take port maxLen false) :=
    step_start ht h _
  cases f
  case recv | recvEx => exact ⟨true, by rw [← hrecv]; rfl⟩
  case peek | peekEx => exact ⟨false, by rw [← hpeek]; rfl⟩

/-- When a receive answers `EFAULT` it leaves the mailboxes as they were, exactly when it does not
come to answer `EFAULT`: there is no such port, no message, no byte to copy, or the buffer is
good. -/
theorem fault_undisturbed_iff (f : Receiver) (s : Sys) (t port maxLen : Nat) (b : Buffer)
    (ht : t < maxTasks) (v : Int) (data : List UInt8) (token : Nat)
    (h : s.tasks t = .ret v data token) :
    let s' := f.run s t port b maxLen
    (s'.tasks t = .ret (-efault) [] 0 → Undisturbed t s s') ↔
      ¬ s.Refuses port (f.buffer b) maxLen := by
  obtain ⟨block, hrun⟩ := f.run_eq port maxLen b ht h
  intro s'
  rw [show s' = _ from hrun]
  have htake : (s.setTask t (.take port maxLen block)).tasks t = .take port maxLen block :=
    setTask_self ..
  rw [take_fault_iff ht htake]
  change (s.Refuses port (f.buffer b) maxLen → _) ↔ _
  refine ⟨fun hkeep hr => ?_, fun hno hr => absurd hr hno⟩
  obtain ⟨i, hi, hc, -⟩ := id hr
  have hlt : i < maxPorts := List.mem_range.mp (List.mem_of_find?_eq_some hi)
  have hlen := (take_message (b := f.buffer b) ht htake hi hc).2
  rw [(hkeep hr).queue i hlt] at hlen
  exact absurd hlen (Nat.succ_ne_self _)

/-- Task 1 has created port 1, and its message of three bytes is queued there. -/
def oneMessage : Sys :=
  [.start 1 (.create [97]), .start 1 (.send 1 [1, 2, 3] 0), .run 1 (some 5) true,
    .run 1 none true].foldl step init

/-- A pointer of user space that is mapped nowhere. -/
def wild : Buffer := ⟨false, false, fun _ => false⟩

theorem fault_undisturbed_oneMessage :
    (oneMessage.tasks 2 = .ret 0 [] 0 ∧ oneMessage.Refuses 1 wild 8) ∧
    ¬ ((Receiver.recv.run oneMessage 2 1 wild 8).tasks 2 = .ret (-efault) [] 0 →
      Undisturbed 2 oneMessage (Receiver.recv.run oneMessage 2 1 wild 8)) := by
  have hr : oneMessage.Refuses 1 wild 8 := ⟨0, by decide, by decide, by decide⟩
  refine ⟨⟨by decide, hr⟩, fun hkeep => ?_⟩
  exact (fault_undisturbed_iff .recv oneMessage 2 1 8 wild (by decide) 0 [] 0
    (by decide)).mp hkeep hr

/-- The receive answers `EFAULT`, and the message is gone with its page. -/
theorem fault_loses_message :
    (oneMessage.ports 0).queue = [5] ∧ oneMessage.live = {5} ∧
    ∀ f : Receiver, (f.run oneMessage 2 1 wild 8).tasks 2 = .ret (-efault) [] 0 ∧
      ((f.run oneMessage 2 1 wild 8).ports 0).queue = [] ∧
        (f.run oneMessage 2 1 wild 8).live = ∅ := by
  refine ⟨by decide, by decide, fun f => ?_⟩
  cases f <;> exact ⟨by decide, by decide, by decide⟩

end Sys

end Rynex.Ipc
