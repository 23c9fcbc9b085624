import Rynex.Errno
import Rynex.Lib.Ring

/-! The ports and reply slots of `ipc.rs` as a system of tasks. Every critical section under
`IPC_LOCK` is one step, and so is every wake and every block that is made with the lock released;
the control state of a task says which step it makes next. -/

namespace Rynex.Ipc

open Rynex.Errno Rynex.Lib

def maxPorts : Nat := 32
def portSlots : Nat := 64
def nameLen : Nat := 16
def ipcMsgHeader : Nat := 32
def ipcMsgMax : Nat := 4096 - ipcMsgHeader
def maxReplies : Nat := 64
def maxTasks : Nat := 64

/-- A message page: its header, and the payload, whose length is the header's `len`. -/
structure Msg where
  srcPid : Nat
  replyId : Nat
  msgType : Nat
  payload : List UInt8
deriving DecidableEq, Repr

/-- `slots` are the pages of the queued messages, in a ring of `portSlots` places. The last two
fields are history: what was accepted and what was taken out since the port was created. -/
structure Port where
  used : Bool
  id : Nat
  name : List UInt8
  slots : Nat → Nat
  head : Nat
  count : Nat
  accepted : List Msg
  dequeued : List Msg

def Port.empty : Port := ⟨false, 0, List.replicate nameLen 0, fun _ => 0, 0, 0, [], []⟩

/-- The pages of the queued messages, oldest first. -/
def Port.queue (p : Port) : List Nat := Ring.window p.slots portSlots p.head p.count

/-- `call` is history: the call that the slot was allocated for. -/
structure ReplySlot where
  used : Bool
  page : Nat
  len : Nat
  done : Bool
  call : Nat

def ReplySlot.empty : ReplySlot := ⟨false, 0, 0, false, 0⟩

/-- The words that tasks block on: `wake_recv` and `wake_send` of a port, `wake` of a reply
slot. -/
inductive Word where
  | recv (port : Nat)
  | send (port : Nat)
  | reply (slot : Nat)
deriving DecidableEq, Repr

/-- A call of `ipc_call`: its number, which is history, its reply token, and the size of the
caller's buffer. -/
structure Call where
  number : Nat
  token : Nat
  outLen : Nat
deriving DecidableEq, Repr

/-- A call of `ipc_reply`. `meant` is history: the call that the replier answers, if it answers
one. A null buffer counts as a buffer of zeros. -/
structure Reply where
  token : Nat
  meant : Option Nat
  bytes : List UInt8
deriving DecidableEq, Repr

/-- Where a task stands. -/
inductive Pc where
  /-- Outside `ipc.rs`, with what the last call returned. -/
  | ret (value : Int) (data : List UInt8) (token : Nat)
  /-- `ipc_call` before `reply_alloc`. -/
  | openReply (port : Nat) (payload : List UInt8) (outLen : Nat)
  /-- The loop of `ipc_send`, or of `ipc_call` for its request. -/
  | post (port : Nat) (msg : Msg) (call : Option Call)
  /-- The loop of `ipc_call` that waits for the reply. -/
  | await (call : Call)
  /-- `ipc_call` has seen `done` and reads the length next. -/
  | readLen (page : Nat) (call : Call)
  /-- `ipc_call` copies the reply out and frees the slot next. -/
  | finish (page len : Nat) (call : Call)
  /-- The loop of `ipc_recv` and `ipc_recv_ex`, or `ipc_peek` and `ipc_peek_ex`, which do not
  block. -/
  | take (port maxLen : Nat) (block : Bool)
  /-- A receiver has taken the page off the ring; it copies the message out and frees the page
  next. `msg` is history: the message as it was taken. -/
  | drain (page maxLen : Nat) (msg : Msg)
  /-- `futex_wake` comes next, with the lock released. -/
  | wake (word : Word) (next : Pc)
  /-- `block_on_futex` comes next, with the lock released. -/
  | park (word : Word) (next : Pc)
  | blocked (word : Word) (next : Pc)
deriving DecidableEq, Repr

/-- The `ipc_call` that the task is in. -/
def Pc.call : Pc → Option Call
  | .post _ _ call => call
  | .await c => some c
  | .readLen _ c => some c
  | .finish _ _ c => some c
  | .wake _ next => next.call
  | .park _ next => next.call
  | .blocked _ next => next.call
  | _ => none

/-- Where the task goes on when the word is woken, if it is blocked on it. -/
def Pc.waiting (w : Word) : Pc → Option Pc
  | .blocked w' next => if w' = w then some next else none
  | _ => none

theorem Pc.waiting_eq_some {w : Word} {pc next : Pc} :
    pc.waiting w = some next ↔ pc = .blocked w next := by
  cases pc <;> simp [waiting]

/-- `msgs` and `data` are the contents of the message pages and of the reply pages; `live` are
the pages that were allocated for either and not freed. Message pages are counted, and `log` has
the replies that were made. -/
structure Sys where
  ports : Nat → Port
  nextPortId : Nat
  replies : Nat → ReplySlot
  msgs : Nat → Msg
  data : Nat → List UInt8
  live : Finset Nat
  allocated : Nat
  freed : Nat
  calls : Nat
  log : List Reply
  tasks : Nat → Pc

namespace Sys

def init : Sys where
  ports := fun _ => .empty
  nextPortId := 1
  replies := fun _ => .empty
  msgs := fun _ => ⟨0, 0, 0, []⟩
  data := fun _ => []
  live := ∅
  allocated := 0
  freed := 0
  calls := 0
  log := []
  tasks := fun _ => .ret 0 [] 0

def setTask (s : Sys) (t : Nat) (pc : Pc) : Sys := { s with tasks := Function.update s.tasks t pc }

@[simp] theorem setTask_self (s : Sys) (t : Nat) (pc : Pc) : (s.setTask t pc).tasks t = pc :=
  Function.update_self ..

theorem setTask_of_ne (s : Sys) {t t' : Nat} (pc : Pc) (h : t' ≠ t) :
    (s.setTask t pc).tasks t' = s.tasks t' :=
  Function.update_of_ne h ..

def setPort (s : Sys) (i : Nat) (p : Port) : Sys := { s with ports := Function.update s.ports i p }

def setReply (s : Sys) (i : Nat) (r : ReplySlot) : Sys :=
  { s with replies := Function.update s.replies i r }

/-! ### Pages -/

/-- What `alloc_page` answers. The allocator never hands out a page that is in use, nor page 0. -/
def answer (s : Sys) (page : Option Nat) : Option Nat :=
  page.filter fun p => p ≠ 0 ∧ p ∉ s.live

def allocMsg (s : Sys) (p : Nat) (msg : Msg) : Sys :=
  { s with
    msgs := Function.update s.msgs p msg
    live := insert p s.live
    allocated := s.allocated + 1 }

def freeMsg (s : Sys) (p : Nat) : Sys :=
  { s with live := s.live.erase p, freed := s.freed + 1 }

def allocReply (s : Sys) (p : Nat) : Sys :=
  { s with data := Function.update s.data p [], live := insert p s.live }

def freeReply (s : Sys) (p : Nat) : Sys := { s with live := s.live.erase p }

/-! ### Futexes -/

/-- `futex_wake` over the tasks in the order of the table, `n` of them at most. -/
def wakeTasks (w : Word) : Nat → List Nat → (Nat → Pc) → Nat → Pc
  | 0, _, tasks => tasks
  | _, [], tasks => tasks
  | n + 1, t :: ts, tasks =>
    match (tasks t).waiting w with
    | some next => wakeTasks w n ts (Function.update tasks t next)
    | none => wakeTasks w (n + 1) ts tasks

def futexWake (s : Sys) (w : Word) (n : Nat) : Sys :=
  { s with tasks := wakeTasks w n (List.range maxTasks) s.tasks }

/-! ### Critical sections -/

def portIdxById (s : Sys) (id : Nat) : Option Nat :=
  (List.range maxPorts).find? fun i => (s.ports i).used && (s.ports i).id = id

/-- The stored name has to end where `name` does. -/
def portIdxByName (s : Sys) (name : List UInt8) : Option Nat :=
  (List.range maxPorts).find? fun i =>
    let stored := (s.ports i).name
    (s.ports i).used && stored.take name.length = name &&
      (name.length = nameLen || stored[name.length]? = some 0)

/-- How the critical section of a send ends. -/
inductive Posted where
  | missing
  | noPage
  | fault
  | done (port : Nat)
  | full (port : Nat)

/-- The critical section of `ipc_send` and of the request of `ipc_call`. `page` is the answer of
the allocator and `ok` that of `user_range_valid`. -/
def postLocked (s : Sys) (portId : Nat) (msg : Msg) (page : Option Nat) (ok : Bool) :
    Posted × Sys :=
  match s.portIdxById portId with
  | none => (.missing, s)
  | some i =>
    let port := s.ports i
    if port.count < portSlots then
      match s.answer page with
      | none => (.noPage, s)
      | some p =>
        let s := s.allocMsg p msg
        if !msg.payload.isEmpty && !ok then (.fault, s.freeMsg p)
        else
          (.done i, s.setPort i { port with
            slots := Function.update port.slots ((port.head + port.count) % portSlots) p
            count := port.count + 1
            accepted := port.accepted ++ [msg] })
    else (.full i, s)

/-- How the critical section of a receive ends. -/
inductive Taken where
  | missing
  | empty (port : Nat)
  | got (port page : Nat)

/-- The critical section of the receive functions. -/
def takeLocked (s : Sys) (portId : Nat) : Taken × Sys :=
  match s.portIdxById portId with
  | none => (.missing, s)
  | some i =>
    let port := s.ports i
    if port.count = 0 then (.empty i, s)
    else
      let page := port.slots port.head
      (.got i page, s.setPort i { port with
        head := (port.head + 1) % portSlots
        count := port.count - 1
        dequeued := port.dequeued ++ [s.msgs page] })

/-- `reply_alloc_locked`. Slot 0 stands for no reply. -/
def replyAllocLocked (s : Sys) (page : Option Nat) : Option Nat × Sys :=
  match s.answer page with
  | none => (none, s)
  | some p =>
    let s := s.allocReply p
    match (List.range' 1 (maxReplies - 1)).find? fun i => !(s.replies i).used with
    | none => (none, s.freeReply p)
    | some i => (some i, s.setReply i ⟨true, p, 0, false, s.calls⟩)

def replyFreeLocked (s : Sys) (id : Nat) : Sys :=
  if id < maxReplies && (s.replies id).used then
    let slot := s.replies id
    let s := if slot.page ≠ 0 then s.freeReply slot.page else s
    s.setReply id { slot with page := 0, used := false }
  else s

/-- `ipc_reply`, up to its wake: the result, and whether the slot was filled. -/
def replyLocked (s : Sys) (r : Reply) : Int × Bool × Sys :=
  let s := { s with log := s.log ++ [r] }
  if maxReplies ≤ r.token || !(s.replies r.token).used then (-esrch, false, s)
  else
    let slot := s.replies r.token
    if slot.done then (0, false, s)
    else
      let bytes := r.bytes.take ipcMsgMax
      (bytes.length, true,
        { s with data := Function.update s.data slot.page bytes }.setReply r.token
          { slot with len := bytes.length, done := true })

def createLocked (s : Sys) (name : List UInt8) : Int × Sys :=
  if (s.portIdxByName name).isSome then (-eexist, s)
  else
    match (List.range maxPorts).find? fun i => !(s.ports i).used with
    | none => (-enomem, s)
    | some i =>
      (s.nextPortId, { s with nextPortId := s.nextPortId + 1 }.setPort i
        { s.ports i with
          used := true, id := s.nextPortId, name := name ++ (s.ports i).name.drop name.length
          head := 0, count := 0
          accepted := [], dequeued := [] })

/-- `ipc_close` frees the page of one queued message. -/
def freeQueued (s : Sys) (p : Nat) : Sys := if p ≠ 0 then s.freeMsg p else s

/-- `ipc_close` frees the queued pages and wakes everyone who waits on the port. -/
def closeLocked (s : Sys) (portId : Nat) : Int × Sys :=
  match s.portIdxById portId with
  | none => (-esrch, s)
  | some i =>
    let s := (s.ports i).queue.foldl freeQueued s
    (0, ((s.futexWake (.recv i) maxTasks).futexWake (.send i) maxTasks).setPort i .empty)

/-! ### Tasks -/

/-- A call that failed under the lock: an `ipc_call` gives its reply slot back. -/
def fail (s : Sys) (t : Nat) (call : Option Call) (err : Int) : Sys :=
  match call with
  | none => s.setTask t (.ret (-err) [] 0)
  | some c => (s.replyFreeLocked c.token).setTask t (.ret (-err) [] 0)

/-- The next step of task `t`, which stands at `pc`. The idle task, with id 0, cannot block. -/
def exec (s : Sys) (t : Nat) (page : Option Nat) (ok : Bool) : Pc → Sys
  | .ret _ _ _ => s
  | .openReply port payload outLen =>
    match s.replyAllocLocked page with
    | (none, s) => s.setTask t (.ret (-enomem) [] 0)
    | (some i, s) =>
      { s with calls := s.calls + 1 }.setTask t
        (.post port ⟨t, i, 0, payload⟩ (some ⟨s.calls, i, outLen⟩))
  | .post port msg call =>
    match s.postLocked port msg page ok with
    | (.missing, s) => s.fail t call esrch
    | (.noPage, s) => s.fail t call enomem
    | (.fault, s) => s.fail t call efault
    | (.done i, s) =>
      s.setTask t (.wake (.recv i) (match call with
        | none => .ret 0 [] 0
        | some c => .await c))
    | (.full i, s) => s.setTask t (.park (.send i) (.post port msg call))
  | .await c =>
    let slot := s.replies c.token
    if c.token < maxReplies && slot.used then
      if slot.done then s.setTask t (.readLen slot.page c)
      else s.setTask t (.park (.reply c.token) (.await c))
    else (s.replyFreeLocked c.token).setTask t (.ret (-esrch) [] 0)
  | .readLen page c => s.setTask t (.finish page (s.replies c.token).len c)
  | .finish page len c =>
    (s.replyFreeLocked c.token).setTask t (.ret len ((s.data page).take (min len c.outLen)) 0)
  | .take port maxLen block =>
    match s.takeLocked port with
    | (.missing, s) => s.setTask t (.ret (-esrch) [] 0)
    | (.empty i, s) =>
      if block then s.setTask t (.park (.recv i) (.take port maxLen block))
      else s.setTask t (.ret 0 [] 0)
    | (.got i p, s) =>
      let pc := .drain p maxLen (s.msgs p)
      if block then s.setTask t (.wake (.send i) pc)
      else (s.futexWake (.send i) 1).setTask t pc
  | .drain p maxLen _ =>
    let msg := s.msgs p
    let outLen := min msg.payload.length maxLen
    if 0 < outLen && !ok then (s.freeMsg p).setTask t (.ret (-efault) [] 0)
    else (s.freeMsg p).setTask t (.ret msg.payload.length (msg.payload.take outLen) msg.replyId)
  | .wake w next => (s.futexWake w 1).setTask t next
  | .park w next =>
    if t = 0 then s.fail t next.call eagain else s.setTask t (.blocked w next)
  | .blocked _ _ => s

end Sys

/-- The calls of `ipc.rs`. The receive functions differ in whether they block and whether they
return the token. -/
inductive Op where
  | create (name : List UInt8)
  | send (port : Nat) (payload : List UInt8) (msgType : Nat)
  | call (port : Nat) (payload : List UInt8) (outLen : Nat)
  | recv (port maxLen : Nat)
  | peek (port maxLen : Nat)
  | reply (r : Reply)
  | close (port : Nat)
deriving DecidableEq, Repr

/-- What can happen: a task enters a call, it makes its next step with the given answers of
`alloc_page` and `user_range_valid`, or something else makes a blocked task ready. -/
inductive Event where
  | start (t : Nat) (op : Op)
  | run (t : Nat) (page : Option Nat) (ok : Bool)
  | nudge (t : Nat)
deriving DecidableEq, Repr

namespace Sys

/-- Task `t` enters a call. Calls that are one critical section are carried out at once. -/
def enter (s : Sys) (t : Nat) : Op → Sys
  | .create name =>
    if name.isEmpty || nameLen < name.length then s.setTask t (.ret (-einval) [] 0)
    else
      let (id, s) := s.createLocked name
      s.setTask t (.ret id [] 0)
  | .send port payload msgType =>
    if ipcMsgMax < payload.length then s.setTask t (.ret (-emsgsize) [] 0)
    else s.setTask t (.post port ⟨t, 0, msgType, payload⟩ none)
  | .call port payload outLen =>
    if ipcMsgMax < payload.length then s.setTask t (.ret (-emsgsize) [] 0)
    else s.setTask t (.openReply port payload outLen)
  | .recv port maxLen => s.setTask t (.take port maxLen true)
  | .peek port maxLen => s.setTask t (.take port maxLen false)
  | .reply r =>
    match s.replyLocked r with
    | (n, true, s) => s.setTask t (.wake (.reply r.token) (.ret n [] 0))
    | (n, false, s) => s.setTask t (.ret n [] 0)
  | .close port =>
    let (n, s) := s.closeLocked port
    s.setTask t (.ret n [] 0)

/-- One event. A task enters a call only from outside `ipc.rs`. -/
def step (s : Sys) : Event → Sys
  | .start t op =>
    match s.tasks t with
    | .ret _ _ _ => if t < maxTasks then s.enter t op else s
    | _ => s
  | .run t page ok => if t < maxTasks then s.exec t page ok (s.tasks t) else s
  | .nudge t =>
    match s.tasks t with
    | .blocked _ next => if t < maxTasks then s.setTask t next else s
    | _ => s

/-! ### What a wake does -/

variable {w : Word} {n t : Nat} {ts : List Nat} {tasks : Nat → Pc}

theorem wakeTasks_of_not_mem (h : t ∉ ts) : wakeTasks w n ts tasks t = tasks t := by
  induction ts generalizing n tasks with
  | nil => cases n <;> rfl
  | cons t' ts ih =>
    have hne : t ≠ t' := fun ht => h (ht ▸ List.mem_cons_self)
    have hts : t ∉ ts := fun ht => h (List.mem_cons_of_mem _ ht)
    cases n with
    | zero => rfl
    | succ n =>
      cases hb : (tasks t').waiting w with
      | none => simp only [wakeTasks, hb, ih hts]
      | some next => simp only [wakeTasks, hb, ih hts, Function.update_of_ne hne]

theorem wakeTasks_cases (hnd : ts.Nodup) : wakeTasks w n ts tasks t = tasks t ∨
    ∃ next, tasks t = .blocked w next ∧ wakeTasks w n ts tasks t = next := by
  induction ts generalizing n tasks with
  | nil => cases n <;> exact .inl rfl
  | cons t' ts ih =>
    obtain ⟨hnot, hnd⟩ := List.nodup_cons.mp hnd
    cases n with
    | zero => exact .inl rfl
    | succ n =>
      cases hb : (tasks t').waiting w with
      | none =>
        simp only [wakeTasks, hb]
        exact ih hnd
      | some next =>
        simp only [wakeTasks, hb]
        by_cases ht : t = t'
        · subst ht
          refine .inr ⟨next, Pc.waiting_eq_some.mp hb, ?_⟩
          rw [wakeTasks_of_not_mem hnot, Function.update_self]
        · rw [← Function.update_of_ne ht next tasks]
          exact ih hnd

theorem futexWake_tasks (s : Sys) (w : Word) (n t : Nat) : (s.futexWake w n).tasks t = s.tasks t ∨
    ∃ next, s.tasks t = .blocked w next ∧ (s.futexWake w n).tasks t = next :=
  wakeTasks_cases List.nodup_range

end Sys

end Rynex.Ipc
