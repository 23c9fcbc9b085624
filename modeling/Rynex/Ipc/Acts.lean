import Rynex.Ipc.Model

/-! What a step does, said once for every property that follows the system: the critical section of
the task whose step it is, and where the task goes on. -/

namespace Rynex.Ipc

open Rynex.Errno Rynex.Lib

/-- The port with the message on page `p` at the end of its ring. -/
def Port.push (port : Port) (p : Nat) (msg : Msg) : Port :=
  { port with
    slots := Function.update port.slots ((port.head + port.count) % portSlots) p
    count := port.count + 1
    accepted := port.accepted ++ [msg] }

def Port.pop (port : Port) (msg : Msg) : Port :=
  { port with
    head := (port.head + 1) % portSlots
    count := port.count - 1
    dequeued := port.dequeued ++ [msg] }

def Port.opened (port : Port) (id : Nat) (name : List UInt8) : Port :=
  { port with
    used := true, id := id, name := name ++ port.name.drop name.length
    head := 0, count := 0
    accepted := [], dequeued := [] }

/-- Where a post leads: a caller waits for its reply. -/
def Pc.asked : Option Call → Pc
  | none => .ret 0 [] 0
  | some c => .await c

def Event.task : Event → Nat
  | .start t _ => t
  | .run t _ _ => t
  | .nudge t => t

def Event.runs : Event → Option Nat
  | .run t _ _ => some t
  | _ => none

/-- A task stays where it is, or a wake moves it on. -/
def Pc.Roused (pc pc' : Pc) : Prop := pc' = pc ∨ ∃ w, pc = .blocked w pc'

theorem Pc.Roused.call {pc pc' : Pc} (h : pc.Roused pc') : pc'.call = pc.call := by
  rcases h with rfl | ⟨w, rfl⟩ <;> rfl

namespace Sys

variable {s s' : Sys} {t i p : Nat}

theorem futexWake_roused (s : Sys) (w : Word) (n t : Nat) :
    (s.tasks t).Roused ((s.futexWake w n).tasks t) := by
  rcases futexWake_tasks s w n t with heq | ⟨next, hb, heq⟩
  · exact .inl heq
  · exact .inr ⟨w, by rw [heq]; exact hb⟩

def release (s : Sys) : Option Call → Sys
  | none => s
  | some c => s.replyFreeLocked c.token

theorem fail_eq (s : Sys) (t : Nat) (call : Option Call) (err : Int) :
    s.fail t call err = (s.release call).setTask t (.ret (-err) [] 0) := by
  cases call <;> rfl

theorem replyFreeLocked_eq (s : Sys) (id : Nat) : ∃ replies live,
    s.replyFreeLocked id = { s with replies := replies, live := live } ∧
    (∀ j ≠ id, replies j = s.replies j) ∧
    (id < maxReplies → (s.replies id).used = true → (replies id).used = false) := by
  unfold replyFreeLocked
  split
  · dsimp only
    split <;> refine ⟨_, _, rfl, fun j hj => Function.update_of_ne hj .., fun _ _ => ?_⟩ <;>
      simp [Function.update_self]
  next hid => exact ⟨s.replies, s.live, rfl, fun _ _ => rfl, fun hlt hused => by simp_all⟩

theorem release_eq (s : Sys) (call : Option Call) : ∃ replies live,
    s.release call = { s with replies := replies, live := live } := by
  cases call with
  | none => exact ⟨_, _, rfl⟩
  | some c =>
    obtain ⟨replies, live, heq, -⟩ := s.replyFreeLocked_eq c.token
    exact ⟨replies, live, heq⟩

theorem freeAll_eq (pages : List Nat) (s : Sys) : ∃ live freed,
    pages.foldl freeQueued s = { s with live := live, freed := freed } := by
  induction pages generalizing s with
  | nil => exact ⟨s.live, s.freed, rfl⟩
  | cons p ps ih =>
    obtain ⟨live, freed, heq⟩ := ih (s.freeQueued p)
    refine ⟨live, freed, heq.trans ?_⟩
    unfold freeQueued
    split <;> rfl

/-- The close of port `i`. -/
def closed (s : Sys) (i : Nat) : Sys :=
  ((((s.ports i).queue.foldl freeQueued s).futexWake (.recv i) maxTasks).futexWake (.send i)
    maxTasks).setPort i .empty

theorem closed_eq (s : Sys) (i : Nat) : ∃ live freed, s.closed i =
    (({ s with live := live, freed := freed }.futexWake (.recv i) maxTasks).futexWake (.send i)
      maxTasks).setPort i .empty := by
  obtain ⟨live, freed, heq⟩ := freeAll_eq (s.ports i).queue s
  exact ⟨live, freed, by rw [closed, heq]⟩

theorem futexWake_of_ne {w : Word} {n : Nat} (h : ∀ next, s.tasks t ≠ .blocked w next) :
    (s.futexWake w n).tasks t = s.tasks t := by
  rcases futexWake_tasks s w n t with heq | ⟨next, hb, -⟩
  · exact heq
  · exact absurd hb (h next)

theorem closed_of_ne {pc : Pc} (hpc : s.tasks t = pc) (h : ∀ w next, pc ≠ .blocked w next) :
    (s.closed i).tasks t = pc := by
  subst hpc
  obtain ⟨live, freed, heq⟩ := s.closed_eq i
  rw [heq]
  have hrecv : ({ s with live := live, freed := freed }.futexWake (.recv i) maxTasks).tasks t =
      s.tasks t := futexWake_of_ne (s := { s with live := live, freed := freed }) (h _)
  refine Eq.trans (futexWake_of_ne fun next hb => ?_) hrecv
  exact h _ next (hrecv.symm.trans hb)

theorem portIdxById_spec {id : Nat} (h : s.portIdxById id = some i) :
    i < maxPorts ∧ (s.ports i).used = true ∧ (s.ports i).id = id := by
  have hused := List.find?_some h
  simp only [Bool.and_eq_true, decide_eq_true_eq] at hused
  exact ⟨List.mem_range.mp (List.mem_of_find?_eq_some h), hused⟩

theorem answer_spec {page : Option Nat} (h : s.answer page = some p) : p ≠ 0 ∧ p ∉ s.live := by
  have := (Option.filter_eq_some_iff.mp h).2
  simpa using this

def replyOf (s : Sys) : Event → Option Reply
  | .start t (.reply r) =>
    match s.tasks t with
    | .ret _ _ _ => if t < maxTasks then some r else none
    | _ => none
  | _ => none

/-- Task `t`, which stands at the first place and makes the given reply, if any, goes through a
critical section that leads from `s` to the given state, and on to the second place. -/
inductive Act (s : Sys) (t : Nat) : Option Reply → Pc → Sys → Pc → Prop where
  | refuses {v : Int} {d : List UInt8} {k : Nat} (err : Int) :
      Act s t none (.ret v d k) s (.ret err [] 0)
  | asks {v : Int} {d : List UInt8} {k : Nat} (port : Nat) (msg : Msg) :
      Act s t none (.ret v d k) s (.post port msg none)
  | calls {v : Int} {d : List UInt8} {k : Nat} (port : Nat) (payload : List UInt8) (outLen : Nat) :
      Act s t none (.ret v d k) s (.openReply port payload outLen)
  | receives {v : Int} {d : List UInt8} {k : Nat} (port maxLen : Nat) (block : Bool) :
      Act s t none (.ret v d k) s (.take port maxLen block)
  | creates {v : Int} {d : List UInt8} {k i : Nat} (name : List UInt8) (hi : i < maxPorts)
      (hfree : (s.ports i).used = false) : Act s t none (.ret v d k)
        ({ s with nextPortId := s.nextPortId + 1 }.setPort i
          ((s.ports i).opened s.nextPortId name)) (.ret s.nextPortId [] 0)
  | closes {v : Int} {d : List UInt8} {k i portId : Nat} (hi : s.portIdxById portId = some i) :
      Act s t none (.ret v d k) (s.closed i) (.ret 0 [] 0)
  | ignored {v : Int} {d : List UInt8} {k : Nat} {r : Reply} (n : Int)
      (h : r.token < maxReplies → (s.replies r.token).used = true →
        (s.replies r.token).done = true) :
      Act s t (some r) (.ret v d k) { s with log := s.log ++ [r] } (.ret n [] 0)
  | fills {v : Int} {d : List UInt8} {k : Nat} {r : Reply} (hlt : r.token < maxReplies)
      (hused : (s.replies r.token).used = true) (hdone : (s.replies r.token).done = false) :
      Act s t (some r) (.ret v d k)
        ({ s with
          log := s.log ++ [r]
          data := Function.update s.data (s.replies r.token).page
            (r.bytes.take ipcMsgMax) }.setReply
            r.token { s.replies r.token with len := (r.bytes.take ipcMsgMax).length, done := true })
        (.wake (.reply r.token) (.ret (r.bytes.take ipcMsgMax).length [] 0))
  | noPage {port outLen : Nat} {payload : List UInt8} :
      Act s t none (.openReply port payload outLen) s (.ret (-enomem) [] 0)
  | noSlot {port outLen p : Nat} {payload : List UInt8} (hp : p ≠ 0 ∧ p ∉ s.live) :
      Act s t none (.openReply port payload outLen) ((s.allocReply p).freeReply p)
        (.ret (-enomem) [] 0)
  | opens {port outLen i p : Nat} {payload : List UInt8} (hp : p ≠ 0 ∧ p ∉ s.live)
      (hi : i < maxReplies) (hfree : (s.replies i).used = false) :
      Act s t none (.openReply port payload outLen)
        { (s.allocReply p).setReply i ⟨true, p, 0, false, s.calls⟩ with calls := s.calls + 1 }
        (.post port ⟨t, i, 0, payload⟩ (some ⟨s.calls, i, outLen⟩))
  | fails {port : Nat} {msg : Msg} {call : Option Call} {err : Int}
    (h : err = esrch ∨ err = enomem) :
      Act s t none (.post port msg call) (s.release call) (.ret (-err) [] 0)
  | faults {port p : Nat} {msg : Msg} {call : Option Call} (hp : p ≠ 0 ∧ p ∉ s.live) :
      Act s t none (.post port msg call) (((s.allocMsg p msg).freeMsg p).release call)
        (.ret (-efault) [] 0)
  | posts {port p i : Nat} {msg : Msg} {call : Option Call} (hp : p ≠ 0 ∧ p ∉ s.live)
      (hi : s.portIdxById port = some i) (hroom : (s.ports i).count < portSlots) :
      Act s t none (.post port msg call) ((s.allocMsg p msg).setPort i ((s.ports i).push p msg))
        (.wake (.recv i) (.asked call))
  | full {port i : Nat} {msg : Msg} {call : Option Call} (hi : s.portIdxById port = some i)
      (hfull : portSlots ≤ (s.ports i).count) :
      Act s t none (.post port msg call) s (.park (.send i) (.post port msg call))
  | sees {c : Call} (hdone : (s.replies c.token).done = true) :
      Act s t none (.await c) s (.readLen (s.replies c.token).page c)
  | waits {c : Call} (hdone : (s.replies c.token).done = false) :
      Act s t none (.await c) s (.park (.reply c.token) (.await c))
  | unslotted {c : Call} (h : ¬ (c.token < maxReplies ∧ (s.replies c.token).used = true)) :
      Act s t none (.await c) (s.replyFreeLocked c.token) (.ret (-esrch) [] 0)
  | reads {page : Nat} {c : Call} :
      Act s t none (.readLen page c) s (.finish page (s.replies c.token).len c)
  | finishes {page len : Nat} {c : Call} :
      Act s t none (.finish page len c) (s.replyFreeLocked c.token)
        (.ret len ((s.data page).take (min len c.outLen)) 0)
  | nothing {port maxLen : Nat} {block : Bool} (v : Int) :
      Act s t none (.take port maxLen block) s (.ret v [] 0)
  | empty {port maxLen i : Nat} (hi : s.portIdxById port = some i)
    (hempty : (s.ports i).count = 0) :
      Act s t none (.take port maxLen true) s (.park (.recv i) (.take port maxLen true))
  | takes {port maxLen i p : Nat} (hi : s.portIdxById port = some i)
    (hcount : (s.ports i).count ≠ 0)
      (hp : p = (s.ports i).slots (s.ports i).head) :
      Act s t none (.take port maxLen true) (s.setPort i ((s.ports i).pop (s.msgs p)))
        (.wake (.send i) (.drain p maxLen (s.msgs p)))
  | peeks {port maxLen i p : Nat} (hi : s.portIdxById port = some i)
    (hcount : (s.ports i).count ≠ 0)
      (hp : p = (s.ports i).slots (s.ports i).head) :
      Act s t none (.take port maxLen false)
        ((s.setPort i ((s.ports i).pop (s.msgs p))).futexWake (.send i) 1)
          (.drain p maxLen (s.msgs p))
  | drains {p maxLen : Nat} {m : Msg} (v : Int) (d : List UInt8) (k : Nat) :
      Act s t none (.drain p maxLen m) (s.freeMsg p) (.ret v d k)
  | wakes {w : Word} {next : Pc} : Act s t none (.wake w next) (s.futexWake w 1) next
  | blocks {w : Word} {next : Pc} (ht : t ≠ 0) : Act s t none (.park w next) s (.blocked w next)
  | stuck {w : Word} {next : Pc} (ht : t = 0) :
      Act s t none (.park w next) (s.release next.call) (.ret (-eagain) [] 0)
  | nudged {w : Word} {next : Pc} : Act s t none (.blocked w next) s next

/-- The task goes through an act that ends in `s'`. -/
def Acts (s : Sys) (t : Nat) (r : Option Reply) (pc : Pc) (s' : Sys) : Prop :=
  ∃ u pc', Act s t r pc u pc' ∧ s' = u.setTask t pc'

theorem Act.to {r : Option Reply} {pc pc' : Pc} {u : Sys} (h : Act s t r pc u pc') :
    Acts s t r pc (u.setTask t pc') := ⟨u, pc', h, rfl⟩

theorem post_acts (s : Sys) (t port : Nat) (msg : Msg) (call : Option Call) (page : Option Nat)
    (ok : Bool) : Acts s t none (.post port msg call) (s.exec t page ok (.post port msg call)) := by
  simp only [exec, postLocked]
  cases hi : s.portIdxById port with
  | none =>
    simp only [fail_eq]
    exact (Act.fails (.inl rfl)).to
  | some i =>
    by_cases hroom : (s.ports i).count < portSlots
    · cases hp : s.answer page with
      | none =>
        simp only [if_pos hroom, fail_eq]
        exact (Act.fails (.inr rfl)).to
      | some p =>
        by_cases hok : (!msg.payload.isEmpty && !ok) = true
        · simp only [if_pos hroom, if_pos hok, fail_eq]
          exact (Act.faults (answer_spec hp)).to
        · simp only [if_pos hroom, if_neg hok]
          cases call <;> exact (Act.posts (answer_spec hp) hi hroom).to
    · simp only [if_neg hroom]
      exact (Act.full hi (not_lt.mp hroom)).to

theorem take_acts (s : Sys) (t port maxLen : Nat) (block : Bool) (page : Option Nat) (ok : Bool) :
    Acts s t none (.take port maxLen block) (s.exec t page ok (.take port maxLen block)) := by
  simp only [exec, takeLocked]
  cases hi : s.portIdxById port with
  | none => exact (Act.nothing _).to
  | some i =>
    by_cases hempty : (s.ports i).count = 0
    · simp only [if_pos hempty]
      cases block with
      | true => exact (Act.empty hi hempty).to
      | false => exact (Act.nothing 0).to
    · simp only [if_neg hempty]
      cases block with
      | true => exact (Act.takes hi hempty rfl).to
      | false => exact (Act.peeks hi hempty rfl).to

theorem openReply_acts (s : Sys) (t port outLen : Nat) (payload : List UInt8) (page : Option Nat)
    (ok : Bool) : Acts s t none (.openReply port payload outLen)
      (s.exec t page ok (.openReply port payload outLen)) := by
  simp only [exec, replyAllocLocked]
  cases hp : s.answer page with
  | none => exact Act.noPage.to
  | some p =>
    dsimp only
    cases hi : (List.range' 1 (maxReplies - 1)).find? fun i =>
      !((s.allocReply p).replies i).used with
    | none => exact (Act.noSlot (answer_spec hp)).to
    | some i =>
      have hlt := List.mem_range'_1.mp (List.mem_of_find?_eq_some hi)
      have hfree : ((s.allocReply p).replies i).used = false := by simpa using List.find?_some hi
      refine (Act.opens (answer_spec hp) ?_ hfree).to
      simp only [maxReplies] at hlt ⊢
      omega

theorem exec_acts (s : Sys) (t : Nat) (page : Option Nat) (ok : Bool) (pc : Pc) :
    s.exec t page ok pc = s ∨ Acts s t none pc (s.exec t page ok pc) := by
  cases pc with
  | ret | blocked => exact .inl rfl
  | openReply => exact .inr (openReply_acts ..)
  | post => exact .inr (post_acts ..)
  | take => exact .inr (take_acts ..)
  | await c =>
    right
    simp only [exec]
    split
    next hslot =>
      split
      next hdone => exact (Act.sees hdone).to
      next hdone => exact (Act.waits (by simpa using hdone)).to
    next hslot => exact (Act.unslotted (by simpa using hslot)).to
  | readLen => exact .inr Act.reads.to
  | finish => exact .inr Act.finishes.to
  | drain =>
    right
    simp only [exec]
    split <;> exact (Act.drains ..).to
  | wake => exact .inr Act.wakes.to
  | park w next =>
    right
    simp only [exec]
    split
    next ht =>
      rw [fail_eq]
      exact (Act.stuck ht).to
    next ht => exact (Act.blocks ht).to

theorem enter_acts (s : Sys) {t : Nat} {v : Int} {d : List UInt8} {k : Nat} (ht : t < maxTasks)
    (hpc : s.tasks t = .ret v d k) (op : Op) :
    Acts s t (s.replyOf (.start t op)) (.ret v d k) (s.enter t op) := by
  cases op with
  | create name =>
    simp only [enter, createLocked]
    split
    · exact (Act.refuses _).to
    split
    · exact (Act.refuses _).to
    cases hi : (List.range maxPorts).find? fun i => !(s.ports i).used with
    | none => exact (Act.refuses _).to
    | some i =>
      exact (Act.creates name (List.mem_range.mp (List.mem_of_find?_eq_some hi))
        (by simpa using List.find?_some hi)).to
  | send port payload msgType =>
    simp only [enter]
    split
    · exact (Act.refuses _).to
    · exact (Act.asks ..).to
  | call port payload outLen =>
    simp only [enter]
    split
    · exact (Act.refuses _).to
    · exact (Act.calls ..).to
  | recv => exact (Act.receives ..).to
  | peek => exact (Act.receives ..).to
  | reply r =>
    have hreply : s.replyOf (.start t (.reply r)) = some r := by simp only [replyOf, hpc, if_pos ht]
    rw [hreply]
    simp only [enter, replyLocked]
    by_cases hid : (decide (maxReplies ≤ r.token) || !(s.replies r.token).used) = true
    · rw [if_pos hid]
      refine (Act.ignored _ fun hlt hused => ?_).to
      have hge : maxReplies ≤ r.token := by simpa [hused] using hid
      omega
    rw [if_neg hid]
    obtain ⟨hlt, hused⟩ : r.token < maxReplies ∧ (s.replies r.token).used = true := by
      simpa using hid
    by_cases hdone : (s.replies r.token).done = true
    · rw [if_pos hdone]
      exact (Act.ignored 0 fun _ _ => hdone).to
    · rw [if_neg hdone]
      exact (Act.fills hlt hused (by simpa using hdone)).to
  | close port =>
    simp only [enter, closeLocked]
    cases hi : s.portIdxById port with
    | none => exact (Act.refuses _).to
    | some i => exact (Act.closes hi).to

/-- A task that does not run is outside, or something makes it ready. -/
def Pc.Resting (pc : Pc) : Prop := (∃ v d k, pc = .ret v d k) ∨ ∃ w next, pc = .blocked w next

theorem step_acts (s : Sys) (e : Event) : s.step e = s ∧ s.replyOf e = none ∨
    e.task < maxTasks ∧ (e.runs = some e.task ∨ Pc.Resting (s.tasks e.task)) ∧
      Acts s e.task (s.replyOf e) (s.tasks e.task) (s.step e) := by
  cases e with
  | start t op =>
    simp only [step, Event.task]
    cases hpc : s.tasks t with
    | ret v d k =>
      dsimp only
      split
      next ht => exact .inr ⟨ht, .inr (.inl ⟨v, d, k, rfl⟩), enter_acts s ht hpc op⟩
      next ht => exact .inl ⟨rfl, by cases op <;> simp [replyOf, hpc, ht]⟩
    | _ => exact .inl ⟨rfl, by cases op <;> simp [replyOf, hpc]⟩
  | run t page ok =>
    simp only [step, Event.task]
    split
    next ht =>
      rcases exec_acts s t page ok (s.tasks t) with heq | hacts
      · exact .inl ⟨heq, rfl⟩
      · exact .inr ⟨ht, .inl rfl, hacts⟩
    next => exact .inl ⟨rfl, rfl⟩
  | nudge t =>
    simp only [step, Event.task]
    cases hpc : s.tasks t with
    | blocked w next =>
      dsimp only
      split
      next ht => exact .inr ⟨ht, .inr (.inr ⟨w, next, rfl⟩), Act.nudged.to⟩
      next => exact .inl ⟨rfl, rfl⟩
    | _ => exact .inl ⟨rfl, rfl⟩

end Sys

end Rynex.Ipc
