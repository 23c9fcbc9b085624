import Rynex.Ipc.Acts
import Rynex.Lib.Run
import Rynex.Lib.Table

/-! Mailboxes are queues: what a port hands out is what it accepted, in that order, and every
message page belongs to a ring or to the one receiver that took it out. -/

namespace Rynex.Ipc

open Rynex.Lib

/-! ### Who has a page -/

/-- The page that a receiver took off a ring and has to free. -/
def Pc.held : Pc → Multiset Nat
  | .drain p _ _ => {p}
  | .wake _ next => next.held
  | .park _ next => next.held
  | .blocked _ next => next.held
  | _ => 0

/-- The receiver's page holds the message that it took. A task that waits has no page. -/
def Pc.Intact (msgs : Nat → Msg) : Pc → Prop
  | .drain p _ m => msgs p = m
  | .wake _ next => next.Intact msgs
  | .park _ next => next.held = 0 ∧ next.Intact msgs
  | .blocked _ next => next.held = 0 ∧ next.Intact msgs
  | _ => True

def ReplySlot.pages (r : ReplySlot) : Multiset Nat := if r.used then {r.page} else 0

namespace Sys

/-- The pages in the rings. -/
def queued (s : Sys) : Multiset Nat :=
  Table.total (fun p : Port => (p.queue : Multiset Nat)) maxPorts s.ports

/-- The pages that receivers took and did not free yet. -/
def held (s : Sys) : Multiset Nat := Table.total Pc.held maxTasks s.tasks

def replyPages (s : Sys) : Multiset Nat := Table.total ReplySlot.pages maxReplies s.replies

/-- The message pages that are accounted for, with those in `X` that a step has in hand. -/
def messages (s : Sys) (X : Multiset Nat) : Multiset Nat := s.queued + s.held + X

/-- What holds between two steps. `X` are message pages and `Y` reply pages that a step has in
hand. -/
structure Owned (X Y : Multiset Nat) (s : Sys) : Prop where
  count_le : ∀ i, (s.ports i).count ≤ portSlots
  head_lt : ∀ i, (s.ports i).head < portSlots
  unused : ∀ i, (s.ports i).used = false → (s.ports i).count = 0
  fifo : ∀ i < maxPorts, (s.ports i).accepted =
    (s.ports i).dequeued ++ (s.ports i).queue.map s.msgs
  nodup : (s.messages X + (s.replyPages + Y)).Nodup
  live : ∀ p ∈ s.messages X + (s.replyPages + Y), p ∈ s.live
  nonzero : 0 ∉ s.live
  intact : ∀ t < maxTasks, (s.tasks t).Intact s.msgs
  balance : s.allocated = s.freed + (s.messages X).card

variable {s : Sys} {X X' Y Y' : Multiset Nat} {t i p : Nat} {pc : Pc}

theorem mem_queued (hi : i < maxPorts) (hp : p ∈ (s.ports i).queue) : p ∈ s.messages X :=
  Multiset.mem_add.mpr (.inl (Multiset.mem_add.mpr (.inl (Table.mem_total hi hp))))

theorem mem_held (ht : t < maxTasks) (hp : p ∈ (s.tasks t).held) : p ∈ s.messages X :=
  Multiset.mem_add.mpr (.inl (Multiset.mem_add.mpr (.inr (Table.mem_total ht hp))))

theorem intact_congr {msgs msgs' : Nat → Msg} (h : pc.Intact msgs)
    (heq : ∀ p ∈ pc.held, msgs' p = msgs p) : pc.Intact msgs' := by
  induction pc with
  | drain p maxLen m => exact (heq p (Multiset.mem_singleton_self p)).trans h
  | wake w next ih => exact ih h heq
  | park w next ih => exact ⟨h.1, ih h.2 heq⟩
  | blocked w next ih => exact ⟨h.1, ih h.2 heq⟩
  | _ => trivial

theorem Owned.setTask (h : Owned X Y s) (ht : t < maxTasks)
    (hX : X + (s.tasks t).held = X' + pc.held) (hpc : pc.Intact s.msgs) :
    Owned X' Y (s.setTask t pc) := by
  have hheld : (s.setTask t pc).held + (s.tasks t).held = s.held + pc.held := Table.total_update ht
  have hmsgs : (s.setTask t pc).messages X' = s.messages X := by
    refine add_right_cancel (b := (s.tasks t).held) ?_
    calc (s.setTask t pc).messages X' + (s.tasks t).held
        = s.queued + ((s.setTask t pc).held + (s.tasks t).held) + X' := by
          simp only [messages, queued, Sys.setTask]; abel
      _ = s.queued + s.held + (X' + pc.held) := by rw [hheld]; abel
      _ = s.messages X + (s.tasks t).held := by rw [← hX, messages]; abel
  refine { h with nodup := ?_, live := ?_, intact := fun t' ht' => ?_, balance := ?_ }
  · rw [hmsgs]; exact h.nodup
  · rw [hmsgs]; exact h.live
  · by_cases heq : t' = t
    · rw [heq, setTask_self]
      exact hpc
    · rw [setTask_of_ne s pc heq]
      exact h.intact t' ht'
  · rw [hmsgs]; exact h.balance

theorem futexWake_held (w : Word) (n : Nat) :
    ((s.futexWake w n).tasks t).held = (s.tasks t).held := by
  rcases futexWake_tasks s w n t with heq | ⟨next, hb, heq⟩
  · rw [heq]
  · rw [heq, hb]; rfl

theorem Owned.futexWake (h : Owned X Y s) (w : Word) (n : Nat) :
    Owned X Y (s.futexWake w n) := by
  have hsame : ∀ t, ((s.futexWake w n).tasks t).held = (s.tasks t).held ∧
      ((s.tasks t).Intact s.msgs → ((s.futexWake w n).tasks t).Intact s.msgs) := by
    intro t
    refine ⟨futexWake_held w n, fun hi => ?_⟩
    rcases futexWake_tasks s w n t with heq | ⟨next, hb, heq⟩
    · rwa [heq]
    · rw [hb] at hi
      rw [heq]
      exact hi.2
  have hheld : (s.futexWake w n).held = s.held := Table.total_congr fun t _ => (hsame t).1
  have hmsgs : (s.futexWake w n).messages X = s.messages X := by
    rw [messages, messages, hheld]; rfl
  refine { h with nodup := ?_, live := ?_, intact := fun t ht => ?_, balance := ?_ }
  · rw [hmsgs]; exact h.nodup
  · rw [hmsgs]; exact h.live
  · exact (hsame t).2 (h.intact t ht)
  · rw [hmsgs]; exact h.balance

/-! ### Message pages -/

theorem Owned.fresh (h : Owned X Y s) (hp : p ∉ s.live) : p ∉ s.messages X + (s.replyPages + Y) :=
  fun hm => hp (h.live p hm)

theorem Owned.allocMsg (h : Owned X Y s) (msg : Msg) (hp0 : p ≠ 0) (hp : p ∉ s.live) :
    Owned (p ::ₘ X) Y (s.allocMsg p msg) := by
  have hfresh := h.fresh hp
  have hne : ∀ q, q ∈ s.messages X → q ≠ p := fun q hq hqp =>
    hfresh (Multiset.mem_add.mpr (.inl (hqp ▸ hq)))
  have hmsgs : (s.allocMsg p msg).messages (p ::ₘ X) = p ::ₘ s.messages X := by
    simp only [messages, Multiset.add_cons]; rfl
  constructor
  case count_le => exact h.count_le
  case head_lt => exact h.head_lt
  case unused => exact h.unused
  case fifo =>
    intro i hi
    refine (h.fifo i hi).trans ?_
    congr 1
    refine List.map_congr_left fun q hq => ?_
    exact (Function.update_of_ne (hne q (mem_queued hi hq)) _ _).symm
  case nodup =>
    rw [hmsgs, Multiset.cons_add]
    exact Multiset.nodup_cons.mpr ⟨hfresh, h.nodup⟩
  case live =>
    intro q hq
    rw [hmsgs, Multiset.cons_add, Multiset.mem_cons] at hq
    rcases hq with rfl | hq
    · exact Finset.mem_insert_self _ _
    · exact Finset.mem_insert_of_mem (h.live q hq)
  case nonzero =>
    simp only [Sys.allocMsg, Finset.mem_insert, not_or]
    exact ⟨hp0.symm, h.nonzero⟩
  case intact =>
    intro t ht
    refine intact_congr (h.intact t ht) fun q hq => ?_
    exact Function.update_of_ne (hne q (mem_held ht hq)) _ _
  case balance =>
    rw [hmsgs, Multiset.card_cons]
    have := h.balance
    simp only [Sys.allocMsg]
    omega

theorem Owned.freeMsg (h : Owned (p ::ₘ X) Y s) : Owned X Y (s.freeMsg p) := by
  have hmsgs : s.messages (p ::ₘ X) = p ::ₘ (s.freeMsg p).messages X := by
    simp only [messages, Multiset.add_cons]; rfl
  have hnd := h.nodup
  rw [hmsgs, Multiset.cons_add] at hnd
  obtain ⟨hout, hnd⟩ := Multiset.nodup_cons.mp hnd
  refine { h with nodup := hnd, live := fun q hq => ?_, nonzero := ?_, balance := ?_ }
  · have hqp : q ≠ p := fun hqp => hout (hqp ▸ hq)
    refine Finset.mem_erase.mpr ⟨hqp, h.live q ?_⟩
    rw [hmsgs, Multiset.cons_add]
    exact Multiset.mem_cons_of_mem hq
  · exact fun h0 => h.nonzero (Finset.mem_of_mem_erase h0)
  · have hb := h.balance
    rw [hmsgs, Multiset.card_cons] at hb
    simp only [Sys.freeMsg] at hb ⊢
    omega

/-! ### The rings -/

/-- Another port in place of port `i`, with the pages in hand that it took up or put down. -/
theorem Owned.setPort {port : Port} (h : Owned X Y s) (hi : i < maxPorts)
    (hX : X + ((s.ports i).queue : Multiset Nat) = X' + (port.queue : Multiset Nat))
    (hcount : port.count ≤ portSlots) (hhead : port.head < portSlots)
    (hunused : port.used = false → port.count = 0)
    (hfifo : port.accepted = port.dequeued ++ port.queue.map s.msgs) :
    Owned X' Y (s.setPort i port) := by
  have hqueued : (s.setPort i port).queued + ((s.ports i).queue : Multiset Nat) =
      s.queued + (port.queue : Multiset Nat) := Table.total_update hi
  have hmsgs : (s.setPort i port).messages X' = s.messages X := by
    refine add_right_cancel (b := ((s.ports i).queue : Multiset Nat)) ?_
    calc (s.setPort i port).messages X' + ((s.ports i).queue : Multiset Nat)
        = ((s.setPort i port).queued + ((s.ports i).queue : Multiset Nat)) + s.held + X' := by
          simp only [messages, held, Sys.setPort]; abel
      _ = s.queued + s.held + (X' + (port.queue : Multiset Nat)) := by rw [hqueued]; abel
      _ = s.messages X + ((s.ports i).queue : Multiset Nat) := by rw [← hX, messages]; abel
  have hport : ∀ {P : Port → Prop} (j : Nat), P port → P (s.ports j) →
    P ((s.setPort i port).ports j) := by
    intro P j hnew hold
    by_cases hj : j = i
    · rw [hj]; simpa [Sys.setPort] using hnew
    · simpa [Sys.setPort, Function.update_of_ne hj] using hold
  constructor
  case count_le => exact fun j => hport (P := fun p => p.count ≤ portSlots) j hcount (h.count_le j)
  case head_lt => exact fun j => hport (P := fun p => p.head < portSlots) j hhead (h.head_lt j)
  case unused =>
    exact fun j => hport (P := fun p => p.used = false → p.count = 0) j hunused (h.unused j)
  case fifo =>
    exact fun j hj => hport (P := fun p => p.accepted = p.dequeued ++ p.queue.map s.msgs) j hfifo
      (h.fifo j hj)
  case nodup => rw [hmsgs]; exact h.nodup
  case live => rw [hmsgs]; exact h.live
  case nonzero => exact h.nonzero
  case intact => exact h.intact
  case balance => rw [hmsgs]; exact h.balance

theorem Owned.push {msg : Msg} (h : Owned (p ::ₘ X) Y s) (hi : i < maxPorts)
    (hused : (s.ports i).used = true) (hroom : (s.ports i).count < portSlots)
    (hmsg : s.msgs p = msg) :
    Owned X Y (s.setPort i ((s.ports i).push p msg)) := by
  have hqueue : ((s.ports i).push p msg).queue = (s.ports i).queue ++ [p] :=
    Ring.window_push p hroom
  refine h.setPort hi ?_ hroom (h.head_lt i) (by simp [Port.push, hused]) ?_
  · rw [hqueue, ← Multiset.coe_add, Multiset.coe_singleton, ← Multiset.singleton_add]
    abel
  · rw [hqueue, List.map_append, ← List.append_assoc]
    simp only [Port.push, h.fifo i hi, List.map_cons, List.map_nil, hmsg]

theorem Owned.pop (h : Owned X Y s) (hi : i < maxPorts) (hused : (s.ports i).used = true)
    (hcount : (s.ports i).count ≠ 0) (hp : p = (s.ports i).slots (s.ports i).head) :
    Owned (p ::ₘ X) Y (s.setPort i ((s.ports i).pop (s.msgs p))) := by
  have hqueue : (s.ports i).queue = p :: ((s.ports i).pop (s.msgs p)).queue := by
    change _ = p :: Ring.window (s.ports i).slots portSlots (((s.ports i).head + 1) % portSlots)
      ((s.ports i).count - 1)
    rw [Port.queue, Ring.window_mod_start, ← Nat.succ_pred_eq_of_ne_zero hcount, Ring.window_succ,
      Nat.mod_eq_of_lt (h.head_lt i), hp]
    rfl
  have hle := h.count_le i
  refine h.setPort hi ?_ (by simp only [Port.pop]; omega) (Nat.mod_lt _ (by decide))
    (by simp [Port.pop, hused]) ?_
  · rw [hqueue, ← Multiset.cons_coe, Multiset.add_cons, Multiset.cons_add]
  · rw [Port.pop, List.append_assoc, h.fifo i hi, hqueue]
    rfl

/-! ### Reply pages -/

theorem Owned.setReply {slot : ReplySlot} (h : Owned X Y s) (hi : i < maxReplies)
    (hY : Y + (s.replies i).pages = Y' + slot.pages) : Owned X Y' (s.setReply i slot) := by
  have htotal : (s.setReply i slot).replyPages + (s.replies i).pages =
      s.replyPages + slot.pages := Table.total_update hi
  have hpages : (s.setReply i slot).replyPages + Y' = s.replyPages + Y := by
    refine add_right_cancel (b := (s.replies i).pages) ?_
    calc (s.setReply i slot).replyPages + Y' + (s.replies i).pages
        = (s.setReply i slot).replyPages + (s.replies i).pages + Y' := by abel
      _ = s.replyPages + (Y' + slot.pages) := by rw [htotal]; abel
      _ = s.replyPages + Y + (s.replies i).pages := by rw [← hY]; abel
  refine { h with nodup := ?_, live := ?_ }
  · rw [hpages]; exact h.nodup
  · rw [hpages]; exact h.live

theorem Owned.allocReply (h : Owned X Y s) (hp0 : p ≠ 0) (hp : p ∉ s.live) :
    Owned X (p ::ₘ Y) (s.allocReply p) := by
  have hpages : (s.allocReply p).messages X + ((s.allocReply p).replyPages + p ::ₘ Y) =
      p ::ₘ (s.messages X + (s.replyPages + Y)) := by
    simp only [Multiset.add_cons]; rfl
  refine { h with nodup := ?_, live := fun q hq => ?_, nonzero := ?_ }
  · rw [hpages]
    exact Multiset.nodup_cons.mpr ⟨h.fresh hp, h.nodup⟩
  · rw [hpages, Multiset.mem_cons] at hq
    rcases hq with rfl | hq
    · exact Finset.mem_insert_self _ _
    · exact Finset.mem_insert_of_mem (h.live q hq)
  · simp only [Sys.allocReply, Finset.mem_insert, not_or]
    exact ⟨hp0.symm, h.nonzero⟩

theorem Owned.freeReply (h : Owned X (p ::ₘ Y) s) : Owned X Y (s.freeReply p) := by
  have hpages : s.messages X + (s.replyPages + p ::ₘ Y) =
      p ::ₘ ((s.freeReply p).messages X + ((s.freeReply p).replyPages + Y)) := by
    simp only [Multiset.add_cons]; rfl
  have hnd := h.nodup
  rw [hpages] at hnd
  obtain ⟨hout, hnd⟩ := Multiset.nodup_cons.mp hnd
  refine { h with nodup := hnd, live := fun q hq => ?_, nonzero := ?_ }
  · have hqp : q ≠ p := fun hqp => hout (hqp ▸ hq)
    refine Finset.mem_erase.mpr ⟨hqp, h.live q ?_⟩
    rw [hpages]
    exact Multiset.mem_cons_of_mem hq
  · exact fun h0 => h.nonzero (Finset.mem_of_mem_erase h0)

theorem Owned.replyFreeLocked (h : Owned X Y s) (id : Nat) : Owned X Y (s.replyFreeLocked id) := by
  unfold Sys.replyFreeLocked
  split
  · next hid =>
    obtain ⟨hlt, hused⟩ : id < maxReplies ∧ (s.replies id).used = true := by simpa using hid
    have hpages : (s.replies id).pages = {(s.replies id).page} := by simp [ReplySlot.pages, hused]
    have hmem : (s.replies id).page ∈ s.messages X + (s.replyPages + Y) :=
      Multiset.mem_add.mpr (.inr (Multiset.mem_add.mpr (.inl
        (Table.mem_total hlt (by rw [hpages]; exact Multiset.mem_singleton_self _)))))
    have hne : (s.replies id).page ≠ 0 := fun h0 => h.nonzero (h0 ▸ h.live _ hmem)
    simp only [ne_eq, hne, not_false_eq_true, if_true]
    -- the slot lets go of its page, which is then freed
    have hslot : Owned X ((s.replies id).page ::ₘ Y)
        (s.setReply id { s.replies id with page := 0, used := false }) := by
      refine h.setReply hlt ?_
      rw [hpages, ← Multiset.singleton_add]
      simp [ReplySlot.pages, add_comm]
    exact hslot.freeReply
  · exact h

theorem Owned.release (h : Owned X Y s) (call : Option Call) : Owned X Y (s.release call) := by
  cases call with
  | none => exact h
  | some c => exact h.replyFreeLocked c.token

/-! ### Creating and closing -/

theorem queue_of_count_eq_zero {port : Port} (h : port.count = 0) : port.queue = [] := by
  rw [Port.queue, h]; rfl

theorem Owned.freeAll {pages : List Nat} (h : Owned ((pages : Multiset Nat) + X) Y s) :
    Owned X Y (pages.foldl freeQueued s) := by
  induction pages generalizing s with
  | nil => simpa using h
  | cons p ps ih =>
    rw [← Multiset.cons_coe, Multiset.cons_add] at h
    have hp : p ≠ 0 := by
      rintro rfl
      refine h.nonzero (h.live 0 (Multiset.mem_add.mpr (.inl ?_)))
      exact Multiset.mem_add.mpr (.inr (Multiset.mem_cons_self _ _))
    rw [List.foldl_cons, freeQueued, if_pos hp]
    exact ih h.freeMsg

theorem Owned.closed (h : Owned X Y s) (hi : i < maxPorts) : Owned X Y (s.closed i) := by
  -- emptying the port first and freeing its pages afterwards comes to the same
  let clear : Sys → Sys := fun s =>
    ((s.futexWake (.recv i) maxTasks).futexWake (.send i) maxTasks).setPort i .empty
  have hcomm : (s.ports i).queue.foldl freeQueued (clear s) =
      clear ((s.ports i).queue.foldl freeQueued s) :=
    List.foldl_hom clear fun s p => by
      unfold freeQueued
      split <;> rfl
  have hwake := (h.futexWake (.recv i) maxTasks).futexWake (.send i) maxTasks
  have hclear : Owned (((s.ports i).queue : Multiset Nat) + X) Y (clear s) := by
    refine hwake.setPort hi ?_ (Nat.zero_le _) (by decide) (fun _ => rfl) ?_
    · rw [queue_of_count_eq_zero (show Port.empty.count = 0 from rfl), Multiset.coe_nil, add_zero,
        add_comm]
      rfl
    · rw [queue_of_count_eq_zero rfl]; rfl
  have hfreed := hclear.freeAll
  rw [hcomm] at hfreed
  exact hfreed

/-! ### Steps and runs -/

theorem Owned.goto {pc' : Pc} (h : Owned 0 0 s) (ht : t < maxTasks) (hpc : s.tasks t = pc)
    (hheld : pc.held = pc'.held) (hintact : pc'.Intact s.msgs) : Owned 0 0 (s.setTask t pc') :=
  h.setTask ht (by rw [hpc, hheld]) hintact

theorem Owned.act {r : Option Reply} {u : Sys} {pc' : Pc} (h : Owned 0 0 s) (ht : t < maxTasks)
    (hpc : s.tasks t = pc) (ha : Act s t r pc u pc') : Owned 0 0 (u.setTask t pc') := by
  have hintact := h.intact t ht
  rw [hpc] at hintact
  have hend {u : Sys} (call : Option Call) (hu : Owned 0 0 u) (htasks : u.tasks = s.tasks)
      (hheld : pc.held = 0) (v : Int) (d : List UInt8) (k : Nat) :
      Owned 0 0 ((u.release call).setTask t (.ret v d k)) := by
    refine (hu.release call).goto ht ?_ hheld trivial
    obtain ⟨replies, live, heq⟩ := u.release_eq call
    rw [heq]
    exact (congrFun htasks t).trans hpc
  cases ha with
  | refuses | asks | calls | receives | noPage | sees | reads | nothing =>
    exact h.goto ht hpc rfl trivial
  | full | waits | empty => exact h.goto ht hpc rfl ⟨rfl, trivial⟩
  | creates name hi hfree =>
    have hid : Owned 0 0 { s with nextPortId := s.nextPortId + 1 } := { h with }
    refine (hid.setPort hi ?_ (Nat.zero_le _) (show 0 < portSlots by decide) (fun _ => rfl)
      ?_).goto ht hpc rfl trivial
    · simp only [queue_of_count_eq_zero (h.unused _ hfree)]
      rfl
    · rw [queue_of_count_eq_zero rfl]; rfl
  | closes hi =>
    exact (h.closed (portIdxById_spec hi).1).goto ht (closed_of_ne hpc nofun) rfl trivial
  | @ignored _ _ _ r =>
    have hlog : Owned 0 0 { s with log := s.log ++ [r] } := { h with }
    exact hlog.goto ht hpc rfl trivial
  | @fills _ _ _ r hlt =>
    have hdata : Owned 0 0 { s with
        log := s.log ++ [r]
        data := Function.update s.data (s.replies r.token).page (r.bytes.take ipcMsgMax) } :=
      { h with }
    refine Owned.goto (hdata.setReply hlt ?_) ht hpc rfl trivial
    rfl
  | noSlot hp => exact (h.allocReply hp.1 hp.2).freeReply.goto ht hpc rfl trivial
  | @opens _ _ i p _ hp hi hfree =>
    have hslot : Owned 0 0 ((s.allocReply p).setReply i ⟨true, p, 0, false, s.calls⟩) := by
      refine (h.allocReply hp.1 hp.2).setReply hi ?_
      simp [ReplySlot.pages, Sys.allocReply, hfree, ← Multiset.singleton_add]
    have hcalls : Owned 0 0 { (s.allocReply p).setReply i ⟨true, p, 0, false, s.calls⟩ with
      calls := s.calls + 1 } := { hslot with }
    exact hcalls.goto ht hpc rfl trivial
  | fails => exact hend _ h rfl rfl _ _ _
  | faults hp => exact hend _ (h.allocMsg _ hp.1 hp.2).freeMsg rfl rfl _ _ _
  | @posts _ p i msg call hp hi hroom =>
    obtain ⟨hlt, hused, -⟩ := portIdxById_spec hi
    have hpush : Owned 0 0 ((s.allocMsg p msg).setPort i ((s.ports i).push p msg)) :=
      (h.allocMsg msg hp.1 hp.2).push hlt hused hroom (Function.update_self ..)
    refine hpush.goto ht hpc ?_ ?_ <;> cases call <;> trivial
  | unslotted | finishes => exact hend (some _) h rfl rfl _ _ _
  | takes hi hcount hp =>
    obtain ⟨hlt, hused, -⟩ := portIdxById_spec hi
    refine (h.pop hlt hused hcount hp).setTask ht ?_ rfl
    change _ + (s.tasks t).held = _
    simp [hpc, Pc.held]
  | peeks hi hcount hp =>
    obtain ⟨hlt, hused, -⟩ := portIdxById_spec hi
    refine ((h.pop hlt hused hcount hp).futexWake _ 1).setTask ht ?_ rfl
    rw [futexWake_held]
    change _ + (s.tasks t).held = _
    simp [hpc, Pc.held]
  | @drains p _ _ v d k =>
    -- the page goes from the task into the hand and is freed from there
    have hhand : Owned (p ::ₘ 0) 0 (s.setTask t (.ret 0 [] 0)) :=
      h.setTask ht (by rw [hpc]; rfl) trivial
    have hret : Owned 0 0 (((s.setTask t (.ret 0 [] 0)).freeMsg p).setTask t (.ret v d k)) :=
      hhand.freeMsg.goto ht (setTask_self s t _) rfl trivial
    simpa [Sys.freeMsg, Sys.setTask] using hret
  | wakes =>
    exact (h.futexWake _ 1).goto ht ((futexWake_of_ne (by rw [hpc]; nofun)).trans hpc) rfl hintact
  | blocks => exact h.goto ht hpc rfl hintact
  | stuck => exact hend _ h rfl hintact.1 _ _ _
  | nudged => exact h.goto ht hpc rfl hintact.2

theorem Owned.step (e : Event) (h : Owned 0 0 s) : Owned 0 0 (s.step e) := by
  rcases step_acts s e with ⟨heq, -⟩ | ⟨ht, -, u, pc', ha, heq⟩ <;> rw [heq]
  · exact h
  · exact h.act ht rfl ha

theorem messages_init : init.messages 0 = 0 := by
  have hqueued : init.queued = 0 := Table.total_eq_zero fun _ _ => rfl
  have hheld : init.held = 0 := Table.total_eq_zero fun _ _ => rfl
  rw [messages, hqueued, hheld]
  rfl

theorem replyPages_init : init.replyPages = 0 := Table.total_eq_zero fun _ _ => rfl

theorem owned_init : Owned 0 0 init where
  count_le _ := Nat.zero_le _
  head_lt _ := show 0 < portSlots by decide
  unused _ _ := rfl
  fifo _ _ := rfl
  nodup := by simp [messages_init, replyPages_init]
  live := by simp [messages_init, replyPages_init]
  nonzero := Finset.notMem_empty 0
  intact _ _ := trivial
  balance := by rw [messages_init]; rfl

theorem owned_run (es : List Event) : Owned 0 0 (es.foldl Sys.step init) :=
  List.foldlRecOn es Sys.step owned_init fun _ h e _ => h.step e

theorem card_queued : s.queued.card = ∑ i ∈ Finset.range maxPorts, (s.ports i).count := by
  simp only [queued, Table.total, Multiset.card_sum, Multiset.coe_card, Port.queue,
    Ring.length_window]

theorem card_held_le (pc : Pc) : pc.held.card ≤ 1 := by
  induction pc with
  | drain p maxLen m => exact (Multiset.card_singleton p).le
  | wake w next ih => exact ih
  | park w next ih => exact ih
  | blocked w next ih => exact ih
  | _ => exact Nat.zero_le 1

/-- The tasks that took a message off a ring and did not free its page yet. -/
def receivers (s : Sys) : Finset Nat :=
  (Finset.range maxTasks).filter fun t => (s.tasks t).held ≠ 0

theorem card_held : s.held.card = s.receivers.card := by
  rw [held, Table.total, Multiset.card_sum, receivers, Finset.card_filter]
  refine Finset.sum_congr rfl fun t _ => ?_
  have hle := card_held_le (s.tasks t)
  split
  next hne => exact le_antisymm hle (Multiset.card_pos.mpr hne)
  next heq => rw [not_not.mp heq]; rfl

end Sys

/-- Over every run, a port hands its messages out in the order in which it accepted them, each of
them once, and what it did not hand out is in its ring, which is never overfull. A receiver gets
the message that it took, and every message page that is not freed is in a ring or with the
receiver that took it. -/
theorem mailbox_fifo (es : List Event) :
    let s := es.foldl Sys.step Sys.init
    (∀ i < maxPorts, (s.ports i).accepted =
        (s.ports i).dequeued ++ (s.ports i).queue.map s.msgs ∧
      (s.ports i).queue.length = (s.ports i).count ∧ (s.ports i).count ≤ portSlots) ∧
    (∀ t < maxTasks, ∀ p maxLen msg, s.tasks t = .drain p maxLen msg → ∀ page,
      (s.exec t page true (s.tasks t)).tasks t =
        .ret msg.payload.length (msg.payload.take maxLen) msg.replyId) ∧
    s.allocated = s.freed + (∑ i ∈ Finset.range maxPorts, (s.ports i).count) +
      s.receivers.card := by
  intro s
  have h : s.Owned 0 0 := Sys.owned_run es
  refine ⟨fun i hi => ⟨h.fifo i hi, Ring.length_window .., h.count_le i⟩, ?_, ?_⟩
  · intro t ht p maxLen msg hpc page
    have hmsg := h.intact t ht
    rw [hpc] at hmsg ⊢
    replace hmsg : s.msgs p = msg := hmsg
    simp [Sys.exec, hmsg, Sys.setTask, min_comm]
  · have hb := h.balance
    rw [Sys.messages, add_zero, Multiset.card_add, Sys.card_queued, Sys.card_held] at hb
    omega

/-- A message is sent and taken off the ring, and the receiver has not freed its page yet. -/
theorem mailbox_fifo_receiver_holds_page : ∃ es : List Event,
    let s := es.foldl Sys.step Sys.init
    s.allocated - s.freed = 1 ∧ ∀ i < maxPorts, (s.ports i).count = 0 := by
  refine ⟨[.start 1 (.create [65]), .start 1 (.send 1 [7] 0), .run 1 (some 4096) true,
    .start 2 (.recv 1 8), .run 2 none true], ?_⟩
  decide

end Rynex.Ipc
