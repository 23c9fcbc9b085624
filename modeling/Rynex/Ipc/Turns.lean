import Rynex.Ipc.Queue

/-! What a step does to the reply slots: nothing, or a call gets a slot, or a reply fills one, or a
call returns and gives its slot back. -/

namespace Rynex.Ipc

open Rynex.Errno Rynex.Lib

/-- A caller that has seen the reply reads the slot's own page and length. -/
def Pc.Reads (replies : Nat → ReplySlot) : Pc → Prop
  | .readLen page c => (replies c.token).done = true ∧ page = (replies c.token).page
  | .finish page len c =>
    (replies c.token).done = true ∧ page = (replies c.token).page ∧ len = (replies c.token).len
  | .wake _ next => next.Reads replies
  | .park _ next => next.Reads replies
  | .blocked _ next => next.Reads replies
  | _ => True

theorem Pc.reads_congr {replies replies' : Nat → ReplySlot} {pc : Pc} (h : pc.Reads replies)
    (heq : ∀ c, pc.call = some c → replies' c.token = replies c.token) : pc.Reads replies' := by
  induction pc with
  | readLen page c => simpa only [Reads, heq c rfl] using h
  | finish page len c => simpa only [Reads, heq c rfl] using h
  | wake w next ih => exact ih h heq
  | park w next ih => exact ih h heq
  | blocked w next ih => exact ih h heq
  | _ => trivial

theorem Pc.reads_fill {replies : Nat → ReplySlot} {slot : ReplySlot} {i : Nat} {pc : Pc}
    (h : pc.Reads replies) (hdone : (replies i).done = false) :
    pc.Reads (Function.update replies i slot) := by
  have hne : ∀ c : Call, (replies c.token).done = true → c.token ≠ i := by
    rintro c hc rfl
    simp [hdone] at hc
  induction pc with
  | readLen page c => simpa only [Reads, Function.update_of_ne (hne c h.1)] using h
  | finish page len c => simpa only [Reads, Function.update_of_ne (hne c h.1)] using h
  | wake w next ih => exact ih h
  | park w next ih => exact ih h
  | blocked w next ih => exact ih h
  | _ => trivial

namespace Sys

variable {s s' u : Sys} {t i p : Nat} {pc pc' : Pc} {c : Call}

theorem Owned.page_live (h : Owned 0 0 s) (hi : i < maxReplies)
    (hused : (s.replies i).used = true) :
    (s.replies i).page ∈ s.live := by
  refine h.live _ (Multiset.mem_add.mpr (.inr
    (Multiset.mem_add.mpr (.inl (Table.mem_total hi ?_)))))
  simp [ReplySlot.pages, hused]

theorem Owned.page_ne {j : Nat} (h : Owned 0 0 s) (hi : i < maxReplies) (hj : j < maxReplies)
    (hne : i ≠ j) (hui : (s.replies i).used = true) (huj : (s.replies j).used = true) :
    (s.replies i).page ≠ (s.replies j).page := by
  intro heq
  have hnd : s.replyPages.Nodup := by
    refine Multiset.nodup_of_le ?_ h.nodup
    rw [add_zero]
    exact Multiset.le_add_left _ _
  have hdis := Table.disjoint_of_nodup_total hnd hi hj hne
  simp only [ReplySlot.pages, hui, huj, if_true, Multiset.disjoint_singleton,
    Multiset.mem_singleton] at hdis
  exact hdis heq.symm

theorem Owned.page_not_message (h : Owned 0 0 s) (hi : i < maxReplies)
    (hused : (s.replies i).used = true) : (s.replies i).page ∉ s.messages 0 := by
  have hmem : (s.replies i).page ∈ s.replyPages + 0 := by
    rw [add_zero]
    refine Table.mem_total hi ?_
    simp [ReplySlot.pages, hused]
  exact fun hm => Multiset.disjoint_left.mp (Multiset.nodup_add.mp h.nodup).2.2 hm hmem

/-- The slots, what stands on their pages, and the calls in progress are as they were. -/
structure Settled (s s' : Sys) : Prop where
  replies : s'.replies = s.replies
  data : ∀ i < maxReplies, (s.replies i).used = true →
    s'.data (s.replies i).page = s.data (s.replies i).page
  calls : s'.calls = s.calls
  call : ∀ t, (s'.tasks t).call = (s.tasks t).call
  reads : ∀ t, (s.tasks t).Reads s.replies → (s'.tasks t).Reads s.replies

theorem Settled.of_eq (hreplies : s'.replies = s.replies) (hdata : s'.data = s.data)
    (hcalls : s'.calls = s.calls) (htasks : s'.tasks = s.tasks) : Settled s s' where
  replies := hreplies
  data i _ _ := by rw [hdata]
  calls := hcalls
  call t := by rw [htasks]
  reads t h := by rwa [htasks]

theorem Settled.refl (s : Sys) : Settled s s := .of_eq rfl rfl rfl rfl

theorem Settled.trans (h : Settled s u) (h' : Settled u s') : Settled s s' where
  replies := h'.replies.trans h.replies
  data i hi hused := by
    have hsame := h'.data i hi (by rwa [h.replies])
    rw [h.replies] at hsame
    exact hsame.trans (h.data i hi hused)
  calls := h'.calls.trans h.calls
  call t := (h'.call t).trans (h.call t)
  reads t hr := by
    have hu := h.reads t hr
    rw [← h.replies] at hu ⊢
    exact h'.reads t hu

theorem Settled.goto (h : Settled s u) (hpc : u.tasks t = pc) (hcall : pc'.call = pc.call)
    (hreads : pc.Reads s.replies → pc'.Reads s.replies) : Settled s (u.setTask t pc') where
  replies := h.replies
  data := h.data
  calls := h.calls
  call t' := by
    rw [← h.call t']
    by_cases ht : t' = t
    · rw [ht, setTask_self, hcall, hpc]
    · rw [setTask_of_ne _ _ ht]
  reads t' hr := by
    have hu := h.reads t' hr
    by_cases ht : t' = t
    · rw [ht, hpc] at hu
      rw [ht, setTask_self]
      exact hreads hu
    · rwa [setTask_of_ne _ _ ht]

theorem Settled.futexWake (s : Sys) (w : Word) (n : Nat) : Settled s (s.futexWake w n) where
  replies := rfl
  data _ _ _ := rfl
  calls := rfl
  call t := (futexWake_roused s w n t).call
  reads t h := by
    rcases futexWake_roused s w n t with heq | ⟨w', hb⟩
    · rwa [heq]
    · rw [hb] at h
      exact h

theorem Settled.closed (s : Sys) (i : Nat) : Settled s (s.closed i) := by
  obtain ⟨live, freed, heq⟩ := s.closed_eq i
  rw [heq]
  have hfreed : Settled s { s with live := live, freed := freed } := .of_eq rfl rfl rfl rfl
  have hwake := (hfreed.trans (.futexWake _ (.recv i) maxTasks)).trans
    (.futexWake _ (.send i) maxTasks)
  exact hwake.trans (.of_eq rfl rfl rfl rfl)

/-- Why a call ends with an error: its request was not posted, or it is made by the idle task,
which cannot block. -/
def Fails (s : Sys) (t : Nat) (c : Call) (v : Int) : Prop :=
  (∃ port msg, s.tasks t = .post port msg (some c)) ∧ (v = -esrch ∨ v = -enomem ∨ v = -efault) ∨
    t = 0 ∧ v = -eagain

/-- Task `t` returns from call `c` with `v` and `bytes` in its buffer. -/
structure Returns (s s' : Sys) (t : Nat) (c : Call) (v : Int) (bytes : List UInt8) : Prop where
  lt : t < maxTasks
  call : (s.tasks t).call = some c
  ret : s'.tasks t = .ret v bytes 0
  others : ∀ t' ≠ t, s'.tasks t' = s.tasks t'
  unused : (s'.replies c.token).used = false
  replies : ∀ j ≠ c.token, s'.replies j = s.replies j
  freed : (s.replies c.token).page ∉ s'.live
  data : s'.data = s.data
  calls : s'.calls = s.calls
  value : (∃ page len, s.tasks t = .finish page len c ∧ v = len ∧
    bytes = (s.data page).take (min len c.outLen)) ∨ s.Fails t c v ∧ bytes = []

/-- What a step that makes the reply `r`, if any, does to the slots. -/
inductive Turn (s : Sys) (r : Option Reply) : Sys → Prop where
  | still {s' : Sys} (h : Settled s s')
      (hreply : ∀ r', r = some r' → r'.token < maxReplies →
        (s.replies r'.token).used = true → (s.replies r'.token).done = true) : Turn s r s'
  | opens {t i p outLen : Nat} {s' : Sys} (hr : r = none) (ht : t < maxTasks)
      (hcall : (s.tasks t).call = none) (hi : i < maxReplies) (hfree : (s.replies i).used = false)
      (hp : p ∉ s.live) (hreplies : s'.replies =
        Function.update s.replies i ⟨true, p, 0, false, s.calls⟩)
      (hdata : s'.data = Function.update s.data p []) (hcalls : s'.calls = s.calls + 1)
      (hpc : ∃ port msg, s'.tasks t = .post port msg (some ⟨s.calls, i, outLen⟩))
      (hothers : ∀ t' ≠ t, s'.tasks t' = s.tasks t') : Turn s r s'
  | fills {r' : Reply} {s' : Sys} (hr : r = some r') (hlt : r'.token < maxReplies)
      (hused : (s.replies r'.token).used = true) (hdone : (s.replies r'.token).done = false)
      (hreplies : s'.replies = Function.update s.replies r'.token
        { s.replies r'.token with len := (r'.bytes.take ipcMsgMax).length, done := true })
      (hdata : s'.data = Function.update s.data (s.replies r'.token).page (r'.bytes.take ipcMsgMax))
      (hcalls : s'.calls = s.calls) (hcall : ∀ t, (s'.tasks t).call = (s.tasks t).call)
      (hreads : ∀ t, (s.tasks t).Reads s.replies → (s'.tasks t).Reads s.replies) :
      Turn s r s'
  | returns {t : Nat} {c : Call} {v : Int} {bytes : List UInt8} {s' : Sys} (hr : r = none)
      (h : Returns s s' t c v bytes) : Turn s r s'

/-- A call that ends in a state `u` with the same slots gives its slot back. -/
theorem returns_of {v : Int} {bytes : List UInt8} (ho : Owned 0 0 u)
    (hused : (s.replies c.token).used = true) (hlt : c.token < maxReplies) (ht : t < maxTasks)
    (hcall : (s.tasks t).call = some c) (hreplies : u.replies = s.replies) (hdata : u.data = s.data)
    (hcalls : u.calls = s.calls) (htasks : u.tasks = s.tasks)
    (hvalue : (∃ page len, s.tasks t = .finish page len c ∧ v = len ∧
      bytes = (s.data page).take (min len c.outLen)) ∨ s.Fails t c v ∧ bytes = []) :
    Returns s ((u.replyFreeLocked c.token).setTask t (.ret v bytes 0)) t c v bytes := by
  rw [← hreplies] at hused
  have hne : (u.replies c.token).page ≠ 0 := fun h0 => ho.nonzero (h0 ▸ ho.page_live hlt hused)
  have hid : (decide (c.token < maxReplies) && (u.replies c.token).used) = true := by
    simp [hlt, hused]
  have heq : u.replyFreeLocked c.token = (u.freeReply (u.replies c.token).page).setReply c.token
      { u.replies c.token with page := 0, used := false } := by
    simp only [Sys.replyFreeLocked, if_pos hid, if_pos hne]
  rw [heq]
  constructor
  case lt => exact ht
  case call => exact hcall
  case ret => exact setTask_self ..
  case others =>
    intro t' ht'
    rw [setTask_of_ne _ _ ht']
    exact congrFun htasks t'
  case unused => simp [Sys.setTask, Sys.setReply]
  case replies =>
    intro j hj
    exact (Function.update_of_ne hj ..).trans (congrFun hreplies j)
  case freed =>
    rw [← hreplies]
    exact Finset.notMem_erase _ _
  case data => exact hdata
  case calls => exact hcalls
  case value => exact hvalue

theorem Act.turn {r : Option Reply} (ho : Owned 0 0 s) (ht : t < maxTasks)
    (howns : ∀ c, pc.call = some c → c.token < maxReplies ∧ (s.replies c.token).used = true)
    (hpc : s.tasks t = pc) (ha : Act s t r pc u pc') : Turn s r (u.setTask t pc') := by
  have hend {u : Sys} {call : Option Call} {v : Int} (hu : Owned 0 0 u)
      (hreplies : u.replies = s.replies) (hdata : u.data = s.data) (hcalls : u.calls = s.calls)
      (htasks : u.tasks = s.tasks) (hc : pc.call = call) (hv : ∀ c, s.Fails t c v ∨ call ≠ some c) :
      Turn s none ((u.release call).setTask t (.ret v [] 0)) := by
    cases call with
    | none =>
      have hsame : Settled s u := .of_eq hreplies hdata hcalls htasks
      exact .still (hsame.goto ((congrFun htasks t).trans hpc) hc.symm fun _ => trivial) nofun
    | some c =>
      obtain ⟨hlt, hused⟩ := howns c hc
      exact .returns rfl (returns_of hu hused hlt ht (hpc ▸ hc) hreplies hdata hcalls htasks
        (.inr ⟨(hv c).resolve_right fun h => h rfl, rfl⟩))
  have hstay (hsame : Settled s u) (htask : u.tasks t = pc) (hcall : pc'.call = pc.call)
      (hreads : pc.Reads s.replies → pc'.Reads s.replies) (hr : r = none) :
      Turn s r (u.setTask t pc') :=
    .still (hsame.goto htask hcall hreads) fun r' hr' => nomatch hr.symm.trans hr'
  cases ha with
  | refuses | asks | calls | receives | noPage | full | waits | nothing | empty =>
    exact hstay (.refl s) hpc rfl (fun _ => trivial) rfl
  | blocks | nudged => exact hstay (.refl s) hpc rfl id rfl
  | sees hdone => exact hstay (.refl s) hpc rfl (fun _ => ⟨hdone, rfl⟩) rfl
  | reads => exact hstay (.refl s) hpc rfl (fun hr => ⟨hr.1, hr.2, rfl⟩) rfl
  | creates | drains | takes => exact hstay (.of_eq rfl rfl rfl rfl) hpc rfl (fun _ => trivial) rfl
  | closes => exact hstay (.closed s _) (closed_of_ne hpc nofun) rfl (fun _ => trivial) rfl
  | @ignored _ _ _ r n h =>
    have hlog : Settled s { s with log := s.log ++ [r] } := .of_eq rfl rfl rfl rfl
    refine .still (hlog.goto hpc rfl fun _ => trivial) ?_
    rintro r' ⟨⟩
    exact h
  | @fills _ _ _ r hlt hused hdone =>
    have hmove : Settled s (s.setTask t
        (.wake (.reply r.token) (.ret (r.bytes.take ipcMsgMax).length [] 0))) :=
      (Settled.refl s).goto hpc rfl fun _ => trivial
    exact .fills rfl hlt hused hdone rfl rfl rfl hmove.call hmove.reads
  | @noSlot _ _ p _ hp =>
    -- The page was written with zeros before the slots were found to be used up.
    have halloc : Settled s ((s.allocReply p).freeReply p) :=
      { Settled.refl s with
        data := fun i hi hused => by
          have hne : (s.replies i).page ≠ p := fun heq => hp.2 (heq ▸ ho.page_live hi hused)
          exact Function.update_of_ne hne .. }
    exact hstay halloc hpc rfl (fun _ => trivial) rfl
  | opens hp hi hfree =>
    exact .opens rfl ht (by rw [hpc]; rfl) hi hfree hp.2 rfl rfl rfl ⟨_, _, setTask_self ..⟩
      fun t' ht' => setTask_of_ne _ _ ht'
  | @fails port msg call err herr =>
    refine hend ho rfl rfl rfl rfl rfl fun c => ?_
    by_cases hc : call = some c
    · exact .inl (.inl ⟨⟨port, msg, hc ▸ hpc⟩, by rcases herr with rfl | rfl <;> simp⟩)
    · exact .inr hc
  | @faults port p msg call hp =>
    refine hend (ho.allocMsg msg hp.1 hp.2).freeMsg rfl rfl rfl rfl rfl fun c => ?_
    by_cases hc : call = some c
    · exact .inl (.inl ⟨⟨port, msg, hc ▸ hpc⟩, .inr (.inr rfl)⟩)
    · exact .inr hc
  | @posts _ _ _ _ call =>
    refine hstay (.of_eq rfl rfl rfl rfl) hpc ?_ (fun _ => ?_) rfl <;> cases call <;> trivial
  | unslotted h => exact absurd (howns _ rfl) h
  | finishes =>
    obtain ⟨hlt, hused⟩ := howns _ rfl
    exact .returns rfl (returns_of ho hused hlt ht (by rw [hpc]; rfl) rfl rfl rfl rfl
      (.inl ⟨_, _, hpc, rfl, rfl⟩))
  | @peeks _ _ i p =>
    have htake : Settled s (s.setPort i ((s.ports i).pop (s.msgs p))) := .of_eq rfl rfl rfl rfl
    have hwake : (s.futexWake (.send i) 1).tasks t = s.tasks t :=
      futexWake_of_ne (by rw [hpc]; nofun)
    exact hstay (htake.trans (.futexWake _ (.send i) 1))
      (hwake.trans hpc) rfl (fun _ => trivial) rfl
  | wakes =>
    exact hstay (.futexWake s _ 1) ((futexWake_of_ne (by rw [hpc]; nofun)).trans hpc) rfl id rfl
  | stuck h0 => exact hend ho rfl rfl rfl rfl rfl fun c => .inl (.inr ⟨h0, rfl⟩)

theorem turn (ho : Owned 0 0 s) (howns : ∀ t < maxTasks, ∀ c, (s.tasks t).call = some c →
    c.token < maxReplies ∧ (s.replies c.token).used = true) (e : Event) :
    Turn s (s.replyOf e) (s.step e) := by
  rcases step_acts s e with ⟨heq, hr⟩ | ⟨ht, -, u, pc', ha, heq⟩ <;> rw [heq]
  · rw [hr]
    exact .still (.refl s) nofun
  · exact ha.turn ho ht (howns _ ht) rfl

end Sys

end Rynex.Ipc
