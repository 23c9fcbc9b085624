import Rynex.Ipc.Slots

/-! Replies: whose answer an `ipc_call` returns. A reply names the slot by its index alone, so
that it reaches whichever call has the slot when it is made. -/

namespace Rynex.Ipc

open Rynex.Lib

namespace Sys

variable {s : Sys}

/-- A reply that fills a slot is made in answer to the call that has the slot. -/
def InAnswer (s : Sys) : Event → Prop
  | .start _ (.reply r) => r.token < maxReplies → (s.replies r.token).used = true →
      (s.replies r.token).done = false → r.meant = some (s.replies r.token).call
  | _ => True

instance (s : Sys) : (e : Event) → Decidable (s.InAnswer e)
  | .start _ (.reply _) => inferInstanceAs (Decidable (_ → _ → _ → _))
  | .start _ (.create _) => .isTrue trivial
  | .start _ (.send _ _ _) => .isTrue trivial
  | .start _ (.call _ _ _) => .isTrue trivial
  | .start _ (.recv _ _) => .isTrue trivial
  | .start _ (.peek _ _) => .isTrue trivial
  | .start _ (.close _) => .isTrue trivial
  | .run _ _ _ => .isTrue trivial
  | .nudge _ => .isTrue trivial

theorem Act.log {t : Nat} {r : Option Reply} {pc pc' : Pc} {u : Sys} (ha : Act s t r pc u pc') :
    u.log = s.log ++ r.toList := by
  have hfree {u : Sys} (call : Option Call) (hu : u.log = s.log) :
      (u.release call).log = s.log ++ [] := by
    obtain ⟨replies, live, heq⟩ := u.release_eq call
    rw [heq, List.append_nil]
    exact hu
  cases ha with
  | ignored | fills => rfl
  | fails | faults | stuck => exact hfree _ rfl
  | unslotted | finishes => exact hfree (some _) rfl
  | closes =>
    obtain ⟨live, freed, heq⟩ := s.closed_eq _
    rw [heq]
    exact (List.append_nil _).symm
  | _ => exact (List.append_nil _).symm

theorem log_step (s : Sys) (e : Event) : (s.step e).log = s.log ++ (s.replyOf e).toList := by
  rcases step_acts s e with ⟨heq, hr⟩ | ⟨-, -, u, pc', ha, heq⟩ <;> rw [heq]
  · rw [hr]
    exact (List.append_nil _).symm
  · exact ha.log

theorem replyOf_eq_some {e : Event} {r : Reply} (h : s.replyOf e = some r) :
    ∃ t, e = .start t (.reply r) := by
  unfold replyOf at h
  split at h
  next t r' =>
    split at h
    · split at h
      · cases h
        exact ⟨t, rfl⟩
      · cases h
    · cases h
  · cases h

end Sys

namespace Answering

variable {a : Answering} {e : Event}

/-- The first reply that the slot of a call accepted was made in answer to the call. -/
def Meant (a : Answering) : Prop :=
  ∀ n r rest, a.replied n = r :: rest → r ∈ a.sys.log ∧ r.meant = some n

theorem Sound.meant_step (h : Sound a) (hm : Meant a) (hok : a.sys.InAnswer e) :
    Meant (a.step e) := by
  have hlog : (a.step e).sys.log = a.sys.log ++ (a.sys.replyOf e).toList := a.sys.log_step e
  have hold {n : Nat} {r : Reply} {rest : List Reply} (hlist : a.replied n = r :: rest) :
      r ∈ (a.step e).sys.log ∧ r.meant = some n := by
    obtain ⟨hmem, hmeant⟩ := hm n r rest hlist
    exact ⟨hlog ▸ List.mem_append_left _ hmem, hmeant⟩
  intro n r rest hlist
  rcases replied_cases a e with heq | ⟨r', hr, hlt, hused, heq⟩
  · exact hold (by rwa [heq] at hlist)
  · by_cases hn : n = (a.sys.replies r'.token).call
    · subst hn
      rw [heq, Function.update_self] at hlist
      cases hfirst : a.replied (a.sys.replies r'.token).call with
      | cons r₀ rest₀ =>
        rw [hfirst, List.cons_append, List.cons.injEq] at hlist
        exact hlist.1 ▸ hold hfirst
      | nil =>
        -- The slot has accepted nothing so far, so this reply fills it.
        rw [hfirst, List.nil_append, List.cons.injEq] at hlist
        obtain ⟨t, rfl⟩ := Sys.replyOf_eq_some hr
        have hdone : (a.sys.replies r'.token).done = false := by
          by_contra hdone
          obtain ⟨r₁, rest₁, hsome, -⟩ := (h.decided _ hlt hused).answered (by simpa using hdone)
          rw [hfirst] at hsome
          cases hsome
        refine hlist.1 ▸ ⟨?_, hok hlt hused hdone⟩
        rw [hlog, hr]
        exact List.mem_append_right _ (List.mem_singleton_self r')
    · exact hold (by rwa [heq, Function.update_of_ne hn] at hlist)

theorem meant_run {es : List Event} (h : Sound a ∧ Meant a)
    (hes : Steps Sys.step Sys.InAnswer a.sys es) :
    Sound (es.foldl step a) ∧ Meant (es.foldl step a) := by
  induction es generalizing a with
  | nil => exact h
  | cons e es ih => exact ih ⟨h.1.step e, h.1.meant_step h.2 hes.1⟩ hes.2

theorem foldl_sys (es : List Event) (a : Answering) :
    (es.foldl step a).sys = es.foldl Sys.step a.sys :=
  (List.foldl_hom Answering.sys fun _ _ => rfl).symm

end Answering

/-- Over every run in which the replies that fill a slot are made in answer to the call that has
the slot, what an `ipc_call` returns is the beginning of a reply made in answer to this call. -/
theorem call_returns_own_reply {es : List Event} (hes : Steps Sys.step Sys.InAnswer Sys.init es) :
    let s := es.foldl Sys.step Sys.init
    ∀ t < maxTasks, ∀ page len c, s.tasks t = .finish page len c →
      ∃ r ∈ s.log, r.meant = some c.number ∧ ∀ answer ok,
        (s.exec t answer ok (s.tasks t)).tasks t =
          .ret (r.bytes.take ipcMsgMax).length ((r.bytes.take ipcMsgMax).take c.outLen) 0 := by
  intro s t ht page len c hpc
  obtain ⟨h, hm⟩ := Answering.meant_run ⟨Answering.sound_init, nofun⟩ hes
  have hsys : (es.foldl Answering.step .init).sys = s := Answering.foldl_sys es .init
  obtain ⟨r, rest, hlist, hlen, hdata⟩ := h.finish ht (hsys ▸ hpc)
  obtain ⟨hmem, hmeant⟩ := hm _ _ _ hlist
  rw [hsys] at hmem hdata
  refine ⟨r, hmem, hmeant, fun answer ok => ?_⟩
  rw [hpc]
  simp only [Sys.exec, Sys.setTask_self, hlen, hdata, List.length_take, min_comm]
  congr 1
  rw [List.take_eq_take_iff, List.length_take]
  omega

/-- Task 2 calls port 1 and gets slot 1, task 1 replies, and the caller is about to return. -/
def answeredCall : List Event :=
  [.start 1 (.create [65]), .start 2 (.call 1 [7] 8), .run 2 (some 4096) true,
    .run 2 (some 8192) true, .run 2 none true, .start 1 (.reply ⟨1, some 0, [5]⟩), .run 1 none true,
    .run 2 none true, .run 2 none true]

theorem call_returns_own_reply_answeredCall : ∃ page len,
    (answeredCall.foldl Sys.step Sys.init).tasks 2 = .finish page len ⟨0, 1, 8⟩ ∧
    ∃ r ∈ (answeredCall.foldl Sys.step Sys.init).log, r.meant = some 0 := by
  have hpc : (answeredCall.foldl Sys.step Sys.init).tasks 2 = .finish 4096 1 ⟨0, 1, 8⟩ := by
    decide
  obtain ⟨r, hr, hmeant, -⟩ := call_returns_own_reply
    (show Steps Sys.step Sys.InAnswer Sys.init answeredCall by decide) 2 (by decide) 4096 1
    ⟨0, 1, 8⟩ hpc
  exact ⟨4096, 1, hpc, r, hr, hmeant⟩

/-- The first call returns, task 3 makes the next call and gets slot 1 again, and task 1 replies
to the first call once more. The later caller returns that reply. -/
theorem late_reply_reaches_later_call : ∃ es : List Event,
    let s := (answeredCall ++ es).foldl Sys.step Sys.init
    s.tasks 3 = .ret 1 [6] 0 ∧ s.calls = 2 ∧ ∀ r ∈ s.log, r.meant = some 0 := by
  refine ⟨[.run 2 none true, .start 3 (.call 1 [8] 8), .run 3 (some 4096) true,
    .run 3 (some 12288) true, .run 3 none true, .start 1 (.reply ⟨1, some 0, [6]⟩),
      .run 1 none true,
    .run 3 none true, .run 3 none true, .run 3 none true], ?_⟩
  decide

end Rynex.Ipc
