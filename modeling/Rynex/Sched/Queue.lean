import Rynex.Lib.Run
import Rynex.Sched.Calls

/-! The run queue against the task table. A function that has taken a task off the queue and not
yet put it anywhere has the task out. -/

namespace Rynex.Sched

open Rynex.Lib

theorem taskIdx_of_lt {t : Nat} (h : t < maxTasks) : taskIdx t = t :=
  if_neg (Nat.not_le.mpr h)

theorem taskIdx_lt (t : Nat) : taskIdx t < maxTasks := by
  unfold taskIdx
  split
  · decide
  · omega

/-- What the run queue depends on. -/
structure Alike (t t' : Task) : Prop where
  id : t'.id = t.id
  prio : t'.prio = t.prio
  state : t'.state = t.state

theorem Alike.refl (t : Task) : Alike t t := ⟨rfl, rfl, rfl⟩

/-- The lists `q` of the run queue are made of ready tasks, and of all of them if `full` is set,
without the ones in `out`. -/
structure Queued (full : Prop) (out : List Nat) (s : State) (q : Prio → List Nat) : Prop where
  holds : s.rq.Holds taskIdx q
  member : ∀ {p t}, t ∈ q p → t ≠ 0 ∧ t < maxTasks ∧ (s.tasks t).prio = p ∧
    (s.tasks t).state = .ready ∧ t ∉ out
  complete : full → ∀ t, t < maxTasks → (s.tasks t).state = .ready → t ∉ out →
    t ∈ q (s.tasks t).prio

/-- The slots are numbered by their tasks: slot 0 is the boot task, a free pid has an empty slot
and the current task is there. -/
structure Slots (s : State) : Prop where
  zero : (s.tasks 0).id = 0 ∧ (s.tasks 0).state = .running
  ids : ∀ t, t < maxTasks → t ≠ 0 → (s.tasks t).state ≠ .empty → (s.tasks t).id = t
  fresh : ∀ t, t < maxTasks → s.pids t = false → (s.tasks t).state = .empty
  current : s.current < maxTasks ∧ s.current ≠ 0 ∧ (s.tasks s.current).state ≠ .empty

/-- The scheduler's invariant, with the tasks in `out` off the queue. -/
structure Sane (full : Prop) (out : List Nat) (s : State) : Prop where
  slots : Slots s
  queued : ∃ q, Queued full out s q

variable {full : Prop} {out : List Nat} {s s' : State} {q : Prio → List Nat} {t i : Nat} {p : Prio}

/-! ### The queue -/

namespace Queued

theorem mem_prio (h : Queued full out s q) (ht : t ∈ q p) : t ∈ q (s.tasks t).prio := by
  rw [(h.member ht).2.2.1]
  exact ht

theorem slot_ne {u : Nat} (h : Queued full out s q) (ht : t < maxTasks) (hu : u ∈ q p)
    (hne : u ≠ t) :
    taskIdx u ≠ taskIdx t := by
  rwa [taskIdx_of_lt (h.member hu).2.1, taskIdx_of_lt ht]

theorem fresh_of_not_mem (h : Queued full out s q) (ht : t < maxTasks) (hmem : ∀ p, t ∉ q p) :
    ∀ p, ∀ u ∈ q p, taskIdx u ≠ taskIdx t :=
  fun p _ hu => h.slot_ne ht hu fun heq => hmem p (heq ▸ hu)

theorem frame (h : Queued full out s q) (hrq : s'.rq = s.rq)
    (hsame : ∀ t, t < maxTasks → t ∉ out → Alike (s.tasks t) (s'.tasks t) ∨
      (s.tasks t).state ≠ .ready ∧ (s'.tasks t).state ≠ .ready) : Queued full out s' q where
  holds := hrq ▸ h.holds
  member {p t} ht := by
    obtain ⟨hne, hlt, hp, hr, hout⟩ := h.member ht
    rcases hsame t hlt hout with ha | ⟨hn, -⟩
    · exact ⟨hne, hlt, ha.prio.trans hp, ha.state.trans hr, hout⟩
    · exact absurd hr hn
  complete hf t hlt hr hout := by
    rcases hsame t hlt hout with ha | ⟨-, hn⟩
    · rw [ha.prio]
      exact h.complete hf t hlt (ha.state.symm.trans hr) hout
    · exact absurd hr hn

theorem put_out (h : Queued full out s q) (hmem : ∀ p, t ∉ q p) : Queued full (t :: out) s q where
  holds := h.holds
  member {p u} hu := by
    obtain ⟨hne, hlt, hp, hr, hout⟩ := h.member hu
    refine ⟨hne, hlt, hp, hr, fun hcons => ?_⟩
    rcases List.mem_cons.mp hcons with rfl | hin
    · exact hmem p hu
    · exact hout hin
  complete hf u hlt hr hout :=
    h.complete hf u hlt hr fun hin => hout (List.mem_cons_of_mem _ hin)

theorem put_back (h : Queued full (t :: out) s q) (hnr : (s.tasks t).state ≠ .ready) :
    Queued full out s q where
  holds := h.holds
  member hu := by
    obtain ⟨hne, hlt, hp, hr, hout⟩ := h.member hu
    exact ⟨hne, hlt, hp, hr, fun hin => hout (List.mem_cons_of_mem _ hin)⟩
  complete hf u hlt hr hout := by
    refine h.complete hf u hlt hr fun hcons => ?_
    rcases List.mem_cons.mp hcons with rfl | hin
    · exact hnr hr
    · exact hout hin

theorem enqueue (h : Queued full (t :: out) s q) (hne : t ≠ 0) (hlt : t < maxTasks)
    (hr : (s.tasks t).state = .ready) (hp : (s.tasks t).prio = p) (hout : t ∉ out) :
    Queued full out (s.enqueueTask t p) (Function.update q p (q p ++ [t])) := by
  have hmem : ∀ p, t ∉ q p := fun p ht => (h.member ht).2.2.2.2 List.mem_cons_self
  have hcases : ∀ {p' u}, u ∈ Function.update q p (q p ++ [t]) p' ↔ u ∈ q p' ∨ u = t ∧ p' = p := by
    intro p' u
    obtain rfl | hpp := eq_or_ne p' p
    · simp
    · simp [hpp]
  refine ⟨h.holds.enqueue (h.fresh_of_not_mem hlt hmem), fun {p' u} hu => ?_, ?_⟩
  · rcases hcases.mp hu with hu | ⟨rfl, rfl⟩
    · obtain ⟨hne, hlt, hp, hr, hout⟩ := h.member hu
      exact ⟨hne, hlt, hp, hr, fun hin => hout (List.mem_cons_of_mem _ hin)⟩
    · exact ⟨hne, hlt, hp, hr, hout⟩
  · intro hf u hlt' hr' hout'
    refine hcases.mpr ?_
    obtain rfl | hut := eq_or_ne u t
    · exact .inr ⟨rfl, hp⟩
    · exact .inl (h.complete hf u hlt' hr' (by simp [hut, hout']))

theorem cut {rq : RunQueue} {l : List Nat} (h : Queued full out s q)
    (hholds : rq.Holds taskIdx (Function.update q p l)) (hl : ∀ u, u ∈ l ↔ u ∈ q p ∧ u ≠ t)
    (ht : t ∈ q p) : Queued full (t :: out) { s with rq := rq } (Function.update q p l) := by
  have hcases : ∀ {p' u}, u ∈ Function.update q p l p' ↔ u ∈ q p' ∧ u ≠ t := by
    intro p' u
    obtain rfl | hpp := eq_or_ne p' p
    · simp [hl]
    · simp only [Function.update_of_ne hpp, iff_self_and]
      rintro hu rfl
      exact hpp ((h.member hu).2.2.1.symm.trans (h.member ht).2.2.1)
  refine ⟨hholds, fun {p' u} hu => ?_, fun hf u hlt hr hout => ?_⟩
  · obtain ⟨hu, hut⟩ := hcases.mp hu
    obtain ⟨hne, hlt, hp, hr, hout⟩ := h.member hu
    exact ⟨hne, hlt, hp, hr, by simp [hut, hout]⟩
  · simp only [List.mem_cons, not_or] at hout
    exact hcases.mpr ⟨h.complete hf u hlt hr hout.2, hout.1⟩

theorem dequeue (h : Queued full out s q) : (s.dequeueTask = (none, s) ∧ ∀ p, q p = []) ∨
    ∃ t rq q', s.dequeueTask = (some t, { s with rq := rq }) ∧ (∃ p, t ∈ q p) ∧
      Queued full (t :: out) { s with rq := rq } q' := by
  rcases h.holds.dequeue (List.finRange priorityLevels) List.mem_finRange with
    ⟨hd, hq⟩ | ⟨p, t, l, rq, hd, hq, hholds⟩
  · exact .inl ⟨by simp [State.dequeueTask, hd], hq⟩
  · have ht : t ∈ q p := hq ▸ List.mem_cons_self
    refine .inr ⟨t, rq, _, by simp [State.dequeueTask, hd], ⟨p, ht⟩, h.cut hholds (fun u => ?_) ht⟩
    have hnodup := hq ▸ h.holds.nodup p
    rw [List.map_cons, List.nodup_cons] at hnodup
    rw [hq, List.mem_cons]
    constructor
    · exact fun hu => ⟨.inr hu, fun heq => hnodup.1 (heq ▸ List.mem_map_of_mem hu)⟩
    · rintro ⟨rfl | hu, hne⟩
      · exact absurd rfl hne
      · exact hu

theorem length_le (h : Queued full out s q) (p : Prio) : (q p).length ≤ maxTasks := by
  have hsub : (q p).map taskIdx ⊆ List.range maxTasks := fun x hx => by
    obtain ⟨t, -, rfl⟩ := List.mem_map.mp hx
    exact List.mem_range.mpr (taskIdx_lt t)
  simpa using (h.holds.nodup p).length_le_of_subset hsub

theorem remove (h : Queued full out s q) (ht : t < maxTasks) :
    ∃ rq q', s.removeFromRunqueue t = some { s with rq := rq } ∧
      Queued full (t :: out) { s with rq := rq } q' := by
  have hidx : s.task t = s.tasks t := congrArg s.tasks (taskIdx_of_lt ht)
  simp only [State.removeFromRunqueue, hidx]
  by_cases hmem : t ∈ q (s.tasks t).prio
  · obtain ⟨rq, hrq, hholds⟩ := h.holds.remove_mem (h.length_le _) hmem
    refine ⟨rq, _, by rw [hrq]; rfl, h.cut hholds (fun u => ?_) hmem⟩
    have hnodup : (q (s.tasks t).prio).Nodup := (h.holds.nodup _).of_map
    rw [hnodup.mem_erase_iff, and_comm]
  · refine ⟨s.rq, q, by rw [h.holds.remove_absent (h.length_le _) hmem]; rfl, ?_⟩
    exact h.put_out fun p hp => hmem (h.mem_prio hp)

theorem remove_of_ge (h : Queued full out s q) (ht : maxTasks ≤ t ∨ t = 0) :
    s.removeFromRunqueue t = some s := by
  have hmem : ∀ p, t ∉ q p := fun p hp => by
    have := h.member hp
    omega
  simp [State.removeFromRunqueue, h.holds.remove_absent (h.length_le _) (hmem _)]

end Queued

end Rynex.Sched
