import Rynex.Memory.Spec
import Rynex.Lib.Queue

/-! The quarantine ring alone, under any pushes and pops: it is a queue of at most
`QUARANTINE_MAX_CAP` pages. Nothing is asked here of the rest of the allocator, and a page may be
pushed while it waits already. -/

namespace Rynex.Memory

open Rynex.Lib

namespace Buddy

variable {b : Buddy} {a : Nat} {l : List Nat}

def qStep (b : Buddy) : Queue.Op Nat → Queue.Answer Nat × Buddy
  | .push addr => ((.pushed (b.qPush addr).1), (b.qPush addr).2)
  | .pop => ((.popped b.qPop.1), b.qPop.2)

/-- The address passes the guard of `q_pop`. -/
def Managed (base pages addr : Nat) : Prop :=
  addr ≠ 0 ∧ base ≤ addr ∧ addr < base + pages * pageSize

/-- The ring of an allocator of `pages` pages from `base` on holds the managed addresses `l`,
oldest first. -/
structure Queues (base pages : Nat) (b : Buddy) (l : List Nat) : Prop where
  base_eq : b.base = base
  pages_eq : b.pages = pages
  head : b.qHead < quarantineMaxCap
  contents : b.pool.qContents = l
  bound : l.length ≤ quarantineMaxCap
  managed : ∀ a ∈ l, Managed base pages a

variable {base pages : Nat}

theorem Queues.count (h : Queues base pages b l) : b.qCount = l.length := by
  rw [← h.contents]
  exact Ring.length_window.symm

theorem Queues.push (h : Queues base pages b l) (ha : Managed base pages a)
    (hroom : l.length < quarantineMaxCap) :
    (b.qPush a).1 = true ∧ Queues base pages (b.qPush a).2 (l ++ [a]) := by
  have hcount : b.qCount < quarantineMaxCap := by rwa [h.count]
  have hpush : b.qPush a = (true, { b with
      quarantine := Function.update b.quarantine b.qHead a
      qHead := (b.qHead + 1) % quarantineMaxCap
      qCount := b.qCount + 1 }) := if_pos hcount
  rw [hpush]
  refine ⟨rfl, h.base_eq, h.pages_eq, Nat.mod_lt _ (by decide), ?_, ?_, ?_⟩
  · rw [← h.contents]
    exact Pool.qContents_enqueue (P := b.pool) h.head hcount
  · rw [List.length_append]
    exact hroom
  · intro x hx
    rcases List.mem_append.mp hx with hx | hx
    · exact h.managed x hx
    · rwa [List.mem_singleton.mp hx]

theorem Queues.push_full (h : Queues base pages b l) (hfull : ¬l.length < quarantineMaxCap) :
    (b.qPush a).1 = false ∧ Queues base pages (b.qPush a).2 l := by
  have hpush : b.qPush a = (false, { b with qFull := b.qFull + 1 }) := by
    rw [← h.count] at hfull
    exact if_neg hfull
  rw [hpush]
  exact ⟨rfl, h.base_eq, h.pages_eq, h.head, h.contents, h.bound, h.managed⟩

theorem Queues.pop_nil (h : Queues base pages b []) : b.qPop = (none, b) := by
  have hcount : b.qCount = 0 := h.count
  simp [qPop, hcount, qPopLoop]

/-- The first turn of the loop gives the oldest page: no queued address fails the guard. -/
theorem Queues.pop_cons (h : Queues base pages b (a :: l)) :
    b.qPop.1 = some a ∧ Queues base pages b.qPop.2 l := by
  have hcount : b.qCount = l.length + 1 := h.count
  have hbound : b.qCount ≤ quarantineMaxCap := by
    rw [hcount]
    exact h.bound
  have hpos : b.qCount ≠ 0 := by omega
  have htake := Pool.qContents_take (P := b.pool) hbound hpos
  rw [h.contents] at htake
  obtain ⟨hslot, hrest⟩ := List.cons.inj htake
  have hguard : Managed b.base b.pages (b.quarantine b.qTail) := by
    rw [h.base_eq, h.pages_eq, show b.quarantine b.qTail = a from hslot.symm]
    exact h.managed a List.mem_cons_self
  have hpop : b.qPop = (some (b.quarantine b.qTail),
    b.qTake.pteRefcInc (b.quarantine b.qTail)) := by
    rw [qPop, hcount]
    simp only [qPopLoop, hcount, Nat.add_one_ne_zero, if_false]
    exact if_pos hguard
  rw [hpop]
  refine ⟨congrArg some hslot.symm, h.base_eq, h.pages_eq, h.head, hrest.symm, ?_, fun x hx => ?_⟩
  · exact (Nat.le_succ _).trans h.bound
  · exact h.managed x (List.mem_cons_of_mem _ hx)

/-- Only pushes of managed addresses. -/
def PushesManaged (base pages : Nat) : Queue.Op Nat → Prop
  | .push addr => Managed base pages addr
  | .pop => True

theorem Queues.step (h : Queues base pages b l) (e : Queue.Op Nat)
    (hok : PushesManaged base pages e) :
    (b.qStep e).1 = (Queue.step quarantineMaxCap l e).1 ∧
      Queues base pages (b.qStep e).2 (Queue.step quarantineMaxCap l e).2 := by
  cases e with
  | push a =>
    by_cases hroom : l.length < quarantineMaxCap
    · obtain ⟨hans, hq⟩ := h.push hok hroom
      simp only [qStep, Queue.step, if_pos hroom, hans]
      exact ⟨trivial, hq⟩
    · obtain ⟨hans, hq⟩ := h.push_full (a := a) hroom
      simp only [qStep, Queue.step, if_neg hroom, hans]
      exact ⟨trivial, hq⟩
  | pop =>
    cases l with
    | nil =>
      simp only [qStep, h.pop_nil]
      exact ⟨rfl, h⟩
    | cons a l =>
      obtain ⟨hans, hq⟩ := h.pop_cons
      simp only [qStep, hans]
      exact ⟨rfl, hq⟩

/-- From an empty ring, whatever its head and its slots, every run of pushes of managed addresses
and pops gets the answers of the bounded queue, and the ring holds what that queue holds. -/
theorem quarantine_is_queue (b : Buddy) (hempty : b.qCount = 0) (hhead : b.qHead < quarantineMaxCap)
    (es : List (Queue.Op Nat)) (hes : ∀ e ∈ es, PushesManaged b.base b.pages e) :
    (answers qStep b es).1 = (answers (Queue.step quarantineMaxCap) [] es).1 ∧
      (answers qStep b es).2.pool.qContents =
        (answers (Queue.step quarantineMaxCap) [] es).2 := by
  have hinit : Queues b.base b.pages b [] := by
    refine ⟨rfl, rfl, hhead, ?_, Nat.zero_le _, nofun⟩
    simp [Pool.qContents, show b.pool.qCount = 0 from hempty]
  obtain ⟨hans, hend⟩ := answers_simulate (R := Queues b.base b.pages)
    (fun s t e h hok => h.step e hok) hes hinit
  exact ⟨hans, hend.contents⟩

/-- A page pushed twice and taken once still waits. -/
theorem quarantine_is_queue_twice :
    let b := init 0x1000 4
    let es : List (Queue.Op Nat) := [.push 0x2000, .push 0x2000, .pop]
    (∀ e ∈ es, PushesManaged b.base b.pages e) ∧
      (answers qStep b es).1 = [.pushed true, .pushed true, .popped (some 0x2000)] ∧
      (answers qStep b es).2.pool.qContents = [0x2000] := by
  intro b es
  have hes : ∀ e ∈ es, PushesManaged b.base b.pages e := by
    simp [es, b, init, PushesManaged, Managed, pageSize]
  obtain ⟨hans, hcontents⟩ := quarantine_is_queue b rfl (by decide) es hes
  exact ⟨hes, hans.trans (by decide), hcontents.trans (by decide)⟩

end Buddy

end Rynex.Memory
