import Rynex.Lib.Ring

/-! Machines that answer: the answers that a run gives, the rule that carries a simulation step by
step to all of them, and the bounded queue as such a machine. Then the two pushes into a ring: into
the next free slot, and over the oldest element of a full ring. -/

namespace Rynex.Lib

variable {σ τ ε α β : Type*}

/-- The answers to the events `es` in order, and the state that they leave. -/
def answers (step : σ → ε → β × σ) : σ → List ε → List β × σ
  | s, [] => ([], s)
  | s, e :: es =>
    let r := step s e
    let rest := answers step r.2 es
    (r.1 :: rest.1, rest.2)

theorem answers_simulate {step : σ → ε → β × σ} {step' : τ → ε → β × τ} {R : σ → τ → Prop}
    {ok : ε → Prop}
    (hstep : ∀ s t e, R s t → ok e → (step s e).1 = (step' t e).1 ∧ R (step s e).2 (step' t e).2)
    {es : List ε} (hok : ∀ e ∈ es, ok e) {s : σ} {t : τ} (hR : R s t) :
    (answers step s es).1 = (answers step' t es).1 ∧
      R (answers step s es).2 (answers step' t es).2 := by
  induction es generalizing s t with
  | nil => exact ⟨rfl, hR⟩
  | cons e es ih =>
    obtain ⟨hout, hnext⟩ := hstep s t e hR (hok e List.mem_cons_self)
    obtain ⟨houts, hend⟩ := ih (fun e he => hok e (List.mem_cons_of_mem _ he)) hnext
    exact ⟨congrArg₂ List.cons hout houts, hend⟩

namespace Queue

inductive Op (α : Type*) where
  | push (x : α)
  | pop

inductive Answer (α : Type*) where
  | pushed (queued : Bool)
  | popped (x : Option α)
  deriving DecidableEq

/-- A queue of at most `bound` elements, oldest first: it refuses to grow past the bound. -/
def step (bound : Nat) (q : List α) : Op α → Answer α × List α
  | .push x => if q.length < bound then (.pushed true, q ++ [x]) else (.pushed false, q)
  | .pop => (.popped q.head?, q.tail)

end Queue

namespace Ring

variable {slots : Nat → α} {cap start count head : Nat}

theorem window_push_at (x : α) (h : count < cap) (hslot : (start + count) % cap = head) :
    window (Function.update slots head x) cap start (count + 1) =
      window slots cap start count ++ [x] := by
  rw [← hslot, window_push x h]

theorem window_overwrite (x : α) (hcap : 0 < cap) (hslot : start % cap = head) :
    window (Function.update slots head x) cap (start + 1) cap =
      (window slots cap start cap).tail ++ [x] := by
  obtain ⟨n, rfl⟩ := Nat.exists_eq_succ_of_ne_zero hcap.ne'
  have hlast : (start + 1 + n) % (n + 1) = head := by
    rw [← hslot, Nat.add_assoc, Nat.add_comm 1 n, Nat.add_mod_right]
  rw [Nat.succ_eq_add_one, window_push_at x (Nat.lt_succ_self n) hlast, window_succ, List.tail_cons]

end Ring

end Rynex.Lib
