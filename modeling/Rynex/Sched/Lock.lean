import Rynex.Sched.Runs

/-! The signal lock. It is not reentrant, and `exit_task` asks for it and leaves for another task;
`sig_deliver_to_task` and `check_deliver_signal` call `exit_task` with the lock held. -/

namespace Rynex.Sched

open Rynex.Lib State
open Rynex.Task (sigChld sigKill sigStop sigDfl sigIgn terminates)

variable {s s' : State} {i : Nat} {sig code : Int}

/-- The lock, and what has gone wrong with it. -/
def lockBits (s : State) : Bool × Bool × Bool := (s.sigLock, s.deadlocked, s.leaked)

/-- Nobody waited for the lock while it was held, or gave up the CPU with it. -/
def LockSafe (s : State) : Prop := s.deadlocked = false ∧ s.leaked = false

instance (s : State) : Decidable (LockSafe s) :=
  inferInstanceAs (Decidable (s.deadlocked = false ∧ s.leaked = false))

theorem LockSafe.congr (h : lockBits s' = lockBits s) (hs : LockSafe s) : LockSafe s' := by
  simp only [lockBits, Prod.mk.injEq] at h
  exact ⟨h.2.1.trans hs.1, h.2.2.trans hs.2⟩

/-! ### What does not touch the lock -/

/-- The calls that take the signal lock or run under it. -/
inductive Path where
  | exit (code : Int)
  | killZombie (idx : Nat) (code : Int)
  | deliver (idx : Nat) (sig : Int)
  | kill (pid sig : Int)
  | check (restore : Bool)

def Path.run (s : State) : Path → State
  | .exit code => (s.exitTask code).2
  | .killZombie idx code => (s.killTaskZombie idx code).getD { s with hung := true }
  | .deliver idx sig => (s.sigDeliverToTask idx sig).2
  | .kill pid sig => (s.sysKill pid sig).2
  | .check restore => (s.checkDeliverSignal restore).2

end Rynex.Sched
