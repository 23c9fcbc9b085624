import Rynex.Errno

/-! The signal state of a task, and the calls that set its mask. -/

namespace Rynex.Task

open Rynex.Errno

def signalCount : Nat := 32
def sigDfl : UInt64 := 0
def sigIgn : UInt64 := 1
def saRestorer : UInt64 := 0x04000000

def sigKill : Nat := 9
def sigChld : Nat := 17
def sigStop : Nat := 19

/-- The signals whose default action ends the task: SIGINT, SIGQUIT, SIGILL, SIGTRAP, SIGABRT,
SIGBUS, SIGFPE, SIGSEGV, SIGPIPE, SIGALRM and SIGTERM. -/
def terminates (sig : Nat) : Bool := [2, 3, 4, 5, 6, 7, 8, 11, 13, 14, 15].contains sig

structure SignalAction where
  handler : UInt64
  mask : UInt64
  flags : UInt64
  restorer : UInt64
deriving DecidableEq, Repr

def SignalAction.empty : SignalAction := ⟨sigDfl, 0, 0, 0⟩

/-- `sig_pending`, `sig_blocked` and `sig_handlers` of a task. -/
structure Signals where
  pending : UInt64
  blocked : UInt64
  handlers : Nat → SignalAction

/-- `1u64 << sig`. -/
def bit (sig : Nat) : UInt64 := 1 <<< sig.toUInt64

namespace Signals

def isPending (s : Signals) (sig : Nat) : Bool := s.pending &&& bit sig ≠ 0

/-- `(sig_blocked >> sig) & 1 != 0`. -/
def isBlocked (s : Signals) (sig : Nat) : Bool := (s.blocked >>> sig.toUInt64) &&& 1 ≠ 0

def setPending (s : Signals) (sig : Nat) : Signals := { s with pending := s.pending ||| bit sig }

def clearPending (s : Signals) (sig : Nat) : Signals :=
  { s with pending := s.pending &&& ~~~ bit sig }

/-- The mask of `rt_sigprocmask` after the word `mask` was read. -/
def changeMask (s : Signals) (how : Int) (mask : UInt64) : Int × Signals :=
  let blockable := mask &&& ~~~ (bit sigKill ||| bit sigStop)
  if how = 0 then (0, { s with blocked := s.blocked ||| blockable })
  else if how = 1 then (0, { s with blocked := s.blocked &&& ~~~ blockable })
  else if how = 2 then (0, { s with blocked := blockable })
  else (-einval, s)

/-- `rt_sigsuspend` looks for a signal that is pending, not blocked and not ignored. -/
def ready (s : Signals) : Bool :=
  (List.range' 1 (signalCount - 1)).any fun sig =>
    s.isPending sig && !s.isBlocked sig && (s.handlers sig).handler ≠ sigIgn

/-- What `check_deliver_signal` does about a signal. -/
inductive Delivery where
  | skip
  | exit
  | enter
deriving DecidableEq, Repr

/-- The body of its loop, up to the signal frame. -/
def delivery (s : Signals) (sig : Nat) : Delivery :=
  if !s.isPending sig then .skip
  else if s.isBlocked sig then .skip
  else
    let act := s.handlers sig
    if act.handler = sigIgn then .skip
    else if act.handler = sigDfl then if terminates sig then .exit else .skip
    else if act.restorer = 0 || act.flags &&& saRestorer = 0 then .skip
    else .enter

/-- The signal that the loop stops at. -/
def deliverable (s : Signals) : Option Nat :=
  (List.range' 1 (signalCount - 1)).find? fun sig => s.delivery sig ≠ .skip

variable {s : Signals} {sig : Nat}

theorem delivery_eq_enter_iff : s.delivery sig = .enter ↔
    s.isPending sig = true ∧ s.isBlocked sig = false ∧ (s.handlers sig).handler ≠ sigIgn ∧
      (s.handlers sig).handler ≠ sigDfl ∧ (s.handlers sig).restorer ≠ 0 ∧
      (s.handlers sig).flags &&& saRestorer ≠ 0 := by
  unfold delivery
  cases s.isPending sig <;> cases s.isBlocked sig <;> simp only [Bool.not_true, Bool.not_false,
    Bool.false_eq_true, if_true, if_false, reduceCtorEq, false_and, and_false, true_and]
  by_cases hign : (s.handlers sig).handler = sigIgn
  · simp [hign]
  by_cases hdfl : (s.handlers sig).handler = sigDfl
  · simp only [hdfl, ne_eq, not_true_eq_false, false_and, and_false, if_true, iff_false]
    split <;> (try split) <;> simp
  · simp [hign, hdfl]

theorem delivery_of_not_pending (h : s.isPending sig = false) : s.delivery sig = .skip := by
  simp [delivery, h]

theorem delivery_of_blocked (h : s.isBlocked sig = true) : s.delivery sig = .skip := by
  simp [delivery, h]

theorem deliverable_eq_some_iff : s.deliverable = some sig ↔
    1 ≤ sig ∧ sig < signalCount ∧ s.delivery sig ≠ .skip ∧
      ∀ l, 1 ≤ l → l < sig → s.delivery l = .skip := by
  rw [deliverable, List.find?_range'_eq_some, List.mem_range'_1]
  simp only [decide_eq_true_eq, Bool.not_eq_true', decide_eq_false_iff_not, not_not, signalCount]
  refine ⟨fun ⟨hne, hmem, hlow⟩ => ⟨hmem.1, by omega, hne, hlow⟩,
    fun ⟨hlow, hhigh, hne, hskip⟩ => ⟨hne, ⟨hlow, by omega⟩, hskip⟩⟩

end Signals

end Rynex.Task
