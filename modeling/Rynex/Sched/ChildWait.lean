import Rynex.Sched.Teardown

/-! Whether the end of a child wakes its parent. A parent that is blocked in `sys_waitpid` waits at
the tid word of the first child that it looks at. The end of a child wakes the first task that waits
at its own tid word, a parent that polls or waits for a signal, and a parent that waits by
number. -/

namespace Rynex.Sched

open Rynex.Lib State

variable {s s' : State} {p c : Nat}

/-- The end of a task: it calls `exit_task`, or `kill_task_zombie` is called for it. -/
inductive Death where
  | exit (code : Int)
  | kill (code : Int)

/-- The end of the task in slot `c`, up to where `exit_task` schedules or waits for the signal lock
that its own context holds. -/
def State.death (s : State) (c : Nat) : Death → Option State
  | .exit code => if s.current = c then some ((s.exitBody code).getD (s.exitHead code)) else none
  | .kill code => s.killTaskZombie c code

def Death.code : Death → Int
  | .exit code | .kill code => code

def Death.tidptr (s : State) (c : Nat) : Death → Nat
  | .exit _ => (s.tasks c).childTidptr
  | .kill _ => if (s.tasks c).id = s.current then (s.tasks c).childTidptr else 0

/-- The parent waits for its child by number, or for any. -/
def waitsByNumber (t : Task) (id : Nat) : Bool := t.blockedOn = id || t.blockedOn = anyChild

/-- The parent has a handler for SIGCHLD, and waits for a signal or has polled. -/
def hearsSignal (t : Task) : Bool :=
  catchesChld t && (t.blockedOn = sigsuspendMagic || t.pollFds ≠ 0)

/-- The end of the task in slot `c` wakes the blocked task in slot `p`. -/
def Death.wakes (s : State) (p c : Nat) (d : Death) : Bool :=
  (tidWaiter (s.setTask c (die d.code)) (d.tidptr s c) = some p) ||
    match d with
    | .exit _ => !s.sigLock && (hearsSignal (s.tasks p) || waitsByNumber (s.tasks p) c)
    | .kill _ => waitsByNumber (s.tasks p) (s.tasks c).id

/-! ### The three wakes -/

theorem tasks_wakeTidWaiter (x : State) (w : Option Nat) (p : Nat) :
    (wakeTidWaiter x w).tasks p =
      if w = some p then { wokenByFutex (x.tasks p) with state := .ready } else x.tasks p := by
  cases w with
  | none => rfl
  | some w =>
    by_cases h : w = p
    · subst h
      rw [if_pos rfl]
      exact x.tasks_wakeTask_self w (x.tasks w).id wokenByFutex
    · rw [if_neg (by simpa using h)]
      exact x.tasks_wakeTask_ne wokenByFutex (Ne.symm h)

theorem tidWaiter_congr {x y : State} (htasks : x.tasks = y.tasks) (hspace : x.space = y.space)
    (hcur : x.current = y.current) (tid : Nat) : tidWaiter x tid = tidWaiter y tid := by
  unfold tidWaiter State.isUserTidptrValid State.task
  rw [htasks, hspace, hcur]

theorem state_reparent (x : State) (id i : Nat) :
    ((x.reparentChildrenToInit id).tasks i).state = (x.tasks i).state := by
  simp only [State.reparentChildrenToInit]
  split <;> rfl

theorem state_notifyParent (x : State) (hp : p < maxTasks) (hb : (x.tasks p).state ≠ .blocked) :
    ((x.notifyParent p).tasks p).state = (x.tasks p).state := by
  have htask := x.task_of_lt hp
  cases hc : catchesChld (x.task p) with
  | false => rw [notifyParent_ignored hc]
  | true =>
    rw [notifyParent_marks hc fun h => hb (htask ▸ h.1), taskIdx_of_lt hp, tasks_setTask_self]

theorem state_wakeParent (x : State) (hp : p < maxTasks) (id : Nat)
    (hb : (x.tasks p).state = .blocked) :
    ((x.wakeParent (some p) id).tasks p).state =
      if waitsByNumber (x.tasks p) id then .ready else .blocked := by
  have htask := x.task_of_lt hp
  by_cases hw : waitsByNumber (x.tasks p) id = true
  · have hon : (x.task p).blockedOn = id ∨ (x.task p).blockedOn = anyChild := by
      simpa [htask, waitsByNumber] using hw
    rw [if_pos hw, wakeParent_of_waiting (htask ▸ hb) hon, taskIdx_of_lt hp, tasks_wakeTask_self]
  · have hon : ¬ ((x.task p).blockedOn = id ∨ (x.task p).blockedOn = anyChild) := by
      simpa [htask, waitsByNumber] using hw
    rw [if_neg hw, wakeParent_of_not_waiting hon, hb]

theorem state_told (x : State) (hp : p < maxTasks) (id : Nat) (hb : (x.tasks p).state = .blocked) :
    (((x.notifyParent p).wakeParent (some p) id).tasks p).state =
      if hearsSignal (x.tasks p) || waitsByNumber (x.tasks p) id then .ready else .blocked := by
  have htask := x.task_of_lt hp
  cases hc : catchesChld (x.tasks p) with
  | false =>
    rw [notifyParent_ignored (htask ▸ hc), state_wakeParent x hp id hb]
    simp [hearsSignal, hc]
  | true =>
    by_cases hw : (x.tasks p).blockedOn = sigsuspendMagic ∨ (x.tasks p).pollFds ≠ 0
    · have hhears : hearsSignal (x.tasks p) = true := by simpa [hearsSignal, hc] using hw
      have hwoken : (x.notifyParent p).tasks p = { x.tasks p with
          signals := (x.tasks p).signals.setPending Task.sigChld, blockedOn := 0,
          state := .ready } := by
        rw [notifyParent_wakes (htask ▸ hc) (htask ▸ ⟨hb, hw⟩), taskIdx_of_lt hp,
          tasks_wakeTask_self]
      have hready : ((x.notifyParent p).task p).state ≠ .blocked := by
        rw [State.task_of_lt _ hp, hwoken]
        exact TaskState.noConfusion
      rw [wakeParent_of_not_blocked hready, hwoken, hhears, Bool.true_or, if_pos rfl]
    · have hhears : hearsSignal (x.tasks p) = false := by simpa [hearsSignal, hc] using hw
      have hmarked : (x.notifyParent p).tasks p = { x.tasks p with
          signals := (x.tasks p).signals.setPending Task.sigChld } := by
        rw [notifyParent_marks (htask ▸ hc) (htask ▸ fun h => hw h.2), taskIdx_of_lt hp,
          tasks_setTask_self]
      rw [state_wakeParent _ hp id (by rw [hmarked]; exact hb), hmarked, hhears, Bool.false_or]
      rfl

/-! ### The two ends -/

theorem tasks_clearTid (x : State) (tid p : Nat) : (x.clearTid tid).tasks p =
    if tidWaiter x tid = some p then { wokenByFutex (x.tasks p) with state := .ready }
    else x.tasks p := by
  rw [(clearTid_parts x tid).1, tasks_wakeTidWaiter]

theorem kin_clearTid (x : State) (tid : Nat) : Kin x (x.clearTid tid) := by
  intro i
  rw [(clearTid_parts x tid).1]
  exact Kin.wakeTidWaiter x _ i

/-- `exit_task` wakes the waiter at its tid word, and then the parent unless it waits for the signal
lock. -/
theorem state_exit {code : Int} (hp : p < maxTasks) (hc : c < maxTasks) (hne : p ≠ c)
    (hcur : s.current = c) (hparent : (s.tasks c).parent = some p)
    (hb : (s.tasks p).state = .blocked) :
    (((s.exitBody code).getD (s.exitHead code)).tasks p).state =
      if Death.wakes s p c (.exit code) then .ready else .blocked := by
  obtain ⟨files, -, hhead⟩ := exitHead_eq s code hc
  rw [show ({ s with current := c } : State) = s by rw [← hcur]] at hhead
  set x : State := ({ s with current := c, files := files } : State).setTask c (die code) with hx
  have hwaiter : tidWaiter x (s.tasks c).childTidptr =
      tidWaiter (s.setTask c (die code)) (s.tasks c).childTidptr :=
    tidWaiter_congr (x := x) (y := s.setTask c (die code)) rfl rfl hcur.symm _
  have hxp : x.tasks p = s.tasks p := tasks_setTask_ne _ _ hne
  have hheadp := tasks_clearTid x (s.tasks c).childTidptr p
  rw [hwaiter, hxp] at hheadp
  have hrest := (clearTid_parts x (s.tasks c).childTidptr).2.2.2.1
  have hlock : (x.clearTid (s.tasks c).childTidptr).sigLock = s.sigLock := by
    have := congrArg State.sigLock hrest
    exact this
  have hcurrent : (x.clearTid (s.tasks c).childTidptr).current = c := by
    have := congrArg State.current hrest
    exact this
  have hkin : ((x.clearTid (s.tasks c).childTidptr).tasks c).parent = some p := by
    rw [(kin_clearTid x _ c).1, hx, tasks_setTask_self]
    exact hparent
  have hwakes : Death.wakes s p c (.exit code) =
      ((tidWaiter (s.setTask c (die code)) (s.tasks c).childTidptr = some p) ||
        !s.sigLock && (hearsSignal (s.tasks p) || waitsByNumber (s.tasks p) c)) := rfl
  rw [hwakes]
  generalize x.clearTid (s.tasks c).childTidptr = y at hhead hheadp hlock hcurrent hkin
  cases hl : s.sigLock with
  | true =>
    have hnone : s.exitBody code = none := by
      simp only [State.exitBody, hhead, hcurrent, State.task_of_lt _ hc, hkin, hlock, hl, if_true]
    rw [hnone, Option.getD_none, hhead, hheadp]
    split <;> simp_all
  | false =>
    rw [exitBody_eq hhead hc hcurrent (hlock.trans hl) hkin, Option.getD_some, state_reparent]
    by_cases hw : tidWaiter (s.setTask c (die code)) (s.tasks c).childTidptr = some p
    · rw [if_pos hw] at hheadp
      have hready : (y.tasks p).state ≠ .blocked := by
        rw [hheadp]
        exact TaskState.noConfusion
      have htold : ((tellParent y (some p)).tasks p).state = (y.tasks p).state :=
        state_notifyParent y hp hready
      rw [wakeParent_of_not_blocked (by rw [State.task_of_lt _ hp, htold]; exact hready), htold,
        hheadp]
      simp [hw]
    · rw [if_neg hw] at hheadp
      have htold := state_told y hp c (hheadp ▸ hb)
      rw [hheadp] at htold
      simpa [hw, tellParent] using htold

/-- `kill_task_zombie` wakes the waiter at the tid word only if the current task kills itself, and
then a parent that waits by number. -/
theorem state_kill {code : Int} (hp : p < maxTasks) (hne : p ≠ c)
    (hparent : (s.tasks c).parent = some p) (hb : (s.tasks p).state = .blocked)
    (hkill : s.killTaskZombie c code = some s') :
    (s'.tasks p).state = if Death.wakes s p c (.kill code) then .ready else .blocked := by
  obtain ⟨rq, hs'⟩ : ∃ rq, s' =
      let y := State.clearTid { s.setTask c (die code) with rq := rq }
        (Death.tidptr s c (.kill code))
      (y.wakeParent (y.tasks c).parent (s.tasks c).id).reparentChildrenToInit (s.tasks c).id := by
    simp only [State.killTaskZombie, tasks_setTask_self, Option.map_eq_some_iff] at hkill
    obtain ⟨x, hx, rfl⟩ := hkill
    obtain ⟨rq, rfl⟩ : ∃ rq, x = { s.setTask c (die code) with rq := rq } := by
      split at hx
      · exact removeFromRunqueue_eq hx
      · exact ⟨_, (Option.some.inj hx).symm⟩
    refine ⟨rq, ?_⟩
    have htask : (s.setTask c (die code)).tasks c = die code (s.tasks c) := tasks_setTask_self ..
    simp only [Death.tidptr, htask]
    rfl
  set x : State := { s.setTask c (die code) with rq := rq } with hx
  have hyp := tasks_clearTid x (Death.tidptr s c (.kill code)) p
  have hwaiter : tidWaiter x (Death.tidptr s c (.kill code)) =
      tidWaiter (s.setTask c (die code)) (Death.tidptr s c (.kill code)) :=
    tidWaiter_congr (x := x) (y := s.setTask c (die code)) rfl rfl rfl _
  have hxp : x.tasks p = s.tasks p := tasks_setTask_ne _ _ hne
  have hkin : ((x.clearTid (Death.tidptr s c (.kill code))).tasks c).parent = some p := by
    rw [(kin_clearTid x _ c).1, hx]
    exact (congrArg Task.parent (tasks_setTask_self s c (die code))).trans hparent
  have hwakes : Death.wakes s p c (.kill code) =
      ((tidWaiter (s.setTask c (die code)) (Death.tidptr s c (.kill code)) = some p) ||
        waitsByNumber (s.tasks p) (s.tasks c).id) := rfl
  rw [hwaiter, hxp] at hyp
  rw [hs', hwakes]
  dsimp only
  rw [state_reparent, hkin]
  generalize x.clearTid (Death.tidptr s c (.kill code)) = y at hyp
  by_cases hw : tidWaiter (s.setTask c (die code)) (Death.tidptr s c (.kill code)) = some p
  · rw [if_pos hw] at hyp
    have hready : (y.tasks p).state ≠ .blocked := by
      rw [hyp]
      exact TaskState.noConfusion
    rw [wakeParent_of_not_blocked (by rw [State.task_of_lt _ hp]; exact hready), hyp]
    simp [hw]
  · rw [if_neg hw] at hyp
    have hwoken := state_wakeParent y hp (s.tasks c).id (hyp ▸ hb)
    rw [hyp] at hwoken
    simpa [hw] using hwoken

/-! ### The parent in `sys_waitpid` -/

/-- The end of a child makes its blocked parent ready exactly if one of the wakes reaches it,
whichever children the parent waits for. -/
theorem child_wakes_parent_iff {pid : Int} {d : Death} (hp : p < maxTasks) (hc : c < maxTasks)
    (hne : p ≠ c) (hb : (s.tasks p).state = .blocked)
    (hchild : State.isChild { s with current := p } pid c = true) (hd : s.death c d = some s') :
    (s'.tasks p).state = .ready ↔ Death.wakes s p c d = true := by
  have hparent : (s.tasks c).parent = some p := by
    simp only [State.isChild, Bool.and_eq_true, decide_eq_true_eq] at hchild
    exact hchild.1.1.2
  have hstate : (s'.tasks p).state = if Death.wakes s p c d then .ready else .blocked := by
    cases d with
    | exit code =>
      simp only [State.death] at hd
      split at hd
      · rename_i hcur
        rw [← Option.some.inj hd]
        exact state_exit hp hc hne hcur hparent hb
      · cases hd
    | kill code => exact state_kill hp hne hparent hb hd
  rw [hstate]
  split <;> simp_all

/-- The init task has two children, of which the first has a tid word, and waits for any of them. -/
def waitingForTwo : State :=
  [Event.call (.clone (cloneParentSettid ||| cloneChildCleartid) 0x7000 0x400000 0x400000 true
      (some 0x3000)), .call (.fork true (some 0x4000)), .call (.waitpid (-1) false)].foldl
        State.step
    (boot 0x1000 0x2000 0x7000 fun _ va => some va)

theorem child_wakes_parent_iff_first : ∃ s', waitingForTwo.death 2 (.exit 0) = some s' ∧
    (s'.tasks 1).state = .ready := by
  have hd : (waitingForTwo.death 2 (.exit 0)).isSome = true := by decide
  obtain ⟨s', hs'⟩ := Option.isSome_iff_exists.mp hd
  exact ⟨s', hs', (child_wakes_parent_iff (p := 1) (c := 2) (by decide) (by decide) (by decide)
    (by decide) (show State.isChild _ (-1) 2 = true by decide) hs').mpr
    (by decide)⟩

/-- The parent stays blocked when the second child exits, and when the first one is killed by the
second. -/
theorem second_child_leaves_parent_blocked :
    let s := waitingForTwo.step (.call .yieldNowForce)
    s.current = 3 ∧ (s.tasks 1).state = .blocked ∧
      State.isChild { s with current := 1 } (-1) 2 = true ∧
      State.isChild { s with current := 1 } (-1) 3 = true ∧
      (s.death 3 (.exit 0)).any (fun s' =>
        (s'.tasks 3).state = .zombie && (s'.tasks 1).state = .blocked) = true ∧
      ((s.step (.call (.kill 2 9))).tasks 2).state = .zombie ∧
      ((s.step (.call (.kill 2 9))).tasks 1).state = .blocked := by
  decide

end Rynex.Sched
