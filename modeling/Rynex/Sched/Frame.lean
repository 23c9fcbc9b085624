import Rynex.Sched.Waiting

/-! What scheduling, waking, signals and the end of a task leave alone: the page table of every
task and who owns it, the pids, and the descriptors that are not open. -/

namespace Rynex.Sched

open Rynex.Lib State

variable {s s' s'' : State} {i tid : Nat} {f : Task → Task}

/-- The task has its number, its page table and the ownership of it as before. -/
structure SameSpace (t t' : Task) : Prop where
  id : t'.id = t.id
  pml4 : t'.pml4 = t.pml4
  addrSpacePrivate : t'.addrSpacePrivate = t.addrSpacePrivate

/-- No task has changed its number or its page table, no pid was taken or given back, no address
space freed and no descriptor opened. -/
structure Quiet (s s' : State) : Prop where
  spaces : ∀ i, SameSpace (s.tasks i) (s'.tasks i)
  pids : s'.pids = s.pids
  frees : s'.frees = s.frees
  opens : ∀ t fd, (s'.files.tables t fd).used = true → (s.files.tables t fd).used = true

namespace Quiet

theorem refl (s : State) : Quiet s s := ⟨fun _ => ⟨rfl, rfl, rfl⟩, rfl, rfl, fun _ _ h => h⟩

theorem trans (h : Quiet s s') (h' : Quiet s' s'') : Quiet s s'' where
  spaces i := ⟨(h'.spaces i).id.trans (h.spaces i).id, (h'.spaces i).pml4.trans (h.spaces i).pml4,
    (h'.spaces i).addrSpacePrivate.trans (h.spaces i).addrSpacePrivate⟩
  pids := h'.pids.trans h.pids
  frees := h'.frees.trans h.frees
  opens t fd hu := h.opens t fd (h'.opens t fd hu)

theorem congr (htasks : s'.tasks = s.tasks) (hpids : s'.pids = s.pids) (hfrees : s'.frees = s.frees)
    (hfiles : s'.files = s.files) : Quiet s s' where
  spaces i := by rw [htasks]; exact ⟨rfl, rfl, rfl⟩
  pids := hpids
  frees := hfrees
  opens t fd hu := by rwa [hfiles] at hu

theorem setTask (s : State) (i : Nat) (hf : ∀ t, SameSpace t (f t)) : Quiet s (s.setTask i f) where
  spaces j := by
    obtain rfl | hj := eq_or_ne j i
    · rw [tasks_setTask_self]
      exact hf _
    · rw [tasks_setTask_ne _ _ hj]
      exact ⟨rfl, rfl, rfl⟩
  pids := rfl
  frees := rfl
  opens _ _ h := h

theorem onlyTasks (h : OnlyTasks s s') (hspaces : ∀ i, SameSpace (s.tasks i) (s'.tasks i)) :
    Quiet s s' := by
  obtain ⟨T, R, rfl⟩ := h
  exact ⟨hspaces, rfl, rfl, fun _ _ h => h⟩

theorem woke (h : Woke s s') : Quiet s s' :=
  onlyTasks h.rest fun i => ⟨(h.tasks i).id, (h.tasks i).pml4, (h.tasks i).addrSpacePrivate⟩

theorem reweighed (h : Reweighed s s') : Quiet s s' :=
  onlyTasks h.rest fun i => by
    obtain ⟨_, _, hi⟩ := h.task i
    rw [hi]
    exact ⟨rfl, rfl, rfl⟩

/-! ### Scheduling -/

theorem enqueueTask (s : State) (t : Nat) (p : Prio) : Quiet s (s.enqueueTask t p) :=
  .congr rfl rfl rfl rfl

theorem removeFromRunqueue (h : s.removeFromRunqueue tid = some s') : Quiet s s' := by
  obtain ⟨rq, rfl⟩ := removeFromRunqueue_eq h
  exact .congr rfl rfl rfl rfl

theorem stepBack (s : State) : Quiet s s.stepBack := by
  unfold State.stepBack
  simp only
  split
  · exact (setTask s _ (f := fun t => { t with state := .ready }) fun _ => ⟨rfl, rfl, rfl⟩).trans
      (enqueueTask ..)
  · exact .refl s

theorem switchTo (s : State) (next : Nat) : Quiet s (s.switchTo next) := by
  have hrun := setTask s.stepBack (taskIdx next) (f := fun t => { t with state := .running })
    fun _ => ⟨rfl, rfl, rfl⟩
  refine (((stepBack s).trans hrun).trans (setTask _ (taskIdx s.current)
    (f := fun t => { t with userMode := false }) fun _ => ⟨rfl, rfl, rfl⟩)).trans ?_
  exact .congr rfl rfl rfl rfl

theorem scheduleInner (s : State) (force : Bool) : Quiet s (s.scheduleInner force).2 := by
  have hself : ∀ s : State, Quiet s ((s.enqueueTask s.current (s.task s.current).prio).setTask
      (taskIdx s.current) fun t => { t with state := .running }) := fun s =>
    (enqueueTask ..).trans (setTask _ _ fun _ => ⟨rfl, rfl, rfl⟩)
  unfold State.scheduleInner
  obtain ⟨first, rq, hd⟩ := s.dequeueTask_eq
  have hfirst : Quiet s { s with rq := rq } := .congr rfl rfl rfl rfl
  split
  · exact .refl s
  · rw [hd]
    cases first with
    | none => exact .congr rfl rfl rfl rfl
    | some id =>
      simp only
      split
      · exact hfirst.trans (switchTo ..)
      · unfold State.pickSecond
        obtain ⟨second, rq', hd'⟩ := State.dequeueTask_eq { s with rq := rq }
        have hsecond : Quiet s { s with rq := rq' } := .congr rfl rfl rfl rfl
        rw [hd']
        cases second with
        | none => exact hsecond.trans (hself { s with rq := rq' })
        | some other =>
          simp only
          split
          · exact hsecond.trans (switchTo ..)
          · exact (hsecond.trans (enqueueTask ..)).trans (hself _)

theorem idlePoll (s : State) : Quiet s s.idlePoll := by
  unfold State.idlePoll
  obtain ⟨t, rq, hd⟩ := s.dequeueTask_eq
  have hq : Quiet s { s with rq := rq } := .congr rfl rfl rfl rfl
  rw [hd]
  cases t with
  | none => exact hq
  | some t =>
    simp only
    split
    · exact hq.trans (switchTo ..)
    · exact (hq.trans (setTask _ (taskIdx t) (f := fun t => { t with state := .running })
        fun _ => ⟨rfl, rfl, rfl⟩)).trans (.congr rfl rfl rfl rfl)

theorem yieldNow (s : State) : Quiet s s.yieldNow := by
  unfold State.yieldNow
  split
  · exact .refl s
  · refine (setTask s _ fun t => ?_).trans (scheduleInner _ _)
    split <;> exact ⟨rfl, rfl, rfl⟩

theorem yieldNowForce (s : State) : Quiet s s.yieldNowForce := by
  unfold State.yieldNowForce
  split
  · exact .refl s
  · refine (setTask s _ fun t => ?_).trans (scheduleInner _ _)
    split <;> exact ⟨rfl, rfl, rfl⟩

theorem block (s : State) (force : Bool) (hf : ∀ t, SameSpace t (f t)) :
    Quiet s (s.block force f).2 :=
  (setTask s (taskIdx s.current) (f := fun t => { f t with state := .blocked })
    fun t => ⟨(hf t).id, (hf t).pml4, (hf t).addrSpacePrivate⟩).trans
    (scheduleInner _ force)

theorem of_block {force back : Bool} (hr : s.block force f = (back, s'))
    (hf : ∀ t, SameSpace t (f t)) :
    Quiet s s' := by
  have h := block s force hf
  rwa [hr] at h

/-! ### The end of a task -/

theorem storeWord (s : State) (va value : Nat) : Quiet s (s.storeWord va value) := by
  obtain ⟨w, hw⟩ := s.storeWord_eq va value
  rw [hw]
  exact .congr rfl rfl rfl rfl

theorem reparentChildrenToInit (s : State) (pid : Nat) :
    Quiet s (s.reparentChildrenToInit pid) := by
  refine ⟨fun i => ?_, rfl, rfl, fun _ _ h => h⟩
  simp only [State.reparentChildrenToInit]
  split <;> exact ⟨rfl, rfl, rfl⟩

theorem used_closeFd (sys : Pipe.Sys) (t fd : Nat) {t' fd' : Nat}
    (h : ((sys.closeFd t fd).2.tables t' fd').used = true) : (sys.tables t' fd').used = true := by
  unfold Pipe.Sys.closeFd at h
  split at h
  · simp only [Pipe.Sys.setFd] at h
    obtain rfl | ht := eq_or_ne t' t
    · obtain rfl | hfd := eq_or_ne fd' fd
      · simp at h
      · simpa [hfd] using h
    · simpa [ht] using h
  · exact h

theorem setFiles {files : Pipe.Sys}
    (h : ∀ t fd, (files.tables t fd).used = true → (s.files.tables t fd).used = true) :
    Quiet s { s with files := files } := ⟨fun _ => ⟨rfl, rfl, rfl⟩, rfl, rfl, h⟩

theorem closeFds (s : State) (id : Nat) : Quiet s (s.closeFds id) := by
  refine setFiles fun t fd => ?_
  refine List.foldlRecOn (motive := fun sys : Pipe.Sys =>
    (sys.tables t fd).used = true → (s.files.tables t fd).used = true) _ _ (fun hu => hu)
    fun sys hsys n _ hu => hsys (used_closeFd sys _ n hu)

theorem exitHead (s : State) (code : Int) : Quiet s (s.exitHead code) := by
  have hclose := (closeFds s s.current).opens
  obtain ⟨w, hw⟩ := exitHead_cases s code
  generalize (s.closeFds s.current).files = files at hclose hw
  have hfiles : Quiet s { s with files := files, word := w } :=
    ⟨fun _ => ⟨rfl, rfl, rfl⟩, rfl, rfl, hclose⟩
  exact (hfiles.trans (setTask _ _ (f := die code) fun _ => ⟨rfl, rfl, rfl⟩)).trans (woke hw)

theorem exitTask (s : State) (code : Int) : Quiet s (s.exitTask code).2 := by
  unfold State.exitTask
  split
  · exact .refl s
  · cases hb : s.exitBody code with
    | none => exact (exitHead s code).trans (.congr rfl rfl rfl rfl)
    | some z =>
      obtain ⟨z', pid, hw, rfl⟩ := exitBody_cases hb
      exact (((exitHead s code).trans (woke hw)).trans (reparentChildrenToInit ..)).trans
        (scheduleInner _ true)

theorem killTaskZombie {code : Int} (h : s.killTaskZombie i code = some s') : Quiet s s' := by
  obtain ⟨rq, w, z, pid, hw, rfl⟩ := killTaskZombie_cases h
  have hword : Quiet s { s with rq := rq, word := w } := .congr rfl rfl rfl rfl
  exact ((hword.trans (setTask _ i (f := die code) fun _ => ⟨rfl, rfl, rfl⟩)).trans (woke hw)).trans
    (reparentChildrenToInit ..)

/-! ### Signals -/

theorem deliverLocked (s : State) (i : Nat) (sig : Int) : Quiet s (s.deliverLocked i sig).2 := by
  have hd := delivers s i sig
  generalize s.deliverLocked i sig = r at hd
  cases hd with
  | refused | ignored => exact .refl s
  | pended =>
    exact setTask s i (f := fun t => { t with signals := t.signals.setPending sig.toNat }) fun _ =>
      ⟨rfl, rfl, rfl⟩
  | caught hid hsilent =>
    refine setTask s i fun t => ?_
    unfold caughtBy
    dsimp only
    split <;> exact ⟨rfl, rfl, rfl⟩
  | killed _ _ _ _ hk => exact killTaskZombie hk
  | lost => exact .congr rfl rfl rfl rfl
  | exits => exact exitTask s (128 + sig)

theorem locked {α : Type} {g : State → Option α × State} (s : State)
    (hg : ∀ s, Quiet s (g s).2) : Quiet s (s.locked g).2 := by
  have hlock : Quiet s { s with sigLock := true } := .congr rfl rfl rfl rfl
  have hrun := hlock.trans (hg _)
  unfold State.locked
  split
  · exact .congr rfl rfl rfl rfl
  · split <;>
    next hr =>
      rw [hr] at hrun
      exact hrun.trans (.congr rfl rfl rfl rfl)

theorem sigDeliverToTask (s : State) (i : Nat) (sig : Int) : Quiet s (s.sigDeliverToTask i sig).2 :=
  locked s fun s => deliverLocked s i sig

theorem sendAll (test : Task → Bool) (sig : Int) (s : State) (hits : Nat) (is : List Nat) :
    Quiet s (State.sendAll test sig s hits is).2 := by
  induction is generalizing s hits with
  | nil => exact .refl s
  | cons i is ih =>
    rw [State.sendAll]
    split
    · have hsend := sigDeliverToTask s i sig
      split <;>
      next hr =>
        rw [hr] at hsend
        first
        | exact hsend
        | exact hsend.trans (ih _ _)
    · exact ih s hits

theorem sysKill (s : State) (pid sig : Int) : Quiet s (s.sysKill pid sig).2 := by
  have hsend := sendAll (killTargets s.current pid) sig s 0 (List.range maxTasks)
  unfold State.sysKill
  split
  · exact .refl s
  · split <;>
    next hr =>
      rw [hr] at hsend
      exact hsend

theorem signalForegroundGroup (s : State) (fg : Nat) (sig : Int) :
    Quiet s (s.signalForegroundGroup fg sig) := by
  unfold State.signalForegroundGroup
  split
  · exact .refl s
  · exact sendAll ..

theorem deliverPending (s : State) (sigs : List Nat) : Quiet s (s.deliverPending sigs).2 := by
  induction sigs generalizing s with
  | nil => exact .refl s
  | cons sig sigs ih =>
    rw [State.deliverPending]
    split
    · exact ih s
    · have hexit := (setTask s (taskIdx s.current)
        (f := fun t => { t with signals := t.signals.clearPending sig }) fun _ =>
          ⟨rfl, rfl, rfl⟩).trans
        (exitTask _ (128 + sig))
      simp only
      split
      · exact hexit.trans (ih _)
      · exact hexit
    · exact setTask s _ (f := fun t => { t with signals := handlerSignals sig t })
        fun _ => ⟨rfl, rfl, rfl⟩

theorem checkDeliverSignal (s : State) (restore : Bool) :
    Quiet s (s.checkDeliverSignal restore).2 := by
  refine locked s fun s => ?_
  split
  · exact .refl s
  · split
    · exact .refl s
    · exact deliverPending s _

/-! ### Waiting and the timer -/

theorem futexResume (s : State) : Quiet s s.futexResume.2 := by
  unfold State.futexResume
  split
  · exact setTask s _ (f := fun t => { t with futexDeadline := 0 }) fun _ => ⟨rfl, rfl, rfl⟩
  · exact .refl s

theorem futexWait (s : State) (uaddr val : Nat) (timeout : Option Nat) :
    Quiet s (s.futexWait uaddr val timeout).2 := by
  unfold State.futexWait
  split
  · exact .refl s
  · split
    · exact .refl s
    · split
      · exact .refl s
      · simp only
        split
        · exact .congr rfl rfl rfl rfl
        next hrem =>
          split
          next hr => exact (removeFromRunqueue hrem).trans (of_block hr fun _ => ⟨rfl, rfl, rfl⟩)
          next hr =>
            exact ((removeFromRunqueue hrem).trans (of_block hr fun _ => ⟨rfl, rfl, rfl⟩)).trans
              (futexResume _)

theorem blockOnFutex (s : State) (uaddr : Nat) : Quiet s (s.blockOnFutex uaddr) := by
  unfold State.blockOnFutex
  split
  · exact .refl s
  · split
    · exact .congr rfl rfl rfl rfl
    next hrem =>
      exact (removeFromRunqueue hrem).trans
        (block _ true (f := fun t => { t with blockedOn := uaddr }) fun _ => ⟨rfl, rfl, rfl⟩)

theorem futexLockPi (s : State) (uaddr : Nat) : Quiet s (s.futexLockPi uaddr).2 := by
  unfold State.futexLockPi
  split
  · exact .refl s
  · split
    · exact .refl s
    next pa _ =>
      simp only
      split
      · exact .congr rfl rfl rfl rfl
      · generalize Function.update s.word _ _ = w
        have hword : Quiet s { s with word := w } := .congr rfl rfl rfl rfl
        split
        · exact .congr rfl rfl rfl rfl
        next hb =>
          split <;>
          next hr =>
            exact (hword.trans (reweighed (.boostOwner hb))).trans
              (of_block hr fun _ => ⟨rfl, rfl, rfl⟩)

theorem wakeTask (s : State) (i tid : Nat) (hf : ∀ t, SameSpace t (f t)) :
    Quiet s (s.wakeTask i tid f) :=
  (setTask s i (f := fun t => { f t with state := .ready })
    fun t => ⟨(hf t).id, (hf t).pml4, (hf t).addrSpacePrivate⟩).trans (enqueueTask ..)

theorem futexUnlockPi (s : State) (uaddr : Nat) : Quiet s (s.futexUnlockPi uaddr).2 := by
  unfold State.futexUnlockPi
  split
  · exact .refl s
  · split
    · exact .congr rfl rfl rfl rfl
    next hu =>
      split
      · exact (reweighed (.unboost hu)).trans (storeWord ..)
      · exact ((reweighed (.unboost hu)).trans (storeWord ..)).trans
          (wakeTask _ _ _ fun _ => ⟨rfl, rfl, rfl⟩)

theorem sysRtSigsuspend (s : State) (null : Bool) (mask : UInt64) :
    Quiet s (s.sysRtSigsuspend null mask).2 := by
  unfold State.sysRtSigsuspend
  split
  · exact .refl s
  · simp only
    split
    · exact .congr rfl rfl rfl rfl
    · split
      · exact .refl s
      · split
        next hr => exact of_block hr fun _ => ⟨rfl, rfl, rfl⟩
        next z hr =>
          exact (of_block hr fun _ => ⟨rfl, rfl, rfl⟩).trans (setTask z _ (f := fun u =>
            { u with signals := { u.signals with blocked := (s.task s.current).signals.blocked } })
            fun _ => ⟨rfl, rfl, rfl⟩)

theorem enterTimer (s : State) (user : Bool) : Quiet s (s.enterTimer user) := by
  unfold State.enterTimer
  simp only
  split
  · exact (setTask s (taskIdx s.current) (f := fun t => { t with userMode := user })
      fun _ => ⟨rfl, rfl, rfl⟩).trans (.congr rfl rfl rfl rfl)
  · exact .congr rfl rfl rfl rfl

theorem timerSwitch (s : State) : Quiet s s.timerSwitch := by
  unfold State.timerSwitch
  obtain ⟨t, rq, hd⟩ := s.dequeueTask_eq
  have hq : Quiet s { s with rq := rq } := .congr rfl rfl rfl rfl
  simp only [hd]
  cases t with
  | none => exact hq
  | some next =>
    simp only
    split
    · exact hq
    · have hready := hq.trans (setTask _ (taskIdx s.current)
        (f := fun t => { t with state := .ready }) fun _ => ⟨rfl, rfl, rfl⟩)
      have hback := hready.trans (enqueueTask _ s.current
        (State.task { s with rq := rq } s.current).prio)
      have hrun := hback.trans (setTask _ (taskIdx next)
        (f := fun t => { t with state := .running })
        fun _ => ⟨rfl, rfl, rfl⟩)
      exact hrun.trans (.congr rfl rfl rfl rfl)

theorem timerSchedule (s : State) : Quiet s s.timerSchedule := by
  have hwake : Quiet s s.wakeupExpiredSleepers :=
    woke (.wakeAll s fun _ _ hb => ⟨rfl, rfl, rfl, rfl, rfl, rfl, rfl, .inr ⟨hb, rfl⟩⟩)
  unfold State.timerSchedule
  generalize s.wakeupExpiredSleepers = w at hwake
  have hslice : Quiet s (w.setTask (taskIdx w.current) fun t =>
      { t with timeSlice := t.timeSlice - 1 }) := hwake.trans (setTask w _ fun _ => ⟨rfl, rfl, rfl⟩)
  simp only
  split
  · exact hwake
  · split
    · exact hwake
    · split
      · exact hwake
      · split
        · exact hwake
        · split
          · exact hslice
          · split
            · exact hslice
            · exact (hslice.trans (setTask _ (taskIdx w.current) (f := fun t =>
                { t with timeSlice := initialTimeSlice t.prio }) fun _ => ⟨rfl, rfl, rfl⟩)).trans
                (timerSwitch _)

theorem interrupt (s : State) (e : Event) : Quiet s (s.interrupt e) := by
  cases e with
  | call c => exact .refl s
  | tick user =>
    simp only [State.interrupt]
    exact (enterTimer s _).trans (timerSchedule _)
  | irq uaddr => exact woke (.futexWake s uaddr 1)
  | key fg sig => exact signalForegroundGroup s fg sig

end Quiet

/-- The calls that create no task and reap none, and neither replace a page table nor open a
descriptor. -/
def Call.plain : Call → Bool
  | .createKernel .. | .spawn .. | .fork .. | .clone .. | .execve .. | .waitpid .. | .files _ =>
    false
  | _ => true

theorem Quiet.call {c : Call} (hc : c.plain = true) : Quiet s (s.call c) := by
  by_cases hset : c.sets = true
  · obtain ⟨f, hf, heq⟩ := call_sets s hset
    rw [heq]
    exact setTask s _ fun t => ⟨(hf t).id, (hf t).pml4, (hf t).addrSpacePrivate⟩
  cases c with
  | createKernel | spawn | fork | clone | execve | waitpid | files => cases hc
  | syscall | futexResume | pollResume | setMask | setAction | setpgid | setsid =>
    exact absurd rfl hset
  | yieldNow => exact yieldNow s
  | yieldNowForce => exact yieldNowForce s
  | sleep ticks =>
    simp only [State.call, State.sysSleep]
    split
    · exact .refl s
    · exact block s true (f := fun t => { t with wakeupTick := _ }) fun _ => ⟨rfl, rfl, rfl⟩
  | futexWait uaddr val timeout => exact futexWait s uaddr val timeout
  | futexWake uaddr maxWake => exact woke (.futexWake s uaddr maxWake)
  | futexLockPi uaddr => exact futexLockPi s uaddr
  | futexUnlockPi uaddr => exact futexUnlockPi s uaddr
  | blockOnFutex uaddr => exact blockOnFutex s uaddr
  | readEmpty addr =>
    exact block s false (f := fun t => { t with blockedOn := addr }) fun _ => ⟨rfl, rfl, rfl⟩
  | pipeWakeWaiters =>
    simp only [State.call, State.pipeWakeWaiters]
    exact woke (.wakeAll s fun _ _ hb => ⟨rfl, rfl, rfl, rfl, rfl, rfl, rfl, .inr ⟨hb, rfl⟩⟩)
  | pollBlock fds deadline =>
    exact block s true (f := fun t => { t with wakeupTick := deadline, pollFds := fds })
      fun _ => ⟨rfl, rfl, rfl⟩
  | sigsuspend null mask => exact sysRtSigsuspend s null mask
  | kill pid sig => exact sysKill s pid sig
  | tkill tid sig =>
    simp only [State.call]
    split
    · exact .refl s
    · exact sigDeliverToTask s _ sig
  | checkDeliverSignal restore => exact checkDeliverSignal s restore
  | exit code => exact exitTask s code
  | store va value => exact storeWord s va value
  | remap space => exact .congr rfl rfl rfl rfl

end Rynex.Sched
