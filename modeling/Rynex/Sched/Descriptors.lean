import Rynex.Sched.Frame

/-! What a new task finds in its descriptor table. The tables are indexed by pids, which are used
again; `exit_task` closes the descriptors of a task, and `kill_task_zombie` does not. -/

namespace Rynex.Sched

open Rynex.Lib State

variable {s s' : State} {t tid fd : Nat}

/-- No descriptor in this table is open. -/
def Closed (sys : Pipe.Sys) (t : Nat) : Prop :=
  ∀ fd, fd < Pipe.maxFdsPerTask → (sys.tables t fd).used = false

instance (sys : Pipe.Sys) (t : Nat) : Decidable (Closed sys t) :=
  inferInstanceAs (Decidable (∀ fd, fd < Pipe.maxFdsPerTask → _))

/-- The table of a free pid has no open descriptor. -/
def Clean (s : State) : Prop := ∀ p, p < maxTasks → s.pids p = false → Closed s.files p

/-- What the creation of a task gives it: nothing to a kernel task, the console as descriptors 0, 1
and 2 to a task that is started from an image, and the table of its parent to a child. -/
def AsGiven (s : State) : Call → Prop
  | .createKernel prio pml4 stack =>
    ∀ tid s', s.createKernelTaskPrio prio pml4 stack = (some tid, s') → Closed s'.files tid
  | .spawn prio pml4 userStack stack tls console =>
    ∀ tid s', s.createUserTaskOnCpu prio pml4 userStack stack tls console = (some tid, s') →
      ∀ fd, fd < Pipe.maxFdsPerTask → (s'.files.tables tid fd).used = (console.isSome && fd < 3) ∧
        (fd < 3 → ∀ c ∈ console, (s'.files.tables tid fd).inodeIdx = c)
  | .fork stack pml4 =>
    ∀ (tid : Nat) s', s.sysFork stack pml4 = ((tid : Int), s') →
      s'.files.tables tid = s.files.tables (s.current % maxTasks)
  | .clone flags childStack parentTidptr childTidptr stack pml4 =>
    ∀ (tid : Nat) s', s.sysClone flags childStack parentTidptr childTidptr stack pml4 =
      ((tid : Int), s') → s'.files.tables tid = s.files.tables (s.current % maxTasks)
  | _ => True

/-! ### Creation from a clean table -/

theorem freeFd_of_below {sys : Pipe.Sys} (hbelow : ∀ fd' < fd, (sys.tables t fd').used = true)
    (hfree : (sys.tables t fd).used = false) (hlt : fd < Pipe.maxFdsPerTask) :
    sys.freeFd t 0 = some fd := by
  refine List.find?_eq_some_iff_append.mpr ⟨by simp [hfree], List.range' 0 fd,
    List.range' (fd + 1) (Pipe.maxFdsPerTask - fd - 1), ?_, fun fd' hmem => ?_⟩
  · have hsplit : Pipe.maxFdsPerTask - 0 = fd + ((Pipe.maxFdsPerTask - fd - 1) + 1) := by omega
    rw [hsplit, ← List.range'_append_1, List.range'_succ]
    simp
  · have := (List.mem_range'_1.mp hmem).2
    simp [hbelow fd' (by omega)]

theorem allocFdForTask_files (inode : Nat) (flags : BitVec 32) (htid : tid < maxTasks)
    (hbelow : ∀ fd' < fd, (s.files.tables tid fd').used = true)
    (hfree : (s.files.tables tid fd).used = false) (hlt : fd < Pipe.maxFdsPerTask) :
    (s.allocFdForTask tid inode flags).files = s.files.setFd tid fd ⟨inode, 0, true, flags⟩ := by
  have hidx : tid % maxTasks = tid := Nat.mod_eq_of_lt htid
  simp [State.allocFdForTask, Pipe.Sys.allocFd, hidx, freeFd_of_below hbelow hfree hlt]

theorem tables_setFd (sys : Pipe.Sys) (t fd : Nat) (d : Pipe.FileDesc) :
    (sys.setFd t fd d).tables t = Function.update (sys.tables t) fd d := by
  simp [Pipe.Sys.setFd]

theorem console_files {c : Nat} (htid : tid < maxTasks) (hclosed : Closed s.files tid) :
    (((s.allocFdForTask tid c 0).allocFdForTask tid c 1).allocFdForTask tid c 1).files.tables tid =
      Function.update (Function.update (Function.update (s.files.tables tid) 0 ⟨c, 0, true, 0⟩)
        1 ⟨c, 0, true, 1⟩) 2 ⟨c, 0, true, 1⟩ := by
  have hmax : 2 < Pipe.maxFdsPerTask := by decide
  have h₀ := allocFdForTask_files c 0 htid (fun _ h => absurd h (Nat.not_lt_zero _))
    (hclosed 0 (by omega)) (by omega)
  have t₀ : (s.allocFdForTask tid c 0).files.tables tid =
      Function.update (s.files.tables tid) 0 ⟨c, 0, true, 0⟩ := by rw [h₀, tables_setFd]
  have u₁ : ((s.allocFdForTask tid c 0).files.tables tid 1).used = false := by
    rw [t₀]
    simpa using hclosed 1 (by omega)
  have h₁ := allocFdForTask_files c 1 htid
    (fun fd' h => by rw [t₀]; simp [Nat.lt_one_iff.mp h]) u₁ (by omega)
  have t₁ : ((s.allocFdForTask tid c 0).allocFdForTask tid c 1).files.tables tid =
      Function.update (Function.update (s.files.tables tid) 0 ⟨c, 0, true, 0⟩) 1
        ⟨c, 0, true, 1⟩ := by
    rw [h₁, tables_setFd, t₀]
  have u₂ : (((s.allocFdForTask tid c 0).allocFdForTask tid c 1).files.tables tid 2).used =
    false := by
    rw [t₁]
    simpa using hclosed 2 hmax
  have h₂ := allocFdForTask_files c 1 htid (fun fd' h => by
    rw [t₁]
    interval_cases fd' <;> simp) u₂ hmax
  rw [h₂, tables_setFd, t₁]

theorem tables_inheritFds (sys : Pipe.Sys) (parent child : Nat) :
    (inheritFds sys parent child).tables = Function.update sys.tables child (sys.tables parent) :=
      rfl

theorem files_freePid (s : State) (tid : Nat) : (s.freePid tid).files = s.files := by
  unfold State.freePid
  split <;> rfl

theorem tables_of_inherited {min : Nat} {short : Prop} {back : Bool} {kept : Nat → Pipe.Sys}
    {made : Nat → Task → Prop} (hc : Creates s min short back kept
      (fun tid f => f = inheritFds s.files (s.current % maxTasks) (tid % maxTasks)) made (some tid)
        s') :
    s'.files.tables tid = s.files.tables (s.current % maxTasks) := by
  cases hc with
  | done hf _ _ hfiles =>
    rw [hfiles, tables_inheritFds, Nat.mod_eq_of_lt hf.lt, Function.update_self]

/-- From a clean state every new task gets what its creation gives it. -/
theorem Clean.asGiven (h : Clean s) (c : Call) : AsGiven s c := by
  cases c with
  | createKernel prio pml4 stack =>
    intro tid s' hr
    have hc := createKernelTaskPrio_creates s prio pml4 stack
    rw [hr] at hc
    cases hc with
    | done hf _ _ hfiles =>
      rw [hfiles]
      exact h tid hf.lt hf.free
  | spawn prio pml4 userStack stack tls console =>
    intro tid s' hr fd hfd
    have hc := createUserTaskOnCpu_creates s prio pml4 userStack stack tls console
    rw [hr] at hc
    cases hc with
    | done hf _ _ hfiles =>
      obtain ⟨w, hw, hfiles⟩ := hfiles
      have hclosed := h tid hf.lt hf.free
      rw [← hw] at hclosed
      rw [hfiles]
      cases console with
      | none =>
        refine ⟨?_, fun _ c hc => by cases hc⟩
        simp only [withConsole, Option.isSome_none, Bool.false_and]
        exact hclosed fd hfd
      | some i =>
        have htables := console_files (s := w) (c := i) hf.lt hclosed
        simp only [withConsole, htables, Option.isSome_some, Bool.true_and]
        by_cases hlow : fd < 3
        · interval_cases fd <;> simp
        · have hne : fd ≠ 0 ∧ fd ≠ 1 ∧ fd ≠ 2 := by omega
          simp [hne, hlow, hclosed fd hfd]
  | fork stack pml4 =>
    intro tid s' hr
    obtain ⟨r, hc, hanswer⟩ := sysFork_creates s stack pml4
    rw [hr] at hc hanswer
    obtain rfl := hanswer tid rfl
    exact tables_of_inherited hc
  | clone flags childStack parentTidptr childTidptr stack pml4 =>
    intro tid s' hr
    obtain ⟨r, hc, hanswer⟩ := sysClone_creates s flags childStack parentTidptr childTidptr stack
      pml4
    rw [hr] at hc hanswer
    obtain rfl := hanswer tid rfl
    exact tables_of_inherited hc
  | _ => trivial

/-! ### The calls on descriptors -/

section

variable {sys sys' : Pipe.Sys} {t' : Nat}

theorem tables_setFd_ne (d : Pipe.FileDesc) (h : t' ≠ t) :
    (sys.setFd t fd d).tables t' = sys.tables t' := by simp [Pipe.Sys.setFd, h]

theorem tables_allocFd_ne {inode : Nat} {flags : BitVec 32} {n : Nat}
    (hr : sys.allocFd t inode flags = some (n, sys')) (h : t' ≠ t) :
    sys'.tables t' = sys.tables t' := by
  simp only [Pipe.Sys.allocFd, Option.map_eq_some_iff, Prod.mk.injEq] at hr
  obtain ⟨n', -, -, rfl⟩ := hr
  exact tables_setFd_ne _ h

theorem tables_closeFd_ne (h : t' ≠ t) : (sys.closeFd t fd).2.tables t' = sys.tables t' := by
  unfold Pipe.Sys.closeFd
  split
  · exact tables_setFd_ne _ h
  · rfl

theorem tables_copyFd_ne {newfd : Nat} (h : t' ≠ t) :
    (sys.copyFd t fd newfd).tables t' = sys.tables t' := tables_setFd_ne _ h

theorem tables_sysDup2_ne {newfd : Nat} (h : t' ≠ t) :
    (sys.sysDup2 t fd newfd).2.tables t' = sys.tables t' := by
  unfold Pipe.Sys.sysDup2
  split
  · rfl
  · split
    · rfl
    · split
      · exact tables_copyFd_ne h
      · rfl

theorem tables_sysPipe_ne {null : Bool} (h : t' ≠ t) :
    (sys.sysPipe t null).2.2.tables t' = sys.tables t' := by
  unfold Pipe.Sys.sysPipe
  split
  · rfl
  · split
    · rfl
    · simp only
      split
      · rfl
      next r s₁ h₁ =>
        have e₁ := tables_allocFd_ne h₁ h
        split
        · have hclose : (s₁.closeFd t r).2.tables t' = s₁.tables t' := tables_closeFd_ne h
          exact hclose.trans e₁
        next w s₂ h₂ => exact (tables_allocFd_ne h₂ h).trans e₁

theorem tables_sysFcntl_ne {cmd : Int} {arg : BitVec 64} (h : t' ≠ t) :
    (sys.sysFcntl t fd cmd arg).2.tables t' = sys.tables t' := by
  unfold Pipe.Sys.sysFcntl
  split
  · exact tables_sysDup2_ne h
  · rfl
  · rfl
  · split <;> rfl
  · split
    · exact tables_setFd_ne _ h
    · rfl
  · rfl
  · rfl
  · rfl
  · split
    · rfl
    · split
      · exact tables_copyFd_ne h
      · rfl
  · rfl

theorem FileCall.tables_run_ne (c : FileCall) (h : t' ≠ t) :
    (c.run sys t).tables t' = sys.tables t' := by
  cases c with
  | alloc inode flags =>
    simp only [FileCall.run]
    split
    · rfl
    next hr => exact tables_allocFd_ne hr h
  | pipe null => exact tables_sysPipe_ne h
  | dup2 oldfd newfd => exact tables_sysDup2_ne h
  | fcntl fd cmd arg => exact tables_sysFcntl_ne h
  | close fd => exact tables_closeFd_ne h

end

/-! ### Every run -/

def reaped (s : State) (pid : Int) : Option Nat :=
  ((List.range maxTasks).filter (s.isChild pid)).find? fun i => (s.tasks i).state = .zombie

/-- A fork that fails is made by a task without open descriptors, a zombie that is reaped has none,
and calls on descriptors come from a task that has its pid. -/
def tidy (s : State) : Event → Bool
  | .call (.fork stack pml4) => stack && pml4.isSome || Closed s.files (s.current % maxTasks)
  | .call (.waitpid pid _) => (reaped s pid).all fun i => Closed s.files (s.tasks i).id
  | .call (.files _) => s.pids (s.current % maxTasks)
  | _ => true

namespace Clean

theorem quiet (h : Clean s) (hq : Quiet s s') : Clean s' := by
  intro p hp hf fd hfd
  by_contra hu
  have := hq.opens p fd (by simpa using hu)
  rw [h p hp (hq.pids ▸ hf) fd hfd] at this
  cases this

theorem take (h : Clean s) (tid : Nat) (htaken : s'.pids tid = true)
    (hpids : ∀ p, p ≠ tid → s'.pids p = s.pids p)
    (hfiles : ∀ p, p ≠ tid → s'.files.tables p = s.files.tables p) : Clean s' := by
  intro p hp hf
  have hne : p ≠ tid := by
    rintro rfl
    rw [htaken] at hf
    cases hf
  intro fd hfd
  rw [hfiles p hne]
  exact h p hp (hpids p hne ▸ hf) fd hfd

theorem freePid (h : Clean s) (hc : Closed s.files tid) : Clean (s.freePid tid) := by
  intro p hp hf
  rw [files_freePid]
  obtain rfl | hne := eq_or_ne p tid
  · exact hc
  · refine h p hp ?_
    unfold State.freePid at hf
    split at hf
    · exact hf
    · simpa [hne] using hf

theorem congr (h : Clean s) (hpids : s'.pids = s.pids) (hfiles : s'.files = s.files) :
    Clean s' := by
  intro p hp hf
  rw [hfiles]
  exact h p hp (hpids ▸ hf)

theorem created {min : Nat} {short : Prop} {back : Bool} {kept : Nat → Pipe.Sys}
    {given : Nat → Pipe.Sys → Prop} {made : Nat → Task → Prop} {r : Option Nat} (h : Clean s)
    (hkept : ∀ tid < maxTasks, ∀ p ≠ tid, (kept tid).tables p = s.files.tables p)
    (hback : short → back = true → ∀ tid < maxTasks, Closed (kept tid) tid)
    (hgiven : ∀ tid f, tid < maxTasks → given tid f → ∀ p ≠ tid, f.tables p = s.files.tables p)
    (hc : Creates s min short back kept given made r s') : Clean s' := by
  cases hc with
  | noPid => exact h
  | @noMemory tid hf hshort =>
    have htaken : Clean { s with pids := Function.update s.pids tid true, files := kept tid } :=
      h.take tid (Function.update_self ..) (fun p hne => Function.update_of_ne hne ..)
        (hkept tid hf.lt)
    dsimp only
    split
    next hb => exact htaken.freePid (hback hshort hb tid hf.lt)
    next => exact htaken
  | @done tid u _ hf _ ha hfiles =>
    refine h.take tid ?_ (fun p hne => ?_) (hgiven tid _ hf.lt hfiles)
    · rw [ha.pids, Function.update_self]
    · rw [ha.pids, Function.update_of_ne hne]

theorem tables_allocFdForTask_ne {p : Nat} (w : State) (inode : Nat) (flags : BitVec 32)
    (hlt : tid < maxTasks) (hne : p ≠ tid) :
    (w.allocFdForTask tid inode flags).files.tables p = w.files.tables p := by
  unfold State.allocFdForTask
  split
  · rfl
  next hr =>
    rw [Nat.mod_eq_of_lt hlt] at hr
    exact tables_allocFd_ne hr hne

theorem createUserTaskOnCpu {prio : Prio} {pml4 userStack : Nat} {stack tls : Bool}
    {console : Option Nat} (h : Clean s) :
    Clean (s.createUserTaskOnCpu prio pml4 userStack stack tls console).2 := by
  refine h.created (fun _ _ _ _ => rfl) (fun _ hb => by cases hb) (fun tid f hlt hf p hne => ?_)
    (createUserTaskOnCpu_creates s prio pml4 userStack stack tls console)
  obtain ⟨w, hw, rfl⟩ := hf
  rw [← hw]
  cases console with
  | none => rfl
  | some c =>
    rw [withConsole, tables_allocFdForTask_ne _ _ _ hlt hne, tables_allocFdForTask_ne _ _ _ hlt hne,
      tables_allocFdForTask_ne _ _ _ hlt hne]

theorem tables_inherited_ne {parent p : Nat} (sys : Pipe.Sys) (hlt : tid < maxTasks)
    (hne : p ≠ tid) :
    (inheritFds sys parent (tid % maxTasks)).tables p = sys.tables p := by
  rw [tables_inheritFds, Nat.mod_eq_of_lt hlt, Function.update_of_ne hne]

theorem sysFork {stack : Bool} {pml4 : Option Nat} (h : Clean s)
    (hok : stack = true ∧ pml4.isSome = true ∨ Closed s.files (s.current % maxTasks)) :
    Clean (s.sysFork stack pml4).2 := by
  obtain ⟨r, hc, -⟩ := sysFork_creates s stack pml4
  refine h.created (fun tid hlt p hne => tables_inherited_ne _ hlt hne) (fun hshort _ tid hlt => ?_)
    (fun tid f hlt (hf : f = _) p hne => hf ▸ tables_inherited_ne _ hlt hne) hc
  have hclosed : Closed s.files (s.current % maxTasks) := by
    refine hok.resolve_left fun hs => ?_
    rcases hshort with rfl | rfl
    · cases hs.1
    · cases hs.2
  unfold Closed
  rw [tables_inheritFds, Nat.mod_eq_of_lt hlt, Function.update_self]
  exact hclosed

theorem sysClone {flags : UInt64} {childStack parentTidptr childTidptr : Nat} {stack : Bool}
    {pml4 : Option Nat} (h : Clean s) :
    Clean (s.sysClone flags childStack parentTidptr childTidptr stack pml4).2 := by
  obtain ⟨r, hc, -⟩ := sysClone_creates s flags childStack parentTidptr childTidptr stack pml4
  exact h.created (fun tid hlt p hne => tables_inherited_ne _ hlt hne) (fun _ hb => by cases hb)
    (fun tid f hlt (hf : f = _) p hne => hf ▸ tables_inherited_ne _ hlt hne) hc

theorem sysWaitpid {pid : Int} {nohang : Bool} (h : Clean s)
    (hok : ∀ i ∈ reaped s pid, Closed s.files (s.tasks i).id) :
    Clean (s.sysWaitpid pid nohang).2 := by
  rcases sysWaitpid_cases s pid nohang with hr | ⟨i, -, -, -, hfind, hr⟩ | ⟨uaddr, val, hr⟩ | hr <;>
    rw [hr]
  · exact h
  · have hclosed := hok i hfind
    unfold State.reap
    simp only
    split <;> exact Clean.freePid (s := State.putTask _ _ _) (h.congr rfl rfl) hclosed
  · exact h.quiet (.futexWait ..)
  · exact h.quiet (.yieldNowForce s)

theorem call {c : Call} (h : Clean s) (hok : tidy s (.call c) = true) : Clean (s.call c) := by
  cases hc : c.plain with
  | true => exact h.quiet (.call hc)
  | false =>
    cases c with
    | createKernel prio pml4 stack =>
      exact h.created (fun _ _ _ _ => rfl) (fun _ hb => by cases hb)
        (fun _ _ _ hf _ _ => by rw [hf])
        (createKernelTaskPrio_creates s prio pml4 stack)
    | spawn prio pml4 userStack stack tls console => exact h.createUserTaskOnCpu
    | fork stack pml4 =>
      refine h.sysFork ?_
      simpa [tidy] using hok
    | clone flags childStack parentTidptr childTidptr stack pml4 => exact h.sysClone
    | execve pml4 userStack =>
      simp only [State.call, State.execveCommit]
      split <;> exact h.congr rfl rfl
    | waitpid pid nohang =>
      refine h.sysWaitpid fun i hi => ?_
      simp only [tidy] at hok
      rw [hi] at hok
      simpa using hok
    | files c =>
      exact h.take (s.current % maxTasks) hok (fun _ _ => rfl) fun p hne => c.tables_run_ne hne
    | _ => cases hc

theorem step {e : Event} (h : Clean s) (hok : tidy s e = true) : Clean (s.step e) := by
  have hpoll : ∀ {s : State}, Clean s → Clean (if s.idle then s.idlePoll else s) := by
    intro s hs
    split
    · exact hs.quiet (.idlePoll s)
    · exact hs
  unfold State.step
  split
  · exact h
  · cases e with
    | call c =>
      simp only
      split
      · exact h
      · exact h.call hok
    | tick user => exact hpoll (h.quiet (.interrupt s (.tick user)))
    | irq uaddr => exact hpoll (h.quiet (.interrupt s (.irq uaddr)))
    | key fg sig => exact hpoll (h.quiet (.interrupt s (.key fg sig)))

end Clean

theorem new_tables_as_given (kernelPml4 initPml4 userStack : Nat) (space : Nat → Nat → Option Nat)
    (es : List Event) (c : Call) (h : Steps State.step (fun s e => tidy s e = true)
      (boot kernelPml4 initPml4 userStack space) es) :
    AsGiven (es.foldl State.step (boot kernelPml4 initPml4 userStack space)) c := by
  refine Clean.asGiven (h.invariant (I := Clean) (fun _ _ hs hok => hs.step hok) ?_) c
  exact fun p _ _ fd _ => rfl

/-- A child with an open file exits and is reaped, and its pid is used for a new image. -/
theorem new_tables_as_given_exit :
    let s := boot 0x1000 0x2000 0x7000 fun _ _ => none
    let es : List Event := [.call (.files (.alloc 5 0)), .call (.fork true (some 0x3000)),
      .call .yieldNowForce, .call (.exit 0), .call (.waitpid 2 true)]
    ((es.foldl State.step s).createUserTaskOnCpu 20 0x4000 0x7000 true true (some 7)).1 = some 2 ∧
      AsGiven (es.foldl State.step s) (.spawn 20 0x4000 0x7000 true true (some 7)) :=
  ⟨by decide +kernel, new_tables_as_given _ _ _ _ _ _ (by decide +kernel)⟩

theorem not_asGiven_of_used {prio : Prio} {pml4 userStack n : Nat} {stack tls : Bool}
    {console : Option Nat}
    (hr : (s.createUserTaskOnCpu prio pml4 userStack stack tls console).1 = some n)
    (hu : ((s.createUserTaskOnCpu prio pml4 userStack stack tls console).2.files.tables n 3).used =
      true) : ¬ AsGiven s (.spawn prio pml4 userStack stack tls console) := by
  intro h
  have h3 := (h n _ (Prod.ext hr rfl) 3 (by decide)).1
  rw [hu] at h3
  simp at h3

/-- A child with an open file is killed and reaped, and its pid is used for a new image: the file of
the dead task is its descriptor 0, and the console comes after it. -/
theorem killed_task_leaves_file :
    let s := [Event.call (.files (.alloc 5 0)), .call (.fork true (some 0x3000)), .call (.kill 2 9),
      .call (.waitpid 2 true)].foldl State.step (boot 0x1000 0x2000 0x7000 fun _ _ => none)
    let r := s.createUserTaskOnCpu 20 0x4000 0x7000 true true (some 7)
    r.1 = some 2 ∧ (r.2.files.tables 2 0).used = true ∧ (r.2.files.tables 2 0).inodeIdx = 5 ∧
      ¬ AsGiven s (.spawn 20 0x4000 0x7000 true true (some 7)) := by
  refine ⟨by decide, by decide, by decide, ?_⟩
  exact not_asGiven_of_used (n := 2) (by decide) (by decide)

end Rynex.Sched
