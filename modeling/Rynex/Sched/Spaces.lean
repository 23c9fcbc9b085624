import Rynex.Sched.Frame

/-! Who owns an address space. Ownership is a flag of each task, which `sys_clone` clears for the
child only, which `sys_execve` sets before it looks at it, and which decides in `sys_waitpid`
whether the page tables of a zombie are freed. -/

namespace Rynex.Sched

open Rynex.Lib State

variable {s s' : State} {i tid : Nat}

/-- A task is in the slot of its number, the page table of an owner is used by nobody else, a free
pid owns nothing, and no address space was freed that another live task still used. -/
structure Owned (s : State) : Prop where
  ids : ∀ i, i < maxTasks → (s.tasks i).id ≠ 0 → (s.tasks i).id = i
  exclusive : ∀ i j, i < maxTasks → j < maxTasks → i ≠ j → (s.tasks i).addrSpacePrivate = true →
    (s.tasks i).pml4 ≠ 0 → (s.tasks j).pml4 ≠ (s.tasks i).pml4
  free : ∀ p, p < maxTasks → s.pids p = false → (s.tasks p).addrSpacePrivate = false
  unused : ∀ f ∈ s.frees, f.users = []

namespace Owned

theorem frame (h : Owned s) (hspaces : ∀ i, SameSpace (s.tasks i) (s'.tasks i))
    (hpids : s'.pids = s.pids) (hfrees : s'.frees = s.frees) : Owned s' where
  ids i hi hne := by
    rw [(hspaces i).id] at hne ⊢
    exact h.ids i hi hne
  exclusive i j hi hj hij hp hz := by
    rw [(hspaces i).addrSpacePrivate] at hp
    rw [(hspaces i).pml4] at hz ⊢
    rw [(hspaces j).pml4]
    exact h.exclusive i j hi hj hij hp hz
  free p hp hf := by
    rw [(hspaces p).addrSpacePrivate]
    exact h.free p hp (hpids ▸ hf)
  unused f hf := h.unused f (hfrees ▸ hf)

theorem quiet (h : Owned s) (hq : Quiet s s') : Owned s' := h.frame hq.spaces hq.pids hq.frees

theorem congr (h : Owned s) (htasks : s'.tasks = s.tasks) (hpids : s'.pids = s.pids)
    (hfrees : s'.frees = s.frees) : Owned s' :=
  h.frame (fun i => by rw [htasks]; exact ⟨rfl, rfl, rfl⟩) hpids hfrees

def unusedPml4 (s : State) (pml4 : Nat) : Bool :=
  (List.range maxTasks).all fun j => (s.tasks j).pml4 ≠ pml4

def unowned (s : State) (pml4 : Nat) : Bool :=
  (List.range maxTasks).all fun j =>
    !(s.tasks j).addrSpacePrivate || (s.tasks j).pml4 = 0 || (s.tasks j).pml4 ≠ pml4

theorem pml4_ne_of_unused {pml4 j : Nat} (h : unusedPml4 s pml4 = true) (hj : j < maxTasks) :
    (s.tasks j).pml4 ≠ pml4 := by
  simpa using List.all_eq_true.mp h j (List.mem_range.mpr hj)

theorem pml4_ne_of_unowned {pml4 j : Nat} (h : unowned s pml4 = true) (hj : j < maxTasks)
    (hp : (s.tasks j).addrSpacePrivate = true) (hz : (s.tasks j).pml4 ≠ 0) :
    (s.tasks j).pml4 ≠ pml4 := by
  simpa [hp, hz] using List.all_eq_true.mp h j (List.mem_range.mpr hj)

/-- A slot is written: with a new page table, or with one that has no owner and without owning
it. -/
theorem write {u : Task} (h : Owned s) (hid : u.id = 0 ∨ u.id = i)
    (hnew : unusedPml4 s u.pml4 = true ∨ unowned s u.pml4 = true ∧ u.addrSpacePrivate = false)
    (hpid : s'.pids i = false → u.addrSpacePrivate = false)
    (htasks : s'.tasks = Function.update s.tasks i u)
    (hpids : ∀ p, p ≠ i → s'.pids p = s.pids p) (hfrees : s'.frees = s.frees) : Owned s' := by
  have hself : s'.tasks i = u := by rw [htasks, Function.update_self]
  have hother : ∀ j, j ≠ i → s'.tasks j = s.tasks j := fun j hj => by
    rw [htasks, Function.update_of_ne hj]
  refine ⟨fun j hj hne => ?_, fun j k hj hk hjk hp hz => ?_, fun p hp hf => ?_,
    fun f hf => h.unused f (hfrees ▸ hf)⟩
  · obtain rfl | hji := eq_or_ne j i
    · rw [hself] at hne ⊢
      exact hid.resolve_left hne
    · rw [hother j hji] at hne ⊢
      exact h.ids j hj hne
  · obtain rfl | hji := eq_or_ne j i
    · rw [hself] at hp ⊢
      rw [hother k hjk.symm]
      rcases hnew with hnew | ⟨-, hnp⟩
      · exact pml4_ne_of_unused hnew hk
      · rw [hnp] at hp
        cases hp
    · rw [hother j hji] at hp hz ⊢
      obtain rfl | hki := eq_or_ne k i
      · rw [hself]
        rcases hnew with hnew | ⟨hnew, -⟩
        · exact (pml4_ne_of_unused hnew hj).symm
        · exact (pml4_ne_of_unowned hnew hj hp hz).symm
      · rw [hother k hki]
        exact h.exclusive j k hj hk hjk hp hz
  · obtain rfl | hpi := eq_or_ne p i
    · rw [hself]
      exact hpid hf
    · rw [hother p hpi]
      exact h.free p hp (by rwa [hpids p hpi] at hf)

theorem freeAddressSpace {pml4 owner : Nat} (h : Owned s)
    (honly : ∀ j, j < maxTasks → j ≠ owner → (s.tasks j).pml4 ≠ pml4) :
    Owned (s.freeAddressSpace pml4 owner) := by
  refine ⟨h.ids, h.exclusive, h.free, fun f hf => ?_⟩
  simp only [State.freeAddressSpace, List.mem_append, List.mem_singleton] at hf
  rcases hf with hf | rfl
  · exact h.unused f hf
  · refine List.filter_eq_nil_iff.mpr fun j hj => ?_
    simp only [Bool.and_eq_true, decide_eq_true_eq, not_and]
    exact fun hne => honly j (List.mem_range.mp hj) hne.1

/-! ### Creation -/

theorem takePid (h : Owned s) (tid : Nat) :
    Owned { s with pids := Function.update s.pids tid true } := by
  refine ⟨h.ids, h.exclusive, fun p hp hf => ?_, h.unused⟩
  obtain rfl | hne := eq_or_ne p tid
  · simp at hf
  · exact h.free p hp (by simpa [hne] using hf)

theorem freePid (h : Owned s) (tid : Nat)
    (hn : tid < maxTasks → (s.tasks tid).addrSpacePrivate = false) :
    Owned (s.freePid tid) := by
  unfold State.freePid
  split
  · exact h
  · refine ⟨h.ids, h.exclusive, fun p hp hf => ?_, h.unused⟩
    obtain rfl | hne := eq_or_ne p tid
    · exact hn hp
    · exact h.free p hp (by simpa [hne] using hf)

theorem created {min : Nat} {short : Prop} {back : Bool} {kept : Nat → Pipe.Sys}
    {given : Nat → Pipe.Sys → Prop} {made : Nat → Task → Prop} {r : Option Nat} (h : Owned s)
    (hmade : ∀ tid u, Fresh s min tid → made tid u →
      unusedPml4 s u.pml4 = true ∨ unowned s u.pml4 = true ∧ u.addrSpacePrivate = false)
    (hc : Creates s min short back kept given made r s') : Owned s' := by
  cases hc with
  | noPid => exact h
  | @noMemory tid hf _ =>
    have htaken : Owned { s with pids := Function.update s.pids tid true, files := kept tid } :=
      (h.takePid tid).congr rfl rfl rfl
    dsimp only
    split
    · exact htaken.freePid tid fun _ => h.free tid hf.lt hf.free
    · exact htaken
  | @done tid u _ hf hu ha _ =>
    refine h.write (.inr ha.id) (hmade tid u hf hu) (fun hp => ?_) ha.tasks (fun p hp => ?_)
      (by rw [ha.rest])
    · rw [ha.pids, Function.update_self] at hp
      cases hp
    · rw [ha.pids, Function.update_of_ne hp]

theorem createKernelTaskPrio {prio : Prio} {pml4 : Nat} {stack : Bool} (h : Owned s)
    (hk : unowned s pml4 = true) : Owned (s.createKernelTaskPrio prio pml4 stack).2 := by
  refine h.created (fun tid u hf hu => ?_) (createKernelTaskPrio_creates s prio pml4 stack)
  -- the slot keeps the flag of its last task, which is not set
  rw [hu.1, hu.2]
  exact .inr ⟨hk, h.free tid hf.lt hf.free⟩

theorem createUserTaskOnCpu {prio : Prio} {pml4 userStack : Nat} {stack tls : Bool}
    {console : Option Nat} (h : Owned s) (hk : unusedPml4 s pml4 = true) :
    Owned (s.createUserTaskOnCpu prio pml4 userStack stack tls console).2 := by
  refine h.created (fun tid u _ hu => ?_)
    (createUserTaskOnCpu_creates s prio pml4 userStack stack tls console)
  rw [hu.1]
  exact .inl hk

theorem sysFork {stack : Bool} {pml4 : Option Nat} (h : Owned s)
    (hk : ∀ p ∈ pml4, unusedPml4 s p = true) : Owned (s.sysFork stack pml4).2 := by
  obtain ⟨r, hc, -⟩ := sysFork_creates s stack pml4
  exact h.created (fun tid u _ hu => .inl (hk _ hu)) hc

theorem sysClone {flags : UInt64} {childStack parentTidptr childTidptr : Nat} {stack : Bool}
    {pml4 : Option Nat} (h : Owned s)
    (hvm : flags &&& cloneVm ≠ 0 → (s.task s.current).addrSpacePrivate = false)
    (hk : flags &&& cloneVm = 0 → ∀ p ∈ pml4, unusedPml4 s p = true) :
    Owned (s.sysClone flags childStack parentTidptr childTidptr stack pml4).2 := by
  -- the child shares a page table that has no owner, or gets a new one
  have hshare : flags &&& cloneVm ≠ 0 → unowned s (s.task s.current).pml4 = true := by
    intro hf
    refine List.all_eq_true.mpr fun j hj => ?_
    obtain heq | hne := eq_or_ne j (taskIdx s.current)
    · have hp : (s.tasks j).addrSpacePrivate = false := heq ▸ hvm hf
      simp [hp]
    · cases hp : (s.tasks j).addrSpacePrivate with
      | false => rfl
      | true =>
        by_cases hz : (s.tasks j).pml4 = 0
        · simp [hz]
        · have := h.exclusive j (taskIdx s.current) (List.mem_range.mp hj) (taskIdx_lt _) hne hp hz
          simpa using .inr this.symm
  obtain ⟨r, hc, -⟩ := sysClone_creates s flags childStack parentTidptr childTidptr stack pml4
  refine h.created (fun tid u _ hu => ?_) hc
  by_cases hf : flags &&& cloneVm = 0
  · rw [clonePml4, if_neg (by simp [hf])] at hu
    exact .inl (hk hf _ hu.1)
  · rw [clonePml4, if_pos hf, Option.some.injEq] at hu
    rw [← hu.1, hu.2]
    exact .inr ⟨hshare hf, by simp [hf]⟩

/-! ### Replacement and reaping -/

/-- No task but the current one has its page table. -/
def alone (s : State) : Bool :=
  (List.range maxTasks).all fun j =>
    j = taskIdx s.current || (s.tasks j).pml4 ≠ (s.task s.current).pml4

/-- A new image replaces the old one, which nobody else uses. -/
theorem execveCommit {pml4 userStack : Nat} (h : Owned s) (hpid : s.pids (taskIdx s.current) = true)
    (hk : unusedPml4 s pml4 = true)
    (hown : (s.task s.current).addrSpacePrivate = true ∨ alone s = true) :
    Owned (s.execveCommit pml4 userStack) := by
  have hnew : Owned (s.setTask (taskIdx s.current) fun t =>
      { t with
        pml4 := pml4, userStack := userStack, userMode := true, addrSpacePrivate := true }) := by
    refine h.write (i := taskIdx s.current) (u := { s.tasks (taskIdx s.current) with
      pml4 := pml4, userStack := userStack, userMode := true, addrSpacePrivate := true }) ?_
        (.inl hk)
      (fun hf => ?_) rfl (fun _ _ => rfl) rfl
    · by_cases hid : (s.tasks (taskIdx s.current)).id = 0
      · exact .inl hid
      · exact .inr (h.ids _ (taskIdx_lt _) hid)
    · have hfalse : s.pids (taskIdx s.current) = false := hf
      rw [hpid] at hfalse
      cases hfalse
  have hothers : (s.tasks (taskIdx s.current)).pml4 ≠ 0 → ∀ j, j < maxTasks →
    j ≠ taskIdx s.current →
      (s.tasks j).pml4 ≠ (s.tasks (taskIdx s.current)).pml4 := by
    intro hz j hj hne
    rcases hown with hp | ha
    · exact h.exclusive _ j (taskIdx_lt _) hj hne.symm hp hz
    · have hj' := List.all_eq_true.mp ha j (List.mem_range.mpr hj)
      simp only [Bool.or_eq_true, decide_eq_true_eq] at hj'
      exact hj'.resolve_left hne
  have hout : ∀ {s : State}, Owned s → Owned (s.setTask (taskIdx s.current) fun t =>
      { t with inSyscall := false }) := fun hs =>
    hs.quiet (.setTask _ _ fun _ => ⟨rfl, rfl, rfl⟩)
  unfold State.execveCommit
  simp only
  split
  next hc =>
    simp only [Bool.and_eq_true, decide_eq_true_eq] at hc
    refine hout (s := State.freeAddressSpace _ _ _) (hnew.freeAddressSpace fun j hj hne => ?_)
    rw [tasks_setTask_ne _ _ hne]
    exact hothers hc.1.1 j hj hne
  next => exact hout hnew

theorem reap (h : Owned s) (hi : i < maxTasks) (hid : (s.tasks i).id ≠ 0) : Owned (s.reap i) := by
  have hput : ∀ s₁ : State, Owned s₁ → Owned ((s₁.putTask i .empty).freePid i) := by
    intro s₁ h₁
    have hempty : Owned (s₁.putTask i .empty) := by
      refine h₁.write (u := .empty) (.inl rfl) (.inr ⟨?_, rfl⟩)
        (fun _ => rfl) rfl (fun _ _ => rfl) rfl
      refine List.all_eq_true.mpr fun j _ => ?_
      by_cases hz : (s₁.tasks j).pml4 = 0 <;> simp [hz, Task.empty]
    refine hempty.freePid i fun _ => ?_
    simp [State.putTask, Task.empty]
  unfold State.reap
  simp only [h.ids i hi hid]
  split
  next hc =>
    simp only [Bool.and_eq_true, decide_eq_true_eq] at hc
    refine hput _ (h.freeAddressSpace fun j hj hne => ?_)
    exact h.exclusive i j hi hj hne.symm hc.2 hc.1
  next => exact hput s h

theorem sysWaitpid {pid : Int} {nohang : Bool} (h : Owned s) :
    Owned (s.sysWaitpid pid nohang).2 := by
  rcases sysWaitpid_cases s pid nohang with hr | ⟨i, hi, hchild, -, -, hr⟩ | ⟨uaddr, val, hr⟩ |
    hr <;>
    rw [hr]
  · exact h
  · simp only [State.isChild, Bool.and_eq_true, decide_eq_true_eq] at hchild
    exact h.reap hi hchild.1.1.1
  · exact h.quiet (.futexWait ..)
  · exact h.quiet (.yieldNowForce s)

end Owned

/-! ### Every run -/

open Owned in
/-- A new page table is used by nobody, a kernel task gets one that has no owner, `CLONE_VM` is not
used by an owner, and `execve` comes from a task with a pid that owns its page table or is alone
with it. -/
def prudent (s : State) : Event → Bool
  | .call (.createKernel _ pml4 _) => unowned s pml4
  | .call (.spawn _ pml4 _ _ _ _) => unusedPml4 s pml4
  | .call (.fork _ pml4) => pml4.all (unusedPml4 s)
  | .call (.clone flags _ _ _ _ pml4) =>
    if flags &&& cloneVm ≠ 0 then !(s.task s.current).addrSpacePrivate else pml4.all (unusedPml4 s)
  | .call (.execve pml4 _) => s.pids (taskIdx s.current) && unusedPml4 s pml4 &&
      ((s.task s.current).addrSpacePrivate || alone s)
  | _ => true

namespace Owned

theorem call {c : Call} (h : Owned s) (hp : prudent s (.call c) = true) : Owned (s.call c) := by
  cases hc : c.plain with
  | true => exact h.quiet (.call hc)
  | false =>
    cases c with
    | createKernel prio pml4 stack => exact h.createKernelTaskPrio hp
    | spawn prio pml4 userStack stack tls console => exact h.createUserTaskOnCpu hp
    | fork stack pml4 =>
      refine h.sysFork fun p hmem => ?_
      obtain rfl : pml4 = some p := hmem
      exact hp
    | clone flags childStack parentTidptr childTidptr stack pml4 =>
      refine h.sysClone (fun hf => ?_) fun hf p hmem => ?_
      · simpa [prudent, hf] using hp
      · obtain rfl : pml4 = some p := hmem
        simpa [prudent, hf] using hp
    | execve pml4 userStack =>
      simp only [prudent, Bool.and_eq_true, Bool.or_eq_true] at hp
      exact h.execveCommit hp.1.1 hp.1.2 hp.2
    | waitpid pid nohang => exact h.sysWaitpid
    | files c => exact h.congr rfl rfl rfl
    | _ => cases hc

theorem step {e : Event} (h : Owned s) (hp : prudent s e = true) : Owned (s.step e) := by
  have hpoll : ∀ {s : State}, Owned s → Owned (if s.idle then s.idlePoll else s) := by
    intro s hs
    split
    · exact hs.quiet (.idlePoll s)
    · exact hs
  unfold State.step
  split
  · exact h
  · cases e with
    | call c =>
      simp only
      split
      · exact h
      · exact h.call hp
    | tick user => exact hpoll (h.quiet (.interrupt s (.tick user)))
    | irq uaddr => exact hpoll (h.quiet (.interrupt s (.irq uaddr)))
    | key fg sig => exact hpoll (h.quiet (.interrupt s (.key fg sig)))

theorem boot (kernelPml4 initPml4 userStack : Nat) (space : Nat → Nat → Option Nat) :
    Owned (boot kernelPml4 initPml4 userStack space) := by
  have hprivate : ∀ i, ((Sched.boot kernelPml4 initPml4 userStack space).tasks i).addrSpacePrivate =
      false := by
    intro i
    simp only [Sched.boot]
    split
    · rfl
    · split <;> rfl
  refine ⟨fun i _ hne => ?_, fun i j _ _ _ hp => ?_, fun p _ _ => hprivate p,
    fun f hf => by cases hf⟩
  · simp only [Sched.boot] at hne ⊢
    split at hne
    · exact absurd rfl hne
    · split at hne
      next h0 h1 => simp [h1]
      next => exact absurd rfl hne
  · rw [hprivate] at hp
    cases hp

end Owned

/-- No address space is freed that another live task uses. -/
def FreesUnused (s : State) : Prop := ∀ f ∈ s.frees, f.users = []

instance (s : State) : Decidable (FreesUnused s) := inferInstanceAs (Decidable (∀ f ∈ s.frees, _))

theorem freed_spaces_unused (kernelPml4 initPml4 userStack : Nat) (space : Nat → Nat → Option Nat)
    (es : List Event) (h : Steps State.step (fun s e => prudent s e = true)
      (boot kernelPml4 initPml4 userStack space) es) :
    FreesUnused (es.foldl State.step (boot kernelPml4 initPml4 userStack space)) :=
  (h.invariant (I := Owned) (fun _ _ hs hp => hs.step hp) (Owned.boot ..)).unused

/-- A child is forked, replaces its image and exits, and its parent reaps it: two address spaces are
freed. -/
theorem freed_spaces_unused_exec :
    let s := boot 0x1000 0x2000 0x7000 fun _ _ => none
    let es : List Event := [.call (.fork true (some 0x3000)), .call .yieldNowForce,
      .call (.execve 0x4000 0x8000), .call (.exit 0), .call (.waitpid 2 true)]
    (es.foldl State.step s).frees = [⟨0x3000, []⟩, ⟨0x4000, []⟩] ∧
      FreesUnused (es.foldl State.step s) :=
  ⟨by decide, freed_spaces_unused _ _ _ _ _ (by decide)⟩

/-- A forked child makes a thread that shares its address space, and exits. Its parent reaps it and
frees the page tables on which the thread runs. -/
theorem thread_loses_space :
    let s := [Event.call (.fork true (some 0x3000)), .call .yieldNowForce,
      .call (.clone cloneVm 0x9000 0 0 true none), .call (.exit 0), .call (.waitpid 2 true)].foldl
        State.step (boot 0x1000 0x2000 0x7000 fun _ _ => none)
    s.frees = [⟨0x3000, [3]⟩] ∧ (s.tasks 3).state = .ready ∧ (s.tasks 3).pml4 = 0x3000 ∧
      ¬ FreesUnused s := by decide

end Rynex.Sched
