import Rynex.Memory.Reserved
import Rynex.Paging.Calls
import Rynex.Sched.Creation

/-! The creation of tasks with the memory it takes: `create_kernel_task_prio`,
`create_user_task_on_cpu`, `sys_fork` and `sys_clone` over the task table and the allocator. -/

namespace Rynex.Sched

open Rynex.Errno Rynex.Lib Rynex.Memory
open Rynex.Paging (Machine ptePresent pteWritable pteUser pteNoExecute)

def kernelStackPages : Nat := 8

def userTlsVaddr : Nat := 0x00007FFFFFFFA000

def tlsFlags : Nat := ptePresent ||| pteWritable ||| pteUser ||| pteNoExecute

def orderForPagesFrom (pages : Nat) : Nat → Nat → Nat
  | 0, order => order
  | fuel + 1, order =>
    if 2 ^ order < pages ∧ order < 10 then orderForPagesFrom pages fuel (order + 1) else order

def orderForPages (pages : Nat) : Nat := orderForPagesFrom pages 10 0

/-- The types of the pages of a stack and of its guard page are set. -/
def markStack (b : Buddy) (p pages : Nat) (t : PageType) : Buddy :=
  (List.range (pages + 1)).foldl (fun b i => b.pageTypeSet (p + i * pageSize) t) b

/-- `alloc_stack`, which returns the top of the stack. -/
def allocStack (m : Machine) (pages : Nat) : Option Nat × Machine :=
  match m.buddy.alloc (orderForPages (pages + 1)) with
  | (none, b) => (none, m.setBuddy b)
  | (some p, b) => (some (p + pages * pageSize), m.setBuddy (markStack b p pages .stack))

def freeStack (m : Machine) (base pages : Nat) : Machine :=
  let addr := base - pages * pageSize
  if !m.buddy.pageIsUsed addr then m
  else m.setBuddy (markStack (m.buddy.free addr (orderForPages (pages + 1))) addr pages .free)

structure Kernel where
  sched : State
  machine : Machine

namespace Kernel

def createKernelTaskPrio (k : Kernel) (prio : Prio) : Option Nat × Kernel :=
  match k.sched.allocPidFrom 2 with
  | none => (none, k)
  | some (_, s) =>
    match allocStack k.machine kernelStackPages with
    | (none, m) => (none, ⟨s, m⟩)
    | (some _, m) =>
      let (tid, s) := k.sched.createKernelTaskPrio prio m.kernelPml4 true
      (tid, ⟨s, m⟩)

/-- `create_user_task_on_cpu`. The first user task asks for pid 1, which is the lowest pid there is
then. The TLS page is filled through its physical address. -/
def createUserTaskOnCpu (k : Kernel) (prio : Prio) (pml4 userStack : Nat) (console : Option Nat) :
    Option Nat × Kernel :=
  match k.sched.allocPidFrom 1 with
  | none => (none, k)
  | some (_, s) =>
    match allocStack k.machine kernelStackPages with
    | (none, m) => (none, ⟨s, m⟩)
    | (some _, m) =>
      match m.allocPage with
      | (none, m) => (none, ⟨s, m⟩)
      | (some tls, m) =>
        match (m.zeroPage tls).mapInto pml4 userTlsVaddr tls tlsFlags with
        | (.error _, m) => (none, ⟨s, m⟩)
        | (.ok _, m) =>
          let (tid, s) := k.sched.createUserTaskOnCpu prio pml4 userStack true true console
          (tid, ⟨s, m⟩)

/-- The pid is taken and the descriptors are copied. -/
def inherit (s : State) (tid : Nat) : State :=
  { s with files := State.inheritFds s.files (s.current % maxTasks) (tid % maxTasks) }

def sysFork (k : Kernel) : Int × Kernel :=
  if k.sched.current = 0 then (-einval, k)
  else
    match k.sched.allocPidFrom 1 with
    | none => (-enomem, k)
    | some (tid, s) =>
      match allocStack k.machine kernelStackPages with
      | (none, m) => (-enomem, ⟨(inherit s tid).freePid tid, m⟩)
      | (some stack, m) =>
        match m.sysFork (k.sched.task k.sched.current).pml4 with
        | (none, m) => (-enomem, ⟨(inherit s tid).freePid tid, freeStack m stack kernelStackPages⟩)
        | (some pml4, m) =>
          let (r, s) := k.sched.sysFork true (some pml4)
          (r, ⟨s, m⟩)

def sysClone (k : Kernel) (flags : UInt64) (childStack parentTidptr childTidptr : Nat) :
    Int × Kernel :=
  if k.sched.current = 0 then (-einval, k)
  else
    match k.sched.allocPidFrom 1 with
    | none => (-enomem, k)
    | some (tid, s) =>
      match allocStack k.machine kernelStackPages with
      | (none, m) => (-enomem, ⟨inherit s tid, m⟩)
      | (some stack, m) =>
        if flags &&& cloneVm ≠ 0 then
          let (r, s) := k.sched.sysClone flags childStack parentTidptr childTidptr true none
          (r, ⟨s, m⟩)
        else
          match m.sysFork (k.sched.task k.sched.current).pml4 with
          | (none, m) => (-enomem, ⟨inherit s tid, freeStack m stack kernelStackPages⟩)
          | (some pml4, m) =>
            let (r, s) := k.sched.sysClone flags childStack parentTidptr childTidptr true
              (some pml4)
            (r, ⟨s, m⟩)

end Kernel

/-! ### What a stack takes and gives back -/

variable {m m' : Machine} {b : Buddy} {p pages stack : Nat}

/-- The reference counts and the available memory are the same. -/
structure SameMemory (m m' : Machine) : Prop where
  pageRefc : m'.pageRefc = m.pageRefc
  pteRefc : m'.buddy.pteRefc = m.buddy.pteRefc
  avail : ∀ x, m'.buddy.pool.AvailAt x ↔ m.buddy.pool.AvailAt x

theorem markStack_eq (b : Buddy) (p pages : Nat) (t : PageType) :
    ∃ types, markStack b p pages t = { b with pageType := types } := by
  refine List.foldlRecOn (motive := fun c : Buddy => ∃ types, c = { b with pageType := types }) _ _
    ⟨b.pageType, rfl⟩ fun c hc i _ => ?_
  obtain ⟨types, rfl⟩ := hc
  exact ⟨_, rfl⟩

theorem pageTypeGet_markStack (t : PageType) (hp : b.physToIdx p < maxRefcPages) :
    (markStack b p pages t).pageTypeGet p = t := by
  suffices h : (markStack b p pages t).base = b.base ∧
      (markStack b p pages t).pageType (b.physToIdx p) = t by
    rw [Buddy.pageTypeGet, Buddy.physToIdx_congr h.1, if_pos hp, h.2]
  unfold markStack
  rw [List.range_succ_eq_map, List.foldl_cons, Nat.zero_mul, Nat.add_zero]
  -- the first page gets the type, and the other pages get the same one
  refine List.foldlRecOn (motive := fun c : Buddy => c.base = b.base ∧
    c.pageType (b.physToIdx p) = t)
    _ _ ⟨rfl, Buddy.setAt_self hp⟩ fun c hc i _ => ⟨hc.1, ?_⟩
  exact Buddy.setAt_of_imp (P := (· = t)) rfl hc.2

theorem allocStack_none (hs : m.buddy.Sound) (h : allocStack m pages = (none, m')) :
    SameMemory m m' := by
  unfold allocStack at h
  split at h
  next b hb =>
    obtain ⟨-, rfl⟩ := Prod.mk.inj h
    have hpool := Buddy.alloc_none_pool hs hb
    have htables := (Buddy.alloc_none hs.wf hb).tables
    refine ⟨rfl, congrArg Buddy.Tables.pteRefc htables, fun x => ?_⟩
    change b.pool.AvailAt x ↔ _
    rw [hpool]
  next => cases h

/-- A stack that was allocated: its block is out of the pool and held. -/
structure StackTaken (m m' : Machine) (p pages : Nat) : Prop where
  pageRefc : m'.pageRefc = m.pageRefc
  pteRefc : m'.buddy.pteRefc = m.buddy.pteRefc
  sound : m'.buddy.Sound
  nonzero : p ≠ 0
  fits : Fits m'.buddy.base m'.buddy.limit p (orderForPages (pages + 1))
  granted : ∀ x, Covers p (orderForPages (pages + 1)) x → m.buddy.pool.AvailAt x
  avail : ∀ x, m'.buddy.pool.AvailAt x ↔
    m.buddy.pool.AvailAt x ∧ ¬ Covers p (orderForPages (pages + 1)) x
  accepted : m'.buddy.accepts p = true
  unreserved : p ∉ m'.buddy.reserved

theorem allocStack_some (hs : m.buddy.Sound) (h : allocStack m pages = (some stack, m')) :
    ∃ p, stack = p + pages * pageSize ∧ StackTaken m m' p pages := by
  unfold allocStack at h
  split at h
  next => cases h
  next p b hb =>
    obtain ⟨hstack, rfl⟩ := Prod.mk.inj h
    obtain ⟨hg, htables⟩ := Buddy.alloc_some hs.wf hb
    have havail := Buddy.alloc_avail hs hb
    have hidx : m.buddy.physToIdx p < maxRefcPages := Buddy.physToIdx_lt hg.fits hs.pages
    have hidx' : b.physToIdx p = m.buddy.physToIdx p := Buddy.physToIdx_congr hg.base p
    have htype : (markStack b p pages .stack).pageTypeGet p = .stack :=
      pageTypeGet_markStack .stack (hidx' ▸ hidx)
    have hreserved : b.reserved = m.buddy.reserved := congrArg Buddy.Tables.reserved htables
    have hmem : p ∉ b.reserved := by
      rw [hreserved]
      exact fun hmem => hs.away p hmem (hg.avail p (Block.covers_self _ _ _))
    have hlimit : b.limit = m.buddy.limit := by simp [Buddy.limit, hg.base, hg.pages]
    have hused : b.used (m.buddy.physToIdx p) = true := by
      rw [show b.used = _ from congrArg Buddy.Tables.used htables]
      exact Buddy.setAt_self hidx
    have hfreed : b.freed (m.buddy.physToIdx p) = false := by
      rw [show b.freed = _ from congrArg Buddy.Tables.freed htables]
      exact Buddy.setAt_self hidx
    obtain ⟨types, htypes⟩ := markStack_eq b p pages .stack
    rw [htypes] at htype ⊢
    refine ⟨p, (Option.some.inj hstack).symm, ?_⟩
    constructor
    case pageRefc => rfl
    case pteRefc => exact congrArg Buddy.Tables.pteRefc htables
    case sound =>
      refine ⟨hg.wf, hg.pages.trans_le hs.pages, fun r hr hav => ?_⟩
      have hr' : r ∈ m.buddy.reserved := hreserved ▸ hr
      exact hs.away r hr' ((havail r).mp hav).1
    case nonzero => exact hg.nonzero
    case fits =>
      change Fits b.base b.limit p _
      rw [hg.base, hlimit]
      exact hg.fits
    case granted => exact hg.avail
    case avail => exact havail
    case accepted =>
      have hindex : b.pageIndex p = m.buddy.physToIdx p :=
        (Buddy.pageIndex_eq (hg.base.trans_le hg.fits.lower)).trans hidx'
      have haccepts : (Buddy.accepts { b with pageType := types } p) =
          (!(decide (b.physToIdx p < maxRefcPages) && b.freed (b.physToIdx p)) &&
            (decide (b.pageIndex p < maxRefcPages) && b.used (b.pageIndex p)) &&
            decide (Buddy.pageTypeGet { b with pageType := types } p ≠ .free)) := rfl
      change Buddy.accepts { b with pageType := types } p = true
      rw [haccepts, htype, hindex, hidx', hused, hfreed]
      simp [hidx]
    case unreserved => exact hmem

theorem sysFork_none {pml4 : Nat} (hs : m.buddy.Sound) (h : m.sysFork pml4 = (none, m')) :
    ∃ b, m' = m.setBuddy b ∧ b.pool = m.buddy.pool ∧ b.tables = m.buddy.tables := by
  unfold Machine.sysFork Machine.cowForkPml4 Machine.allocZeroedPage at h
  cases hb : m.buddy.allocZeroedPage with
  | mk r b =>
    cases r with
    | none =>
      rw [hb] at h
      obtain ⟨-, rfl⟩ := Prod.mk.inj h
      exact ⟨b, rfl, Buddy.allocZeroedPage_none_pool hs hb⟩
    | some new =>
      rw [hb] at h
      cases h

theorem StackTaken.freed {m₁ m₂ : Machine} {b : Buddy} (h : StackTaken m m₁ p pages)
    (hb : m₂ = m₁.setBuddy b) (hpool : b.pool = m₁.buddy.pool)
    (htables : b.tables = m₁.buddy.tables)
    (horder : orderForPages (pages + 1) ≠ 0) :
    SameMemory m (freeStack m₂ (p + pages * pageSize) pages) := by
  subst hb
  have hbase : b.base = m₁.buddy.base := congrArg Pool.base hpool
  have hlimit : b.limit = m₁.buddy.limit := congrArg Pool.limit hpool
  have hreserved : b.reserved = m₁.buddy.reserved := congrArg Buddy.Tables.reserved htables
  have hsound : b.Sound :=
    ⟨hpool ▸ h.sound.wf, (congrArg Pool.pages hpool).trans_le h.sound.pages, fun r hr hav =>
      h.sound.away r (hreserved ▸ hr) (hpool ▸ hav)⟩
  have hfit : Fits b.base b.limit p (orderForPages (pages + 1)) := by
    rw [hbase, hlimit]
    exact h.fits
  have hnew : ∀ x, Covers p (orderForPages (pages + 1)) x → ¬ b.pool.AvailAt x := fun x hc hav => by
    rw [hpool] at hav
    exact ((h.avail x).mp hav).2 hc
  have hacc : b.accepts p = true := (Buddy.accepts_congr hbase htables p).trans h.accepted
  have hused : b.pageIsUsed p = true := by
    have hindex := Buddy.pageIndex_eq hfit.lower
    simp only [Buddy.accepts, Bool.and_eq_true] at hacc
    rw [Buddy.pageIsUsed, ← hindex]
    exact hacc.1.2
  have hmem : p ∉ b.reserved := hreserved ▸ h.unreserved
  have hfree := Buddy.free_avail hsound h.nonzero hfit hnew hacc hmem horder
  have hrefc := congrArg Buddy.Tables.pteRefc
    (Buddy.free_accepted hsound.wf h.nonzero hfit hnew hacc).2
  simp only [Buddy.tablesReleased, horder, false_and, if_false] at hrefc
  have hstack : freeStack (m₁.setBuddy b) (p + pages * pageSize) pages = m₁.setBuddy
      (markStack (b.free p (orderForPages (pages + 1))) p pages .free) := by
    simp only [freeStack, Nat.add_sub_cancel]
    rw [if_neg]
    · rfl
    · simpa [Machine.setBuddy] using hused
  obtain ⟨types, htypes⟩ := markStack_eq (b.free p (orderForPages (pages + 1))) p pages .free
  rw [hstack, htypes]
  refine ⟨h.pageRefc, ?_, fun x => ?_⟩
  · exact hrefc.trans ((congrArg Buddy.Tables.pteRefc htables).trans h.pteRefc)
  · change (b.free p _).pool.AvailAt x ↔ _
    rw [hfree, hpool, h.avail]
    constructor
    · rintro (⟨hav, -⟩ | hc)
      · exact hav
      · exact h.granted x hc
    · intro hav
      by_cases hc : Covers p (orderForPages (pages + 1)) x
      · exact .inr hc
      · exact .inl ⟨hav, hc⟩

/-! ### The references to pipe ends -/

def endRefs (pipes : Nat → Pipe.PipeSlot) (p : Nat) (write : Bool) : Nat :=
  if write then (pipes p).nwrite else (pipes p).nread

/-- An open descriptor of the task in slot `t` is a pipe end whose count a copy would change. -/
def addsRefs (f : Pipe.Sys) (t : Nat) : Bool :=
  (List.range Pipe.maxFdsPerTask).any fun fd =>
    (f.tables t fd).used && (Pipe.pipeIdxOf (f.tables t fd).inodeIdx).any fun p =>
      endRefs f.pipes p (Pipe.pipeIsWriteEnd (f.tables t fd).inodeIdx) ≠ 2 ^ 32 - 1

theorem endRefs_pipeIncRefs (pipes : Nat → Pipe.PipeSlot) (inode p : Nat) (write : Bool) :
    endRefs (Pipe.pipeIncRefs pipes inode) p write =
      if Pipe.pipeIdxOf inode = some p ∧ Pipe.pipeIsWriteEnd inode = write then
        Pipe.satSucc (endRefs pipes p write) else endRefs pipes p write := by
  unfold Pipe.pipeIncRefs
  cases hidx : Pipe.pipeIdxOf inode with
  | none => simp
  | some q =>
    obtain rfl | hne := eq_or_ne p q
    · cases hw : Pipe.pipeIsWriteEnd inode <;> cases write <;> simp [endRefs]
    · have hqp : q ≠ p := hne.symm
      simp [endRefs, Function.update_of_ne hne, hqp]

/-- The count has gone up, or down to the greatest one. -/
def Bumped (n n' : Nat) : Prop := n' ≠ n ∧ n' ≤ 2 ^ 32 - 1 ∧ (n < n' ∨ 2 ^ 32 - 1 < n)

theorem bumped_satSucc {n n' : Nat} (h : n' = n ∧ n ≠ 2 ^ 32 - 1 ∨ Bumped n n') :
    Bumped n (Pipe.satSucc n') := by
  simp only [Bumped, Pipe.satSucc] at h ⊢
  omega

def addRefs (table : Nat → Pipe.FileDesc) (pipes : Nat → Pipe.PipeSlot) (fd : Nat) :
    Nat → Pipe.PipeSlot :=
  if (table fd).used then Pipe.pipeIncRefs pipes (table fd).inodeIdx else pipes

variable {table : Nat → Pipe.FileDesc} {pipes pipes' : Nat → Pipe.PipeSlot} {fd q : Nat} {w : Bool}

theorem addRefs_bumped {n : Nat} (h : endRefs pipes q w = n ∨ Bumped n (endRefs pipes q w))
    (hn : n ≠ 2 ^ 32 - 1) : endRefs (addRefs table pipes fd) q w = n ∨
      Bumped n (endRefs (addRefs table pipes fd) q w) := by
  unfold addRefs
  split
  · rw [endRefs_pipeIncRefs]
    split
    · exact .inr (bumped_satSucc (h.imp_left fun he => ⟨he, hn⟩))
    · exact h
  · exact h

theorem bumped_of_mem {n : Nat} {l : List Nat} (hfd : fd ∈ l) (hn : n ≠ 2 ^ 32 - 1)
    (hused : (table fd).used = true) (hidx : Pipe.pipeIdxOf (table fd).inodeIdx = some q)
    (hw : Pipe.pipeIsWriteEnd (table fd).inodeIdx = w)
    (h : endRefs pipes q w = n ∨ Bumped n (endRefs pipes q w)) :
    Bumped n (endRefs (l.foldl (addRefs table) pipes) q w) := by
  induction l generalizing pipes with
  | nil => cases hfd
  | cons fd' l ih =>
    rw [List.foldl_cons]
    rcases List.mem_cons.mp hfd with rfl | hmem
    · have hinc : Bumped n (endRefs (addRefs table pipes fd) q w) := by
        rw [addRefs, if_pos hused, endRefs_pipeIncRefs, if_pos ⟨hidx, hw⟩]
        exact bumped_satSucc (h.imp_left fun he => ⟨he, hn⟩)
      -- once the count has moved it does not come back
      refine List.foldlRecOn (motive := fun pipes : Nat → Pipe.PipeSlot =>
        Bumped n (endRefs pipes q w)) _ _ hinc fun pipes h fd'' _ => ?_
      unfold addRefs
      split
      · rw [endRefs_pipeIncRefs]
        split
        · exact bumped_satSucc (.inr h)
        · exact h
      · exact h
    · exact ih hmem (addRefs_bumped h hn)

theorem endRefs_inheritFds_iff (f : Pipe.Sys) (t child : Nat) :
    (∀ p w, endRefs (State.inheritFds f t child).pipes p w = endRefs f.pipes p w) ↔
      addsRefs f t = false := by
  have hfold : (State.inheritFds f t child).pipes =
      (List.range Pipe.maxFdsPerTask).foldl (addRefs (f.tables t)) f.pipes := rfl
  rw [hfold]
  constructor
  · intro h
    by_contra hadds
    simp only [addsRefs, Bool.not_eq_false, List.any_eq_true, Bool.and_eq_true,
      Option.any_eq_true, decide_eq_true_eq] at hadds
    obtain ⟨fd, hfd, hused, q, hidx, hn⟩ := hadds
    exact (bumped_of_mem hfd hn hused hidx rfl (.inl rfl)).1 (h q _)
  · intro h p w
    refine List.foldlRecOn (motive := fun pipes : Nat → Pipe.PipeSlot =>
      endRefs pipes p w = endRefs f.pipes p w) _ _ rfl fun pipes hpipes fd hfd => ?_
    unfold addRefs
    split
    next hused =>
      rw [endRefs_pipeIncRefs]
      split
      next hend =>
        have hfull : endRefs f.pipes p w = 2 ^ 32 - 1 := by
          by_contra hn
          refine absurd h (Bool.not_eq_false _ |>.mpr ?_)
          simp only [addsRefs, List.any_eq_true, Bool.and_eq_true, Option.any_eq_true,
            decide_eq_true_eq]
          exact ⟨fd, hfd, hused, p, hend.1, by rwa [hend.2]⟩
        rw [hpipes, hfull]
        rfl
      next => exact hpipes
    next => exact hpipes

/-! ### Creations that fail -/

/-- The pids, the references to pipe ends, the task table, the reference counts of pages and the
available memory are as before. -/
structure Unchanged (k k' : Kernel) : Prop extends SameMemory k.machine k'.machine where
  pids : k'.sched.pids = k.sched.pids
  refs : ∀ p w, endRefs k'.sched.files.pipes p w = endRefs k.sched.files.pipes p w
  tasks : k'.sched.tasks = k.sched.tasks

theorem Unchanged.refl (k : Kernel) : Unchanged k k :=
  ⟨⟨rfl, rfl, fun _ => Iff.rfl⟩, rfl, fun _ _ => rfl, rfl⟩

variable {k : Kernel} {s : State} {min tid : Nat}

theorem not_unchanged_of_pid {s' : State} (hpid : k.sched.allocPidFrom min = some (tid, s))
    (hpids : s'.pids = s.pids) : ¬ Unchanged k ⟨s', m⟩ := by
  obtain ⟨-, -, hfree, rfl⟩ := State.allocPidFrom_cases k.sched hpid
  intro h
  have htid := congrFun (hpids.symm.trans h.pids) tid
  simp [hfree] at htid

theorem createKernelTaskPrio_fails_iff {prio : Prio}
    (hfail : (k.createKernelTaskPrio prio).1 = none) :
    Unchanged k (k.createKernelTaskPrio prio).2 ↔ (k.sched.allocPidFrom 2).isNone = true := by
  unfold Kernel.createKernelTaskPrio at hfail ⊢
  cases hpid : k.sched.allocPidFrom 2 with
  | none => exact iff_of_true (.refl k) rfl
  | some r =>
    obtain ⟨tid, s⟩ := r
    simp only [hpid] at hfail ⊢
    cases hstack : allocStack k.machine kernelStackPages with
    | mk stack m =>
      cases stack with
      | none => exact iff_of_false (not_unchanged_of_pid hpid rfl) (by simp)
      | some stack => simp [hstack, State.createKernelTaskPrio, hpid] at hfail

theorem createUserTaskOnCpu_fails_iff {prio : Prio} {pml4 userStack : Nat} {console : Option Nat}
    (hfail : (k.createUserTaskOnCpu prio pml4 userStack console).1 = none) :
    Unchanged k (k.createUserTaskOnCpu prio pml4 userStack console).2 ↔
      (k.sched.allocPidFrom 1).isNone = true := by
  unfold Kernel.createUserTaskOnCpu at hfail ⊢
  cases hpid : k.sched.allocPidFrom 1 with
  | none => exact iff_of_true (.refl k) rfl
  | some r =>
    obtain ⟨tid, s⟩ := r
    simp only [hpid] at hfail ⊢
    rcases hstack : allocStack k.machine kernelStackPages with ⟨_ | stack, m⟩
    · exact iff_of_false (not_unchanged_of_pid hpid rfl) (by simp)
    rcases htls : m.allocPage with ⟨_ | tls, m₁⟩
    · simp only [htls]
      exact iff_of_false (not_unchanged_of_pid hpid rfl) (by simp)
    simp only [htls]
    rcases hmap : (m₁.zeroPage tls).mapInto pml4 userTlsVaddr tls tlsFlags with ⟨e | _, m₂⟩
    · exact iff_of_false (not_unchanged_of_pid hpid rfl) (by simp)
    · simp [hstack, htls, hmap, State.createUserTaskOnCpu, hpid] at hfail

theorem sysClone_fails_iff {flags : UInt64} {childStack parentTidptr childTidptr : Nat}
    (hfail : (k.sysClone flags childStack parentTidptr childTidptr).1 < 0) :
    Unchanged k (k.sysClone flags childStack parentTidptr childTidptr).2 ↔
      (k.sched.current = 0 || (k.sched.allocPidFrom 1).isNone) = true := by
  unfold Kernel.sysClone at hfail ⊢
  by_cases hcur : k.sched.current = 0
  · simp only [hcur, if_true]
    exact iff_of_true (.refl k) (by simp)
  simp only [hcur, if_false] at hfail ⊢
  cases hpid : k.sched.allocPidFrom 1 with
  | none => exact iff_of_true (.refl k) (by simp)
  | some r =>
    obtain ⟨tid, s⟩ := r
    simp only [hpid] at hfail ⊢
    rcases hstack : allocStack k.machine kernelStackPages with ⟨_ | stack, m⟩
    · exact iff_of_false (not_unchanged_of_pid hpid rfl) (by simp)
    simp only [hstack] at hfail ⊢
    by_cases hvm : flags &&& cloneVm ≠ 0
    · simp only [if_pos hvm, State.sysClone, hcur, if_false, hpid] at hfail
      simp at hfail
      omega
    · simp only [if_neg hvm] at hfail ⊢
      rcases hfork : m.sysFork (k.sched.task k.sched.current).pml4 with ⟨_ | pml4, m₁⟩
      · exact iff_of_false (not_unchanged_of_pid hpid rfl) (by simp)
      · simp only [hfork, State.sysClone, hcur, if_false, hpid, if_neg hvm] at hfail
        simp at hfail
        omega

theorem freePid_unchanged (hpid : k.sched.allocPidFrom 1 = some (tid, s))
    (hm : SameMemory k.machine m) :
    Unchanged k ⟨(Kernel.inherit s tid).freePid tid, m⟩ ↔
      addsRefs k.sched.files (k.sched.current % maxTasks) = false := by
  obtain ⟨hle, hlt, hfree, rfl⟩ := State.allocPidFrom_cases k.sched hpid
  rw [← endRefs_inheritFds_iff k.sched.files (k.sched.current % maxTasks) (tid % maxTasks)]
  have hnot : ¬ (tid = 0 ∨ maxTasks ≤ tid) := by omega
  simp only [State.freePid, if_neg hnot, Kernel.inherit]
  constructor
  · exact fun h => h.refs
  · intro h
    refine ⟨hm, ?_, h, rfl⟩
    simp only [Function.update_idem, ← hfree, Function.update_eq_self]

theorem sysFork_fails_iff (hs : k.machine.buddy.Sound) (hfail : k.sysFork.1 < 0) :
    Unchanged k k.sysFork.2 ↔ (k.sched.current = 0 || (k.sched.allocPidFrom 1).isNone ||
      !addsRefs k.sched.files (k.sched.current % maxTasks)) = true := by
  unfold Kernel.sysFork at hfail ⊢
  by_cases hcur : k.sched.current = 0
  · simp only [hcur, if_true]
    exact iff_of_true (.refl k) (by simp)
  simp only [hcur, if_false] at hfail ⊢
  cases hpid : k.sched.allocPidFrom 1 with
  | none => exact iff_of_true (.refl k) (by simp)
  | some r =>
    obtain ⟨tid, s⟩ := r
    simp only [hpid] at hfail ⊢
    rcases hstack : allocStack k.machine kernelStackPages with ⟨_ | stack, m⟩
    · simpa using freePid_unchanged hpid (allocStack_none hs hstack)
    simp only [hstack] at hfail ⊢
    rcases hfork : m.sysFork (k.sched.task k.sched.current).pml4 with ⟨_ | pml4, m₁⟩
    · obtain ⟨p, rfl, htaken⟩ := allocStack_some hs hstack
      obtain ⟨b, hb, hpool, htables⟩ := sysFork_none htaken.sound hfork
      simpa using freePid_unchanged hpid (htaken.freed hb hpool htables (by decide))
    · simp only [hfork, State.sysFork, hcur, if_false, hpid] at hfail
      simp at hfail
      omega

theorem failed_creation_unchanged_iff (k : Kernel) (hs : k.machine.buddy.Sound) :
    (k.sysFork.1 < 0 → (Unchanged k k.sysFork.2 ↔ (k.sched.current = 0 ||
      (k.sched.allocPidFrom 1).isNone || !addsRefs k.sched.files (k.sched.current % maxTasks)) =
        true)) ∧
    (∀ flags childStack parentTidptr childTidptr,
      (k.sysClone flags childStack parentTidptr childTidptr).1 < 0 →
        (Unchanged k (k.sysClone flags childStack parentTidptr childTidptr).2 ↔
          (k.sched.current = 0 || (k.sched.allocPidFrom 1).isNone) = true)) ∧
    (∀ prio, (k.createKernelTaskPrio prio).1 = none →
      (Unchanged k (k.createKernelTaskPrio prio).2 ↔ (k.sched.allocPidFrom 2).isNone = true)) ∧
    ∀ prio pml4 userStack console, (k.createUserTaskOnCpu prio pml4 userStack console).1 = none →
      (Unchanged k (k.createUserTaskOnCpu prio pml4 userStack console).2 ↔
        (k.sched.allocPidFrom 1).isNone = true) :=
  ⟨sysFork_fails_iff hs, fun _ _ _ _ => sysClone_fails_iff, fun _ => createKernelTaskPrio_fails_iff,
    fun _ _ _ _ => createUserTaskOnCpu_fails_iff⟩

/-- A machine whose memory is all in use. -/
def noMemory : Machine where
  buddy := .init 0x100000 0
  mem := fun _ _ => 0
  pageRefc := fun _ => 0
  kernelPml4 := 0x1000
  vmas := []

theorem sound_noMemory : noMemory.buddy.Sound :=
  ⟨Pool.wf_empty .., by decide, fun _ h => absurd h List.not_mem_nil⟩

/-- A fork of a task without pipes finds no memory for the stack. -/
theorem failed_fork_unchanged :
    let k : Kernel := ⟨boot 0x1000 0x2000 0x7000 fun _ _ => none, noMemory⟩
    k.sysFork.1 = -enomem ∧ Unchanged k k.sysFork.2 := by
  have h := (failed_creation_unchanged_iff
    ⟨boot 0x1000 0x2000 0x7000 fun _ _ => none, noMemory⟩ sound_noMemory).1
  exact ⟨by decide, (h (by decide)).2 (by decide)⟩

/-- The parent has a pipe and there is no memory: the fork fails and leaves the pipe with a second
reader, and the kernel task that cannot be created keeps its pid. -/
theorem failed_fork_keeps_pipe_end :
    let k : Kernel := ⟨[Event.call (.files (.pipe false))].foldl State.step
      (boot 0x1000 0x2000 0x7000 fun _ _ => none), noMemory⟩
    (k.sysFork.1 = -enomem ∧ endRefs k.sched.files.pipes 0 false = 1 ∧
      endRefs k.sysFork.2.sched.files.pipes 0 false = 2) ∧
    (k.createKernelTaskPrio 20).1 = none ∧ k.sched.pids 2 = false ∧
      (k.createKernelTaskPrio 20).2.sched.pids 2 = true := by
  decide

end Rynex.Sched
