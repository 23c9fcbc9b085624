import Rynex.Lib.Run
import Rynex.Lib.Table
import Rynex.Pipe.Model

/-! The counters of a pipe against the descriptors that are open on its ends. A step that has
counted a reference and not stored it in a table yet, or the other way round, has the reference
in hand. -/

namespace Rynex.Pipe

open Rynex.Lib

/-- The counter of the pipe end with the given pseudo-inode. -/
def pipeCount (pipes : Nat → PipeSlot) (inode : Nat) : Nat :=
  match pipeIdxOf inode with
  | none => 0
  | some p => if pipeIsWriteEnd inode then (pipes p).nwrite else (pipes p).nread

def FileDesc.refs (inode : Nat) (d : FileDesc) : Nat :=
  if d.used && d.inodeIdx = inode then 1 else 0

def tableRefs (inode : Nat) (table : Nat → FileDesc) : Nat :=
  Table.total (FileDesc.refs inode) maxFdsPerTask table

/-- The open descriptors of one task, if it is alive. -/
def rowRefs (inode : Nat) (row : Life × (Nat → FileDesc)) : Nat :=
  if row.1 = .live then tableRefs inode row.2 else 0

namespace Sys

def rows (s : Sys) (t : Nat) : Life × (Nat → FileDesc) := (s.tasks t, s.tables t)

def refs (s : Sys) (inode : Nat) : Nat := Table.total (rowRefs inode) maxTasks s.rows

/-- The counters are the open descriptors together with the references `x` in hand, and a pipe
that is not in use has none. -/
structure Balanced (x : Nat → Nat) (s : Sys) : Prop where
  counted : ∀ i, (pipeIdxOf i).isSome → pipeCount s.pipes i = s.refs i + x i
  idle : ∀ p, (s.pipes p).used = false → (s.pipes p).nread = 0 ∧ (s.pipes p).nwrite = 0

end Sys

def one (inode : Nat) : Nat → Nat := fun i => if i = inode then 1 else 0

/-! ### The counters -/

theorem pipeIdxOf_eq_some {i p : Nat} :
    pipeIdxOf i = some p ↔ p < pipeMax ∧ i / 2 = pipeInodeBase / 2 + p := by
  unfold pipeIdxOf
  split
  next h =>
    simp only [pipeInodeBase, maxInodes, pipeMax] at h
    simp only [Option.some.injEq, pipeInodeBase, maxInodes, pipeMax]
    omega
  next h =>
    simp only [pipeInodeBase, maxInodes, pipeMax] at h
    simp only [reduceCtorEq, false_iff, pipeInodeBase, maxInodes, pipeMax]
    omega

theorem pipeIdxOf_inj {i j p : Nat} (hi : pipeIdxOf i = some p) (hj : pipeIdxOf j = some p)
    (hend : pipeIsWriteEnd i = pipeIsWriteEnd j) : i = j := by
  have hi := (pipeIdxOf_eq_some.mp hi).2
  have hj := (pipeIdxOf_eq_some.mp hj).2
  simp only [pipeIsWriteEnd, decide_eq_decide] at hend
  omega

/-- Changing the counter of one pipe end leaves those of the others. -/
theorem pipeCount_update {pipes : Nat → PipeSlot} {i j p : Nat} (slot : PipeSlot) (n : Nat)
    (hi : pipeIdxOf i = some p)
    (hr : slot.nread = if pipeIsWriteEnd i then (pipes p).nread else n)
    (hw : slot.nwrite = if pipeIsWriteEnd i then n else (pipes p).nwrite) :
    pipeCount (Function.update pipes p slot) j = if j = i then n else pipeCount pipes j := by
  unfold pipeCount
  cases hj : pipeIdxOf j with
  | none =>
    have hne : j ≠ i := by
      rintro rfl
      rw [hi] at hj
      cases hj
    simp [hne]
  | some q =>
    by_cases hq : q = p
    · subst hq
      simp only [Function.update_self, hr, hw]
      by_cases heq : j = i
      · subst heq
        cases pipeIsWriteEnd j <;> simp
      · have hend : pipeIsWriteEnd j ≠ pipeIsWriteEnd i := fun h => heq (pipeIdxOf_inj hj hi h)
        cases hje : pipeIsWriteEnd j <;> cases hie : pipeIsWriteEnd i <;> simp_all
    · have hne : j ≠ i := by
        rintro rfl
        rw [hi] at hj
        exact hq (Option.some.inj hj).symm
      simp [hne, Function.update_of_ne hq]

theorem pipeCount_incRefs {pipes : Nat → PipeSlot} {i j : Nat} (hi : (pipeIdxOf i).isSome)
    (hsmall : pipeCount pipes i + 1 < 2 ^ 32) :
    pipeCount (pipeIncRefs pipes i) j = pipeCount pipes j + one i j := by
  obtain ⟨p, hp⟩ := Option.isSome_iff_exists.mp hi
  have hsat : satSucc (pipeCount pipes i) = pipeCount pipes i + 1 := min_eq_left (by omega)
  rw [pipeIncRefs, hp]
  refine (pipeCount_update _ (satSucc (pipeCount pipes i)) hp ?_ ?_).trans ?_
  · unfold pipeCount; rw [hp]; cases pipeIsWriteEnd i <;> rfl
  · unfold pipeCount; rw [hp]; cases pipeIsWriteEnd i <;> rfl
  · rw [hsat, one]
    split
    next h => rw [h]
    · rfl

theorem PipeSlot.release_counts (slot : PipeSlot) (write : Bool) :
    (slot.release write).nread = (if write then slot.nread else slot.nread - 1) ∧
      (slot.release write).nwrite = (if write then slot.nwrite - 1 else slot.nwrite) := by
  cases write <;> simp only [release, Bool.false_eq_true, if_false, if_true] <;> split <;> simp

theorem PipeSlot.release_idle {slot : PipeSlot} {write : Bool}
    (h : slot.used = false → slot.nread = 0 ∧ slot.nwrite = 0)
    (hused : (slot.release write).used = false) :
    (slot.release write).nread = 0 ∧ (slot.release write).nwrite = 0 := by
  cases write <;> simp only [release, Bool.false_eq_true, if_false, if_true] at hused ⊢ <;>
    split at hused <;> simp_all

theorem pipeCount_close {pipes : Nat → PipeSlot} {i j : Nat} :
    pipeCount (pipeClose pipes i) j = pipeCount pipes j - one i j := by
  unfold pipeClose
  cases hp : pipeIdxOf i with
  | none =>
    show pipeCount pipes j = pipeCount pipes j - one i j
    by_cases h : j = i
    · subst h; simp [pipeCount, hp]
    · simp [one, h]
  | some p =>
    obtain ⟨hr, hw⟩ := (pipes p).release_counts (pipeIsWriteEnd i)
    refine (pipeCount_update _ (pipeCount pipes i - 1) hp ?_ ?_).trans ?_
    · rw [hr, pipeCount, hp]
      cases pipeIsWriteEnd i <;> rfl
    · rw [hw, pipeCount, hp]
      cases pipeIsWriteEnd i <;> rfl
    · rw [one]
      split
      next h => rw [h]
      · rfl

namespace Sys

variable {s : Sys} {x y : Nat → Nat} {t fd i : Nat} {d : FileDesc}

/-! ### The tables -/

theorem rows_setFd : (s.setFd t fd d).rows =
    Function.update s.rows t (s.tasks t, Function.update (s.tables t) fd d) := by
  funext t'
  by_cases h : t' = t
  · subst h; simp [rows, setFd]
  · simp [rows, setFd, Function.update_of_ne h]

theorem rows_setTask {l : Life} : (s.setTask t l).rows =
    Function.update s.rows t (l, s.tables t) := by
  funext t'
  by_cases h : t' = t
  · subst h; simp [rows, setTask]
  · simp [rows, setTask, Function.update_of_ne h]

theorem refs_le : s.refs i ≤ maxTasks * maxFdsPerTask := by
  have hfd : ∀ d : FileDesc, d.refs i ≤ 1 := fun d => by unfold FileDesc.refs; split <;> omega
  have htable : ∀ table, tableRefs i table ≤ maxFdsPerTask := fun table =>
    (Table.total_le hfd).trans (Nat.mul_one _).le
  refine Table.total_le fun row => ?_
  unfold rowRefs
  split
  · exact htable _
  · exact Nat.zero_le _

theorem Balanced.setRow {s' : Sys} (h : Balanced x s) (row : Life × (Nat → FileDesc))
    (ht : t < maxTasks)
    (hpipes : s'.pipes = s.pipes) (hrows : s'.rows = Function.update s.rows t row)
    (hxy : ∀ i, (pipeIdxOf i).isSome → x i + rowRefs i (s.rows t) = y i + rowRefs i row) :
    Balanced y s' := by
  refine ⟨fun i hi => ?_, hpipes ▸ h.idle⟩
  have htotal : Table.total (rowRefs i) maxTasks (Function.update s.rows t row) +
      rowRefs i (s.rows t) = s.refs i + rowRefs i row := Table.total_update ht
  have hcount := h.counted i hi
  have hx := hxy i hi
  rw [hpipes, refs, hrows]
  omega

theorem Balanced.setFd (h : Balanced x s) (ht : t < maxTasks) (hfd : fd < maxFdsPerTask)
    (hlive : s.tasks t = .live)
    (hxy : ∀ i, (pipeIdxOf i).isSome → x i + (s.tables t fd).refs i = y i + d.refs i) :
    Balanced y (s.setFd t fd d) := by
  refine h.setRow _ ht rfl rows_setFd fun i hi => ?_
  have htable : tableRefs i (Function.update (s.tables t) fd d) + (s.tables t fd).refs i =
      tableRefs i (s.tables t) + d.refs i := Table.total_update hfd
  have hx := hxy i hi
  simp only [rows, rowRefs, hlive, if_true]
  omega

/-! ### References in hand -/

theorem Balanced.used {p : Nat} (h : Balanced x s) (hp : pipeIdxOf i = some p)
    (hpos : 0 < pipeCount s.pipes i) : (s.pipes p).used = true := by
  cases hused : (s.pipes p).used with
  | true => rfl
  | false =>
    obtain ⟨hr, hw⟩ := h.idle p hused
    simp [pipeCount, hp, hr, hw] at hpos

theorem Balanced.incRefs (h : Balanced x s) (hpos : (pipeIdxOf i).isSome → 0 < pipeCount s.pipes i)
    (hsmall : x i ≤ maxFdsPerTask) :
    Balanced (fun j => x j + one i j) { s with pipes := pipeIncRefs s.pipes i } := by
  cases hp : pipeIdxOf i with
  | none =>
    have hpipes : pipeIncRefs s.pipes i = s.pipes := by rw [pipeIncRefs, hp]
    refine ⟨fun j hj => ?_, by simpa only [hpipes] using h.idle⟩
    have hne : j ≠ i := by
      rintro rfl
      simp [hp] at hj
    simpa only [hpipes, one, hne, if_false, Nat.add_zero] using h.counted j hj
  | some p =>
    have hi : (pipeIdxOf i).isSome := by simp [hp]
    have hused := h.used hp (hpos hi)
    constructor
    case counted =>
      intro j hj
      have hcount := h.counted i hi
      have hle := s.refs_le (i := i)
      simp only [maxTasks, maxFdsPerTask] at hle hsmall
      rw [pipeCount_incRefs hi (by omega), h.counted j hj]
      exact Nat.add_assoc ..
    case idle =>
      intro q hq
      by_cases hqp : q = p
      · subst hqp
        simp only [pipeIncRefs, hp, Function.update_self] at hq
        split at hq <;> simp [hused] at hq
      · simp only [pipeIncRefs, hp, Function.update_of_ne hqp] at hq ⊢
        exact h.idle q hq

theorem Balanced.closePipe (h : Balanced (fun j => x j + one i j) s) :
    Balanced x { s with pipes := pipeClose s.pipes i } := by
  constructor
  case counted =>
    intro j hj
    have hcount := h.counted j hj
    have hrefs : ({ s with pipes := pipeClose s.pipes i } : Sys).refs j = s.refs j := rfl
    rw [pipeCount_close, hrefs]
    omega
  case idle =>
    intro q hq
    cases hp : pipeIdxOf i with
    | none =>
      simp only [pipeClose, hp] at hq ⊢
      exact h.idle q hq
    | some p =>
      by_cases hqp : q = p
      · subst hqp
        simp only [pipeClose, hp, Function.update_self] at hq ⊢
        exact PipeSlot.release_idle (h.idle q) hq
      · simp only [pipeClose, hp, Function.update_of_ne hqp] at hq ⊢
        exact h.idle q hq

/-! ### Calls -/

theorem refs_of_used (hd : d.used = true) : d.refs i = one d.inodeIdx i := by
  simp [FileDesc.refs, one, hd, eq_comm]

theorem refs_of_not_used (hd : d.used = false) : d.refs i = 0 := by simp [FileDesc.refs, hd]

theorem isOpen_iff : s.isOpen t fd = true ↔ fd < maxFdsPerTask ∧ (s.tables t fd).used = true := by
  simp [isOpen]

theorem refs_pos (ht : t < maxTasks) (hlive : s.tasks t = .live) (hopen : s.isOpen t fd = true) :
    0 < s.refs (s.tables t fd).inodeIdx := by
  obtain ⟨hfd, hused⟩ := isOpen_iff.mp hopen
  set i := (s.tables t fd).inodeIdx with hi
  have hdesc : (s.tables t fd).refs i = 1 := by rw [refs_of_used hused, one, if_pos hi]
  have htable : (s.tables t fd).refs i ≤ tableRefs i (s.tables t) := Table.le_total hfd
  have hrow : rowRefs i (s.rows t) ≤ s.refs i := Table.le_total ht
  have hrefs : rowRefs i (s.rows t) = tableRefs i (s.tables t) := by simp [rowRefs, rows, hlive]
  omega

theorem Balanced.closeFd (h : Balanced x s) (ht : t < maxTasks) (hlive : s.tasks t = .live) :
    Balanced x (s.closeFd t fd).2 := by
  unfold Sys.closeFd
  split
  next hopen =>
    obtain ⟨hfd, hused⟩ := isOpen_iff.mp hopen
    have hdrop : Balanced (fun j => x j + one (s.tables t fd).inodeIdx j)
        (s.setFd t fd { s.tables t fd with used := false }) := by
      refine h.setFd ht hfd hlive fun i _ => ?_
      rw [refs_of_used hused, refs_of_not_used rfl]
      rfl
    exact hdrop.closePipe
  · exact h

theorem freeFd_spec {start : Nat} (h : s.freeFd t start = some fd) :
    start ≤ fd ∧ fd < maxFdsPerTask ∧ (s.tables t fd).used = false := by
  have hmem := List.mem_range'_1.mp (List.mem_of_find?_eq_some h)
  exact ⟨hmem.1, by omega, by simpa using List.find?_some h⟩

theorem Balanced.allocFd {inode : Nat} {flags : BitVec 32} {s' : Sys}
    (h : Balanced (fun j => x j + one inode j) s) (ht : t < maxTasks) (hlive : s.tasks t = .live)
    (halloc : s.allocFd t inode flags = some (fd, s')) : Balanced x s' ∧ s'.tasks t = .live := by
  obtain ⟨fd', hfree, heq⟩ := Option.map_eq_some_iff.mp halloc
  cases heq
  obtain ⟨-, hfd, hused⟩ := freeFd_spec hfree
  refine ⟨h.setFd ht hfd hlive fun i _ => ?_, hlive⟩
  rw [refs_of_not_used hused, refs_of_used rfl]
  rfl

def holdsPipe (s : Sys) (t fd : Nat) : Bool :=
  s.isOpen t fd && (pipeIdxOf (s.tables t fd).inodeIdx).isSome

theorem refs_of_not_holdsPipe (hfd : fd < maxFdsPerTask) (h : s.holdsPipe t fd = false)
    (hi : (pipeIdxOf i).isSome) : (s.tables t fd).refs i = 0 := by
  cases hused : (s.tables t fd).used with
  | false => exact refs_of_not_used hused
  | true =>
    have hne : i ≠ (s.tables t fd).inodeIdx := by
      rintro rfl
      simp [holdsPipe, isOpen, hfd, hused, hi] at h
    rw [refs_of_used hused, one, if_neg hne]

theorem Balanced.copyFd {newfd : Nat} (h : Balanced (fun _ => 0) s) (ht : t < maxTasks)
    (hlive : s.tasks t = .live) (hopen : s.isOpen t fd = true) (hnew : newfd < maxFdsPerTask)
    (hfree : s.holdsPipe t newfd = false) : Balanced (fun _ => 0) (s.copyFd t fd newfd) := by
  have hpos : (pipeIdxOf (s.tables t fd).inodeIdx).isSome →
      0 < pipeCount s.pipes (s.tables t fd).inodeIdx := by
    intro hi
    have hrefs := refs_pos ht hlive hopen
    rw [h.counted _ hi]
    exact Nat.lt_of_lt_of_le hrefs (Nat.le_add_right _ _)
  have hinc := h.incRefs hpos (Nat.zero_le _)
  refine hinc.setFd ht hnew hlive fun i hi => ?_
  have hold : (s.tables t newfd).refs i = 0 := refs_of_not_holdsPipe hnew hfree hi
  have hcopy : ({ s.tables t fd with pos := 0 } : FileDesc).refs i =
      one (s.tables t fd).inodeIdx i := refs_of_used (isOpen_iff.mp hopen).2
  simp only [hold, hcopy, Nat.add_zero]

def twoFree (s : Sys) (t : Nat) : Bool :=
  ((s.freeFd t 0).bind fun fd => s.freeFd t (fd + 1)).isSome

/-- A pipe that was not in use has its two references in hand. -/
theorem Balanced.openPipe {p : Nat} (h : Balanced (fun _ => 0) s) (hp : p < pipeMax)
    (hunused : (s.pipes p).used = false) :
    Balanced (fun j => 0 + one (pipeInodeBase + p * 2 + 1) j + one (pipeInodeBase + p * 2) j)
      (s.setPipe p { s.pipes p with
        rpos := 0, wpos := 0, nread := 1, nwrite := 1, used := true }) := by
  obtain ⟨hr, hw⟩ := h.idle p hunused
  constructor
  case counted =>
    intro i hi
    have hold : pipeCount s.pipes i = s.refs i := (h.counted i hi).trans (Nat.add_zero _)
    have hrefs : (s.setPipe p { s.pipes p with
      rpos := 0, wpos := 0, nread := 1, nwrite := 1, used := true }).refs i = s.refs i := rfl
    obtain ⟨q, hq⟩ := Option.isSome_iff_exists.mp hi
    have hiq := (pipeIdxOf_eq_some.mp hq).2
    rw [hrefs, ← hold]
    simp only [pipeCount, hq, Sys.setPipe, one]
    have hbase : pipeInodeBase = 240 := rfl
    by_cases hqp : q = p
    · subst hqp
      simp only [Function.update_self, hr, hw, ite_self]
      rcases Nat.mod_two_eq_zero_or_one i with hpar | hpar
      · rw [if_neg (by omega), if_pos (by omega)]
      · rw [if_pos (by omega), if_neg (by omega)]
    · have hread : i ≠ pipeInodeBase + p * 2 := by omega
      have hwrite : i ≠ pipeInodeBase + p * 2 + 1 := by omega
      simp only [Function.update_of_ne hqp, if_neg hread, if_neg hwrite, Nat.add_zero]
  case idle =>
    intro q hq
    by_cases hqp : q = p
    · subst hqp
      simp [Sys.setPipe] at hq
    · simp only [Sys.setPipe, Function.update_of_ne hqp] at hq ⊢
      exact h.idle q hq

theorem freeFd_isSome {start : Nat} (hle : start ≤ fd) (hfd : fd < maxFdsPerTask)
    (hused : (s.tables t fd).used = false) : (s.freeFd t start).isSome := by
  refine List.find?_isSome.mpr ⟨fd, List.mem_range'_1.mpr ⟨hle, by omega⟩, ?_⟩
  rw [hused]
  rfl

theorem twoFree_spec (h : s.twoFree t = true) : ∃ r w, s.freeFd t 0 = some r ∧ r < w ∧
    w < maxFdsPerTask ∧ (s.tables t w).used = false := by
  obtain ⟨w, hw⟩ := Option.isSome_iff_exists.mp h
  obtain ⟨r, hr, hw⟩ := Option.bind_eq_some_iff.mp hw
  obtain ⟨hle, hlt, hused⟩ := freeFd_spec hw
  exact ⟨r, w, hr, hle, hlt, hused⟩

theorem Balanced.sysPipe {null : Bool} (h : Balanced (fun _ => 0) s) (ht : t < maxTasks)
    (hlive : s.tasks t = .live)
    (hok : null = false → (∃ p < pipeMax, (s.pipes p).used = false) → s.twoFree t = true) :
    Balanced (fun _ => 0) (s.sysPipe t null).2.2 := by
  unfold Sys.sysPipe
  split
  · exact h
  next hnull =>
  split
  · exact h
  next p hp =>
  have hunused : (s.pipes p).used = false := by simpa using List.find?_some hp
  have hlt : p < pipeMax := List.mem_range.mp (List.mem_of_find?_eq_some hp)
  have hopen := h.openPipe hlt hunused
  simp only
  set s₁ := s.setPipe p { s.pipes p with
    rpos := 0, wpos := 0, nread := 1, nwrite := 1, used := true }
    with hs₁
  obtain ⟨r, w, hr, hrw, hw, hfree⟩ :=
    twoFree_spec (hok (Bool.eq_false_iff.mpr hnull) ⟨p, hlt, hunused⟩)
  have halloc : s₁.allocFd t (pipeInodeBase + p * 2) 0 =
      some (r, s₁.setFd t r ⟨pipeInodeBase + p * 2, 0, true, 0⟩) := by
    rw [Sys.allocFd, show s₁.freeFd t 0 = some r from hr]
    rfl
  -- the second descriptor is still free after the first has been taken
  obtain ⟨w', hw'⟩ : ∃ w', (s₁.setFd t r ⟨pipeInodeBase + p * 2, 0, true, 0⟩).freeFd t 0 =
    some w' := by
    refine Option.isSome_iff_exists.mp (freeFd_isSome (Nat.zero_le w) hw ?_)
    have heq : (s₁.setFd t r ⟨pipeInodeBase + p * 2, 0, true, 0⟩).tables t w = s.tables t w := by
      simp [Sys.setFd, Function.update_of_ne hrw.ne', hs₁, Sys.setPipe]
    rw [heq, hfree]
  have hlive₁ : s₁.tasks t = .live := hlive
  obtain ⟨hread, hlive₂⟩ := hopen.allocFd ht hlive₁ halloc
  simp only [halloc]
  simp only [Sys.allocFd, hw', Option.map_some]
  exact (hread.allocFd ht hlive₂ (by rw [Sys.allocFd, hw']; rfl)).1

theorem Balanced.forkRefs (h : Balanced (fun _ => 0) s) (ht : t < maxTasks)
    (hlive : s.tasks t = .live) {n : Nat} (hn : n ≤ maxFdsPerTask) :
    Balanced (fun i => Table.total (FileDesc.refs i) n (s.tables t))
      { s with pipes := (List.range n).foldl (fun pipes fd => if (s.tables t fd).used then
        pipeIncRefs pipes (s.tables t fd).inodeIdx else pipes) s.pipes } := by
  induction n with
  | zero => exact h
  | succ n ih =>
    have ih := ih (by omega)
    rw [List.range_succ, List.foldl_append, List.foldl_cons, List.foldl_nil]
    simp only [Table.total_succ]
    split
    next hused =>
      have hopen : s.isOpen t n = true := isOpen_iff.mpr ⟨by omega, hused⟩
      have hrefs := refs_pos ht hlive hopen
      have hfd : ∀ d : FileDesc, d.refs (s.tables t n).inodeIdx ≤ 1 := fun d => by
        unfold FileDesc.refs; split <;> omega
      have hsmall : Table.total (FileDesc.refs (s.tables t n).inodeIdx) n (s.tables t) ≤
          maxFdsPerTask := (Table.total_le hfd).trans (by omega)
      have hinc := ih.incRefs (fun hi => ?_) hsmall
      · simpa only [refs_of_used hused] using hinc
      · rw [ih.counted _ hi]
        exact Nat.lt_of_lt_of_le hrefs (Nat.le_add_right _ _)
    next hused =>
      simpa only [refs_of_not_used (Bool.eq_false_iff.mpr hused), Nat.add_zero] using ih

theorem tableRefs_eq_zero (hi : (pipeIdxOf i).isSome)
    (h : ∀ fd < maxFdsPerTask, s.holdsPipe t fd = false) : tableRefs i (s.tables t) = 0 :=
  Table.total_eq_zero fun fd hfd => refs_of_not_holdsPipe hfd (h fd hfd) hi

theorem Balanced.sysFork {stack pml4 : Bool} (h : Balanced (fun _ => 0) s) (ht : t < maxTasks)
    (hlive : s.tasks t = .live)
    (hok : (stack && pml4) = true ∨ ∀ fd < maxFdsPerTask, s.holdsPipe t fd = false) :
    Balanced (fun _ => 0) (s.sysFork t stack pml4).2 := by
  unfold Sys.sysFork
  split
  · exact h
  next c hc =>
  have hempty : s.tasks c = .empty := by simpa using List.find?_some hc
  have hlt : c < maxTasks := by
    have := List.mem_range'_1.mp (List.mem_of_find?_eq_some hc)
    simp only [maxTasks] at this ⊢
    omega
  have hrefs := h.forkRefs ht hlive (le_refl maxFdsPerTask)
  simp only
  set pipes := (List.range maxFdsPerTask).foldl (fun pipes fd => if (s.tables t fd).used then
    pipeIncRefs pipes (s.tables t fd).inodeIdx else pipes) s.pipes
  -- nobody counts the table of a slot without a task
  have htable : Balanced (fun i => tableRefs i (s.tables t))
      { s with pipes := pipes, tables := Function.update s.tables c (s.tables t) } := by
    refine hrefs.setRow (.empty, s.tables t) hlt rfl ?_ fun i _ => ?_
    · funext t'
      by_cases heq : t' = c
      · subst heq; simp [rows, hempty]
      · simp [rows, Function.update_of_ne heq]
    · simp [rowRefs, rows, hempty, tableRefs]
  split
  next hfail =>
    have hnone := hok.resolve_left (by cases stack <;> cases pml4 <;> simp_all)
    refine ⟨fun i hi => ?_, htable.idle⟩
    rw [htable.counted i hi, tableRefs_eq_zero hi hnone]
  · refine htable.setRow _ hlt rfl rows_setTask fun i _ => ?_
    simp [rowRefs, rows, hempty]

theorem closeFd_frame (s : Sys) (t fd : Nat) : (s.closeFd t fd).2.tasks = s.tasks ∧
    ((s.closeFd t fd).2.tables t fd).used = (if fd < maxFdsPerTask then false
      else (s.tables t fd).used) ∧
    ∀ fd' ≠ fd, (s.closeFd t fd).2.tables t fd' = s.tables t fd' := by
  unfold Sys.closeFd
  split
  next hopen =>
    obtain ⟨hfd, -⟩ := isOpen_iff.mp hopen
    refine ⟨rfl, by simp [Sys.setFd, hfd], fun fd' hne => ?_⟩
    simp [Sys.setFd, Function.update_of_ne hne]
  next hopen =>
    refine ⟨rfl, ?_, fun _ _ => rfl⟩
    split
    next hfd => simpa [isOpen, hfd] using hopen
    · rfl

theorem Balanced.closeAll (h : Balanced x s) (ht : t < maxTasks) (hlive : s.tasks t = .live)
    {n : Nat}
    (hn : n ≤ maxFdsPerTask) :
    let s' := (List.range n).foldl (fun s fd => (s.closeFd t fd).2) s
    Balanced x s' ∧ s'.tasks = s.tasks ∧ ∀ fd < n, (s'.tables t fd).used = false := by
  induction n with
  | zero => exact ⟨h, rfl, nofun⟩
  | succ n ih =>
    obtain ⟨hb, htasks, hclosed⟩ := ih (by omega)
    rw [List.range_succ, List.foldl_append, List.foldl_cons, List.foldl_nil]
    set s' := (List.range n).foldl (fun s fd => (s.closeFd t fd).2) s
    obtain ⟨htasks', hused, hrest⟩ := s'.closeFd_frame t n
    refine ⟨hb.closeFd ht (by rw [htasks, hlive]), htasks'.trans htasks, fun fd hfd => ?_⟩
    by_cases heq : fd = n
    · rw [heq, hused, if_pos (by omega)]
    · rw [hrest fd heq]
      exact hclosed fd (by omega)

theorem Balanced.exitTask (h : Balanced (fun _ => 0) s) (ht : t < maxTasks)
    (hlive : s.tasks t = .live) : Balanced (fun _ => 0) (s.exitTask t) := by
  have hall := h.closeAll ht hlive (le_refl maxFdsPerTask)
  unfold Sys.exitTask
  generalize (List.range maxFdsPerTask).foldl (fun s fd => (s.closeFd t fd).2) s = s' at hall ⊢
  obtain ⟨hb, -, hclosed⟩ := hall
  refine hb.setRow _ ht rfl rows_setTask fun i _ => ?_
  have hzero : tableRefs i (s'.tables t) = 0 :=
    Table.total_eq_zero fun fd hfd => refs_of_not_used (hclosed fd hfd)
  simp [rowRefs, rows, hzero]

theorem Balanced.sysFcntl {cmd : Int} {arg : BitVec 64} (h : Balanced (fun _ => 0) s)
    (ht : t < maxTasks) (hlive : s.tasks t = .live) :
    Balanced (fun _ => 0) (s.sysFcntl t fd cmd arg).2 := by
  unfold Sys.sysFcntl
  split
  · -- `dup2` of a descriptor to itself
    unfold Sys.sysDup2
    split
    · exact h
    · rw [if_pos rfl]; exact h
  · exact h
  · exact h
  · split <;> exact h
  · split
    next hopen => exact h.setFd ht (isOpen_iff.mp hopen).1 hlive fun i _ => rfl
    · exact h
  · exact h
  · exact h
  · exact h
  · split
    · exact h
    next newfd hfree =>
      obtain ⟨-, hnew, hunused⟩ := freeFd_spec hfree
      split
      next hopen => exact h.copyFd ht hlive hopen hnew (by simp [holdsPipe, isOpen, hunused])
      · exact h
  · exact h

/-! ### Runs -/

/-- What the counters rely on: the caller is alive; `sys_pipe` finds two free descriptors;
`sys_dup2` is not made onto an open pipe end; a fork that fails and a kill happen to a task that has
no pipe end open. -/
def Careful (s : Sys) : Event → Prop
  | .call t c => s.tasks t = .live ∧ match c with
    | .pipe null => null = false → (∃ p < pipeMax, (s.pipes p).used = false) → s.twoFree t = true
    | .dup2 oldfd newfd => s.isOpen t oldfd = true → oldfd ≠ newfd → s.holdsPipe t newfd = false
    | .fork stack pml4 => (stack && pml4) = true ∨ ∀ fd < maxFdsPerTask, s.holdsPipe t fd = false
    | _ => True
  | .kill t => s.tasks t = .live → ∀ fd < maxFdsPerTask, s.holdsPipe t fd = false
  | .wait _ => True

instance (s : Sys) : (e : Event) → Decidable (s.Careful e)
  | .call _ (.pipe _) => inferInstanceAs (Decidable (_ ∧ (_ → _ → _)))
  | .call _ (.dup _) => inferInstanceAs (Decidable (_ ∧ True))
  | .call _ (.dup2 _ _) => inferInstanceAs (Decidable (_ ∧ (_ → _ → _)))
  | .call _ (.fcntl _ _ _) => inferInstanceAs (Decidable (_ ∧ True))
  | .call _ (.fork _ _) => inferInstanceAs (Decidable (_ ∧ (_ ∨ _)))
  | .call _ (.close _) => inferInstanceAs (Decidable (_ ∧ True))
  | .call _ .exit => inferInstanceAs (Decidable (_ ∧ True))
  | .kill _ => inferInstanceAs (Decidable (_ → _))
  | .wait _ => .isTrue trivial

theorem Balanced.sysDup2 {oldfd newfd : Nat} (h : Balanced (fun _ => 0) s) (ht : t < maxTasks)
    (hlive : s.tasks t = .live)
    (hok : s.isOpen t oldfd = true → oldfd ≠ newfd → s.holdsPipe t newfd = false) :
    Balanced (fun _ => 0) (s.sysDup2 t oldfd newfd).2 := by
  unfold Sys.sysDup2
  split
  · exact h
  next hopen =>
  have hopen : s.isOpen t oldfd = true := by simpa using hopen
  split
  · exact h
  next hne =>
  split
  next hnew => exact h.copyFd ht hlive hopen hnew (hok hopen hne)
  · exact h

theorem Balanced.step {e : Event} (h : Balanced (fun _ => 0) s) (hok : s.Careful e) :
    Balanced (fun _ => 0) (s.step e) := by
  cases e with
  | call t c =>
    obtain ⟨hlive, hc⟩ := hok
    simp only [Sys.step]
    split
    · exact h
    next hguard =>
    have ht : t < maxTasks := by
      by_contra hge
      exact hguard (.inr (.inl (not_lt.mp hge)))
    cases c with
    | pipe null => exact h.sysPipe ht hlive hc
    | dup fd => exact h.sysDup2 ht hlive fun _ hne => absurd rfl hne
    | dup2 oldfd newfd => exact h.sysDup2 ht hlive hc
    | fcntl fd cmd arg => exact h.sysFcntl ht hlive
    | fork stack pml4 => exact h.sysFork ht hlive hc
    | close fd => exact h.closeFd ht hlive
    | exit => exact h.exitTask ht hlive
  | kill t =>
    simp only [Sys.step, Sys.killTaskZombie]
    split
    · exact h
    next ht =>
    split
    · exact h
    · refine h.setRow _ (not_le.mp ht) rfl rows_setTask fun i hi => ?_
      by_cases hlive : s.tasks t = .live
      · simp [rowRefs, rows, tableRefs_eq_zero hi (hok hlive)]
      · simp [rowRefs, rows, hlive]
  | wait t =>
    simp only [Sys.step, Sys.reap]
    split
    · exact h
    next ht =>
    split
    next hz =>
      refine h.setRow _ (not_le.mp ht) rfl rows_setTask fun i hi => ?_
      simp [rowRefs, rows, hz]
    · exact h

theorem balanced_boot (tasks : Nat → Life) : Balanced (fun _ => 0) (boot tasks) := by
  refine ⟨fun i _ => ?_, fun _ _ => ⟨rfl, rfl⟩⟩
  have hcount : pipeCount (boot tasks).pipes i = 0 := by
    unfold pipeCount
    split
    · rfl
    · exact ite_self _
  have hrefs : (boot tasks).refs i = 0 := Table.total_eq_zero fun t _ => by
    unfold rowRefs
    split
    · exact Table.total_eq_zero fun fd _ => rfl
    · rfl
  rw [hcount, hrefs]

end Sys

/-- Over every run of careful steps the counters of every pipe are the numbers of descriptors that
live tasks have open on its ends. -/
theorem pipe_counters_exact (tasks : Nat → Life) {es : List Event}
    (hes : Steps Sys.step Sys.Careful (Sys.boot tasks) es) :
    let s := es.foldl Sys.step (Sys.boot tasks)
    ∀ p < pipeMax, (s.pipes p).nread = s.refs (pipeInodeBase + p * 2) ∧
      (s.pipes p).nwrite = s.refs (pipeInodeBase + p * 2 + 1) := by
  intro s p hp
  have h : s.Balanced (fun _ => 0) :=
    Steps.invariant (I := Sys.Balanced fun _ => 0) (fun _ _ h hok => h.step hok)
      (Sys.balanced_boot tasks) hes
  have hbase : pipeInodeBase = 240 := rfl
  have hread : pipeIdxOf (pipeInodeBase + p * 2) = some p := pipeIdxOf_eq_some.mpr ⟨hp, by omega⟩
  have hwrite : pipeIdxOf (pipeInodeBase + p * 2 + 1) = some p :=
    pipeIdxOf_eq_some.mpr ⟨hp, by omega⟩
  have hr := h.counted _ (by rw [hread]; rfl)
  have hw := h.counted _ (by rw [hwrite]; rfl)
  have hre : pipeIsWriteEnd (pipeInodeBase + p * 2) = false := by
    simp only [pipeIsWriteEnd, decide_eq_false_iff_not]; omega
  have hwe : pipeIsWriteEnd (pipeInodeBase + p * 2 + 1) = true := by
    simp only [pipeIsWriteEnd, decide_eq_true_eq]; omega
  simp only [pipeCount, hread, hre, Bool.false_eq_true, if_false, Nat.add_zero] at hr
  simp only [pipeCount, hwrite, hwe, if_true, Nat.add_zero] at hw
  exact ⟨hr, hw⟩

def twoTasks (t : Nat) : Life := if t ≤ 1 then .live else .empty

/-- Task 1 makes a pipe and forks, and the child closes the read end and exits. -/
theorem pipe_counters_exact_fork :
    let s := [Event.call 1 (.pipe false), .call 1 (.fork true true), .call 2 (.close 0),
      .call 2 .exit].foldl Sys.step (Sys.boot twoTasks)
    s.tasks 2 = .zombie ∧ (s.pipes 0).nread = s.refs 240 ∧ (s.pipes 0).nwrite = s.refs 241 := by
  refine ⟨by decide, ?_⟩
  exact pipe_counters_exact twoTasks
    (show Steps Sys.step Sys.Careful (Sys.boot twoTasks) [Event.call 1 (.pipe false),
      .call 1 (.fork true true), .call 2 (.close 0), .call 2 .exit] by decide)
    0 (by decide)

/-- `sys_dup2` of the read end onto the open write end leaves no descriptor on the write end, and
its counter at 1. -/
theorem dup2_leaves_counter : ∃ es : List Event,
    let s := es.foldl Sys.step (Sys.boot twoTasks)
    (s.pipes 0).nwrite = 1 ∧ s.refs 241 = 0 := by
  refine ⟨[.call 1 (.pipe false), .call 1 (.dup2 0 1)], ?_⟩
  decide

end Rynex.Pipe
