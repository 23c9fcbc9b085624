import Rynex.Fs.Mounts
import Rynex.Fs.Ramfs

/-! Which mount a path belongs to, and the two loops that resolve what is left of the path. -/

namespace Rynex.Fs

/-! ### The mount of a path -/

namespace Mounts

variable (m : Mounts) {path : Path}

/-- The mount is in use, and the path starts with the bytes of its mount point. -/
def Starts (path : Path) (i : Nat) : Prop :=
  (m.mounts i).used ∧ (m.mounts i).mountPoint <+: path

/-- The path is the mount point or a slash follows the mount point in it. Every absolute path is
below the root. -/
def Covers (mp path : Path) : Prop :=
  mp <+: path ∧ (mp = path ∨ mp = [slash] ∨ path[mp.length]? = some slash)

instance (mp path : Path) : Decidable (Covers mp path) := inferInstanceAs (Decidable (_ ∧ _))

/-- No mount point that covers the path is longer than that of mount `i`, which does. -/
structure Best (path : Path) (i : Nat) : Prop where
  lt : i < maxMounts
  used : (m.mounts i).used
  covers : Covers (m.mounts i).mountPoint path
  longest : ∀ j < maxMounts, (m.mounts j).used → Covers (m.mounts j).mountPoint path →
    (m.mounts j).mountPoint.length ≤ (m.mounts i).mountPoint.length

/-- `find_mount` selects the longest component-wise prefix of the path. -/
def Routed (path : Path) : Prop :=
  match m.findMount path with
  | some e => ∃ i, m.Best path i ∧ m.mounts i = e
  | none => ∀ i, ¬ m.Best path i

/-- What the loop of `find_mount` knows after `n` mounts. -/
structure Found (path : Path) (n : Nat) (best : Option Nat × Nat) : Prop where
  found : best = (none, 0) ∨ ∃ i < n, best = (some i, (m.mounts i).mountPoint.length) ∧
    m.Starts path i ∧ (m.mounts i).mountPoint ≠ []
  longest : ∀ j < n, m.Starts path j → (m.mounts j).mountPoint.length ≤ best.2

theorem Found.step {n : Nat} {best : Option Nat × Nat} (h : m.Found path n best) :
    m.Found path (n + 1) (m.findStep path best n) := by
  have hcond : ((m.mounts n).used ∧ (m.mounts n).mountPoint.length ≤ path.length ∧
      path.take (m.mounts n).mountPoint.length = (m.mounts n).mountPoint ∧
      best.2 < (m.mounts n).mountPoint.length) ↔
      m.Starts path n ∧ best.2 < (m.mounts n).mountPoint.length := by
    rw [Starts, List.prefix_iff_eq_take]
    constructor
    · rintro ⟨hused, -, htake, hlt⟩
      exact ⟨⟨hused, htake.symm⟩, hlt⟩
    · rintro ⟨⟨hused, htake⟩, hlt⟩
      refine ⟨hused, ?_, htake.symm, hlt⟩
      rw [htake, List.length_take]
      exact min_le_right _ _
  simp only [findStep]
  split_ifs with hstarts <;> rw [hcond] at hstarts
  · refine ⟨.inr ⟨n, n.lt_succ_self, rfl, hstarts.1, ?_⟩, fun j hj hs => ?_⟩
    · rintro hnil
      rw [hnil] at hstarts
      exact absurd hstarts.2 (Nat.not_lt_zero _)
    · rcases Nat.lt_succ_iff_lt_or_eq.mp hj with hlt | rfl
      · exact (h.longest j hlt hs).trans hstarts.2.le
      · exact le_rfl
  · refine ⟨?_, fun j hj hs => ?_⟩
    · exact h.found.imp_right fun ⟨i, hi, hrest⟩ => ⟨i, Nat.lt_succ_of_lt hi, hrest⟩
    · rcases Nat.lt_succ_iff_lt_or_eq.mp hj with hlt | rfl
      · exact h.longest j hlt hs
      · exact not_lt.mp fun hlt => hstarts ⟨hs, hlt⟩

theorem found (path : Path) (n : Nat) : m.Found path n
    ((List.range n).foldl (m.findStep path) (none, 0)) := by
  induction n with
  | zero => exact ⟨.inl rfl, nofun⟩
  | succ n ih =>
    rw [List.range_succ, List.foldl_append]
    exact ih.step

theorem findMount_eq_some {e : MountEntry} (h : m.findMount path = some e) :
    ∃ i < maxMounts, m.mounts i = e ∧ m.Starts path i ∧ e.mountPoint ≠ [] ∧
      ∀ j < maxMounts, m.Starts path j →
        (m.mounts j).mountPoint.length ≤ e.mountPoint.length := by
  obtain ⟨hfound, hlongest⟩ := m.found path maxMounts
  obtain ⟨i, hi, rfl⟩ := Option.map_eq_some_iff.mp h
  rcases hfound with hnone | ⟨k, hk, hbest, hstarts, hne⟩
  · rw [hnone] at hi; cases hi
  · rw [hbest] at hi hlongest
    cases hi
    exact ⟨i, hk, rfl, hstarts, hne, hlongest⟩

theorem findMount_eq_none (h : m.findMount path = none) {j : Nat} (hj : j < maxMounts)
    (hs : m.Starts path j) : (m.mounts j).mountPoint = [] := by
  obtain ⟨hfound, hlongest⟩ := m.found path maxMounts
  have hnone := Option.map_eq_none_iff.mp h
  rcases hfound with hbest | ⟨k, hk, hbest, -⟩
  · have := hlongest j hj hs
    rw [hbest] at this
    exact List.eq_nil_of_length_eq_zero (Nat.le_zero.mp this)
  · rw [hbest] at hnone; cases hnone

end Mounts

open Mounts

/-- On an absolute path `find_mount` is right exactly if the longest mount point that the path
starts with ends where a component of the path does. -/
theorem find_mount_routes_iff (m : Mounts) (rest : Path) :
    m.Routed (slash :: rest) ↔ ∀ i < maxMounts, m.Starts (slash :: rest) i →
      (∀ j < maxMounts, m.Starts (slash :: rest) j →
        (m.mounts j).mountPoint.length ≤ (m.mounts i).mountPoint.length) →
      (m.mounts i).mountPoint ≠ [] ∧ Covers (m.mounts i).mountPoint (slash :: rest) := by
  set path := slash :: rest with hpath
  unfold Routed
  constructor
  · intro h i hi hs hlongest
    cases hfind : m.findMount path with
    | some e =>
      rw [hfind] at h
      obtain ⟨k, hk, hke⟩ := h
      obtain ⟨i', hi', rfl, hs', hne, hlongest'⟩ := m.findMount_eq_some hfind
      -- Two prefixes of one length are the same.
      have hlen := le_antisymm (hlongest' i hi hs) (hlongest i' hi' hs')
      have hsame : (m.mounts i).mountPoint = (m.mounts i').mountPoint :=
        (List.prefix_of_prefix_length_le hs.2 hs'.2 hlen.le).eq_of_length hlen
      rw [hsame]
      exact ⟨hne, hke ▸ hk.covers⟩
    | none =>
      rw [hfind] at h
      have hnil := m.findMount_eq_none hfind hi hs
      refine absurd ⟨hi, hs.1, ?_, fun j hj hused hc => ?_⟩ (h i)
      · rw [hnil]
        exact ⟨List.nil_prefix, .inr (.inr rfl)⟩
      · exact hlongest j hj ⟨hused, hc.1⟩
  · intro h
    cases hfind : m.findMount path with
    | some e =>
      obtain ⟨i, hi, rfl, hs, -, hlongest⟩ := m.findMount_eq_some hfind
      exact ⟨i, ⟨hi, hs.1, (h i hi hs hlongest).2,
        fun j hj hused hc => hlongest j hj ⟨hused, hc.1⟩⟩,
        rfl⟩
    | none =>
      intro i hbest
      have hs : m.Starts path i := ⟨hbest.used, hbest.covers.1⟩
      have hnil := m.findMount_eq_none hfind hbest.lt hs
      refine (h i hbest.lt hs fun j hj hs' => ?_).1 hnil
      rw [m.findMount_eq_none hfind hj hs']
      exact Nat.zero_le _

/-- The table with ramfs at `/` and procfs at `/proc`. -/
def procTable : Mounts where
  mounts := fun i => if i = 0 then ⟨[slash], 1, 0, .ramfs, true⟩
    else if i = 1 then ⟨[slash, 112, 114, 111, 99], 2, 0, .procfs, true⟩ else .empty

/-- `/procf` goes to procfs, although `/` is the only mount point that covers it. -/
theorem procf_goes_to_procfs :
    procTable.findMount [slash, 112, 114, 111, 99, 102] = some (procTable.mounts 1) ∧
    ¬ Covers (procTable.mounts 1).mountPoint [slash, 112, 114, 111, 99, 102] := by
  decide

/-! ### The loop of `path_resolve` and `path_to_vnode` -/

/-- Where the component that starts at `pos` ends. -/
def componentEnd (trimmed : Path) (pos : Nat) : Nat :=
  (((trimmed.drop pos).findIdx? (· = slash)).map (pos + ·)).getD trimmed.length

def untilSlash (path : Path) : Path := path.takeWhile (· ≠ slash)

theorem componentEnd_eq {trimmed : Path} {pos : Nat} (h : pos ≤ trimmed.length) :
    componentEnd trimmed pos = pos + (untilSlash (trimmed.drop pos)).length := by
  have hidx (l : Path) : (l.findIdx? (· = slash)).getD l.length = (untilSlash l).length := by
    induction l with
    | nil => rfl
    | cons c l ih =>
      by_cases hc : c = slash
      · simp [List.findIdx?_cons, untilSlash, hc]
      · rw [List.findIdx?_cons]
        simp only [hc, decide_false, Bool.false_eq_true, if_false, untilSlash, ne_eq,
          not_false_eq_true, decide_true, List.takeWhile_cons_of_pos, List.length_cons]
        rw [untilSlash] at ih
        rw [← ih]
        cases l.findIdx? (· = slash) <;> rfl
  rw [← hidx, componentEnd]
  cases (trimmed.drop pos).findIdx? (· = slash) with
  | some e => rfl
  | none => simp only [Option.map_none, Option.getD_none, List.length_drop]; omega

/-- The loop that both path functions have, with the lookup of the mounted file system. -/
def resolveLoop (lookup : Nat → Path → Except String Nat) (trimmed : Path) (pos ino : Nat) :
    Except String Nat :=
  if h : pos < trimmed.length then
    if trimmed[pos] = slash then resolveLoop lookup trimmed (pos + 1) ino
    else
      let component := (trimmed.drop pos).take (componentEnd trimmed pos - pos)
      if hc : component = [] then resolveLoop lookup trimmed (componentEnd trimmed pos + 1) ino
      else
        match lookup ino component with
        | .ok next => resolveLoop lookup trimmed (componentEnd trimmed pos) next
        | .error e => .error e
  else .ok ino
termination_by trimmed.length - pos
decreasing_by
  · omega
  · have := componentEnd_eq h.le
    omega
  · have hlt : componentEnd trimmed pos - pos ≠ 0 := fun h0 => hc (by
      change (trimmed.drop pos).take (componentEnd trimmed pos - pos) = []
      rw [h0, List.take_zero])
    omega

theorem segments_append_slash (path rest : Path) :
    segments (path ++ slash :: rest) = segments path ++ segments rest := by
  simp [segments, List.splitOn_append_cons_self]

theorem segments_slash (path : Path) : segments (slash :: path) = segments path :=
  segments_append_slash [] path

theorem segments_append {c rest : Path} (hc : c ≠ []) (hslash : slash ∉ c)
    (hrest : rest = [] ∨ ∃ r, rest = slash :: r) : segments (c ++ rest) = c :: segments rest := by
  rcases hrest with rfl | ⟨r, rfl⟩
  · rw [List.append_nil, segments, List.splitOn_eq_singleton hslash]
    simp [hc, segments]
  · rw [segments_slash, segments, List.splitOn_append_cons_self_of_not_mem hslash]
    simp [hc, segments]

theorem dropWhile_slash (path : Path) :
    path.dropWhile (· ≠ slash) = [] ∨ ∃ r, path.dropWhile (· ≠ slash) = slash :: r := by
  induction path with
  | nil => exact .inl rfl
  | cons c path ih =>
    by_cases hc : c = slash
    · exact .inr ⟨path, by rw [hc]; rfl⟩
    · rwa [List.dropWhile_cons_of_pos (by simpa using hc)]

theorem take_component {trimmed : Path} {pos : Nat} (h : pos ≤ trimmed.length) :
    (trimmed.drop pos).take (componentEnd trimmed pos - pos) = untilSlash (trimmed.drop pos) := by
  rw [componentEnd_eq h, Nat.add_sub_cancel_left, untilSlash]
  nth_rewrite 2 [← List.takeWhile_append_dropWhile (p := (· ≠ slash)) (l := trimmed.drop pos)]
  exact List.take_left

theorem drop_component {trimmed : Path} {pos : Nat} (h : pos ≤ trimmed.length) :
    trimmed.drop (componentEnd trimmed pos) = (trimmed.drop pos).dropWhile (· ≠ slash) := by
  rw [componentEnd_eq h, ← List.drop_drop, untilSlash]
  nth_rewrite 2 [← List.takeWhile_append_dropWhile (p := (· ≠ slash)) (l := trimmed.drop pos)]
  exact List.drop_left

theorem segments_component {trimmed : Path} {pos : Nat} (h : pos ≤ trimmed.length)
    (hc : (trimmed.drop pos).take (componentEnd trimmed pos - pos) ≠ []) :
    segments (trimmed.drop pos) =
      untilSlash (trimmed.drop pos) :: segments (trimmed.drop (componentEnd trimmed pos)) := by
  rw [take_component h] at hc
  rw [drop_component h]
  nth_rewrite 1 [← List.takeWhile_append_dropWhile (p := (· ≠ slash)) (l := trimmed.drop pos)]
  refine segments_append hc (fun hmem => ?_) ?_
  · simpa using List.mem_takeWhile_imp hmem
  · exact dropWhile_slash _

theorem resolveLoop_eq (lookup : Nat → Path → Except String Nat) (trimmed : Path) (pos ino : Nat) :
    resolveLoop lookup trimmed pos ino = (segments (trimmed.drop pos)).foldlM lookup ino := by
  fun_induction resolveLoop lookup trimmed pos ino with
  | case1 pos ino h hslash ih =>
    rw [ih, List.drop_eq_getElem_cons h, hslash, segments_slash]
  | case2 pos ino h hslash component hc ih =>
    -- The component holds at least the byte at `pos`.
    replace hc : (trimmed.drop pos).take (componentEnd trimmed pos - pos) = [] := hc
    rw [take_component h.le, List.drop_eq_getElem_cons h, untilSlash,
      List.takeWhile_cons_of_pos (by simpa using hslash)] at hc
    cases hc
  | case3 pos ino h hslash component hc next hlook ih =>
    replace hlook : lookup ino ((trimmed.drop pos).take (componentEnd trimmed pos - pos)) =
      .ok next :=
      hlook
    rw [ih, segments_component h.le hc, List.foldlM_cons, ← take_component h.le, hlook]
    rfl
  | case4 pos ino h hslash component hc e hlook =>
    replace hlook : lookup ino ((trimmed.drop pos).take (componentEnd trimmed pos - pos)) =
      .error e :=
      hlook
    rw [segments_component h.le hc, List.foldlM_cons, ← take_component h.le, hlook]
    rfl
  | case5 pos ino h =>
    rw [List.drop_eq_nil_of_le (not_lt.mp h)]
    rfl

/-! ### The path functions -/

/-- What the mounted file systems answer to lookups. -/
structure Contents where
  lookup : Kind → Nat → Path → Except String Nat

structure VnodeEntry where
  ino : Nat
  fsId : Nat
  mountId : Nat
  ops : Kind
  used : Bool

/-- `alloc` of the vnode table. -/
def vnodeTableAlloc (vt : Nat → VnodeEntry) (ino fsId mountId : Nat) (ops : Kind) :
    Option (Nat × (Nat → VnodeEntry)) :=
  match (List.range maxVnodes).find? fun i => !(vt i).used with
  | none => none
  | some i => some (i, Function.update vt i ⟨ino, fsId, mountId, ops, true⟩)

namespace Contents

variable (fs : Contents) (m : Mounts) (vt : Nat → VnodeEntry)

def pathResolve (path : Path) : Except String (Nat × Kind) :=
  match m.findMount path with
  | none => .error "no mount for path"
  | some mnt =>
    let rel := relPath mnt path
    if rel = [dot] ∨ rel = [] then .ok (mnt.rootIno, mnt.ops)
    else
      match resolveLoop (fs.lookup mnt.ops) (trimAscii rel) 0 mnt.rootIno with
      | .ok ino => .ok (ino, mnt.ops)
      | .error e => .error e

def wrap (mnt : MountEntry) (ino : Nat) : Except String Nat × (Nat → VnodeEntry) :=
  match vnodeTableAlloc vt ino mnt.fsId 0 mnt.ops with
  | none => (.error "vnode table full", vt)
  | some (id, vt') => (.ok id, vt')

def pathToVnode (path : Path) : Except String Nat × (Nat → VnodeEntry) :=
  match m.findMount path with
  | none => (.error "no mount for path", vt)
  | some mnt =>
    let rel := relPath mnt path
    if rel = [dot] ∨ rel = [] then wrap vt mnt mnt.rootIno
    else
      match resolveLoop (fs.lookup mnt.ops) (trimAscii rel) 0 mnt.rootIno with
      | .ok ino => wrap vt mnt ino
      | .error e => (.error e, vt)

/-- The lookups of the names below the mount point, one after the other from the root. -/
def resolved (path : Path) : Except String (Nat × Kind) :=
  match m.findMount path with
  | none => .error "no mount for path"
  | some mnt =>
    ((names mnt path).foldlM (fs.lookup mnt.ops) mnt.rootIno).map fun ino => (ino, mnt.ops)

theorem pathResolve_eq (path : Path) : fs.pathResolve m path = fs.resolved m path := by
  unfold pathResolve resolved
  cases m.findMount path with
  | none => rfl
  | some mnt =>
    simp only [names]
    split_ifs
    · rfl
    · rw [resolveLoop_eq, List.drop_zero]
      cases (segments (trimAscii (relPath mnt path))).foldlM (fs.lookup mnt.ops) mnt.rootIno <;> rfl

/-- `path_to_vnode` answers as `path_resolve` does: the same error, or a vnode for what it found,
in the first place of the table that is free. -/
structure Agrees (path : Path) (r : Except String Nat × (Nat → VnodeEntry)) : Prop where
  error : ∀ e, fs.pathResolve m path = .error e → r = (.error e, vt)
  full : ∀ ino ops, fs.pathResolve m path = .ok (ino, ops) → (∀ i < maxVnodes, (vt i).used) →
    r = (.error "vnode table full", vt)
  vnode : ∀ ino ops, fs.pathResolve m path = .ok (ino, ops) →
    (∃ i < maxVnodes, (vt i).used = false) →
    ∃ id < maxVnodes, (vt id).used = false ∧ r.1 = .ok id ∧ (r.2 id).ino = ino ∧
      (r.2 id).ops = ops ∧ (r.2 id).used ∧ ∀ j ≠ id, r.2 j = vt j

theorem agrees_wrap {path : Path} {mnt : MountEntry} {ino : Nat}
    (h : fs.pathResolve m path = .ok (ino, mnt.ops)) : fs.Agrees m vt path (wrap vt mnt ino) := by
  have hsome {ino' : Nat} {ops : Kind} (h' : fs.pathResolve m path = .ok (ino', ops)) :
      ino = ino' ∧ mnt.ops = ops := by
    rw [h] at h'
    cases h'
    exact ⟨rfl, rfl⟩
  unfold wrap vnodeTableAlloc
  cases hfind : (List.range maxVnodes).find? fun i => !(vt i).used with
  | none =>
    refine ⟨fun e he => ?_, fun _ _ _ _ => rfl, fun _ _ _ ⟨i, hi, hfree⟩ => ?_⟩
    · rw [h] at he; cases he
    · have := List.find?_eq_none.mp hfind i (List.mem_range.mpr hi)
      simp [hfree] at this
  | some id =>
    have hlt := List.mem_range.mp (List.mem_of_find?_eq_some hfind)
    have hfree : (vt id).used = false := by simpa using List.find?_some hfind
    refine ⟨fun e he => ?_, fun _ _ _ hfull => ?_, fun ino' ops h' _ => ?_⟩
    · rw [h] at he; cases he
    · rw [hfull id hlt] at hfree; cases hfree
    · obtain ⟨rfl, rfl⟩ := hsome h'
      refine ⟨id, hlt, hfree, rfl, ?_, ?_, ?_, fun j hj => ?_⟩ <;> simp_all

theorem agrees (path : Path) : fs.Agrees m vt path (fs.pathToVnode m vt path) := by
  have herror {e : String} (h : fs.pathResolve m path = .error e) :
      fs.Agrees m vt path (.error e, vt) := by
    refine ⟨fun e' he' => ?_, fun _ _ h' => ?_, fun _ _ h' => ?_⟩
    · rw [h] at he'; cases he'; rfl
    · rw [h] at h'; cases h'
    · rw [h] at h'; cases h'
  unfold pathToVnode
  split
  case h_1 hnone => exact herror (by simp [pathResolve, hnone])
  case h_2 mnt hmnt =>
    simp only
    split_ifs with hroot
    · exact agrees_wrap fs m vt (by simp [pathResolve, hmnt, hroot])
    · split
      case h_1 ino hok => exact agrees_wrap fs m vt (by simp [pathResolve, hmnt, hroot, hok])
      case h_2 e hfail => exact herror (by simp [pathResolve, hmnt, hroot, hfail])

end Contents

open Contents

/-- For all mounts, contents and paths, `path_resolve` is the fold of the lookups over the
components below the mount point, and `path_to_vnode` agrees with it. -/
theorem path_resolve_is_fold (fs : Contents) (m : Mounts) (vt : Nat → VnodeEntry) (path : Path) :
    fs.pathResolve m path = fs.resolved m path ∧ fs.Agrees m vt path (fs.pathToVnode m vt path) :=
  ⟨fs.pathResolve_eq m path, fs.agrees m vt path⟩

theorem parentPath_shorter (path : Path) :
    parentPath path = [slash] ∨ (parentPath path).length < path.length := by
  unfold parentPath
  split
  · exact .inl rfl
  · have htrim : (trimSlash path).length ≤ path.length := by
      unfold trimSlash
      split <;> simp
    split
    · exact .inl rfl
    next parent name _ hsplit =>
      refine .inr ?_
      unfold splitLast at hsplit
      split at hsplit
      next hmem =>
        simp only [Option.some.injEq, Prod.mk.injEq] at hsplit
        obtain ⟨rfl, -⟩ := hsplit
        have hpos := List.length_pos_of_mem hmem
        simp only [List.length_take]
        omega
      · cases hsplit
    · exact .inl rfl

/-! ### Resolving by way of the parent -/

theorem dropWhile_isBlank {path : Path} (h : ∀ b, path.head? = some b → isBlank b = false) :
    path.dropWhile isBlank = path := by
  cases path with
  | nil => rfl
  | cons b path => rw [List.dropWhile_cons_of_neg (by simp [h b rfl])]

/-- The last byte is no blank. -/
def Closed (path : Path) : Prop := ∀ b, path.getLast? = some b → isBlank b = false

theorem trimAscii_of_closed {path : Path} (h : Closed path) :
    trimAscii path = path.dropWhile isBlank := by
  rw [trimAscii, dropWhile_isBlank (fun b hb => h b ?_), List.reverse_reverse]
  obtain ⟨blanks, hsplit⟩ := List.dropWhile_suffix (l := path) isBlank
  rw [List.head?_reverse] at hb
  rw [← hsplit, List.getLast?_append, hb]
  rfl

theorem names_append (mnt : MountEntry) (rel : Path) : names mnt (mnt.mountPoint ++ rel) =
    if rel = [dot] ∨ rel = [] then [] else segments (trimAscii rel) := by
  have hrel : relPath mnt (mnt.mountPoint ++ rel) = if rel = [] then [dot] else rel := by
    unfold relPath
    by_cases h : rel = []
    · simp [h]
    · rw [if_neg (by simpa using h), if_neg h]
      split_ifs with h1
      · rw [← h1.1, List.drop_left]
      · exact List.drop_left
  rw [names, hrel]
  by_cases h : rel = [] <;> simp [h]

theorem splitLast_concat (pre : Path) {c : Path} (hc : slash ∉ c) :
    splitLast (pre ++ slash :: c) = some (pre, c) := by
  have hname : (pre ++ slash :: c).reverse.takeWhile (· ≠ slash) = c.reverse := by
    rw [List.reverse_append, List.reverse_cons, List.append_assoc, List.takeWhile_append_of_pos]
    · simp
    · intro b hb
      simpa using fun h : b = slash => hc (h ▸ List.mem_reverse.mp hb)
  have hlen : (pre ++ slash :: c).length - c.reverse.length - 1 = pre.length := by
    simp only [List.length_append, List.length_cons, List.length_reverse]
    omega
  rw [splitLast, if_pos (by simp)]
  simp only [hname, hlen, List.take_left', List.reverse_reverse]

theorem concat_ne (pre : Path) {c : Path} (hc : c ≠ []) :
    ¬ (pre ++ slash :: c = [] ∨ pre ++ slash :: c = [slash]) := by
  have hpos := List.length_pos_iff.mpr hc
  rintro (h | h) <;> have hlen := congrArg List.length h <;>
    simp only [List.length_append, List.length_cons, List.length_nil] at hlen <;> omega

theorem tail_ne {name tail : Path} (htail : tail = [] ∧ name ≠ [] ∨ tail = [slash]) :
    name ++ tail ≠ [] := by
  rcases htail with ⟨rfl, hne⟩ | rfl
  · rwa [List.append_nil]
  · simp

/-- A path in which `name` stands after the last slash, but for one at the end. -/
theorem split_concat (pre : Path) {name tail : Path} (hname : slash ∉ name)
    (htail : tail = [] ∧ name ≠ [] ∨ tail = [slash]) :
    parentPath (pre ++ slash :: (name ++ tail)) = (if pre = [] then [slash] else pre) ∧
      fileName (pre ++ slash :: (name ++ tail)) = name := by
  have htrim : trimSlash (pre ++ slash :: (name ++ tail)) = pre ++ slash :: name := by
    rcases htail with ⟨rfl, hne⟩ | rfl
    · rw [List.append_nil, trimSlash, if_neg]
      rw [List.getLast?_append, List.getLast?_cons, List.getLast?_eq_some_getLast hne]
      simp only [Option.getD_some, Option.some_or, Option.some.injEq]
      exact fun h => hname (h ▸ List.getLast_mem hne)
    · rw [← List.cons_append, ← List.append_assoc, trimSlash, if_pos List.getLast?_concat,
        List.dropLast_concat]
  have hne := concat_ne pre (tail_ne htail)
  constructor
  · rw [parentPath, if_neg hne, htrim, splitLast_concat pre hname]
    cases pre <;> rfl
  · rw [fileName, if_neg hne, htrim, splitLast_concat pre hname]

end Rynex.Fs
