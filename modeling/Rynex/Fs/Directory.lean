import Rynex.Fs.Tree

/-! A directory of ramfs as a map from names to inodes, what a rename leaves behind, and when a
directory counts as full. -/

namespace Rynex.Fs

open Rynex.Lib RamInode

/-! ### The names of one directory -/

namespace RamInode

variable {n : RamInode} {name : List UInt8} {i k slot ino ft : Nat}

/-- What the directory binds the name to. -/
def names (n : RamInode) (name : List UInt8) : Option Nat :=
  (n.find name).map fun i => (n.dirents i).ino

/-- The entries have distinct names that fit. -/
structure Keyed (n : RamInode) : Prop where
  nameLen : ∀ i, n.holds i → (n.dirents i).nameLen = (n.dirents i).key.length
  distinct : ∀ i j k k' v, n.entry i = some (k, v) → n.entry j = some (k', v) → i = j

/-- Entry `i` has the name. -/
def Hits (n : RamInode) (name : List UInt8) (i : Nat) : Prop :=
  n.holds i ∧ (n.dirents i).nameLen = name.length ∧ (n.dirents i).key = name

theorem find_eq_some : n.find name = some i ↔ n.Hits name i ∧ ∀ j < i, ¬ n.Hits name j := by
  rw [RamInode.find, List.find?_range_eq_some]
  simp only [RamDirent.matches, Hits, holds, List.mem_range, Bool.and_eq_true, decide_eq_true_eq,
    Bool.not_eq_true']
  constructor
  · rintro ⟨⟨⟨hu, hlen⟩, hkey⟩, hi, hall⟩
    refine ⟨⟨⟨hi, hu⟩, hlen, hkey⟩, fun j hj hhit => ?_⟩
    simpa [hhit] using hall j hj
  · rintro ⟨⟨⟨hi, hu⟩, hlen, hkey⟩, hall⟩
    refine ⟨⟨⟨hu, hlen⟩, hkey⟩, hi, fun j hj => ?_⟩
    have := hall j hj
    simp only [hj.trans hi, true_and] at this
    simpa [and_assoc] using this

theorem find_congr {n' : RamInode} (h : ∀ i, n'.Hits name i ↔ n.Hits name i) :
    n'.find name = n.find name :=
  Option.ext fun i => by simp only [find_eq_some, h]

theorem not_hits (h : n.find name = none) (i : Nat) : ¬ n.Hits name i := fun hi => by
  refine find_none h hi.1 ?_ hi.2.2
  rw [hi.2.2]
  exact hi.2.1

theorem hits_withoutEntry : (n.withoutEntry slot).Hits name i ↔ i ≠ slot ∧ n.Hits name i := by
  rw [Hits, holds_withoutEntry]
  by_cases hi : i = slot
  · simp [hi]
  · simp [hi, Hits, RamInode.withoutEntry]

theorem hits_withEntry {v : List UInt8} (hslot : n.Free slot) (hlen : name.length ≤ maxName) :
    (n.withEntry slot ino name ft).Hits v i ↔ if i = slot then v = name else n.Hits v i := by
  rw [Hits, holds_withEntry hslot]
  by_cases hi : i = slot
  · simp only [hi, RamInode.withEntry, Function.update_self, RamDirent.key_set hlen,
      RamDirent.nameLen_set hlen]
    constructor
    · exact fun h => h.2.2.symm
    · rintro rfl; simp
  · simp [hi, Hits, RamInode.withEntry]

theorem find_withEntry_self (hslot : n.Free slot) (hlen : name.length ≤ maxName)
    (hfirst : ∀ j < slot, ¬ n.Hits name j) :
    (n.withEntry slot ino name ft).find name = some slot := by
  refine find_eq_some.mpr ⟨(hits_withEntry hslot hlen).mpr (by rw [if_pos rfl]), fun j hj => ?_⟩
  rw [hits_withEntry hslot hlen, if_neg hj.ne]
  exact hfirst j hj

theorem not_hits_free (hslot : n.Free slot) : ¬ n.Hits name slot := fun hh => by
  rw [Hits, hslot.holds] at hh
  cases hh.1

theorem find_withEntry_of_ne {v : List UInt8} (hslot : n.Free slot) (hlen : name.length ≤ maxName)
    (hv : v ≠ name) : (n.withEntry slot ino name ft).find v = n.find v := by
  refine find_congr fun i => ?_
  rw [hits_withEntry hslot hlen]
  split_ifs with hi
  · exact iff_of_false hv (hi ▸ not_hits_free hslot)
  · rfl

theorem names_withEntry (hslot : n.Free slot) (hlen : name.length ≤ maxName)
    (hfirst : ∀ j < slot, ¬ n.Hits name j) :
    (n.withEntry slot ino name ft).names = Function.update n.names name (some ino) := by
  funext v
  by_cases hv : v = name
  · rw [names, hv, find_withEntry_self hslot hlen hfirst, Function.update_self]
    simp [RamInode.withEntry]
  · rw [Function.update_of_ne hv, names, names, find_withEntry_of_ne hslot hlen hv]
    refine Option.map_congr fun i hi => ?_
    have hne : i ≠ slot := by rintro rfl; exact not_hits_free hslot (find_eq_some.mp hi).1
    simp [RamInode.withEntry, hne]

theorem names_withoutEntry (hfind : n.find name = some slot) : (n.withoutEntry slot).names =
    Function.update n.names name ((n.withoutEntry slot).names name) := by
  funext v
  by_cases hv : v = name
  · rw [hv, Function.update_self]
  · have hhits (i : Nat) : (n.withoutEntry slot).Hits v i ↔ n.Hits v i := by
      rw [hits_withoutEntry, and_iff_right_iff_imp]
      rintro hh rfl
      exact hv (hh.2.2.symm.trans (find_some hfind).2)
    rw [Function.update_of_ne hv, names, names, find_congr hhits]
    refine Option.map_congr fun i hi => ?_
    by_cases hi' : i = slot <;> simp [RamInode.withoutEntry, hi']

theorem entry_of_find (h : n.find name = some i) : n.entry i = some ((n.dirents i).ino, name) :=
  entry_eq_some.mpr ⟨(find_some h).1, rfl, (find_some h).2⟩

theorem Keyed.not_entry (h : n.Keyed) (hnone : n.find name = none) :
    n.entry i ≠ some (k, name) := by
  intro he
  obtain ⟨hi, -, hkey⟩ := entry_eq_some.mp he
  exact find_none hnone hi (h.nameLen i hi) hkey

theorem Keyed.names_eq_some (h : n.Keyed) : n.names name = some k ↔
    ∃ i, n.entry i = some (k, name) := by
  constructor
  · intro hname
    obtain ⟨i, hi, rfl⟩ := Option.map_eq_some_iff.mp hname
    exact ⟨i, entry_of_find hi⟩
  · rintro ⟨i, hi⟩
    cases hfind : n.find name with
    | none => exact absurd hi (h.not_entry hfind)
    | some j =>
      have hj := entry_of_find hfind
      obtain rfl := h.distinct i j _ _ _ hi hj
      rw [hi] at hj
      simp only [names, hfind, Option.map_some]
      cases hj
      rfl

theorem keyed_of_empty (h : ∀ i, n.holds i = false) : n.Keyed := by
  refine ⟨fun i hi => ?_, fun i _ _ _ _ hi => ?_⟩
  · rw [h i] at hi; cases hi
  · rw [entry_eq_none.mpr (h i)] at hi; cases hi

theorem names_of_empty (h : ∀ i, n.holds i = false) : n.names = fun _ => none := by
  funext name
  cases hfind : n.find name with
  | none => simp [names, hfind]
  | some i => exact absurd (find_some hfind).1 (by simp [h i])

theorem Keyed.withEntry (h : n.Keyed) (hslot : n.Free slot) (hlen : name.length ≤ maxName)
    (hnone : n.find name = none) : (n.withEntry slot ino name ft).Keyed := by
  constructor
  case nameLen =>
    intro i hi
    by_cases hi' : i = slot
    · subst hi'
      simp [RamInode.withEntry, RamDirent.key_set hlen, RamDirent.nameLen_set hlen]
    · simp only [holds_withEntry hslot, hi', decide_false, Bool.false_or] at hi
      simpa [RamInode.withEntry, hi'] using h.nameLen i hi
  case distinct =>
    intro i j k k' v hi hj
    rw [entry_withEntry hslot hlen] at hi hj
    by_cases hi' : i = slot <;> by_cases hj' : j = slot
    · rw [hi', hj']
    · rw [hi', Function.update_self] at hi
      rw [Function.update_of_ne hj'] at hj
      cases hi
      exact absurd hj (h.not_entry hnone)
    · rw [hj', Function.update_self] at hj
      rw [Function.update_of_ne hi'] at hi
      cases hj
      exact absurd hi (h.not_entry hnone)
    · rw [Function.update_of_ne hi'] at hi
      rw [Function.update_of_ne hj'] at hj
      exact h.distinct i j k k' v hi hj

theorem Keyed.withoutEntry (h : n.Keyed) (slot : Nat) : (n.withoutEntry slot).Keyed := by
  constructor
  case nameLen =>
    intro i hi
    rw [holds_withoutEntry, Bool.and_eq_true, decide_eq_true_eq] at hi
    simpa [RamInode.withoutEntry, hi.1] using h.nameLen i hi.2
  case distinct =>
    have hold : ∀ {i k v}, (n.withoutEntry slot).entry i = some (k, v) →
      n.entry i = some (k, v) := by
      intro i k v hi
      rw [entry_withoutEntry] at hi
      by_cases hi' : i = slot
      · rw [hi', Function.update_self] at hi; cases hi
      · rwa [Function.update_of_ne hi'] at hi
    exact fun i j k k' v hi hj => h.distinct i j k k' v (hold hi) (hold hj)

theorem Keyed.find_withoutEntry (h : n.Keyed) (hfind : n.find name = some slot) :
    (n.withoutEntry slot).find name = none := by
  by_contra hne
  obtain ⟨i, hi⟩ := Option.ne_none_iff_exists'.mp hne
  obtain ⟨hslot, hhit⟩ := hits_withoutEntry.mp (find_eq_some.mp hi).1
  exact hslot (h.distinct i slot _ _ name (entry_eq_some.mpr ⟨hhit.1, rfl, hhit.2.2⟩)
    (entry_of_find hfind))

theorem free_withoutEntry (hfind : n.find name = some slot) : (n.withoutEntry slot).Free slot := by
  have hholds := (find_some hfind).1
  simp only [holds, Bool.and_eq_true, decide_eq_true_eq] at hholds
  exact .inl ⟨hholds.1, by rw [holds_withoutEntry]; simp⟩

end RamInode

/-! ### The map -/

/-- The inodes in use, each with the names that it binds; a file binds none. -/
abbrev Dirs := Nat → Option (List UInt8 → Option Nat)

namespace Dirs

/-- What the name denotes in the directory. -/
def find (m : Dirs) (d : Nat) (name : List UInt8) : Option Nat := (m d).bind fun names => names name

/-- The directory binds the name to `i`, or no longer. -/
def bind (m : Dirs) (d : Nat) (name : List UInt8) (i : Option Nat) : Dirs :=
  Function.update m d ((m d).map fun names => Function.update names name i)

def destroy (m : Dirs) (i : Nat) : Dirs := Function.update m i none

/-- A new inode, which binds nothing yet, under a name. -/
def enter (m : Dirs) (d : Nat) (name : List UInt8) (i : Nat) : Dirs :=
  bind (Function.update m i (some fun _ => none)) d name (some i)

def remove (m : Dirs) (d : Nat) (name : List UInt8) : Dirs :=
  match m.find d name with
  | none => m
  | some i => (m.bind d name none).destroy i

/-- The binding moves; what the new name was bound to is destroyed. -/
def rename (m : Dirs) (d : Nat) (old : List UInt8) (d' : Nat) (new : List UInt8) : Dirs :=
  match m.find d old with
  | none => m
  | some i =>
    let m := m.bind d old none
    let m := match m.find d' new with
      | none => m
      | some target => m.destroy target
    m.bind d' new (some i)

def lookup (m : Dirs) (d : Nat) (name : List UInt8) : Except String Nat :=
  match m d with
  | none => .error "bad ino"
  | some names =>
    match names name with
    | none => .error "ramfs: not found"
    | some i => .ok i

theorem bind_bind (m : Dirs) (d : Nat) (name : List UInt8) (i j : Option Nat) :
    (m.bind d name i).bind d name j = m.bind d name j := by
  simp only [bind, Function.update_self, Function.update_idem, Option.map_map]
  congr 2
  funext names
  exact Function.update_idem ..

theorem find_bind_self {m : Dirs} {d : Nat} (h : (m d).isSome) (name : List UInt8)
    (i : Option Nat) :
    (m.bind d name i).find d name = i := by
  obtain ⟨names, hnames⟩ := Option.isSome_iff_exists.mp h
  simp [find, bind, hnames]

theorem find_bind_of_ne (m : Dirs) {d d' : Nat} {name name' : List UInt8} (i : Option Nat)
    (h : (d', name') ≠ (d, name)) : (m.bind d name i).find d' name' = m.find d' name' := by
  by_cases hd : d' = d
  · subst hd
    have hname : name' ≠ name := fun heq => h (by rw [heq])
    cases hm : m d' <;> simp [find, bind, hm, hname]
  · simp [find, bind, hd]

theorem find_destroy (m : Dirs) (d i : Nat) (name : List UInt8) :
    (m.destroy i).find d name = if d = i then none else m.find d name := by
  by_cases hd : d = i
  · subst hd; simp [find, destroy]
  · simp [find, destroy, hd]

/-- The binding of `old` in `p` has moved to `new` in `q`, and all other names are as before. -/
structure Renamed (m : Dirs) (p : Nat) (old : List UInt8) (q : Nat) (new : List UInt8)
    (m' : Dirs) : Prop where
  moved : m'.find q new = m.find p old
  gone : (p, old) ≠ (q, new) → m'.find p old = none
  others : ∀ d name, (d, name) ≠ (p, old) → (d, name) ≠ (q, new) → m'.find d name = m.find d name

/-- What the calls make of the map: `old` is bound to what a second entry says, `target` is given
up, and `new` is bound. -/
theorem renamed_iff {m : Dirs} {p q i : Nat} {old new : List UInt8} {again target : Option Nat}
    (hi : m.find p old = some i) (hq : (m q).isSome) :
    m.Renamed p old q new
        ((target.elim (m.bind p old again) (m.bind p old again).destroy).bind q new (some i)) ↔
      ((p, old) = (q, new) ∨ again = none ∨ target = some p) ∧
      ∀ t, target = some t → t ≠ q ∧ ∀ name, (t, name) ≠ (p, old) → m.find t name = none := by
  have hp : (m p).isSome := by
    cases hm : m p with
    | none => simp [find, hm] at hi
    | some names => rfl
  have hq' : ((m.bind p old again) q).isSome := by
    by_cases h : q = p
    · subst h; simpa [bind] using hq
    · simpa [bind, h] using hq
  have hold : (m.bind p old again).find p old = again := find_bind_self hp ..
  cases target with
  | none =>
    simp only [Option.elim_none]
    constructor
    · intro h
      refine ⟨or_iff_not_imp_left.mpr fun hne => .inl ?_, nofun⟩
      rw [← hold, ← find_bind_of_ne _ (some i) hne, h.gone hne]
    · rintro ⟨hagain, -⟩
      refine ⟨by rw [find_bind_self hq', hi], fun hne => ?_, fun d name h₁ h₂ => ?_⟩
      · rw [find_bind_of_ne _ _ hne, hold]
        exact (hagain.resolve_left hne).resolve_right nofun
      · rw [find_bind_of_ne _ _ h₂, find_bind_of_ne _ _ h₁]
  | some t =>
    simp only [Option.elim_some, Option.some.injEq, forall_eq']
    constructor
    · intro h
      have htq : t ≠ q := by
        rintro rfl
        have hmoved := h.moved
        rw [hi] at hmoved
        simp [find, bind, destroy] at hmoved
      refine ⟨or_iff_not_imp_left.mpr fun hne => or_iff_not_imp_right.mpr fun htp => ?_, htq,
        fun name hname => ?_⟩
      · have := h.gone hne
        rwa [find_bind_of_ne _ _ hne, find_destroy, if_neg (Ne.symm htp), hold] at this
      · have hnew : (t, name) ≠ (q, new) := fun heq => htq (Prod.mk.inj heq).1
        rw [← h.others t name hname hnew, find_bind_of_ne _ _ hnew, find_destroy, if_pos rfl]
    · rintro ⟨hagain, htq, hempty⟩
      have hlive : ((m.bind p old again).destroy t q).isSome := by
        simpa [destroy, htq.symm] using hq'
      refine ⟨by rw [find_bind_self hlive, hi], fun hne => ?_, fun d name h₁ h₂ => ?_⟩
      · rw [find_bind_of_ne _ _ hne, find_destroy]
        split_ifs with hpt
        · rfl
        · rw [hold]
          exact (hagain.resolve_left hne).resolve_right (Ne.symm hpt)
      · rw [find_bind_of_ne _ _ h₂, find_destroy]
        split_ifs with hd
        · rw [hd, hempty name (hd ▸ h₁)]
        · exact find_bind_of_ne _ _ h₁

/-- What a call makes of the map, given its answer. -/
def step (m : Dirs) : RamOp × Except String Nat → Dirs
  | (.create d name _, .ok i) | (.mkdir d name _, .ok i) | (.symlink d name _, .ok i) =>
    m.enter d name i
  | (.remove d name, .ok _) | (.rmdir d name, .ok _) => m.remove d name
  | (.rename d old d' new, .ok _) => m.rename d old d' new
  | (_, .error _) => m

def init : Dirs
  | 0 => some fun name =>
    if name = [98, 105, 110] then some 1 else if name = [108, 105, 98] then some 2 else none
  | 1 | 2 => some fun _ => none
  | _ => none

end Dirs

namespace Ramfs

variable {fs fs' : Ramfs} {d slot ino ft : Nat} {name : List UInt8}

def dirs (fs : Ramfs) : Dirs := fun d => (fs.getIno d).map names

/-- The answer of a call; 0 stands for an answer without a value. -/
def answer (fs : Ramfs) : RamOp → Except String Nat
  | .create parent name mode => (fs.create parent name mode).1
  | .mkdir parent name mode => (fs.mkdir parent name mode).1
  | .symlink parent name target => (fs.symlink parent name target).1
  | .remove parent name => (fs.remove parent name).1.map fun _ => 0
  | .rmdir parent name => (fs.rmdir parent name).1.map fun _ => 0
  | .rename oldParent oldName newParent newName =>
    (fs.rename oldParent oldName newParent newName).1.map fun _ => 0

def trace (fs : Ramfs) : List RamOp → List (RamOp × Except String Nat)
  | [] => []
  | op :: ops => (op, fs.answer op) :: (fs.step op).trace ops

def Keyed (fs : Ramfs) : Prop := ∀ d, (fs.inodes d).Keyed

theorem Keyed.setInode {n : RamInode} (h : fs.Keyed) (hn : n.Keyed) : (fs.setInode d n).Keyed := by
  intro d'
  by_cases hd : d' = d
  · subst hd; rwa [inodes_setInode_self]
  · rw [inodes_setInode_of_ne _ _ hd]; exact h d'

theorem dirs_of_live (h : d ∈ fs.live) : fs.dirs d = some (fs.inodes d).names := by
  simp [dirs, getIno_eq_some.mpr ⟨h, rfl⟩]

theorem dirs_of_not_live (h : d ∉ fs.live) : fs.dirs d = none := by
  cases hd : fs.getIno d with
  | none => simp [dirs, hd]
  | some n => exact absurd (getIno_eq_some.mp hd).1 h

theorem dirs_congr (hlive : fs'.live = fs.live)
    {i : Nat} (hsame : ∀ d ≠ i, fs'.inodes d = fs.inodes d) :
    fs'.dirs = Function.update fs.dirs i (fs'.dirs i) := by
  funext d
  by_cases hd : d = i
  · subst hd; rw [Function.update_self]
  · rw [Function.update_of_ne hd]
    by_cases hl : d ∈ fs.live
    · rw [dirs_of_live hl, dirs_of_live (hlive ▸ hl), hsame d hd]
    · rw [dirs_of_not_live hl, dirs_of_not_live (hlive ▸ hl)]

theorem find_dirs (h : d ∈ fs.live) : fs.dirs.find d name = (fs.inodes d).names name := by
  simp [Dirs.find, dirs_of_live h]

theorem find_dirs_of_find {idx : Nat} (hlive : d ∈ fs.live)
    (h : (fs.inodes d).find name = some idx) :
    fs.dirs.find d name = some ((fs.inodes d).dirents idx).ino := by
  rw [find_dirs hlive, names, h, Option.map_some]

theorem dirs_setInode {n : RamInode} {names : List UInt8 → Option Nat}
    (hused : n.used = (fs.inodes d).used) (hnames : n.names = names) :
    (fs.setInode d n).dirs = Function.update fs.dirs d ((fs.dirs d).map fun _ => names) := by
  have hlive := live_setInode fs hused
  rw [dirs_congr (i := d) hlive fun d' hd => inodes_setInode_of_ne fs n hd]
  congr 1
  by_cases hl : d ∈ fs.live
  · rw [dirs_of_live (hlive ▸ hl), dirs_of_live hl, inodes_setInode_self, hnames, Option.map_some]
  · rw [dirs_of_not_live (hlive ▸ hl), dirs_of_not_live hl, Option.map_none]

theorem map_dirs_update (fs : Ramfs) (d : Nat)
    (f : (List UInt8 → Option Nat) → List UInt8 → Option Nat) :
    ((fs.dirs d).map fun _ => f (fs.inodes d).names) = (fs.dirs d).map f := by
  by_cases hl : d ∈ fs.live
  · rw [dirs_of_live hl]; rfl
  · rw [dirs_of_not_live hl]; rfl

theorem dirs_freeInode (fs : Ramfs) (ino : Nat) :
    (fs.freeInode ino).dirs = fs.dirs.destroy ino := by
  funext d
  have hlive : (fs.freeInode ino).live = fs.live \ {ino} := live_setInode_unused fs rfl
  by_cases hd : d = ino
  · subst hd
    rw [Dirs.destroy, Function.update_self, dirs_of_not_live]
    rw [hlive]
    exact fun h => h.2 rfl
  · rw [Dirs.destroy, Function.update_of_ne hd]
    by_cases hl : d ∈ fs.live
    · rw [dirs_of_live hl, dirs_of_live (hlive ▸ ⟨hl, hd⟩), freeInode, inodes_setInode_of_ne _ _ hd]
    · rw [dirs_of_not_live hl, dirs_of_not_live (hlive ▸ fun h => hl h.1)]

theorem Keyed.freeInode (h : fs.Keyed) (ino : Nat) : (fs.freeInode ino).Keyed :=
  h.setInode ⟨(h ino).nameLen, (h ino).distinct⟩

theorem Keyed.unset (h : fs.Keyed) (d slot : Nat) : (fs.unset d slot).Keyed :=
  h.setInode ((h d).withoutEntry slot)

/-- What an entry of the directory after the first with the name binds it to. -/
def again (fs : Ramfs) (d : Nat) (name : List UInt8) : Option Nat :=
  ((fs.inodes d).find name).bind fun i => ((fs.inodes d).withoutEntry i).names name

theorem dirs_unset (hfind : (fs.inodes d).find name = some slot) :
    (fs.unset d slot).dirs = fs.dirs.bind d name (fs.again d name) := by
  rw [Ramfs.unset, dirs_setInode (n := (fs.inodes d).withoutEntry slot) rfl
    (names_withoutEntry hfind), map_dirs_update fs d fun names => Function.update names name _,
    again, hfind]
  rfl

theorem Keyed.dirs_unset (h : fs.Keyed) (hfind : (fs.inodes d).find name = some slot) :
    (fs.unset d slot).dirs = fs.dirs.bind d name none := by
  rw [Ramfs.dirs_unset hfind, again, hfind, Option.bind_some, names,
    (h d).find_withoutEntry hfind, Option.map_none]

theorem Keyed.addEntry (h : fs.Keyed) (hslot : (fs.inodes d).Free slot)
    (hlen : name.length ≤ maxName)
    (hnone : (fs.inodes d).find name = none) : (fs.addEntry d slot ino name ft).Keyed :=
  h.setInode ((h d).withEntry hslot hlen hnone)

theorem dirs_addEntry (hslot : (fs.inodes d).Free slot) (hlen : name.length ≤ maxName)
    (hfirst : ∀ j < slot, ¬ (fs.inodes d).Hits name j) :
    (fs.addEntry d slot ino name ft).dirs = fs.dirs.bind d name (some ino) := by
  rw [Ramfs.addEntry, dirs_setInode (n := (fs.inodes d).withEntry slot ino name ft) rfl
    (names_withEntry hslot hlen hfirst),
    map_dirs_update fs d fun names => Function.update names name (some ino)]
  rfl

/-! ### The calls -/

theorem Made.keyed (h : Made fs ino fs') (hkeyed : fs.Keyed) : fs'.Keyed := by
  intro d
  by_cases hd : d = ino
  · subst hd; exact keyed_of_empty h.holds
  · rw [h.other d hd]; exact hkeyed d

theorem Made.dirs (h : Made fs ino fs') :
    fs'.dirs = Function.update fs.dirs ino (some fun _ => none) := by
  funext d
  by_cases hd : d = ino
  · subst hd
    rw [Function.update_self, dirs_of_live (h.live ▸ Set.mem_insert _ _), names_of_empty h.holds]
  · rw [Function.update_of_ne hd]
    by_cases hl : d ∈ fs.live
    · rw [dirs_of_live hl, dirs_of_live (h.mem_live hl).1, h.other d hd]
    · rw [dirs_of_not_live hl, dirs_of_not_live]
      rw [h.live]
      exact fun hin => hin.elim hd hl

/-- The name is new to the directory, if it is one in use, and fits an entry. -/
def NewName (fs : Ramfs) (parent : Nat) (name : List UInt8) : Bool :=
  name.length ≤ maxName && (fs.dirs.find parent name).isNone

theorem Keyed.make {parent : Nat} {init : RamInode → RamInode} {choose : RamInode → Option Nat}
    (h : fs.Keyed) (hnew : fs.NewName parent name) (hinit : Fresh init)
    (hchoose : ∀ n slot, choose n = some slot → n.Free slot) :
    (fs.make parent name ft init choose).2.Keyed ∧
      (∀ e, (fs.make parent name ft init choose).1 = .error e →
        (fs.make parent name ft init choose).2.dirs = fs.dirs) ∧
      ∀ i, (fs.make parent name ft init choose).1 = .ok i →
        (fs.make parent name ft init choose).2.dirs = fs.dirs.enter parent name i := by
  simp only [NewName, Bool.and_eq_true, decide_eq_true_eq, Option.isNone_iff_eq_none] at hnew
  rcases make_cases parent name ft choose hinit with
    ⟨e, heq⟩ | ⟨ino, fs', hmade, hlive, ⟨e, heq⟩ | ⟨slot, hslot, heq⟩⟩ <;> rw [heq]
  · exact ⟨h, fun _ _ => rfl, nofun⟩
  · refine ⟨(hmade.keyed h).freeInode ino, fun _ _ => ?_, nofun⟩
    rw [dirs_freeInode, hmade.dirs, Dirs.destroy, Function.update_idem, Function.update_eq_self_iff,
      dirs_of_not_live hmade.fresh]
  · obtain ⟨-, hsame⟩ := hmade.mem_live hlive
    have hnone : (fs'.inodes parent).find name = none := by
      rw [hsame]
      exact Option.map_eq_none_iff.mp (find_dirs hlive ▸ hnew.2)
    have hfree := hchoose _ _ hslot
    refine ⟨(hmade.keyed h).addEntry hfree hnew.1 hnone, nofun, fun i hi => ?_⟩
    cases hi
    rw [dirs_addEntry hfree hnew.1 fun j _ => not_hits hnone j, hmade.dirs]
    rfl

theorem Keyed.remove (h : fs.Keyed) (parent : Nat) (name : List UInt8) :
    (fs.remove parent name).2.Keyed ∧
      (∀ e, (fs.remove parent name).1 = .error e → (fs.remove parent name).2 = fs) ∧
      ((fs.remove parent name).1 = .ok () → (fs.remove parent name).2.dirs =
        fs.dirs.remove parent name) := by
  unfold Ramfs.remove
  split
  case h_1 => exact ⟨h, fun _ _ => rfl, nofun⟩
  case h_2 n hparent =>
    obtain ⟨hlive, rfl⟩ := getIno_eq_some.mp hparent
    split
    case h_1 => exact ⟨h, fun _ _ => rfl, nofun⟩
    case h_2 i hfind =>
      set ino := ((fs.inodes parent).dirents i).ino with hino
      have hbound := find_dirs_of_find hlive hfind
      have hunset := h.dirs_unset hfind
      refine ⟨?_, nofun, fun _ => ?_⟩
      · simp only
        split_ifs
        · exact (h.unset parent i).freeInode ino
        · exact h.unset parent i
      · simp only [Dirs.remove, hbound]
        split_ifs with hsome
        · rw [dirs_freeInode, hunset]
        · rw [hunset, Dirs.destroy, eq_comm, Function.update_eq_self_iff, ← hunset,
            dirs_of_not_live]
          intro hl
          rw [getIno_eq_some.mpr ⟨hl, rfl⟩] at hsome
          exact hsome rfl

theorem direntCount_unset (fs : Ramfs) (d slot d' : Nat) :
    ((fs.unset d slot).inodes d').direntCount = (fs.inodes d').direntCount := by
  by_cases hd : d' = d
  · subst hd; rw [Ramfs.unset, inodes_setInode_self]; rfl
  · rw [Ramfs.unset, inodes_setInode_of_ne _ _ hd]

theorem find_freeInode (fs : Ramfs) (ino d : Nat) (name : List UInt8) :
    ((fs.freeInode ino).inodes d).find name = (fs.inodes d).find name := by
  by_cases hd : d = ino
  · subst hd; rw [Ramfs.freeInode, inodes_setInode_self]; rfl
  · rw [Ramfs.freeInode, inodes_setInode_of_ne _ _ hd]

inductive Renaming (fs : Ramfs) (p : Nat) (old : List UInt8) (q : Nat) (new : List UInt8) :
    Except String Unit × Option Nat × Ramfs → Prop
  | noParent (hp : p ∉ fs.live) : Renaming fs p old q new (.error "bad old parent", none, fs)
  | missing (hp : p ∈ fs.live) (hnone : (fs.inodes p).find old = none) :
      Renaming fs p old q new (.error "ramfs: not found", none, fs)
  | stale {idx : Nat} (hp : p ∈ fs.live) (hidx : (fs.inodes p).find old = some idx) :
      Renaming fs p old q new (.error "bad new parent", none, fs.unset p idx)
  | badTarget {idx : Nat} (hp : p ∈ fs.live) (hidx : (fs.inodes p).find old = some idx) :
      Renaming fs p old q new (.error "bad target ino", none, fs.unset p idx)
  | full {idx : Nat} (hp : p ∈ fs.live) (hidx : (fs.inodes p).find old = some idx)
      (hfull : maxDirents ≤ (fs.inodes q).direntCount) :
      Renaming fs p old q new (.error "ramfs: dirents full", none, fs.unset p idx)
  | replaces {idx i target : Nat} (hp : p ∈ fs.live) (hidx : (fs.inodes p).find old = some idx)
      (hq : q ∈ fs.live) (hi : ((fs.unset p idx).inodes q).find new = some i)
      (htarget : target = (((fs.unset p idx).inodes q).dirents i).ino) :
      Renaming fs p old q new (.ok (), some target,
        (((fs.unset p idx).freeInode target).unset q i).addEntry q i
          ((fs.inodes p).dirents idx).ino new ((fs.inodes p).dirents idx).fileType)
  | appends {idx slot : Nat} (hp : p ∈ fs.live) (hidx : (fs.inodes p).find old = some idx)
      (hq : q ∈ fs.live) (hnone : ((fs.unset p idx).inodes q).find new = none)
      (hslot : slot = ((fs.unset p idx).inodes q).direntCount) (hroom : slot < maxDirents) :
      Renaming fs p old q new (.ok (), none,
        (fs.unset p idx).addEntry q slot ((fs.inodes p).dirents idx).ino new
          ((fs.inodes p).dirents idx).fileType)

theorem rename_cases (fs : Ramfs) (p : Nat) (old : List UInt8) (q : Nat) (new : List UInt8) :
    Renaming fs p old q new (fs.rename p old q new) := by
  unfold Ramfs.rename
  split
  case h_1 hp => exact .noParent fun hl => by simp [getIno_eq_some.mpr ⟨hl, rfl⟩] at hp
  case h_2 n hp =>
    obtain ⟨hlive, rfl⟩ := getIno_eq_some.mp hp
    split
    case h_1 hnone => exact .missing hlive hnone
    case h_2 idx hidx =>
      simp only
      split
      case h_1 => exact .stale hlive hidx
      case h_2 n hq =>
        obtain ⟨hqlive, rfl⟩ := getIno_eq_some.mp hq
        rw [live_unset] at hqlive
        split
        case h_1 i hi =>
          split
          case h_1 => exact .badTarget hlive hidx
          case h_2 => exact .replaces hlive hidx hqlive hi rfl
        case h_2 hnone =>
          split_ifs with hfull
          · exact .full hlive hidx (direntCount_unset fs p idx q ▸ hfull)
          · exact .appends hlive hidx hqlive hnone rfl (not_le.mp hfull)

theorem Keyed.rename {p q : Nat} {old new : List UInt8} (h : fs.Keyed) (hlen : new.length ≤ maxName)
    (hok : (fs.rename p old q new).1 = .ok ()) :
    (fs.rename p old q new).2.2.Keyed ∧
      (fs.rename p old q new).2.2.dirs = fs.dirs.rename p old q new := by
  have hr := rename_cases fs p old q new
  generalize fs.rename p old q new = r at hok hr
  cases hr with
  | noParent | missing | stale | badTarget | full => cases hok
  | @replaces idx i target hp hidx hq hi htarget =>
    have hk₁ := (h.unset p idx).freeInode target
    have hfind := (find_freeInode (fs.unset p idx) target q new).trans hi
    have hfree : ((((fs.unset p idx).freeInode target).unset q i).inodes q).Free i := by
      rw [Ramfs.unset, inodes_setInode_self]
      exact free_withoutEntry hfind
    have hnone : ((((fs.unset p idx).freeInode target).unset q i).inodes q).find new = none := by
      rw [Ramfs.unset, inodes_setInode_self]
      exact (hk₁ q).find_withoutEntry hfind
    have hbound := find_dirs_of_find (live_unset fs p idx ▸ hq) hi
    refine ⟨(hk₁.unset q i).addEntry hfree hlen hnone, ?_⟩
    rw [dirs_addEntry hfree hlen fun j _ => not_hits hnone j, hk₁.dirs_unset hfind, dirs_freeInode,
      Dirs.bind_bind]
    simp only [Dirs.rename, find_dirs_of_find hp hidx, ← h.dirs_unset hidx, hbound, htarget]
  | @appends idx slot hp hidx hq hnone hslot hroom =>
    have hfree : ((fs.unset p idx).inodes q).Free slot := .inr ⟨hslot, hslot ▸ hroom⟩
    have hk₁ := h.unset p idx
    have hbound : (fs.unset p idx).dirs.find q new = none := by
      rw [find_dirs (live_unset fs p idx ▸ hq), names, hnone, Option.map_none]
    refine ⟨hk₁.addEntry hfree hlen hnone, ?_⟩
    rw [dirs_addEntry hfree hlen fun j _ => not_hits hnone j]
    simp only [Dirs.rename, find_dirs_of_find hp hidx, ← h.dirs_unset hidx, hbound]

/-! ### Runs -/

/-- A new name is new and fits an entry, and a rename succeeds. -/
def Clean (fs : Ramfs) : RamOp → Prop
  | .create parent name _ => fs.NewName parent name
  | .mkdir parent name _ => fs.NewName parent name
  | .symlink parent name _ => fs.NewName parent name
  | .remove _ _ => True
  | .rmdir _ _ => True
  | .rename oldParent oldName newParent newName =>
    newName.length ≤ maxName ∧ (fs.rename oldParent oldName newParent newName).1.isOk

instance (fs : Ramfs) : DecidablePred fs.Clean
  | .create parent name _ => inferInstanceAs (Decidable (fs.NewName parent name))
  | .mkdir parent name _ => inferInstanceAs (Decidable (fs.NewName parent name))
  | .symlink parent name _ => inferInstanceAs (Decidable (fs.NewName parent name))
  | .remove _ _ => inferInstanceAs (Decidable True)
  | .rmdir _ _ => inferInstanceAs (Decidable True)
  | .rename oldParent oldName newParent newName =>
    inferInstanceAs (Decidable (newName.length ≤ maxName ∧
      (fs.rename oldParent oldName newParent newName).1.isOk))

theorem Keyed.step {op : RamOp} (h : fs.Keyed) (hok : fs.Clean op) :
    (fs.step op).Keyed ∧ (fs.step op).dirs = fs.dirs.step (op, fs.answer op) := by
  have hmake {r : Except String Nat × Ramfs} {parent : Nat} {name : List UInt8} {op : RamOp}
      (hr : r.2.Keyed ∧ (∀ e, r.1 = .error e → r.2.dirs = fs.dirs) ∧
        ∀ i, r.1 = .ok i → r.2.dirs = fs.dirs.enter parent name i)
      (herror : ∀ e, fs.dirs.step (op, .error e) = fs.dirs)
      (hstep : ∀ i, fs.dirs.step (op, .ok i) = fs.dirs.enter parent name i) :
      r.2.Keyed ∧ r.2.dirs = fs.dirs.step (op, r.1) := by
    refine ⟨hr.1, ?_⟩
    cases hres : r.1 with
    | error e => rw [herror, hr.2.1 e hres]
    | ok i => rw [hstep, hr.2.2 i hres]
  have hremove (parent : Nat) (name : List UInt8) {op : RamOp}
      (herror : ∀ e, fs.dirs.step (op, .error e) = fs.dirs)
      (hstep : ∀ i, fs.dirs.step (op, .ok i) = fs.dirs.remove parent name) :
      (fs.remove parent name).2.Keyed ∧ (fs.remove parent name).2.dirs =
        fs.dirs.step (op, (fs.remove parent name).1.map fun _ => 0) := by
    obtain ⟨hkeyed, hfail, hdone⟩ := h.remove parent name
    refine ⟨hkeyed, ?_⟩
    cases hres : (fs.remove parent name).1 with
    | error e => rw [hfail e hres]; exact (herror e).symm
    | ok u => rw [hdone hres]; exact (hstep 0).symm
  cases op with
  | create parent name mode =>
    exact hmake (h.make hok ⟨fun _ => rfl, fun _ => rfl, fun _ => rfl⟩ fun _ _ => createSlot_free)
      (fun _ => rfl) fun _ => rfl
  | mkdir parent name mode =>
    exact hmake (h.make hok ⟨fun _ => rfl, fun _ => rfl, fun _ => rfl⟩ fun _ _ => mkdirSlot_free)
      (fun _ => rfl) fun _ => rfl
  | symlink parent name target =>
    exact hmake (h.make hok ⟨fun _ => rfl, fun _ => rfl, fun _ => rfl⟩ fun _ _ => symlinkSlot_free)
      (fun _ => rfl) fun _ => rfl
  | remove parent name => exact hremove parent name (fun _ => rfl) fun _ => rfl
  | rmdir parent name => exact hremove parent name (fun _ => rfl) fun _ => rfl
  | rename p old q new =>
    obtain ⟨hlen, hisOk⟩ := hok
    cases hres : (fs.rename p old q new).1 with
    | error e => rw [hres] at hisOk; cases hisOk
    | ok u =>
      obtain ⟨hkeyed, hdirs⟩ := h.rename hlen hres
      refine ⟨hkeyed, ?_⟩
      simp only [Ramfs.answer, hres]
      exact hdirs

theorem Keyed.run {ops : List RamOp} (h : fs.Keyed) (hops : Steps Ramfs.step Clean fs ops) :
    (ops.foldl Ramfs.step fs).dirs = (fs.trace ops).foldl Dirs.step fs.dirs := by
  induction ops generalizing fs with
  | nil => rfl
  | cons op ops ih =>
    obtain ⟨hkeyed, hdirs⟩ := h.step hops.1
    rw [List.foldl_cons, ih hkeyed hops.2, hdirs]
    rfl

theorem keyed_init : init.Keyed := by
  refine fun d => ⟨(sound_init.wf d).nameLen, fun i j k k' v hi hj => ?_⟩
  obtain ⟨rfl, ⟨hi, -, rfl⟩ | ⟨hi, -, rfl⟩⟩ := edge_init hi <;>
    obtain ⟨-, ⟨hj, -, hv⟩ | ⟨hj, -, hv⟩⟩ := edge_init hj <;> simp_all

theorem dirs_init : init.dirs = Dirs.init := by
  have hfile {d : Nat} (hd : d ≠ 0) (hlive : d ≤ 2) : init.dirs d = some fun _ => none := by
    rw [dirs_of_live (mem_live_init.mpr hlive), names_of_empty]
    intro i
    by_contra hi
    exact hd (holds_init (by simpa using hi)).1
  funext d
  match d with
  | 0 =>
    rw [dirs_of_live (mem_live_init.mpr (by omega)), Dirs.init]
    congr 1
    funext name
    ext k
    rw [(keyed_init 0).names_eq_some]
    constructor
    · rintro ⟨i, hi⟩
      obtain ⟨-, ⟨-, rfl, rfl⟩ | ⟨-, rfl, rfl⟩⟩ := edge_init hi <;> rfl
    · split_ifs with hbin hlib
      · rintro ⟨⟩; subst hbin; exact ⟨0, by decide⟩
      · rintro ⟨⟩; subst hlib; exact ⟨1, by decide⟩
      · nofun
  | 1 => exact hfile (by omega) (by omega)
  | 2 => exact hfile (by omega) (by omega)
  | d + 3 =>
    rw [dirs_of_not_live fun hl => by have := mem_live_init.mp hl; omega]
    rfl

theorem lookup_dirs (fs : Ramfs) (d : Nat) {name : List UInt8} (hname : 47 ∉ name) :
    fs.lookup d name = fs.dirs.lookup d name := by
  have hne : name ≠ [47] := by rintro rfl; simp at hname
  simp only [Ramfs.lookup, hne, decide_false, Bool.and_false, Bool.false_eq_true, if_false,
    Dirs.lookup, Ramfs.dirs]
  cases hd : fs.getIno d with
  | none => rfl
  | some n =>
    simp only [Option.map_some, names]
    cases n.find name <;> rfl

end Ramfs

open Ramfs

/-- Over every run the directories are maps from names to inodes: every lookup answers what the
map does that the calls and their answers make up. -/
theorem directories_are_maps {ops : List RamOp} (hops : Steps Ramfs.step Clean init ops) :
    (ops.foldl Ramfs.step init).dirs = (init.trace ops).foldl Dirs.step Dirs.init ∧
      ∀ d name, 47 ∉ name → (ops.foldl Ramfs.step init).lookup d name =
        ((init.trace ops).foldl Dirs.step Dirs.init).lookup d name := by
  have hrun := keyed_init.run hops
  rw [dirs_init] at hrun
  refine ⟨hrun, fun d name hname => ?_⟩
  rw [lookup_dirs _ d hname, hrun]

/-- A directory that is not empty is replaced by a file, removed, and its inode used again. -/
theorem directories_are_maps_reuse :
    let ops := [RamOp.mkdir 0 [97] 0o755, .create 3 [98] 0o644, .rename 3 [98] 0 [97],
      .remove 0 [97], .mkdir 0 [99] 0o755]
    (ops.foldl Ramfs.step init).lookup 3 [98] =
      ((init.trace ops).foldl Dirs.step Dirs.init).lookup 3 [98] :=
  (directories_are_maps (show Steps Ramfs.step Clean init [RamOp.mkdir 0 [97] 0o755,
    .create 3 [98] 0o644, .rename 3 [98] 0 [97], .remove 0 [97], .mkdir 0 [99] 0o755] by
      decide)).2 3 [98] (by decide)

/-! ### Renames that fail -/

namespace Ramfs

variable {fs : Ramfs} {p q : Nat} {old new : List UInt8}

theorem unset_ne {d slot : Nat} {name : List UInt8} (h : (fs.inodes d).find name = some slot) :
    fs.unset d slot ≠ fs := by
  intro heq
  have hholds := (find_some h).1
  rw [← heq, Ramfs.unset, inodes_setInode_self, holds_withoutEntry] at hholds
  simp at hholds

theorem rename_error {e : String} (herror : (fs.rename p old q new).1 = .error e) :
    (fs.rename p old q new).2 = (none, fs) ↔ fs.dirs.find p old = none := by
  have hr := rename_cases fs p old q new
  generalize fs.rename p old q new = r at herror hr
  cases hr with
  | noParent hp => simp [Dirs.find, dirs_of_not_live hp]
  | missing hp hnone => simp [find_dirs hp, names, hnone]
  | stale hp hidx | badTarget hp hidx | full hp hidx =>
    simpa [find_dirs_of_find hp hidx] using unset_ne hidx
  | replaces | appends => cases herror

/-- The inode that stands in the way of the new name once the old entry is cleared. -/
def inWay (fs : Ramfs) (p : Nat) (old : List UInt8) (q : Nat) (new : List UInt8) : Option Nat :=
  if (q, new) = (p, old) then fs.again p old else fs.dirs.find q new

/-- The arrays of the names have 255 bytes. -/
def Sized (fs : Ramfs) : Prop := ∀ d i, ((fs.inodes d).dirents i).name.length ≤ maxName

theorem Sized.setInode {d : Nat} {n : RamInode} (h : fs.Sized)
    (hn : ∀ i, (n.dirents i).name.length ≤ maxName) : (fs.setInode d n).Sized := by
  intro d' i
  by_cases hd : d' = d
  · subst hd; rw [inodes_setInode_self]; exact hn i
  · rw [inodes_setInode_of_ne _ _ hd]; exact h d' i

theorem Sized.unset (h : fs.Sized) (d slot : Nat) : (fs.unset d slot).Sized :=
  h.setInode fun i => by
    simp only [RamInode.withoutEntry, Function.update_apply]
    split_ifs <;> exact h d _

/-- A name that is too long is entered cut off, and cannot be found. -/
theorem Sized.find_addEntry {d slot ino ft : Nat} {name : List UInt8} (h : fs.Sized)
    (hlong : maxName < name.length) : (fs.addEntry d slot ino name ft).dirs.find d name = none := by
  by_contra hne
  obtain ⟨k, hk⟩ := Option.ne_none_iff_exists'.mp hne
  by_cases hd : d ∈ (fs.addEntry d slot ino name ft).live
  · rw [find_dirs hd, Ramfs.addEntry, inodes_setInode_self] at hk
    obtain ⟨i, hi, -⟩ := Option.map_eq_some_iff.mp hk
    have hkey := congrArg List.length (find_some hi).2
    have hi' := h d i
    simp only [RamInode.withEntry, RamDirent.key, Function.update_apply] at hkey
    split_ifs at hkey <;> simp only [RamDirent.set, List.length_take, List.length_append,
      List.length_drop] at hkey
    · have := h d slot
      omega
    · omega
  · rw [Dirs.find, dirs_of_not_live hd] at hk
    cases hk

theorem find_unset {idx : Nat} (hp : p ∈ fs.live) (hidx : (fs.inodes p).find old = some idx) :
    (fs.unset p idx).dirs.find q new = fs.inWay p old q new := by
  rw [dirs_unset hidx, inWay]
  split_ifs with heq
  · obtain ⟨rfl, rfl⟩ := Prod.mk.inj heq
    exact Dirs.find_bind_self (by rw [dirs_of_live hp]; rfl) ..
  · exact Dirs.find_bind_of_ne _ _ heq

/-- A rename that succeeds clears the old entry, gives up what is in the way of the new name, and
enters that. -/
theorem dirs_rename (hok : (fs.rename p old q new).1 = .ok ()) (hlen : new.length ≤ maxName) :
    ∃ i, fs.dirs.find p old = some i ∧ (fs.dirs q).isSome ∧
      (fs.rename p old q new).2.2.dirs = ((fs.inWay p old q new).elim
        (fs.dirs.bind p old (fs.again p old))
        (fs.dirs.bind p old (fs.again p old)).destroy).bind q new (some i) := by
  have hr := rename_cases fs p old q new
  generalize fs.rename p old q new = r at hok hr
  cases hr with
  | noParent | missing | stale | badTarget | full => cases hok
  | @replaces idx i target hp hidx hq hi htarget =>
    refine ⟨_, find_dirs_of_find hp hidx, by rw [dirs_of_live hq]; rfl, ?_⟩
    have hfind := (find_freeInode (fs.unset p idx) target q new).trans hi
    rw [← find_unset hp hidx, ← dirs_unset hidx, find_dirs_of_find (live_unset fs p idx ▸ hq) hi,
      ← htarget, Option.elim_some, ← dirs_freeInode, dirs_addEntry _ hlen, dirs_unset hfind,
      Dirs.bind_bind]
    · intro j hj
      rw [Ramfs.unset, inodes_setInode_self, hits_withoutEntry]
      exact fun hh => (find_eq_some.mp hfind).2 j hj hh.2
    · rw [Ramfs.unset, inodes_setInode_self]
      exact free_withoutEntry hfind
  | @appends idx slot hp hidx hq hnone hslot hroom =>
    refine ⟨_, find_dirs_of_find hp hidx, by rw [dirs_of_live hq]; rfl, ?_⟩
    rw [← find_unset hp hidx, ← dirs_unset hidx, find_dirs (live_unset fs p idx ▸ hq), names, hnone,
      Option.map_none, Option.elim_none,
      dirs_addEntry (.inr ⟨hslot, hslot ▸ hroom⟩) hlen fun j _ => not_hits hnone j]

theorem find_rename_long (hsized : fs.Sized) (hok : (fs.rename p old q new).1 = .ok ())
    (hlong : maxName < new.length) :
    (fs.dirs.find p old).isSome ∧ (fs.rename p old q new).2.2.dirs.find q new = none := by
  have hr := rename_cases fs p old q new
  generalize fs.rename p old q new = r at hok hr
  cases hr with
  | noParent | missing | stale | badTarget | full => cases hok
  | replaces hp hidx =>
    refine ⟨by rw [find_dirs_of_find hp hidx]; rfl, Sized.find_addEntry (.unset ?_ _ _) hlong⟩
    exact (hsized.unset p _).setInode fun i => hsized.unset p _ _ i
  | appends hp hidx =>
    exact ⟨by rw [find_dirs_of_find hp hidx]; rfl, (hsized.unset p _).find_addEntry hlong⟩

end Ramfs

/-- A rename that fails has changed nothing exactly if it did not find the old name: all other
failures come after the old entry is cleared. One that succeeds moves the binding and changes no
other exactly if the new name fits its array, no second entry has the old name, unless it is in a
directory that is given up, and an inode in the way of the new name is not the directory itself and
has no names. -/
theorem rename_atomic_iff {fs : Ramfs} (hsized : fs.Sized) (p : Nat) (old : List UInt8) (q : Nat)
    (new : List UInt8) :
    (∀ e, (fs.rename p old q new).1 = .error e →
      ((fs.rename p old q new).2 = (none, fs) ↔ fs.dirs.find p old = none)) ∧
    ((fs.rename p old q new).1 = .ok () →
      (fs.dirs.Renamed p old q new (fs.rename p old q new).2.2.dirs ↔
        new.length ≤ maxName ∧
        ((p, old) = (q, new) ∨ fs.again p old = none ∨ fs.inWay p old q new = some p) ∧
        ∀ t, fs.inWay p old q new = some t → t ≠ q ∧
          ∀ name, (t, name) ≠ (p, old) → fs.dirs.find t name = none)) := by
  refine ⟨fun e => rename_error, fun hok => ?_⟩
  rcases Nat.lt_or_ge maxName new.length with hlong | hlen
  · obtain ⟨hold, hnone⟩ := find_rename_long hsized hok hlong
    refine iff_of_false (fun h => ?_) fun h => absurd h.1 (not_le.mpr hlong)
    rw [← h.moved, hnone] at hold
    cases hold
  · obtain ⟨i, hi, hq, hdirs⟩ := dirs_rename hok hlen
    rw [hdirs, Dirs.renamed_iff hi hq]
    exact (and_iff_right hlen).symm

/-- `bin` is renamed over `lib`, which is empty. -/
theorem rename_atomic_bin : init.dirs.Renamed 0 [98, 105, 110] 0 [108, 105, 98]
    (init.rename 0 [98, 105, 110] 0 [108, 105, 98]).2.2.dirs := by
  have hsized : init.Sized := by
    intro d i
    have hempty : RamDirent.empty.name.length ≤ maxName := by simp [RamDirent.empty]
    have hset (ino : Nat) (name : List UInt8) (hlen : name.length ≤ maxName) :
        (RamDirent.empty.set ino name ftDir).name.length ≤ maxName := by
      simp [RamDirent.set, RamDirent.empty, hlen]
    simp only [init, dirInode]
    split_ifs
    · simp only
      split_ifs
      exacts [hset _ _ (by decide), hset _ _ (by decide), hempty]
    all_goals exact hempty
  have hway : init.inWay 0 [98, 105, 110] 0 [108, 105, 98] = some 2 := by decide
  refine ((rename_atomic_iff hsized 0 [98, 105, 110] 0 [108, 105, 98]).2 rfl).mpr
    ⟨by decide, .inr (.inl (by decide)), fun t ht => ?_⟩
  obtain rfl : 2 = t := Option.some.inj (hway.symm.trans ht)
  exact ⟨by decide, fun name _ => rfl⟩

/-- A directory is moved to a place that does not exist: the call fails, and its name is gone. -/
theorem rename_loses_name :
    (init.rename 0 [98, 105, 110] 5 [120]).1 = .error "bad new parent" ∧
    init.lookup 0 [98, 105, 110] = .ok 1 ∧
    (init.rename 0 [98, 105, 110] 5 [120]).2.2.lookup 0 [98, 105, 110] =
      .error "ramfs: not found" :=
  ⟨rfl, rfl, rfl⟩

/-! ### Full directories -/

def RamInode.liveEntries (n : RamInode) : Nat :=
  (List.range n.direntCount).countP fun i => (n.dirents i).used

theorem RamInode.liveEntries_eq_iff {n : RamInode} (hle : n.direntCount ≤ maxDirents)
    (hfull : maxDirents ≤ n.direntCount) : n.liveEntries = maxDirents ↔ n.gap = none := by
  have hcount : maxDirents = (List.range n.direntCount).length := by
    rw [List.length_range]; omega
  rw [liveEntries, hcount, List.countP_eq_length, gap, List.find?_eq_none]
  simp

/-- The directory in which the call enters a name. -/
def RamOp.directory : RamOp → Nat
  | .create parent _ _ | .mkdir parent _ _ | .symlink parent _ _ => parent
  | .remove parent _ | .rmdir parent _ => parent
  | .rename _ _ newParent _ => newParent

def RamOp.newName : RamOp → List UInt8
  | .create _ name _ | .mkdir _ name _ | .symlink _ name _ | .rename _ _ _ name => name
  | .remove _ _ | .rmdir _ _ => []

namespace Ramfs

variable {fs : Ramfs}

/-- What holds of each inode by itself and no call breaks, if the names that are entered are as
`Q` says. -/
structure Local (Q : List UInt8 → Prop) (P : RamInode → Prop) : Prop where
  fresh : ∀ n, n.direntCount = 0 → P n
  free : ∀ n, P n → P { n with used := false }
  unset : ∀ n slot, P n → P (n.withoutEntry slot)
  enter : ∀ n slot ino name ft, P n → Q name →
    (slot < n.direntCount ∨ slot = n.direntCount ∧ n.direntCount < maxDirents) →
    P (n.withEntry slot ino name ft)

def Each (P : RamInode → Prop) (fs : Ramfs) : Prop := ∀ d, P (fs.inodes d)

section

variable {P : RamInode → Prop} {Q : List UInt8 → Prop} {name : List UInt8}

theorem Each.setInode {d : Nat} {n : RamInode} (h : fs.Each P) (hn : P n) :
    (fs.setInode d n).Each P := by
  intro d'
  by_cases hd : d' = d
  · subst hd; rwa [inodes_setInode_self]
  · rw [inodes_setInode_of_ne _ _ hd]; exact h d'

variable (hl : Local Q P) (h : fs.Each P)

include hl h

theorem Local.freeInode (ino : Nat) : (fs.freeInode ino).Each P := h.setInode (hl.free _ (h ino))

theorem Local.unsetEntry (d slot : Nat) : (fs.unset d slot).Each P :=
  h.setInode (hl.unset _ slot (h d))

theorem Local.made {fs' : Ramfs} {ino : Nat} (hm : Made fs ino fs') : fs'.Each P := by
  intro d
  by_cases hd : d = ino
  · subst hd; exact hl.fresh _ hm.count
  · rw [hm.other d hd]; exact h d

theorem Local.addEntry {d slot ino ft : Nat} (hQ : Q name)
    (hslot : slot < (fs.inodes d).direntCount ∨ slot = (fs.inodes d).direntCount ∧
      (fs.inodes d).direntCount < maxDirents) : (fs.addEntry d slot ino name ft).Each P :=
  h.setInode (hl.enter _ slot ino name ft (h d) hQ hslot)

theorem Local.make {parent ft : Nat} {init : RamInode → RamInode} {choose : RamInode → Option Nat}
    (hQ : Q name) (hinit : Fresh init) (hchoose : ∀ n slot, choose n = some slot → n.Free slot) :
    (fs.make parent name ft init choose).2.Each P := by
  rcases make_cases parent name ft choose hinit with
    ⟨e, heq⟩ | ⟨ino, fs', hmade, hlive, ⟨e, heq⟩ | ⟨slot, hslot, heq⟩⟩ <;> rw [heq]
  · exact h
  · exact hl.freeInode (hl.made h hmade) ino
  · exact hl.addEntry (hl.made h hmade) hQ ((hchoose _ _ hslot).imp (·.1) id)

theorem Local.remove (parent : Nat) (name : List UInt8) : (fs.remove parent name).2.Each P := by
  unfold Ramfs.remove
  split
  case h_1 => exact h
  case h_2 =>
    split
    case h_1 => exact h
    case h_2 =>
      simp only
      split_ifs
      · exact hl.freeInode (hl.unsetEntry h _ _) _
      · exact hl.unsetEntry h _ _

theorem Local.rename {new : List UInt8} (p : Nat) (old : List UInt8) (q : Nat) (hQ : Q new) :
    (fs.rename p old q new).2.2.Each P := by
  have hr := rename_cases fs p old q new
  generalize fs.rename p old q new = r at hr
  cases hr with
  | noParent | missing => exact h
  | stale | badTarget | full => exact hl.unsetEntry h p _
  | @replaces idx i target hp hidx hq hi htarget =>
    refine hl.addEntry (hl.unsetEntry (hl.freeInode (hl.unsetEntry h p idx) target) q i) hQ
      (.inl ?_)
    have hholds := (find_some ((find_freeInode (fs.unset p idx) target q new).trans hi)).1
    simp only [holds, Bool.and_eq_true, decide_eq_true_eq] at hholds
    rw [direntCount_unset]
    exact hholds.1
  | @appends idx slot hp hidx hq hnone hslot hroom =>
    exact hl.addEntry (hl.unsetEntry h p idx) hQ (.inr ⟨hslot, hslot ▸ hroom⟩)

theorem Local.step {op : RamOp} (hQ : Q op.newName) : (fs.step op).Each P := by
  cases op with
  | create parent name mode =>
    exact hl.make h hQ ⟨fun _ => rfl, fun _ => rfl, fun _ => rfl⟩ fun _ _ => createSlot_free
  | mkdir parent name mode =>
    exact hl.make h hQ ⟨fun _ => rfl, fun _ => rfl, fun _ => rfl⟩ fun _ _ => mkdirSlot_free
  | symlink parent name target =>
    exact hl.make h hQ ⟨fun _ => rfl, fun _ => rfl, fun _ => rfl⟩ fun _ _ => symlinkSlot_free
  | remove parent name => exact hl.remove h parent name
  | rmdir parent name => exact hl.remove h parent name
  | rename p old q new => exact hl.rename h p old q hQ

end

theorem bounded_run (ops : List RamOp) :
    (ops.foldl Ramfs.step init).Each fun n => n.direntCount ≤ maxDirents := by
  have hl : Local (fun _ => True) fun n => n.direntCount ≤ maxDirents := by
    refine ⟨fun n h => h ▸ Nat.zero_le _, fun n h => h, fun n _ h => h,
      fun n slot ino name ft h _ hs => ?_⟩
    simp only [withEntry]
    split_ifs <;> omega
  exact List.foldlRecOn ops Ramfs.step (fun d => (sound_init.wf d).count_le) fun _ h op _ =>
    hl.step h trivial

theorem make_full {parent ft : Nat} {name : List UInt8} {init : RamInode → RamInode}
    {choose : RamInode → Option Nat}
    (h : (fs.make parent name ft init choose).1 = .error "ramfs: dirents full")
    (hinit : Fresh init) :
    choose (fs.inodes parent) = none := by
  unfold Ramfs.make at h
  split at h
  case h_1 => simp at h
  case h_2 n hparent =>
    split at h
    case h_1 => simp at h
    case h_2 ino fs' halloc =>
      have hmade := made_allocInode halloc hinit
      have hlive := (getIno_eq_some.mp hparent).1
      rw [← (hmade.mem_live hlive).2]
      simp only at h
      split at h
      case h_1 hnone => exact hnone
      case h_2 => cases h

theorem createSlot_eq_none {n : RamInode} (h : createSlot n = none) :
    n.gap = none ∧ maxDirents ≤ n.direntCount := by
  unfold createSlot at h
  split at h
  case h_1 => cases h
  case h_2 hgap =>
    split_ifs at h with hfull
    exact ⟨hgap, hfull⟩

theorem rename_full {p q : Nat} {old new : List UInt8}
    (h : (fs.rename p old q new).1 = .error "ramfs: dirents full") :
    maxDirents ≤ (fs.inodes q).direntCount := by
  have hr := rename_cases fs p old q new
  generalize fs.rename p old q new = r at h hr
  cases hr with
  | noParent | missing | stale | badTarget | replaces | appends => simp at h
  | full hp hidx hfull => exact hfull

theorem remove_not_full (parent : Nat) (name : List UInt8) :
    ((fs.remove parent name).1.map fun _ => (0 : Nat)) ≠ .error "ramfs: dirents full" := by
  unfold Ramfs.remove
  split
  case h_1 => simp [Except.map]
  case h_2 => split <;> simp [Except.map]

/-- A call finds no room only where the count has reached its limit. -/
theorem full_count {op : RamOp} (h : fs.answer op = .error "ramfs: dirents full") :
    maxDirents ≤ (fs.inodes op.directory).direntCount := by
  have hslot {n : RamInode} {slot : Nat}
      (hn : (if maxDirents ≤ n.direntCount then none else some slot) = none) :
      maxDirents ≤ n.direntCount := by
    by_contra hlt
    rw [if_neg hlt] at hn
    cases hn
  cases op with
  | create parent name mode =>
    exact (createSlot_eq_none (make_full h ⟨fun _ => rfl, fun _ => rfl, fun _ => rfl⟩)).2
  | mkdir parent name mode =>
    exact hslot (make_full h ⟨fun _ => rfl, fun _ => rfl, fun _ => rfl⟩)
  | symlink parent name target =>
    exact hslot (make_full h ⟨fun _ => rfl, fun _ => rfl, fun _ => rfl⟩)
  | remove parent name => exact absurd h (remove_not_full parent name)
  | rmdir parent name => exact absurd h (remove_not_full parent name)
  | rename p old q new =>
    simp only [Ramfs.answer] at h
    cases hres : (fs.rename p old q new).1 with
    | error e =>
      rw [hres] at h
      cases h
      exact rename_full hres
    | ok u => rw [hres] at h; cases h

end Ramfs

/-- After any history, a call that finds a directory full finds 64 entries in use exactly if no
entry of the directory was given up and left as a gap. `create` fills the gaps first, so that for
it this is always so. -/
theorem dirents_full_iff (ops : List RamOp) (op : RamOp)
    (hfull : (ops.foldl Ramfs.step init).answer op = .error "ramfs: dirents full") :
    (∀ p name mode, op = .create p name mode →
      ((ops.foldl Ramfs.step init).inodes p).liveEntries = maxDirents) ∧
    (((ops.foldl Ramfs.step init).inodes op.directory).liveEntries = maxDirents ↔
      ((ops.foldl Ramfs.step init).inodes op.directory).gap = none) := by
  have hiff := liveEntries_eq_iff (bounded_run ops op.directory) (full_count hfull)
  refine ⟨fun p name mode hop => ?_, hiff⟩
  subst hop
  exact hiff.mpr (createSlot_eq_none (make_full hfull ⟨fun _ => rfl, fun _ => rfl, fun _ => rfl⟩)).1

/-- Links take the entries of the root up to the last, and one of them is removed again. -/
def churn : List RamOp := List.replicate 62 (.symlink 0 [97] [98]) ++ [.remove 0 [97]]

theorem dirents_full_churn :
    ((churn.foldl Ramfs.step init).inodes (RamOp.mkdir 0 [97] 0o755).directory).liveEntries =
        maxDirents ↔
      ((churn.foldl Ramfs.step init).inodes (RamOp.mkdir 0 [97] 0o755).directory).gap = none :=
  (dirents_full_iff churn (.mkdir 0 [97] 0o755) (by decide +kernel)).2

theorem full_of_gaps :
    (churn.foldl Ramfs.step init).answer (.mkdir 0 [97] 0o755) = .error "ramfs: dirents full" ∧
    ((churn.foldl Ramfs.step init).inodes 0).liveEntries = 63 := by
  decide +kernel

end Rynex.Fs
