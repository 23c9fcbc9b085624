import Rynex.Lib.Run
import Rynex.Lib.Naming
import Rynex.Fs.Ramfs

/-! The entries of ramfs as a naming: every inode in use but the root has exactly one name, as
long as the calls do what ramfs does not check. -/

namespace Rynex.Fs

open Rynex.Lib

def RamInode.isEmpty (n : RamInode) : Bool :=
  (List.range n.direntCount).all fun i => !(n.dirents i).used

namespace RamInode

/-- Entry `i` counts. -/
def holds (n : RamInode) (i : Nat) : Bool := i < n.direntCount && (n.dirents i).used

theorem find_some {n : RamInode} {name : List UInt8} {i : Nat} (h : n.find name = some i) :
    n.holds i ∧ (n.dirents i).key = name := by
  have hm := List.find?_some h
  have hi := List.mem_range.mp (List.mem_of_find?_eq_some h)
  simp only [RamDirent.matches, Bool.and_eq_true, decide_eq_true_eq] at hm
  simp [holds, hi, hm]

theorem find_none {n : RamInode} {name : List UInt8} (h : n.find name = none) {i : Nat}
    (hi : n.holds i) (hlen : (n.dirents i).nameLen = (n.dirents i).key.length) :
    (n.dirents i).key ≠ name := by
  simp only [holds, Bool.and_eq_true, decide_eq_true_eq] at hi
  have hm := List.find?_eq_none.mp h i (List.mem_range.mpr hi.1)
  rintro rfl
  exact hm (by simp [RamDirent.matches, hi.2, hlen])

theorem holds_of_isEmpty {n : RamInode} (h : n.isEmpty) (i : Nat) : n.holds i = false := by
  by_cases hi : i < n.direntCount
  · have := List.all_eq_true.mp h i (List.mem_range.mpr hi)
    simpa [holds, hi] using this
  · simp [holds, hi]

/-- A slot that may be set: a gap or the next entry. -/
def Free (n : RamInode) (slot : Nat) : Prop :=
  slot < n.direntCount ∧ n.holds slot = false ∨ slot = n.direntCount ∧ n.direntCount < maxDirents

theorem free_of_gap {n : RamInode} {i : Nat} (h : n.gap = some i) : n.Free i := by
  have hu := List.find?_some h
  exact .inl ⟨List.mem_range.mp (List.mem_of_find?_eq_some h), by simp [holds,
    Bool.not_eq_true' _ ▸ hu]⟩

theorem free_next {n : RamInode} (h : ¬ maxDirents ≤ n.direntCount) : n.Free n.direntCount :=
  .inr ⟨rfl, not_le.mp h⟩

theorem Free.holds {n : RamInode} {slot : Nat} (h : n.Free slot) : n.holds slot = false := by
  obtain ⟨-, h⟩ | ⟨rfl, -⟩ := h
  · exact h
  · simp [RamInode.holds]

end RamInode

open RamInode

theorem createSlot_free {n : RamInode} {slot : Nat} (h : Ramfs.createSlot n = some slot) :
    n.Free slot := by
  unfold Ramfs.createSlot at h
  split at h
  case h_1 i hgap => cases h; exact free_of_gap hgap
  case h_2 =>
    split_ifs at h with hfull
    cases h
    exact free_next hfull

theorem mkdirSlot_free {n : RamInode} {slot : Nat} (h : Ramfs.mkdirSlot n = some slot) :
    n.Free slot := by
  unfold Ramfs.mkdirSlot at h
  split_ifs at h with hfull
  cases h
  cases hgap : n.gap with
  | none => exact free_next hfull
  | some i => exact free_of_gap hgap

theorem symlinkSlot_free {n : RamInode} {slot : Nat} (h : Ramfs.symlinkSlot n = some slot) :
    n.Free slot := by
  unfold Ramfs.symlinkSlot at h
  split_ifs at h with hfull
  cases h
  exact free_next hfull

theorem RamDirent.key_set {d : RamDirent} {ino : Nat} {name : List UInt8} {ft : Nat}
    (h : name.length ≤ maxName) : (d.set ino name ft).key = name := by
  have hlen : name.length % 2 ^ 16 = name.length := Nat.mod_eq_of_lt (by unfold maxName at h; omega)
  rw [RamDirent.key, RamDirent.set, hlen, List.take_of_length_le h]
  exact List.take_left

@[simp] theorem RamDirent.ino_set (d : RamDirent) (ino : Nat) (name : List UInt8) (ft : Nat) :
    (d.set ino name ft).ino = ino := rfl

theorem RamDirent.nameLen_set {d : RamDirent} {ino : Nat} {name : List UInt8} {ft : Nat}
    (h : name.length ≤ maxName) : (d.set ino name ft).nameLen = name.length :=
  Nat.mod_eq_of_lt (by unfold maxName at h; omega)

/-- What entry `i` names. -/
def RamInode.entry (n : RamInode) (i : Nat) : Option (Nat × List UInt8) :=
  if n.holds i then some ((n.dirents i).ino, (n.dirents i).key) else none

theorem RamInode.entry_eq_some {n : RamInode} {i k : Nat} {v : List UInt8} :
    n.entry i = some (k, v) ↔ n.holds i ∧ (n.dirents i).ino = k ∧ (n.dirents i).key = v := by
  unfold entry
  split_ifs with h <;> simp [h]

theorem RamInode.entry_eq_none {n : RamInode} {i : Nat} :
    n.entry i = none ↔ n.holds i = false := by
  unfold entry
  split_ifs with h <;> simp [h]

/-- What holds of each inode by itself. -/
structure RamInode.Wf (n : RamInode) : Prop where
  count_le : n.direntCount ≤ maxDirents
  nameLen : ∀ i, n.holds i → (n.dirents i).nameLen = (n.dirents i).key.length
  isDir : ∀ i, n.holds i → n.isDir

namespace RamInode

theorem holds_withEntry {n : RamInode} {slot ino ft : Nat} {name : List UInt8} (h : n.Free slot)
    (i : Nat) : (n.withEntry slot ino name ft).holds i = (decide (i = slot) || n.holds i) := by
  by_cases hi : i = slot
  · subst hi
    have hlt : i < if i = n.direntCount then n.direntCount + 1 else n.direntCount := by
      obtain ⟨hlt, -⟩ | ⟨rfl, -⟩ := h
      · split_ifs <;> omega
      · simp
    simp [holds, withEntry, hlt, RamDirent.set]
  · have hlt : (i < if slot = n.direntCount then n.direntCount + 1 else n.direntCount) ↔
        i < n.direntCount := by split_ifs <;> omega
    simp [holds, withEntry, hlt, hi]

theorem entry_withEntry {n : RamInode} {slot ino ft : Nat} {name : List UInt8} (h : n.Free slot)
    (hlen : name.length ≤ maxName) :
    (n.withEntry slot ino name ft).entry = Function.update n.entry slot (some (ino, name)) := by
  funext i
  unfold entry
  rw [holds_withEntry h]
  by_cases hi : i = slot
  · subst hi
    simp [withEntry, RamDirent.key_set hlen]
  · simp [hi, withEntry]

theorem Wf.withEntry {n : RamInode} {slot ino ft : Nat} {name : List UInt8} (hn : n.Wf)
    (hdir : n.isDir) (h : n.Free slot) (hlen : name.length ≤ maxName) :
    (n.withEntry slot ino name ft).Wf := by
  refine ⟨?_, fun i hi => ?_, fun _ _ => hdir⟩
  · have := hn.count_le
    simp only [RamInode.withEntry]
    obtain ⟨hlt, -⟩ | ⟨rfl, hfull⟩ := h <;> split_ifs <;> omega
  · by_cases hslot : i = slot
    · subst hslot
      simp [RamInode.withEntry, RamDirent.key_set hlen, RamDirent.nameLen_set hlen]
    · simp only [holds_withEntry h, hslot, decide_false, Bool.false_or] at hi
      simpa [RamInode.withEntry, hslot] using hn.nameLen i hi

theorem holds_withoutEntry (n : RamInode) (slot i : Nat) :
    (n.withoutEntry slot).holds i = (decide (i ≠ slot) && n.holds i) := by
  by_cases hi : i = slot
  · subst hi; simp [withoutEntry, holds]
  · simp only [withoutEntry, holds, Function.update_of_ne hi, ne_eq, hi, not_false_eq_true,
      decide_true, Bool.true_and]
    rfl

theorem entry_withoutEntry (n : RamInode) (slot : Nat) :
    (n.withoutEntry slot).entry = Function.update n.entry slot none := by
  funext i
  unfold entry
  rw [holds_withoutEntry]
  by_cases hi : i = slot
  · subst hi; simp
  · simp [hi, withoutEntry]

theorem Wf.withoutEntry {n : RamInode} (hn : n.Wf) (slot : Nat) : (n.withoutEntry slot).Wf := by
  refine ⟨hn.count_le, fun i hi => ?_, fun i hi => ?_⟩ <;>
    rw [holds_withoutEntry, Bool.and_eq_true, decide_eq_true_eq] at hi
  · simpa [RamInode.withoutEntry, hi.1] using hn.nameLen i hi.2
  · exact hn.isDir i hi.2

end RamInode

namespace Ramfs

def live (fs : Ramfs) : Set Nat := {d | d < maxInodes ∧ (fs.inodes d).used}

def edge (fs : Ramfs) (d i : Nat) : Option (Nat × List UInt8) := (fs.inodes d).entry i

theorem getIno_eq_some {fs : Ramfs} {ino : Nat} {n : RamInode} :
    fs.getIno ino = some n ↔ ino ∈ fs.live ∧ fs.inodes ino = n := by
  unfold getIno live
  split_ifs with h <;> simp only [Bool.and_eq_true, decide_eq_true_eq] at h <;> simp [h]

@[simp] theorem inodes_setInode_self (fs : Ramfs) (ino : Nat) (n : RamInode) :
    (fs.setInode ino n).inodes ino = n := by simp [setInode]

theorem inodes_setInode_of_ne (fs : Ramfs) {ino d : Nat} (n : RamInode) (h : d ≠ ino) :
    (fs.setInode ino n).inodes d = fs.inodes d := by simp [setInode, h]

theorem edge_setInode (fs : Ramfs) (ino : Nat) (n : RamInode) :
    (fs.setInode ino n).edge = Function.update fs.edge ino n.entry := by
  funext d
  by_cases hd : d = ino
  · subst hd; funext i; simp [edge]
  · funext i; simp [edge, Function.update_of_ne hd, inodes_setInode_of_ne fs n hd]

theorem live_setInode (fs : Ramfs) {ino : Nat} {n : RamInode}
    (h : n.used = (fs.inodes ino).used) : (fs.setInode ino n).live = fs.live := by
  ext d
  by_cases hd : d = ino
  · subst hd; simp [live, h]
  · simp [live, inodes_setInode_of_ne fs n hd]

theorem live_setInode_unused (fs : Ramfs) {ino : Nat} {n : RamInode} (h : n.used = false) :
    (fs.setInode ino n).live = fs.live \ {ino} := by
  ext d
  by_cases hd : d = ino
  · subst hd; simp [live, h]
  · simp [live, inodes_setInode_of_ne fs n hd, hd]

theorem live_setInode_used (fs : Ramfs) {ino : Nat} {n : RamInode} (hlt : ino < maxInodes)
    (h : n.used = true) : (fs.setInode ino n).live = insert ino fs.live := by
  ext d
  by_cases hd : d = ino
  · subst hd; simp [live, h, hlt]
  · simp [live, inodes_setInode_of_ne fs n hd, hd]

/-- The invariant, with the inodes in `hand` not named yet or any more. -/
structure Sound (hand : Set Nat) (fs : Ramfs) : Prop where
  naming : Naming 0 hand fs.live fs.edge
  wf : ∀ d, (fs.inodes d).Wf

variable {hand : Set Nat} {fs : Ramfs}

theorem Sound.setInode {hand' : Set Nat} {ino : Nat} {n : RamInode} (h : fs.Sound hand)
    (hnaming : Naming 0 hand' (fs.setInode ino n).live (fs.setInode ino n).edge) (hwf : n.Wf) :
    (fs.setInode ino n).Sound hand' := by
  refine ⟨hnaming, fun d => ?_⟩
  by_cases hd : d = ino
  · subst hd; simpa using hwf
  · simpa [inodes_setInode_of_ne fs n hd] using h.wf d

theorem Sound.init {ino : Nat} {n : RamInode} (h : fs.Sound hand)
    (hnone : ∀ i, (fs.inodes ino).holds i = false) (hused : n.used = (fs.inodes ino).used)
    (hents : n.dirents = (fs.inodes ino).dirents)
    (hcount : n.direntCount = (fs.inodes ino).direntCount) : (fs.setInode ino n).Sound hand := by
  have hholds : ∀ i, n.holds i = false := fun i => by
    simpa [holds, hents, hcount] using hnone i
  refine h.setInode ?_ ⟨hcount ▸ (h.wf ino).count_le, ?_, ?_⟩
  · rw [live_setInode fs hused]
    refine h.naming.congr fun d _ => ?_
    rw [edge_setInode]
    by_cases hd : d = ino
    · subst hd
      funext i
      rw [Function.update_self, entry_eq_none.mpr (hholds i)]
      exact (entry_eq_none.mpr (hnone i)).symm
    · rw [Function.update_of_ne hd]
  · intro i hi; rw [hholds i] at hi; cases hi
  · intro i hi; rw [hholds i] at hi; cases hi

theorem allocInode_eq_some {fs' : Ramfs} {ino : Nat} (h : fs.allocInode = some (ino, fs')) :
    ino < maxInodes ∧ (fs.inodes ino).used = false ∧
      fs' = { fs with allocs := fs.allocs + 1 }.setInode ino
        ⟨0, 1, true, [], (fs.inodes ino).dirents, 0, fs.allocs⟩ := by
  unfold allocInode at h
  split at h
  case h_1 => cases h
  case h_2 i hfind =>
    cases h
    exact ⟨List.mem_range.mp (List.mem_of_find?_eq_some hfind),
      by simpa using List.find?_some hfind, rfl⟩

theorem Sound.allocInode {fs' : Ramfs} {ino : Nat} (h : fs.Sound hand)
    (halloc : fs.allocInode = some (ino, fs')) : fs'.Sound (insert ino hand) := by
  obtain ⟨hlt, hfree, rfl⟩ := allocInode_eq_some halloc
  have hbase : { fs with allocs := fs.allocs + 1 }.Sound hand := ⟨h.naming, h.wf⟩
  refine hbase.setInode ?_ ⟨Nat.zero_le _, by simp [holds], by simp [holds]⟩
  have hdead : ino ∉ fs.live := fun hl => by simp [hl.2] at hfree
  rw [live_setInode_used _ hlt rfl, edge_setInode]
  refine h.naming.make hdead (fun d hd => ?_) fun i => ?_
  · have hne : d ≠ ino := by rintro rfl; exact hdead hd
    rw [Function.update_of_ne hne]
    rfl
  · rw [Function.update_self]
    exact entry_eq_none.mpr (by simp [holds])

theorem Sound.freeInode {ino : Nat} (h : fs.Sound hand) (hin : ino ∈ hand)
    (hnone : ∀ i, (fs.inodes ino).holds i = false) : (fs.freeInode ino).Sound (hand \ {ino}) := by
  refine h.setInode ?_ ⟨(h.wf ino).count_le, (h.wf ino).nameLen, (h.wf ino).isDir⟩
  rw [live_setInode_unused fs rfl, edge_setInode]
  refine (h.naming.drop hin fun i => entry_eq_none.mpr (hnone i)).congr fun d hd => ?_
  exact Function.update_of_ne hd.2 _ _

theorem edge_addEntry {dir slot ino ft : Nat} {name : List UInt8}
    (hslot : (fs.inodes dir).Free slot) (hlen : name.length ≤ maxName) :
    (fs.addEntry dir slot ino name ft).edge =
      Naming.setEdge fs.edge dir slot (some (ino, name)) := by
  rw [addEntry, edge_setInode, entry_withEntry hslot hlen]
  rfl

@[simp] theorem live_addEntry (dir slot ino : Nat) (name : List UInt8) (ft : Nat) :
    (fs.addEntry dir slot ino name ft).live = fs.live := live_setInode fs rfl

theorem Sound.addEntry {dir slot ino ft : Nat} {name : List UInt8} (h : fs.Sound hand)
    (hin : ino ∈ hand) (hdir : dir ∈ fs.live) (hisDir : (fs.inodes dir).isDir)
    (hslot : (fs.inodes dir).Free slot) (hlen : name.length ≤ maxName)
    (hname : (fs.inodes dir).find name = none) :
    (fs.addEntry dir slot ino name ft).Sound (hand \ {ino}) := by
  refine h.setInode ?_ ((h.wf dir).withEntry hisDir hslot hlen)
  change Naming 0 _ (fs.addEntry dir slot ino name ft).live (fs.addEntry dir slot ino name ft).edge
  rw [live_addEntry, edge_addEntry hslot hlen]
  refine h.naming.attach hin hdir (entry_eq_none.mpr hslot.holds) fun i k hi => ?_
  obtain ⟨hi, -, hkey⟩ := entry_eq_some.mp hi
  exact find_none hname hi ((h.wf dir).nameLen i hi) hkey

theorem edge_unset (fs : Ramfs) (dir slot : Nat) :
    (fs.unset dir slot).edge = Naming.setEdge fs.edge dir slot none := by
  rw [unset, edge_setInode, entry_withoutEntry]
  rfl

@[simp] theorem live_unset (fs : Ramfs) (dir slot : Nat) : (fs.unset dir slot).live = fs.live :=
  live_setInode fs rfl

theorem Sound.unset {dir slot ino : Nat} {name : List UInt8} (h : fs.Sound hand)
    (hdir : dir ∈ fs.live) (hslot : fs.edge dir slot = some (ino, name)) :
    (fs.unset dir slot).Sound (insert ino hand) := by
  refine h.setInode ?_ ((h.wf dir).withoutEntry slot)
  change Naming 0 _ (fs.unset dir slot).live (fs.unset dir slot).edge
  rw [live_unset, edge_unset]
  exact h.naming.detach hdir hslot

/-- A new inode may be entered: the parent, if it is in use, is a directory without the name, and
the name fits an entry. -/
def Fits (fs : Ramfs) (parent : Nat) (name : List UInt8) : Bool :=
  (fs.getIno parent).all fun n =>
    n.isDir && name.length ≤ maxName && (n.find name).isNone

/-- The inode that the entry names, if there is one, has no entries. -/
def Removable (fs : Ramfs) (parent : Nat) (name : List UInt8) : Bool :=
  (fs.getIno parent).all fun n => (n.find name).all fun i => (fs.inodes (n.dirents i).ino).isEmpty

/-- There is room for the new name of a moved inode: the new parent is a directory in use and the
inode of an entry to replace has no entries. -/
def Room (fs : Ramfs) (parent : Nat) (name : List UInt8) : Bool :=
  (fs.getIno parent).any fun n =>
    n.isDir && name.length ≤ maxName &&
      match n.find name with
      | some i => (fs.inodes (n.dirents i).ino).isEmpty
      | none => n.direntCount < maxDirents

/-- If there is an entry to move, then without it there is room for the new name. -/
def Movable (fs : Ramfs) (oldParent : Nat) (oldName : List UInt8) (newParent : Nat)
    (newName : List UInt8) : Bool :=
  (fs.getIno oldParent).all fun n =>
    (n.find oldName).all fun i => (fs.unset oldParent i).Room newParent newName

/-- What ramfs does not check. -/
def Proper (fs : Ramfs) : RamOp → Prop
  | .create parent name _ => fs.Fits parent name
  | .mkdir parent name _ => fs.Fits parent name
  | .symlink parent name _ => fs.Fits parent name
  | .remove parent name => fs.Removable parent name
  | .rmdir parent name => fs.Removable parent name
  | .rename oldParent oldName newParent newName => fs.Movable oldParent oldName newParent newName

instance (fs : Ramfs) (op : RamOp) : Decidable (fs.Proper op) := by
  unfold Proper
  cases op <;> infer_instance

/-- The rewriting of a new inode leaves its entries alone. -/
structure Fresh (init : RamInode → RamInode) : Prop where
  used : ∀ n, (init n).used = n.used
  dirents : ∀ n, (init n).dirents = n.dirents
  direntCount : ∀ n, (init n).direntCount = n.direntCount

/-- `fs'` is `fs` with the new inode `ino`, which has no entries yet. -/
structure Made (fs : Ramfs) (ino : Nat) (fs' : Ramfs) : Prop where
  fresh : ino ∉ fs.live
  live : fs'.live = insert ino fs.live
  other : ∀ d ≠ ino, fs'.inodes d = fs.inodes d
  count : (fs'.inodes ino).direntCount = 0
  holds : ∀ i, (fs'.inodes ino).holds i = false
  sound : ∀ {hand}, fs.Sound hand → fs'.Sound (insert ino hand)

theorem made_allocInode {fs' : Ramfs} {ino : Nat} {init : RamInode → RamInode}
    (halloc : fs.allocInode = some (ino, fs')) (hinit : Fresh init) :
    Made fs ino (fs'.setInode ino (init (fs'.inodes ino))) := by
  obtain ⟨hlt, hfree, hfs'⟩ := allocInode_eq_some halloc
  have hnone : ∀ i, (fs'.inodes ino).holds i = false := by simp [hfs', RamInode.holds]
  constructor
  case fresh => exact fun hl => by simp [hl.2] at hfree
  case live =>
    rw [live_setInode _ (hinit.used _), hfs', live_setInode_used _ hlt rfl]
    rfl
  case other =>
    intro d hd
    rw [inodes_setInode_of_ne _ _ hd, hfs', inodes_setInode_of_ne _ _ hd]
  case count => rw [inodes_setInode_self, hinit.direntCount, hfs', inodes_setInode_self]
  case holds =>
    intro i
    simpa [RamInode.holds, hinit.dirents, hinit.direntCount] using hnone i
  case sound =>
    exact fun h =>
      (h.allocInode halloc).init hnone (hinit.used _) (hinit.dirents _) (hinit.direntCount _)

theorem make_cases (parent : Nat) (name : List UInt8) (ft : Nat) {init : RamInode → RamInode}
    (choose : RamInode → Option Nat) (hinit : Fresh init) :
    (∃ e, fs.make parent name ft init choose = (.error e, fs)) ∨
    ∃ ino fs', Made fs ino fs' ∧ parent ∈ fs.live ∧
      ((∃ e, fs.make parent name ft init choose = (.error e, fs'.freeInode ino)) ∨
        ∃ slot, choose (fs'.inodes parent) = some slot ∧
          fs.make parent name ft init choose =
            (.ok ino, fs'.addEntry parent slot ino name ft)) := by
  unfold Ramfs.make
  split
  case h_1 => exact .inl ⟨_, rfl⟩
  case h_2 n hparent =>
    split
    case h_1 => exact .inl ⟨_, rfl⟩
    case h_2 ino fs' halloc =>
      refine .inr ⟨ino, _, made_allocInode halloc hinit, (getIno_eq_some.mp hparent).1, ?_⟩
      simp only
      split
      case h_1 => exact .inl ⟨_, rfl⟩
      case h_2 slot hslot => exact .inr ⟨slot, hslot, rfl⟩

theorem Made.mem_live {fs' : Ramfs} {ino d : Nat} (h : Made fs ino fs') (hd : d ∈ fs.live) :
    d ∈ fs'.live ∧ fs'.inodes d = fs.inodes d :=
  ⟨h.live ▸ Set.mem_insert_of_mem _ hd, h.other d fun heq => h.fresh (heq ▸ hd)⟩

theorem fits_iff {parent : Nat} {name : List UInt8} (hlive : parent ∈ fs.live) :
    fs.Fits parent name ↔ (fs.inodes parent).isDir ∧ name.length ≤ maxName ∧
      (fs.inodes parent).find name = none := by
  simp [Fits, getIno_eq_some.mpr ⟨hlive, rfl⟩, and_assoc]

theorem Sound.make {parent ft : Nat} {name : List UInt8} {init : RamInode → RamInode}
    {choose : RamInode → Option Nat} (h : fs.Sound ∅) (hfits : fs.Fits parent name)
    (hinit : Fresh init) (hchoose : ∀ n slot, choose n = some slot → n.Free slot) :
    (fs.make parent name ft init choose).2.Sound ∅ := by
  rcases make_cases parent name ft choose hinit with
    ⟨e, heq⟩ | ⟨ino, fs', hmade, hlive, ⟨e, heq⟩ | ⟨slot, hslot, heq⟩⟩ <;> rw [heq]
  · exact h
  · simpa using (hmade.sound h).freeInode (Set.mem_insert _ _) hmade.holds
  · obtain ⟨hdir, hlen, hname⟩ := (fits_iff hlive).mp hfits
    obtain ⟨hlive', hsame⟩ := hmade.mem_live hlive
    have hadd : (fs'.addEntry parent slot ino name ft).Sound (insert ino ∅ \ {ino}) :=
      (hmade.sound h).addEntry (Set.mem_insert _ _) hlive' (hsame ▸ hdir) (hchoose _ _ hslot) hlen
        (hsame ▸ hname)
    simpa using hadd

theorem isDir_unset (fs : Ramfs) (dir slot d : Nat) :
    ((fs.unset dir slot).inodes d).isDir = (fs.inodes d).isDir := by
  by_cases hd : d = dir
  · subst hd; simp [unset]; rfl
  · rw [unset, inodes_setInode_of_ne _ _ hd]

theorem holds_unset_le (fs : Ramfs) (dir slot d i : Nat) (h : (fs.inodes d).holds i = false) :
    ((fs.unset dir slot).inodes d).holds i = false := by
  by_cases hd : d = dir
  · subst hd; simp [unset, holds_withoutEntry, h]
  · rwa [unset, inodes_setInode_of_ne _ _ hd]

theorem edge_of_find {d i : Nat} {name : List UInt8} (h : (fs.inodes d).find name = some i) :
    fs.edge d i = some (((fs.inodes d).dirents i).ino, name) :=
  entry_eq_some.mpr ⟨(find_some h).1, rfl, (find_some h).2⟩

theorem Sound.remove_cases (h : fs.Sound ∅) (parent : Nat) (name : List UInt8) :
    (∃ e, fs.remove parent name = (.error e, fs)) ∨
    ∃ i ino, parent ∈ fs.live ∧ (fs.inodes parent).find name = some i ∧
      fs.edge parent i = some (ino, name) ∧
      fs.remove parent name = (.ok (), (fs.unset parent i).freeInode ino) := by
  unfold Ramfs.remove
  split
  case h_1 => exact .inl ⟨_, rfl⟩
  case h_2 n hparent =>
    obtain ⟨hlive, rfl⟩ := getIno_eq_some.mp hparent
    split
    case h_1 => exact .inl ⟨_, rfl⟩
    case h_2 i hfind =>
      have hedge := edge_of_find hfind
      refine .inr ⟨i, _, hlive, hfind, hedge, ?_⟩
      have hino := ((h.unset hlive hedge).naming.in_hand _ (Set.mem_insert _ _)).1
      simp [getIno_eq_some.mpr ⟨hino, rfl⟩]

theorem Sound.remove {parent : Nat} {name : List UInt8} (h : fs.Sound ∅)
    (hok : fs.Removable parent name) : (fs.remove parent name).2.Sound ∅ := by
  rcases h.remove_cases parent name with ⟨e, heq⟩ | ⟨i, ino, hlive, hfind, hedge, heq⟩ <;> rw [heq]
  · exact h
  · have hempty : (fs.inodes ino).isEmpty := by
      obtain ⟨-, rfl, -⟩ := entry_eq_some.mp hedge
      simpa [Removable, getIno_eq_some.mpr ⟨hlive, rfl⟩, hfind] using hok
    have hfree := (h.unset hlive hedge).freeInode (Set.mem_insert ino ∅) fun k =>
      holds_unset_le fs parent i ino k (holds_of_isEmpty hempty k)
    simpa using hfree

theorem unset_freeInode_comm {dir ino : Nat} (slot : Nat) (h : dir ≠ ino) :
    (fs.freeInode ino).unset dir slot = (fs.unset dir slot).freeInode ino := by
  unfold freeInode unset
  rw [inodes_setInode_of_ne _ _ h, inodes_setInode_of_ne _ _ h.symm]
  simp only [setInode]
  rw [Function.update_comm h]

theorem Sound.find_unset {dir slot ino : Nat} {name : List UInt8} (h : fs.Sound hand)
    (hdir : dir ∈ fs.live) (hslot : fs.edge dir slot = some (ino, name)) :
    ((fs.unset dir slot).inodes dir).find name = none := by
  cases hfind : ((fs.unset dir slot).inodes dir).find name with
  | none => rfl
  | some j =>
    have hj := edge_of_find hfind
    rw [edge_unset] at hj
    rcases Naming.setEdge_cases fs.edge dir slot none dir j with ⟨-, -, heq⟩ | ⟨hne, heq⟩
    · rw [heq] at hj; cases hj
    · rw [heq] at hj
      exact absurd ⟨rfl, h.naming.names dir hdir j slot _ _ name hj hslot⟩ hne

/-- The old entry is replaced: its inode is given up and the slot is free again. -/
theorem Sound.replace {dir slot target : Nat} {name : List UInt8} (h : fs.Sound hand)
    (hdir : dir ∈ fs.live) (hslot : fs.edge dir slot = some (target, name))
    (hempty : (fs.inodes target).isEmpty) (hhand : target ∉ hand) :
    let fs' := (fs.freeInode target).unset dir slot
    fs'.Sound hand ∧ dir ∈ fs'.live ∧ (fs'.inodes dir).isDir = (fs.inodes dir).isDir ∧
      (fs'.inodes dir).Free slot ∧ (fs'.inodes dir).find name = none := by
  have hholds := (entry_eq_some.mp hslot).1
  have hne : dir ≠ target := by
    rintro rfl
    rw [holds_of_isEmpty hempty slot] at hholds
    cases hholds
  intro fs'
  have hfs' : fs' = (fs.unset dir slot).freeInode target := unset_freeInode_comm slot hne
  have hsame : fs'.inodes dir = (fs.unset dir slot).inodes dir := by
    rw [hfs', Ramfs.freeInode, inodes_setInode_of_ne _ _ hne]
  have hsound := (h.unset hdir hslot).freeInode (Set.mem_insert target hand) fun i =>
    holds_unset_le fs dir slot target i (holds_of_isEmpty hempty i)
  refine ⟨?_, ?_, ?_, ?_, ?_⟩
  · rw [hfs']
    simpa [hhand] using hsound
  · rw [hfs', Ramfs.freeInode, live_setInode_unused _ rfl, live_unset]
    exact ⟨hdir, hne⟩
  · rw [hsame, isDir_unset]
  · simp only [holds, Bool.and_eq_true, decide_eq_true_eq] at hholds
    rw [hsame]
    refine .inl ⟨?_, ?_⟩
    · rw [Ramfs.unset, inodes_setInode_self]
      exact hholds.1
    · rw [Ramfs.unset, inodes_setInode_self, holds_withoutEntry]
      simp
  · rw [hsame, h.find_unset hdir hslot]

/-- What `rename` can do when there is room for the new name. -/
theorem Sound.rename_cases {oldParent newParent : Nat} {oldName newName : List UInt8}
    (h : fs.Sound ∅) (hok : fs.Movable oldParent oldName newParent newName) :
    (∃ e, fs.rename oldParent oldName newParent newName = (.error e, none, fs)) ∨
    ∃ idx ino ft, oldParent ∈ fs.live ∧ fs.edge oldParent idx = some (ino, oldName) ∧
      newParent ∈ fs.live ∧ (fs.inodes newParent).isDir ∧ newName.length ≤ maxName ∧
      ((∃ i target, (fs.unset oldParent idx).edge newParent i = some (target, newName) ∧
        ((fs.unset oldParent idx).inodes target).isEmpty ∧
        fs.rename oldParent oldName newParent newName = (.ok (), some target,
          (((fs.unset oldParent idx).freeInode target).unset newParent i).addEntry newParent i ino
            newName ft)) ∨
      (((fs.unset oldParent idx).inodes newParent).find newName = none ∧
        ∃ slot, ((fs.unset oldParent idx).inodes newParent).Free slot ∧
        fs.rename oldParent oldName newParent newName = (.ok (), none,
          (fs.unset oldParent idx).addEntry newParent slot ino newName ft))) := by
  unfold Ramfs.rename
  split
  case h_1 => exact .inl ⟨_, rfl⟩
  case h_2 old hold =>
    obtain ⟨hlive, rfl⟩ := getIno_eq_some.mp hold
    split
    case h_1 => exact .inl ⟨_, rfl⟩
    case h_2 idx hidx =>
      simp only [Movable, hold, hidx, Option.all_some] at hok
      have hedge := edge_of_find hidx
      have hmoved := h.unset hlive hedge
      simp only
      cases hnew : (fs.unset oldParent idx).getIno newParent with
      | none => simp [Room, hnew] at hok
      | some new =>
        obtain ⟨hnlive, rfl⟩ := getIno_eq_some.mp hnew
        simp only [Room, hnew, Option.any_some, Bool.and_eq_true, decide_eq_true_eq,
          isDir_unset] at hok
        obtain ⟨⟨hdir, hlen⟩, hroom⟩ := hok
        refine .inr ⟨idx, _, ((fs.inodes oldParent).dirents idx).fileType, hlive, hedge,
          live_unset fs oldParent idx ▸ hnlive, hdir, hlen, ?_⟩
        cases hfind : ((fs.unset oldParent idx).inodes newParent).find newName with
        | some i =>
          rw [hfind] at hroom
          have htarget := edge_of_find hfind
          obtain ⟨htlive, -, -⟩ := hmoved.naming.target _ hnlive _ _ _ htarget
          refine .inl ⟨i, _, htarget, hroom, ?_⟩
          simp only [hfind, getIno_eq_some.mpr ⟨htlive, rfl⟩]
        | none =>
          simp only [hfind, decide_eq_true_eq] at hroom
          refine .inr ⟨rfl, _, free_next (not_le.mpr hroom), ?_⟩
          simp only [hfind, if_neg (not_le.mpr hroom)]

theorem Sound.rename {oldParent newParent : Nat} {oldName newName : List UInt8} (h : fs.Sound ∅)
    (hok : fs.Movable oldParent oldName newParent newName) :
    (fs.rename oldParent oldName newParent newName).2.2.Sound ∅ := by
  rcases h.rename_cases hok with
    ⟨e, heq⟩ | ⟨idx, ino, ft, hlive, hedge, hnlive, hdir, hlen, hcases⟩
  · rw [heq]
    exact h
  have hmoved := h.unset hlive hedge
  have hback : insert ino (∅ : Set Nat) \ {ino} = ∅ := by simp
  rw [← live_unset fs oldParent idx] at hnlive
  rw [← isDir_unset fs oldParent idx] at hdir
  rcases hcases with ⟨i, target, htarget, hempty, heq⟩ | ⟨hfind, slot, hslot, heq⟩ <;>
    rw [heq, ← hback]
  · obtain ⟨-, -, hthand⟩ := hmoved.naming.target _ hnlive _ _ _ htarget
    obtain ⟨hs, hl, hd, hf, hn⟩ := hmoved.replace hnlive htarget hempty hthand
    exact hs.addEntry (Set.mem_insert _ _) hl (hd ▸ hdir) hf hlen hn
  · exact hmoved.addEntry (Set.mem_insert _ _) hnlive hdir hslot hlen hfind

theorem Sound.create {parent mode : Nat} {name : List UInt8} (h : fs.Sound ∅)
    (hok : fs.Fits parent name) : (fs.create parent name mode).2.Sound ∅ :=
  h.make hok ⟨fun _ => rfl, fun _ => rfl, fun _ => rfl⟩ fun _ _ => createSlot_free

theorem Sound.mkdir {parent mode : Nat} {name : List UInt8} (h : fs.Sound ∅)
    (hok : fs.Fits parent name) : (fs.mkdir parent name mode).2.Sound ∅ :=
  h.make hok ⟨fun _ => rfl, fun _ => rfl, fun _ => rfl⟩ fun _ _ => mkdirSlot_free

theorem Sound.step {op : RamOp} (h : fs.Sound ∅) (hok : fs.Proper op) : (fs.step op).Sound ∅ := by
  cases op with
  | create parent name mode => exact h.create hok
  | mkdir parent name mode => exact h.mkdir hok
  | symlink parent name target =>
    exact h.make hok ⟨fun _ => rfl, fun _ => rfl, fun _ => rfl⟩ fun _ _ => symlinkSlot_free
  | remove parent name => exact h.remove hok
  | rmdir parent name => exact h.remove hok
  | rename oldParent oldName newParent newName => exact h.rename hok

theorem mem_live_init {d : Nat} : d ∈ init.live ↔ d ≤ 2 := by
  simp only [live, init, maxInodes, Set.mem_ofPred_eq]
  split_ifs <;> simp [dirInode, RamInode.empty] <;> omega

theorem holds_init {d i : Nat} (h : (init.inodes d).holds i) : d = 0 ∧ (i = 0 ∨ i = 1) := by
  simp only [init, holds, dirInode, RamInode.empty] at h
  split_ifs at h <;> simp at h
  exact ⟨‹_›, by omega⟩

theorem edge_init {d i n : Nat} {v : List UInt8} (h : init.edge d i = some (n, v)) :
    d = 0 ∧ (i = 0 ∧ n = 1 ∧ v = [98, 105, 110] ∨ i = 1 ∧ n = 2 ∧ v = [108, 105, 98]) := by
  obtain ⟨hi, rfl, rfl⟩ := entry_eq_some.mp h
  obtain ⟨rfl, rfl | rfl⟩ := holds_init hi
  · exact ⟨rfl, .inl ⟨rfl, rfl, by decide⟩⟩
  · exact ⟨rfl, .inr ⟨rfl, rfl, by decide⟩⟩

theorem sound_init : init.Sound ∅ := by
  refine ⟨⟨mem_live_init.mpr (by omega), nofun, ?_, ?_, ?_, ?_⟩, fun d => ⟨?_, ?_, ?_⟩⟩
  · intro d _ i n v h
    rw [mem_live_init]
    obtain ⟨-, ⟨-, rfl, -⟩ | ⟨-, rfl, -⟩⟩ := edge_init h <;> simp
  · intro d _ d' _ i i' n v v' h h'
    obtain ⟨rfl, hi⟩ := edge_init h
    obtain ⟨rfl, hi'⟩ := edge_init h'
    exact ⟨rfl, by omega⟩
  · intro d _ i i' n n' v h h'
    obtain ⟨rfl, ⟨hi, -, rfl⟩ | ⟨hi, -, rfl⟩⟩ := edge_init h <;>
      obtain ⟨-, ⟨hi', -, hv⟩ | ⟨hi', -, hv⟩⟩ := edge_init h' <;> simp_all
  · intro n hn hroot _
    have hn := mem_live_init.mp hn
    refine ⟨0, mem_live_init.mpr (by omega), n - 1, ?_⟩
    obtain rfl | rfl : n = 1 ∨ n = 2 := by omega
    · exact ⟨[98, 105, 110], by decide⟩
    · exact ⟨[108, 105, 98], by decide⟩
  · simp only [init, dirInode, RamInode.empty, maxDirents]
    split_ifs <;> simp
  all_goals
    intro i hi
    obtain ⟨rfl, rfl | rfl⟩ := holds_init hi <;> decide

/-- The entries form a tree of names: in each directory the names are distinct, every inode in use
but the root has one entry of one directory in use, and every entry is of an inode in use. -/
structure Named (fs : Ramfs) : Prop where
  distinct : ∀ d ∈ fs.live, ∀ i j, (fs.inodes d).holds i → (fs.inodes d).holds j →
    ((fs.inodes d).dirents i).key = ((fs.inodes d).dirents j).key → i = j
  named : ∀ n ∈ fs.live, n ≠ 0 → ∃! e : Nat × Nat, e.1 ∈ fs.live ∧ (fs.inodes e.1).isDir ∧
    (fs.inodes e.1).holds e.2 ∧ ((fs.inodes e.1).dirents e.2).ino = n
  target : ∀ d ∈ fs.live, ∀ i, (fs.inodes d).holds i → ((fs.inodes d).dirents i).ino ∈ fs.live

theorem Sound.named (h : fs.Sound ∅) : fs.Named := by
  have hedge : ∀ {d i}, (fs.inodes d).holds i → fs.edge d i =
      some (((fs.inodes d).dirents i).ino, ((fs.inodes d).dirents i).key) :=
    fun hi => entry_eq_some.mpr ⟨hi, rfl, rfl⟩
  constructor
  case distinct =>
    intro d hd i j hi hj hkey
    exact h.naming.names d hd i j _ _ _ (hedge hi) (hkey ▸ hedge hj)
  case named =>
    intro n hn hroot
    obtain ⟨d, hd, i, v, he⟩ := h.naming.named n hn hroot (Set.notMem_empty n)
    obtain ⟨hi, hino, -⟩ := entry_eq_some.mp he
    refine ⟨(d, i), ⟨hd, (h.wf d).isDir i hi, hi, hino⟩, ?_⟩
    rintro ⟨d', i'⟩ ⟨hd', -, hi', hino'⟩
    have he' := hino' ▸ hedge hi'
    obtain ⟨rfl, rfl⟩ := h.naming.unique d' hd' d hd i' i n _ _ he' he
    rfl
  case target => exact fun d hd i hi => (h.naming.target d hd i _ _ (hedge hi)).1

end Ramfs

open Ramfs

/-- Over every run of proper calls the entries of ramfs name every inode in use but the root
exactly once, with distinct names in each directory. -/
theorem ramfs_names_inodes_once {ops : List RamOp} (hops : Steps Ramfs.step Ramfs.Proper init ops) :
    (ops.foldl Ramfs.step init).Named :=
  (Steps.invariant (I := Sound ∅) (fun _ _ h hok => h.step hok) sound_init hops).named

/-- A directory, a file in it that is moved over another one, and the removal of both. -/
theorem ramfs_names_inodes_once_move :
    ([RamOp.mkdir 0 [97] 0o755, .create 3 [98] 0o644, .create 0 [99] 0o644, .rename 3 [98] 0 [99],
      .remove 0 [99], .rmdir 0 [97]].foldl Ramfs.step init).Named :=
  ramfs_names_inodes_once
    (show Steps Ramfs.step Ramfs.Proper init [RamOp.mkdir 0 [97] 0o755, .create 3 [98] 0o644,
      .create 0 [99] 0o644, .rename 3 [98] 0 [99], .remove 0 [99], .rmdir 0 [97]] by
        decide)

/-- A name created twice is in the root twice. -/
theorem ramfs_duplicate_name : ∃ ops : List RamOp, ¬ (ops.foldl Ramfs.step init).Named := by
  refine ⟨[.create 0 [97] 0o644, .create 0 [97] 0o644], fun h => ?_⟩
  have heq := h.distinct 0 ⟨by decide, by decide⟩ 2 3 (by decide) (by decide)
    (by decide)
  omega

end Rynex.Fs
