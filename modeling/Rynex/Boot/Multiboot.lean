import Mathlib

/-! The walk over the tags of the boot information. `mem` is the memory from the information block
on, offsets are 32-bit and wrap. A block is described by the list of its tags; the two readers are
compared with that list. -/

namespace Rynex.Boot

variable (mem : Nat → UInt8)

/-! ### The readers -/

def u32At (off : Nat) : Nat :=
  (mem off).toNat + 2 ^ 8 * (mem (off + 1)).toNat + 2 ^ 16 * (mem (off + 2)).toNat +
    2 ^ 24 * (mem (off + 3)).toNat

def u64At (off : Nat) : Nat := u32At mem off + 2 ^ 32 * u32At mem (off + 4)

/-- `offset += size; offset = (offset + 7) & !7`. -/
def nextTag (offset size : Nat) : Nat := ((offset + size) % 2 ^ 32 + 7) % 2 ^ 32 / 8 * 8

/-- The bytes up to a NUL, at most `room` of them. -/
def readCmdline : Nat → Nat → List UInt8
  | 0, _ => []
  | room + 1, p => if mem p = 0 then [] else mem p :: readCmdline room (p + 1)

def nameSize : Nat := 64

def padded (bytes : List UInt8) : List UInt8 := bytes ++ List.replicate (nameSize - bytes.length) 0

/-- The index behind the last slash, in the scan from index `j` on. -/
def baseStart : Nat → Nat → List UInt8 → Nat
  | _, start, [] => start
  | j, start, c :: cs =>
    if c = 0 then start else baseStart (j + 1) (if c = 47 then j + 1 else start) cs

/-- The move of the bytes from index `j` on to index `n`, in the array itself. -/
def moveDown : Nat → Nat → Nat → List UInt8 → List UInt8 × Nat
  | 0, _, n, name => (name, n)
  | turns + 1, j, n, name =>
    let c := name.getD j 0
    if c = 0 then (name, n) else moveDown turns (j + 1) (n + 1) (name.set n c)

/-- The array reduced to the part behind the last slash, the rest set to zero. -/
def reduceName (name : List UInt8) : List UInt8 :=
  let start := baseStart 0 0 name
  let moved := moveDown (nameSize - start) start 0 name
  moved.1.take moved.2 ++ List.replicate (nameSize - moved.2) 0

structure ModuleInfo where
  start : Nat
  stop : Nat
  name : List UInt8

def readModule (offset : Nat) : ModuleInfo :=
  ⟨u32At mem (offset + 8), u32At mem (offset + 12),
    reduceName (padded (readCmdline mem 63 (offset + 16)))⟩

/-- The loop of `find_modules` for an output of `cap` places; `none` when the turns run out. -/
def modulesLoop (cap : Nat) : Nat → Nat → List ModuleInfo → Option (List ModuleInfo)
  | 0, _, _ => none
  | turns + 1, offset, out =>
    if (offset + 8) % 2 ^ 32 ≤ u32At mem 0 then
      if u32At mem offset = 0 then some out
      else if u32At mem (offset + 4) < 8 then some out
      else
        modulesLoop cap turns (nextTag offset (u32At mem (offset + 4)))
          (if u32At mem offset = 3 ∧ out.length < cap then out ++ [readModule mem offset] else out)
    else some out

def findModules (cap turns : Nat) : Option (List ModuleInfo) := modulesLoop mem cap turns 8 []

structure Entry where
  base : Nat
  len : Nat
  typ : Nat
  deriving DecidableEq

def entryAt (off : Nat) : Entry := ⟨u64At mem off, u64At mem (off + 8), u32At mem (off + 16)⟩

def Entry.usable (e : Entry) : Bool := e.typ == 1 && decide (0 < e.len)

/-- The loop over the entries of a memory map of which `stop` is the end. -/
def entriesLoop (cap entrySize stop : Nat) : Nat → Nat → List Entry → Option (List Entry)
  | 0, _, _ => none
  | turns + 1, off, out =>
    if (off + entrySize) % 2 ^ 32 ≤ stop ∧ out.length < cap then
      entriesLoop cap entrySize stop turns ((off + entrySize) % 2 ^ 32)
        (if (entryAt mem off).usable then out ++ [entryAt mem off] else out)
    else some out

/-- The loop of `memory_regions`, which has found no region before the first memory map. -/
def regionsLoop (cap : Nat) : Nat → Nat → Option (List Entry)
  | 0, _ => none
  | turns + 1, offset =>
    let size := u32At mem (offset + 4)
    if (offset + 8) % 2 ^ 32 ≤ u32At mem 0 then
      if u32At mem offset = 0 then some []
      else if size < 8 then some []
      else if u32At mem offset = 6 then
        let entrySize := u32At mem (offset + 8)
        if entrySize < 20 then some []
        else
          entriesLoop mem cap entrySize ((offset + size) % 2 ^ 32) turns ((offset + 16) % 2 ^ 32) []
      else regionsLoop cap turns (nextTag offset size)
    else some []

def memoryRegions (cap turns : Nat) : Option (List Entry) := regionsLoop mem cap turns 8

/-! ### The block as a list of tags -/

inductive Tag where
  | module (start stop : Nat) (cmdline : List UInt8)
  | mmap (entrySize : Nat) (entries : List Entry)
  | other (typ size : Nat)

/-- The exact size of a tag, its header included. -/
def Tag.size : Tag → Nat
  | .module _ _ cmdline => 16 + (cmdline.length + 1)
  | .mmap entrySize entries => 16 + entries.length * entrySize
  | .other _ size => size

/-- The entries stand one behind the other, `entrySize` bytes apart. -/
def EntriesAt (entrySize : Nat) : Nat → List Entry → Prop
  | _, [] => True
  | off, e :: es => entryAt mem off = e ∧ EntriesAt entrySize (off + entrySize) es

/-- The tag stands at `off`; a command line ends with a NUL and has at most 63 bytes before it. -/
def TagAt (off : Nat) : Tag → Prop
  | .module start stop cmdline =>
    u32At mem off = 3 ∧ u32At mem (off + 8) = start ∧ u32At mem (off + 12) = stop ∧
      (∀ i c, cmdline[i]? = some c → mem (off + 16 + i) = c) ∧
      mem (off + 16 + cmdline.length) = 0 ∧ 0 ∉ cmdline ∧ cmdline.length ≤ 63
  | .mmap entrySize entries =>
    u32At mem off = 6 ∧ u32At mem (off + 8) = entrySize ∧ EntriesAt mem entrySize (off + 16) entries
  | .other typ size => u32At mem off = typ ∧ typ ≠ 0 ∧ typ ≠ 3 ∧ typ ≠ 6 ∧ 8 ≤ size

def alignUp8 (n : Nat) : Nat := (n + 7) / 8 * 8

/-- The tags from `off` on, each with its exact size, up to an end tag inside the block. -/
def TagsAt : Nat → List Tag → Prop
  | off, [] => u32At mem off = 0 ∧ off + 8 ≤ u32At mem 0
  | off, t :: ts =>
    u32At mem (off + 4) = t.size ∧ TagAt mem off t ∧ TagsAt (alignUp8 (off + t.size)) ts

/-- A module as it is reported: with the part of its command line behind the last slash. -/
def Tag.moduleInfo : Tag → Option ModuleInfo
  | .module start stop cmdline => some ⟨start, stop, padded (cmdline.rtakeWhile (· ≠ 47))⟩
  | _ => none

/-- The first memory map: where its tag stands, its entry size and its entries. -/
def firstMmap : Nat → List Tag → Option (Nat × Nat × List Entry)
  | _, [] => none
  | off, .mmap entrySize entries :: _ => some (off, entrySize, entries)
  | off, t :: ts => firstMmap (alignUp8 (off + t.size)) ts

/-- Past the end of the entries the 32-bit sums leave the map before they meet a usable entry. -/
def Quiet (entrySize stop : Nat) : Prop :=
  ∃ k, stop < (stop + (k + 1) * entrySize) % 2 ^ 32 ∧
    ∀ i < k, (entryAt mem ((stop + i * entrySize) % 2 ^ 32)).usable = false

/-! ### Names -/

variable {mem}

theorem readCmdline_eq {cmdline : List UInt8} {room p : Nat}
    (hbytes : ∀ i c, cmdline[i]? = some c → mem (p + i) = c) (hend : mem (p + cmdline.length) = 0)
    (hzero : 0 ∉ cmdline) (hroom : cmdline.length ≤ room) : readCmdline mem room p = cmdline := by
  induction cmdline generalizing room p with
  | nil =>
    cases room with
    | zero => rfl
    | succ room => exact if_pos hend
  | cons c cs ih =>
    obtain ⟨room, rfl⟩ := Nat.exists_eq_add_of_le' (Nat.one_le_iff_ne_zero.mpr
      (fun h => by simp [h] at hroom) : 1 ≤ room)
    have hc : mem p = c := hbytes 0 c rfl
    have hne : c ≠ 0 := fun h => hzero (h ▸ List.mem_cons_self)
    have hrest : readCmdline mem room (p + 1) = cs := by
      refine ih (fun i d hd => ?_) ?_ (fun h => hzero (List.mem_cons_of_mem _ h)) ?_
      · rw [Nat.add_assoc, Nat.add_comm 1 i]
        exact hbytes (i + 1) d hd
      · rw [Nat.add_assoc, Nat.add_comm 1]
        exact hend
      · simpa using hroom
    rw [readCmdline, hc, if_neg hne, hrest]

theorem baseStart_append {cmdline rest : List UInt8} (hzero : 0 ∉ cmdline) (j start : Nat) :
    baseStart j start (cmdline ++ 0 :: rest) = baseStart j start cmdline := by
  induction cmdline generalizing j start with
  | nil => exact if_pos rfl
  | cons c cs ih =>
    have hc : c ≠ 0 := fun h => hzero (h ▸ List.mem_cons_self)
    rw [List.cons_append, baseStart, baseStart, if_neg hc, if_neg hc,
      ih fun h => hzero (List.mem_cons_of_mem _ h)]

theorem baseStart_concat {cs : List UInt8} {c : UInt8} (hzero : 0 ∉ cs) (hc : c ≠ 0)
    (j start : Nat) :
    baseStart j start (cs ++ [c]) = if c = 47 then j + cs.length + 1 else baseStart j start cs := by
  induction cs generalizing j start with
  | nil => exact if_neg hc
  | cons d cs ih =>
    have hd : d ≠ 0 := fun h => hzero (h ▸ List.mem_cons_self)
    rw [List.cons_append, baseStart, if_neg hd, ih fun h => hzero (List.mem_cons_of_mem _ h),
      baseStart, if_neg hd, List.length_cons]
    split_ifs
    all_goals omega

theorem drop_baseStart {cmdline : List UInt8} (hzero : 0 ∉ cmdline) :
    baseStart 0 0 cmdline ≤ cmdline.length ∧
      cmdline.drop (baseStart 0 0 cmdline) = cmdline.rtakeWhile (· ≠ 47) := by
  induction cmdline using List.reverseRecOn with
  | nil => exact ⟨le_rfl, rfl⟩
  | append_singleton cs c ih =>
    simp only [List.mem_append, List.mem_singleton, not_or] at hzero
    obtain ⟨hle, hdrop⟩ := ih hzero.1
    rw [baseStart_concat hzero.1 (Ne.symm hzero.2), List.length_append, List.length_singleton]
    by_cases hc : c = 47
    · rw [if_pos hc, Nat.zero_add, List.rtakeWhile_concat_neg _ _ _ (by simp [hc])]
      exact ⟨le_rfl, List.drop_of_length_le (by simp)⟩
    · rw [if_neg hc, List.rtakeWhile_concat_pos _ _ _ (by simp [hc]), ← hdrop,
        List.drop_append_of_le_length hle]
      exact ⟨by omega, rfl⟩

theorem getD_of_drop {name cs : List UInt8} {c : UInt8} {j : Nat} (h : name.drop j = c :: cs) :
    j < name.length ∧ name.getD j 0 = c ∧ name.drop (j + 1) = cs := by
  have hlt : j < name.length := by
    by_contra hge
    rw [List.drop_of_length_le (by omega)] at h
    cases h
  rw [List.drop_eq_getElem_cons hlt] at h
  obtain ⟨hc, hcs⟩ := List.cons.inj h
  exact ⟨hlt, by rw [List.getD_eq_getElem _ _ hlt, hc], hcs⟩

/-- The bytes that are still to be read are as they were: index `n` is not past index `j`. -/
theorem moveDown_eq {cs rest name : List UInt8} {turns j n : Nat} (hzero : 0 ∉ cs)
    (hdrop : name.drop j = cs ++ 0 :: rest) (hturns : j + turns = name.length) (hn : n ≤ j) :
    (moveDown turns j n name).2 = n + cs.length ∧
      (moveDown turns j n name).1.take (n + cs.length) = name.take n ++ cs := by
  induction cs generalizing name turns j n with
  | nil =>
    obtain ⟨hlt, hget, -⟩ := getD_of_drop hdrop
    obtain ⟨turns, rfl⟩ : ∃ k, turns = k + 1 := ⟨turns - 1, by omega⟩
    rw [moveDown, hget]
    simp
  | cons c cs ih =>
    obtain ⟨hlt, hget, hrest⟩ := getD_of_drop hdrop
    obtain ⟨turns, rfl⟩ : ∃ k, turns = k + 1 := ⟨turns - 1, by omega⟩
    have hc : c ≠ 0 := fun h => hzero (h ▸ List.mem_cons_self)
    have hstep : moveDown (turns + 1) j n name = moveDown turns (j + 1) (n + 1) (name.set n c) := by
      rw [moveDown, hget]
      exact if_neg hc
    have hdrop : (name.set n c).drop (j + 1) = cs ++ 0 :: rest := by
      rw [List.drop_set_of_lt (by omega), hrest]
      rfl
    have hlength : j + 1 + turns = (name.set n c).length := by
      rw [List.length_set]
      omega
    obtain ⟨hsnd, hfst⟩ := ih (fun h => hzero (List.mem_cons_of_mem _ h)) hdrop hlength
      (Nat.succ_le_succ hn)
    have htake : (name.set n c).take (n + 1) = name.take n ++ [c] := by
      rw [List.take_add_one, List.take_set_of_le le_rfl, List.getElem?_set_self (by omega)]
      rfl
    rw [hstep, List.length_cons, hsnd, show n + (cs.length + 1) = n + 1 + cs.length by omega, hfst,
      htake, List.append_assoc, List.singleton_append]
    exact ⟨rfl, rfl⟩

theorem reduceName_eq {cmdline : List UInt8} (hzero : 0 ∉ cmdline) (hlen : cmdline.length ≤ 63) :
    reduceName (padded cmdline) = padded (cmdline.rtakeWhile (· ≠ 47)) := by
  obtain ⟨k, hk⟩ : ∃ k, nameSize - cmdline.length = k + 1 := ⟨63 - cmdline.length, by
    unfold nameSize
    omega⟩
  have hpad : padded cmdline = cmdline ++ 0 :: List.replicate k 0 := by
    rw [padded, hk, List.replicate_succ]
  obtain ⟨hle, hdrop⟩ := drop_baseStart hzero
  have hstart : baseStart 0 0 (padded cmdline) = baseStart 0 0 cmdline := by
    rw [hpad, baseStart_append hzero]
  have hrest : (padded cmdline).drop (baseStart 0 0 cmdline) =
      cmdline.rtakeWhile (· ≠ 47) ++ 0 :: List.replicate k 0 := by
    rw [hpad, List.drop_append_of_le_length hle, hdrop]
  have hlength : baseStart 0 0 cmdline + (nameSize - baseStart 0 0 cmdline) =
      (padded cmdline).length := by
    rw [padded, List.length_append, List.length_replicate]
    unfold nameSize
    omega
  have hzero' : 0 ∉ cmdline.rtakeWhile (· ≠ 47) := by
    rw [← hdrop]
    exact fun h => hzero (List.mem_of_mem_drop h)
  obtain ⟨hsnd, hfst⟩ := moveDown_eq hzero' hrest hlength (Nat.zero_le _)
  rw [Nat.zero_add] at hsnd hfst
  rw [reduceName, hstart]
  simp only [hsnd, hfst]
  rfl

theorem readModule_eq {off start stop : Nat} {cmdline : List UInt8}
    (h : TagAt mem off (.module start stop cmdline)) :
    some (readModule mem off) = Tag.moduleInfo (.module start stop cmdline) := by
  obtain ⟨-, rfl, rfl, hbytes, hend, hzero, hlen⟩ := h
  rw [readModule, readCmdline_eq hbytes hend hzero hlen, reduceName_eq hzero hlen]
  rfl

/-! ### The walk over the tags -/

theorem u32At_lt (mem : Nat → UInt8) (off : Nat) : u32At mem off < 2 ^ 32 := by
  have h0 := (mem off).toNat_lt
  have h1 := (mem (off + 1)).toNat_lt
  have h2 := (mem (off + 2)).toNat_lt
  have h3 := (mem (off + 3)).toNat_lt
  unfold u32At
  omega

theorem TagAt.size_ge {off : Nat} {t : Tag} (h : TagAt mem off t) : 8 ≤ t.size := by
  cases t with
  | module start stop cmdline => simp only [Tag.size]; omega
  | mmap entrySize entries => simp only [Tag.size]; omega
  | other typ size => exact h.2.2.2.2

theorem TagsAt.le {off : Nat} {tags : List Tag} (h : TagsAt mem off tags) :
    off + 8 ≤ u32At mem 0 := by
  induction tags generalizing off with
  | nil => exact h.2
  | cons t ts ih =>
    have hrest := ih h.2.2
    unfold alignUp8 at hrest
    omega

theorem TagsAt.next {off : Nat} {t : Tag} {ts : List Tag} (h : TagsAt mem off (t :: ts)) :
    (off + 8) % 2 ^ 32 ≤ u32At mem 0 ∧ ¬u32At mem (off + 4) < 8 ∧
      nextTag off (u32At mem (off + 4)) = alignUp8 (off + t.size) := by
  have hhere := h.le
  have hrest := TagsAt.le h.2.2
  have htotal := u32At_lt mem 0
  have hsize := TagAt.size_ge h.2.1
  rw [h.1]
  unfold nextTag
  unfold alignUp8 at *
  refine ⟨?_, ?_, ?_⟩
  · omega
  · omega
  · rw [Nat.mod_eq_of_lt (by omega), Nat.mod_eq_of_lt (by omega)]

/-- A loop that goes on as another one: enough turns of the two give the same. -/
theorem exists_turns_iff {α : Type*} {f g : Nat → Option α} {r : α} (hzero : f 0 = none)
    (hstep : ∀ turns, f (turns + 1) = g turns) :
    (∃ turns, f turns = some r) ↔ ∃ turns, g turns = some r := by
  constructor
  · rintro ⟨turns, hturns⟩
    cases turns with
    | zero => cases hzero.symm.trans hturns
    | succ turns => exact ⟨turns, (hstep turns).symm.trans hturns⟩
  · rintro ⟨turns, hturns⟩
    exact ⟨turns + 1, (hstep turns).trans hturns⟩

/-- Enough turns of `find_modules` give `r`. -/
def FindsFrom (mem : Nat → UInt8) (cap off : Nat) (out r : List ModuleInfo) : Prop :=
  ∃ turns, modulesLoop mem cap turns off out = some r

theorem take_concat_eq {α : Type*} {out l : List α} {x : α} {cap : Nat} (h : out.length ≤ cap) :
    (out ++ x :: l).take cap =
      ((if out.length < cap then out ++ [x] else out) ++ l).take cap := by
  split_ifs with hlt
  · rw [List.append_assoc, List.singleton_append]
  · obtain rfl : cap = out.length := by omega
    rw [List.take_left' rfl, List.take_left' rfl]

theorem findsFrom_tags {cap off : Nat} {tags : List Tag} {out : List ModuleInfo}
    (h : TagsAt mem off tags) (hout : out.length ≤ cap) :
    FindsFrom mem cap off out ((out ++ tags.filterMap Tag.moduleInfo).take cap) := by
  induction tags generalizing off out with
  | nil =>
    refine ⟨1, ?_⟩
    rw [modulesLoop, if_pos ((Nat.mod_le _ _).trans h.2), if_pos h.1, List.filterMap_nil,
      List.append_nil, List.take_of_length_le hout]
  | cons t ts ih =>
    obtain ⟨hlow, hsize, hnext⟩ := h.next
    have hstep : ∀ turns, u32At mem off ≠ 0 → modulesLoop mem cap (turns + 1) off out =
        modulesLoop mem cap turns (alignUp8 (off + t.size))
          (if u32At mem off = 3 ∧ out.length < cap then out ++ [readModule mem off] else out) := by
      intro turns hne
      rw [modulesLoop, if_pos hlow, if_neg hne, if_neg hsize, hnext]
    cases t with
    | module start stop cmdline =>
      have htyp : u32At mem off = 3 := h.2.1.1
      have hinfo := readModule_eq h.2.1
      have hout' : (if u32At mem off = 3 ∧ out.length < cap then out ++ [readModule mem off]
          else out).length ≤ cap := by
        split_ifs with hroom
        · simp only [List.length_append, List.length_singleton]
          omega
        · exact hout
      obtain ⟨turns, hturns⟩ := ih h.2.2 hout'
      refine ⟨turns + 1, ?_⟩
      rw [hstep turns (by omega), hturns, List.filterMap_cons_some hinfo.symm, take_concat_eq hout]
      simp only [htyp, true_and]
    | mmap entrySize entries =>
      have htyp : u32At mem off = 6 := h.2.1.1
      obtain ⟨turns, hturns⟩ := ih h.2.2 hout
      refine ⟨turns + 1, ?_⟩
      rw [hstep turns (by omega), if_neg (by omega), hturns, List.filterMap_cons_none rfl]
    | other typ size =>
      obtain ⟨rfl, hzero, hthree, -⟩ := h.2.1
      obtain ⟨turns, hturns⟩ := ih h.2.2 hout
      refine ⟨turns + 1, ?_⟩
      rw [hstep turns hzero, if_neg (fun hm => hthree hm.1), hturns, List.filterMap_cons_none rfl]

/-! ### The entries -/

/-- Enough turns of the loop over the entries give `r`. -/
def EntriesYield (mem : Nat → UInt8) (cap entrySize stop off : Nat) (out r : List Entry) : Prop :=
  ∃ turns, entriesLoop mem cap entrySize stop turns off out = some r

section Entries

variable {cap entrySize stop off : Nat} {out r : List Entry}

theorem entriesYield_iff : EntriesYield mem cap entrySize stop off out r ↔
    if (off + entrySize) % 2 ^ 32 ≤ stop ∧ out.length < cap then
      EntriesYield mem cap entrySize stop ((off + entrySize) % 2 ^ 32)
        (if (entryAt mem off).usable then out ++ [entryAt mem off] else out) r
    else out = r := by
  by_cases hgo : (off + entrySize) % 2 ^ 32 ≤ stop ∧ out.length < cap
  · rw [if_pos hgo]
    exact exists_turns_iff rfl fun turns => by rw [entriesLoop, if_pos hgo]
  · have hstop : EntriesYield mem cap entrySize stop off out r ↔ ∃ _ : Nat, some out = some r :=
      exists_turns_iff rfl fun turns => by rw [entriesLoop, if_neg hgo]
    rw [if_neg hgo, hstop]
    simp

theorem entriesYield_full (h : cap ≤ out.length) :
    EntriesYield mem cap entrySize stop off out r ↔ out = r := by
  rw [entriesYield_iff, if_neg (by omega)]

theorem entriesYield_entries {entries : List Entry} (hstop : stop < 2 ^ 32)
    (hend : off + entries.length * entrySize = stop)
    (hentries : EntriesAt mem entrySize off entries)
    (hout : out.length ≤ cap) :
    EntriesYield mem cap entrySize stop off out r ↔
      if cap ≤ (out ++ entries.filter Entry.usable).length then
        (out ++ entries.filter Entry.usable).take cap = r
      else EntriesYield mem cap entrySize stop stop (out ++ entries.filter Entry.usable) r := by
  induction entries generalizing off out with
  | nil =>
    obtain rfl : off = stop := by simpa using hend
    rw [List.filter_nil, List.append_nil]
    split_ifs with hfull
    · rw [entriesYield_full hfull, List.take_of_length_le hout]
    · rfl
  | cons e es ih =>
    obtain ⟨he, hrest⟩ := hentries
    rw [List.length_cons, Nat.succ_mul] at hend
    by_cases hfull : cap ≤ out.length
    · obtain rfl : cap = out.length := by omega
      rw [entriesYield_full le_rfl, List.take_left' rfl, if_pos (by simp)]
    · have hgo : (off + entrySize) % 2 ^ 32 = off + entrySize := Nat.mod_eq_of_lt (by omega)
      rw [entriesYield_iff, hgo, if_pos ⟨by omega, by omega⟩, he]
      by_cases hu : e.usable = true
      · rw [if_pos hu, List.filter_cons_of_pos hu,
          ih (by omega) hrest (by simp only [List.length_append, List.length_singleton]; omega),
          List.append_assoc, List.singleton_append]
      · rw [if_neg hu, List.filter_cons_of_neg hu, ih (by omega) hrest hout]

theorem entriesYield_length (h : EntriesYield mem cap entrySize stop off out r) :
    out.length ≤ r.length := by
  obtain ⟨turns, hturns⟩ := h
  induction turns generalizing off out with
  | zero => cases hturns
  | succ turns ih =>
    rw [entriesLoop] at hturns
    split_ifs at hturns
    · have hle := ih hturns
      rw [List.length_append] at hle
      omega
    · exact ih hturns
    · exact (congrArg List.length (Option.some.inj hturns)).le

theorem step_offset (off entrySize i : Nat) :
    ((off + entrySize) % 2 ^ 32 + i * entrySize) % 2 ^ 32 =
      (off + (i + 1) * entrySize) % 2 ^ 32 := by
  rw [Nat.mod_add_mod, Nat.add_assoc, Nat.succ_mul, Nat.add_comm entrySize]

/-- From an offset on the loop adds nothing just if it stops before a usable entry. -/
theorem entriesYield_self (hout : out.length < cap) (hoff : off < 2 ^ 32) :
    EntriesYield mem cap entrySize stop off out out ↔
      ∃ k, stop < (off + (k + 1) * entrySize) % 2 ^ 32 ∧
        ∀ i < k, (entryAt mem ((off + i * entrySize) % 2 ^ 32)).usable = false := by
  have hfirst : (off + 0 * entrySize) % 2 ^ 32 = off := by
    rw [Nat.zero_mul, Nat.add_zero, Nat.mod_eq_of_lt hoff]
  constructor
  · rintro ⟨turns, hturns⟩
    induction turns generalizing off with
    | zero => cases hturns
    | succ turns ih =>
      rw [entriesLoop] at hturns
      split_ifs at hturns with hgo hu
      · -- an entry that is added does not go away again
        have hle := entriesYield_length ⟨turns, hturns⟩
        simp at hle
      · have hnext : (off + entrySize) % 2 ^ 32 < 2 ^ 32 := Nat.mod_lt _ (by decide)
        obtain ⟨k, hk, hquiet⟩ := ih hnext (by
          rw [Nat.zero_mul, Nat.add_zero, Nat.mod_eq_of_lt hnext]) hturns
        rw [step_offset] at hk
        refine ⟨k + 1, hk, fun i hi => ?_⟩
        cases i with
        | zero =>
          rw [hfirst]
          exact Bool.not_eq_true _ ▸ hu
        | succ i =>
          rw [← step_offset]
          exact hquiet i (by omega)
      · refine ⟨0, ?_, nofun⟩
        rw [Nat.zero_add, Nat.one_mul]
        by_contra hle
        exact hgo ⟨by omega, hout⟩
  · rintro ⟨k, hk, hquiet⟩
    induction k generalizing off with
    | zero =>
      rw [Nat.zero_add, Nat.one_mul] at hk
      rw [entriesYield_iff, if_neg (by omega)]
    | succ k ih =>
      rw [entriesYield_iff]
      split_ifs with hgo hu
      · have hfalse := hquiet 0 (Nat.succ_pos k)
        rw [hfirst, hu] at hfalse
        cases hfalse
      · have hnext : (off + entrySize) % 2 ^ 32 < 2 ^ 32 := Nat.mod_lt _ (by decide)
        refine ih hnext (by rw [Nat.zero_mul, Nat.add_zero, Nat.mod_eq_of_lt hnext]) ?_ ?_
        · rw [step_offset]
          exact hk
        · intro i hi
          rw [step_offset]
          exact hquiet (i + 1) (by omega)
      · rfl

end Entries

/-! ### The memory map -/

/-- Enough turns of `memory_regions` give `r`. -/
def RegionsFrom (mem : Nat → UInt8) (cap off : Nat) (r : List Entry) : Prop :=
  ∃ turns, regionsLoop mem cap turns off = some r

variable {cap off : Nat} {r : List Entry}

theorem regionsFrom_next {t : Tag} {ts : List Tag} (h : TagsAt mem off (t :: ts))
    (hzero : u32At mem off ≠ 0) (hsix : u32At mem off ≠ 6) :
    RegionsFrom mem cap off r ↔ RegionsFrom mem cap (alignUp8 (off + t.size)) r := by
  obtain ⟨hlow, hsize, hnext⟩ := h.next
  have hstep : ∀ turns, regionsLoop mem cap (turns + 1) off =
      regionsLoop mem cap turns (alignUp8 (off + t.size)) := by
    intro turns
    simp only [regionsLoop, if_pos hlow, if_neg hzero, if_neg hsize, if_neg hsix, hnext]
  exact exists_turns_iff rfl hstep

theorem regionsFrom_mmap {entrySize : Nat} {entries : List Entry} {ts : List Tag}
    (h : TagsAt mem off (.mmap entrySize entries :: ts)) (hentry : 20 ≤ entrySize) :
    off + 16 + entries.length * entrySize < 2 ^ 32 ∧
      ∀ r, RegionsFrom mem cap off r ↔ EntriesYield mem cap entrySize
        (off + 16 + entries.length * entrySize) (off + 16) [] r := by
  obtain ⟨hlow, hsize, -⟩ := h.next
  obtain ⟨hsix, hes, -⟩ := h.2.1
  have hend := TagsAt.le h.2.2
  have htotal := u32At_lt mem 0
  have hlen : u32At mem (off + 4) = 16 + entries.length * entrySize := h.1
  rw [hlen] at hsize
  simp only [alignUp8, Tag.size] at hend
  have hstop : off + 16 + entries.length * entrySize < 2 ^ 32 := by omega
  have hstep : ∀ turns, regionsLoop mem cap (turns + 1) off = entriesLoop mem cap entrySize
      (off + 16 + entries.length * entrySize) turns (off + 16) [] := by
    intro turns
    have hsum : (off + (16 + entries.length * entrySize)) % 2 ^ 32 =
        off + 16 + entries.length * entrySize := by
      rw [← Nat.add_assoc, Nat.mod_eq_of_lt hstop]
    have hfirst : (off + 16) % 2 ^ 32 = off + 16 := Nat.mod_eq_of_lt (by omega)
    simp only [regionsLoop, if_pos hlow, hsix, if_neg hsize, hes, if_true, OfNat.ofNat_ne_zero,
      if_false, if_neg (Nat.not_lt.mpr hentry), hlen, hsum, hfirst]
  exact ⟨hstop, fun r => exists_turns_iff rfl hstep⟩

/-- What `memory_regions` should give for the block, and when it does. -/
def RegionsRight (mem : Nat → UInt8) (cap : Nat) (first : Option (Nat × Nat × List Entry))
    (gives : List Entry → Prop) : Prop :=
  match first with
  | none => gives []
  | some (off, entrySize, entries) => 20 ≤ entrySize →
      (gives ((entries.filter Entry.usable).take cap) ↔
        cap ≤ (entries.filter Entry.usable).length ∨
          Quiet mem entrySize (off + 16 + entries.length * entrySize))

theorem regionsFrom_tags {tags : List Tag} (h : TagsAt mem off tags) :
    RegionsRight mem cap (firstMmap off tags) (RegionsFrom mem cap off) := by
  induction tags generalizing off with
  | nil =>
    refine ⟨1, ?_⟩
    simp only [regionsLoop, if_pos ((Nat.mod_le _ _).trans h.2), if_pos h.1]
  | cons t ts ih =>
    cases t with
    | module start stop cmdline =>
      have htyp : u32At mem off = 3 := h.2.1.1
      have hiff : ∀ r, RegionsFrom mem cap off r ↔ RegionsFrom mem cap _ r := fun r =>
        regionsFrom_next h (by omega) (by omega)
      simpa only [RegionsRight, firstMmap, hiff] using ih h.2.2
    | other typ size =>
      obtain ⟨rfl, hzero, -, hsix, -⟩ := h.2.1
      have hiff : ∀ r, RegionsFrom mem cap off r ↔ RegionsFrom mem cap _ r := fun r =>
        regionsFrom_next h hzero hsix
      simpa only [RegionsRight, firstMmap, hiff] using ih h.2.2
    | mmap entrySize entries =>
      intro hentry
      obtain ⟨hstop, hiff⟩ := regionsFrom_mmap h hentry
      rw [hiff, entriesYield_entries hstop rfl h.2.1.2.2 (Nat.zero_le _), List.nil_append]
      split_ifs with hfull
      · exact ⟨fun _ => .inl hfull, fun _ => rfl⟩
      · rw [List.take_of_length_le (by omega), entriesYield_self (by omega) hstop]
        exact ⟨.inr, fun h => h.resolve_left hfull⟩

/-- For every well-formed block `find_modules` gives the first `cap` modules. `memory_regions` gives
nothing without a memory map, and otherwise the first `cap` usable entries of the first one exactly
if these fill the output or the 32-bit sums past the last entry leave the map before they meet
something that looks like a usable entry. -/
theorem boot_information_read_iff (mem : Nat → UInt8) (cap : Nat) (tags : List Tag)
    (h : TagsAt mem 8 tags) :
    (∃ turns, findModules mem cap turns = some ((tags.filterMap Tag.moduleInfo).take cap)) ∧
      RegionsRight mem cap (firstMmap 8 tags) fun r =>
        ∃ turns, memoryRegions mem cap turns = some r :=
  ⟨findsFrom_tags h (Nat.zero_le cap), regionsFrom_tags h⟩

/-- A block with one module, whose command line is `a/b`. -/
def moduleBlock : List UInt8 :=
  [40, 0, 0, 0, 0, 0, 0, 0, 3, 0, 0, 0, 20, 0, 0, 0, 1, 0, 0, 0, 2, 0, 0, 0, 97, 47, 98, 0,
    0, 0, 0, 0, 0, 0, 0, 0, 8, 0, 0, 0]

theorem boot_information_read_iff_module :
    let mem := fun i => moduleBlock.getD i 0
    TagsAt mem 8 [.module 1 2 [97, 47, 98]] ∧
      ∃ turns, findModules mem 4 turns = some [⟨1, 2, padded [98]⟩] := by
  intro mem
  have htags : TagsAt mem 8 [.module 1 2 [97, 47, 98]] := by
    refine ⟨by decide, ⟨by decide, by decide, by decide, fun i c hc => ?_, by decide, by decide,
      by decide⟩, by decide, by decide⟩
    have hi : i < 3 := (List.getElem?_eq_some_iff.mp hc).1
    interval_cases i <;> exact Option.some.inj hc
  obtain ⟨turns, hturns⟩ := (boot_information_read_iff mem 4 _ htags).1
  exact ⟨htags, turns, hturns⟩

/-- A block with a memory map of no entries, whose entry size is the largest, and another tag. -/
def emptyMapBlock : List UInt8 :=
  [56, 0, 0, 0, 0, 0, 0, 0, 6, 0, 0, 0, 16, 0, 0, 0, 255, 255, 255, 255, 0, 0, 0, 0,
    7, 0, 0, 0, 24, 0, 0, 0, 5, 0, 0, 0, 0, 0, 0, 0, 1, 0, 0, 0, 0, 0, 0, 0,
    0, 0, 0, 0, 8, 0, 0, 0]

/-- The sum of the offset and the entry size wraps, and the tag behind the map is reported as
memory. -/
theorem empty_map_reports_memory :
    let mem := fun i => emptyMapBlock.getD i 0
    TagsAt mem 8 [.mmap (2 ^ 32 - 1) [], .other 7 24] ∧
      ∀ turns, memoryRegions mem 1 (turns + 3) = some [⟨7 + 2 ^ 32 * 24, 5, 1⟩] := by
  intro mem
  refine ⟨⟨by decide, ⟨by decide, by decide, trivial⟩, by decide, ⟨by decide, by decide, by decide,
    by decide, by decide⟩, by decide, by decide⟩, fun turns => ?_⟩
  have hmap : memoryRegions mem 1 (turns + 3) =
      entriesLoop mem 1 (2 ^ 32 - 1) 24 (turns + 2) 24 [] := by
    rw [memoryRegions, regionsLoop, if_pos (by decide), if_neg (by decide), if_neg (by decide),
      if_pos (by decide), if_neg (by decide)]
    have hsize : u32At mem (8 + 4) = 16 := by decide
    have hentry : u32At mem (8 + 8) = 2 ^ 32 - 1 := by decide
    rw [hsize, hentry]
    rfl
  have hread : entryAt mem 24 = ⟨7 + 2 ^ 32 * 24, 5, 1⟩ := by decide
  rw [hmap, entriesLoop, if_pos (by decide), hread, if_pos (by decide), entriesLoop,
    if_neg (by decide)]
  rfl

end Rynex.Boot
