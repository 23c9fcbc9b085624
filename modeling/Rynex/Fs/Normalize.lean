import Rynex.Fs.Paths

/-! `normalize_path` in its buffer. The raw path is joined in `out`, its segments are kept as ranges
of `out`, and the canonical path is compacted into the same bytes that the ranges are read from. -/

namespace Rynex.Fs

/-- The working directory of a task: `get_cwd_bytes` gives `/` for an empty one, and `chdir` stores
the start of a normalized path. -/
structure WorkDir where
  path : Path
  absolute : path.head? = some slash

namespace Normalize

/-- The buffer and how much of it is used. -/
abbrev Out := Path × Nat

def appendByte (out : Out) (c : UInt8) : Option Out :=
  if out.1.length ≤ out.2 then none else some (out.1.set out.2 c, out.2 + 1)

def join (cwd input : Path) (buf : Path) : Option Out :=
  if input.head? = some slash then do
    let out ← appendByte (buf, 0) slash
    (input.drop 1).foldlM appendByte out
  else do
    let out ← cwd.foldlM appendByte (buf, 0)
    let out ← if out.2 = 0 ∨ out.1[out.2 - 1]? ≠ some slash then appendByte out slash else some out
    input.foldlM appendByte out

/-- The bytes from the start of a range to its end. -/
def slice (buf : Path) (range : Nat × Nat) : Path := (buf.drop range.1).take (range.2 - range.1)

def pushRange (raw : Path) (segs : List (Nat × Nat)) (seg : Nat × Nat) :
    Option (List (Nat × Nat)) :=
  if slice raw seg = [dot] then some segs
  else if slice raw seg = [dot, dot] then some segs.dropLast
  else if 64 ≤ segs.length then none
  else some (segs ++ [seg])

theorem lt_componentEnd {raw : Path} {i : Nat} (h : i < raw.length) (hi : raw[i] ≠ slash) :
    i < componentEnd raw i := by
  rw [componentEnd_eq h.le, List.drop_eq_getElem_cons h, untilSlash,
    List.takeWhile_cons_of_pos (by simpa using hi), List.length_cons]
  omega

/-- The loop over the raw path, from position `i` on. -/
def scan (raw : Path) (i : Nat) (segs : List (Nat × Nat)) : Option (List (Nat × Nat)) :=
  if h : i < raw.length then
    if hi : raw[i] = slash then scan raw (i + 1) segs
    else
      match pushRange raw segs (i, componentEnd raw i) with
      | none => none
      | some segs => scan raw (componentEnd raw i) segs
  else some segs
termination_by raw.length - i
decreasing_by
  · omega
  · have := lt_componentEnd h hi
    omega

def store (buf : Path) (pos : Nat) (bytes : Path) : Path :=
  buf.take pos ++ bytes ++ buf.drop (pos + bytes.length)

def compactStep (out : Out) (seg : Nat × Nat) : Option Out :=
  if out.1.length ≤ out.2 then none
  else
    let buf := out.1.set out.2 slash
    if buf.length < out.2 + 1 + (seg.2 - seg.1) then none
    else some (store buf (out.2 + 1) (slice buf seg), out.2 + 1 + (seg.2 - seg.1))

def compact (buf : Path) (segs : List (Nat × Nat)) : Option Out :=
  if segs = [] then appendByte (buf, 0) slash else segs.foldlM compactStep (buf, 0)

end Normalize

open Normalize

/-- `normalize_path`, with the buffer as it is afterwards. -/
def normalizeInto (cwd : WorkDir) (input buf : Path) : Option Out :=
  if input = [] then some (buf, 0)
  else
    match join cwd.path input buf with
    | none => none
    | some out =>
      match scan (out.1.take out.2) 0 [] with
      | none => none
      | some segs => compact out.1 segs

namespace Normalize

/-! ### The reference: a stack of components -/

def stackStep (stack : List Path) (c : Path) : List Path :=
  if c = [] ∨ c = [dot] then stack else if c = [dot, dot] then stack.dropLast else stack ++ [c]

def canonical (raw : Path) : Path := pathOf ((raw.splitOn slash).foldl stackStep [])

/-- More than 64 components live at once on the way through `cs`. -/
def Overflows (stack cs : List Path) : Prop :=
  ∃ pre, pre <+: cs ∧ 64 < (pre.foldl stackStep stack).length

/-- The raw path: the input, below the working directory unless it is absolute. -/
def joined (cwd input : Path) : Path :=
  if input.head? = some slash then input
  else if cwd.getLast? = some slash then cwd ++ input
  else cwd ++ [slash] ++ input

/-- A component that stands for itself. -/
def Plain (c : Path) : Prop := c ≠ [] ∧ c ≠ [dot] ∧ c ≠ [dot, dot] ∧ slash ∉ c

theorem overflows_cons {stack cs : List Path} {c : Path} (h : stack.length ≤ 64) :
    Overflows stack (c :: cs) ↔ Overflows (stackStep stack c) cs := by
  constructor
  · rintro ⟨pre, hpre, hlen⟩
    rcases List.prefix_cons_iff.mp hpre with rfl | ⟨pre, rfl, htail⟩
    · exact absurd hlen (by simpa using h)
    · exact ⟨pre, htail, hlen⟩
  · rintro ⟨pre, hpre, hlen⟩
    exact ⟨c :: pre, List.prefix_cons_iff.mpr (.inr ⟨pre, rfl, hpre⟩), hlen⟩

theorem not_overflows_nil {stack : List Path} (h : stack.length ≤ 64) : ¬ Overflows stack [] := by
  rintro ⟨pre, hpre, hlen⟩
  rw [List.prefix_nil.mp hpre] at hlen
  exact absurd hlen (by simpa using h)

/-- Of a component that is not empty `pushSegment` makes what the reference makes, unless it would
be the 65th. -/
theorem pushSegment_eq {stack : List Path} {c : Path} (hc : c ≠ []) (h : stack.length ≤ 64) :
    pushSegment stack c = none ∧ 64 < (stackStep stack c).length ∨
      pushSegment stack c = some (stackStep stack c) ∧ (stackStep stack c).length ≤ 64 := by
  unfold pushSegment stackStep
  by_cases h1 : c = [dot]
  · simp [h1, h]
  · by_cases h2 : c = [dot, dot]
    · subst h2
      right
      simp [dot]
      omega
    · by_cases h3 : 64 ≤ stack.length
      · left
        simp [h1, h2, h3, hc]
      · right
        simp [h1, h2, h3, hc]
        omega

theorem foldlM_pushSegment {stack : List Path} (cs : List Path) (h : stack.length ≤ 64) :
    Overflows stack cs ∧ (cs.filter (· ≠ [])).foldlM pushSegment stack = none ∨
      ¬ Overflows stack cs ∧
        (cs.filter (· ≠ [])).foldlM pushSegment stack = some (cs.foldl stackStep stack) := by
  induction cs generalizing stack with
  | nil => exact .inr ⟨not_overflows_nil h, rfl⟩
  | cons c cs ih =>
    rw [overflows_cons h, List.foldl_cons]
    by_cases hc : c = []
    · rw [show stackStep stack c = stack by simp [stackStep, hc], hc,
        List.filter_cons_of_neg (by simp)]
      exact ih h
    · rw [List.filter_cons_of_pos (by simpa using hc), List.foldlM_cons]
      rcases pushSegment_eq hc h with ⟨hnone, hlen⟩ | ⟨hsome, hlen⟩
      · exact .inl ⟨⟨[], List.nil_prefix, hlen⟩, by rw [hnone]; rfl⟩
      · rw [hsome]
        exact ih hlen

theorem plain_stack (raw : Path) : ∀ c ∈ (raw.splitOn slash).foldl stackStep [], Plain c := by
  refine List.foldlRecOn (raw.splitOn slash) stackStep (motive := fun st => ∀ c ∈ st, Plain c)
    (by simp) fun stack ih c hc => ?_
  unfold stackStep
  split_ifs with h1 h2
  · exact ih
  · exact fun d hd => ih d (List.dropLast_subset _ hd)
  · intro d hd
    rcases List.mem_append.mp hd with hd | hd
    · exact ih d hd
    · rw [List.mem_singleton.mp hd]
      exact ⟨fun h => h1 (.inl h), fun h => h1 (.inr h), h2, slash_notMem_of_mem_splitOn hc⟩

/-! ### A canonical path again -/

theorem segments_pathOf {cs : List Path} (h : ∀ c ∈ cs, Plain c) : segments (pathOf cs) = cs := by
  have hflat : segments (cs.map (slash :: ·)).flatten = cs := by
    induction cs with
    | nil => rfl
    | cons c cs ih =>
      obtain ⟨hc, hcs⟩ := List.forall_mem_cons.mp h
      rw [List.map_cons, List.flatten_cons, List.cons_append, segments_slash,
        segments_append hc.1 hc.2.2.2, ih hcs]
      cases cs with
      | nil => exact .inl rfl
      | cons d cs => exact .inr ⟨_, rfl⟩
  unfold pathOf
  split_ifs with hnil
  · rw [hnil]; rfl
  · exact hflat

theorem foldlM_pushSegment_plain {stack cs : List Path} (h : ∀ c ∈ cs, Plain c)
    (hlen : stack.length + cs.length ≤ 64) : cs.foldlM pushSegment stack = some (stack ++ cs) := by
  induction cs generalizing stack with
  | nil => simp
  | cons c cs ih =>
    obtain ⟨hc, hcs⟩ := List.forall_mem_cons.mp h
    rw [List.length_cons] at hlen
    have hpush : pushSegment stack c = some (stack ++ [c]) := by
      rw [pushSegment, if_neg hc.2.1, if_neg hc.2.2.1, if_neg (by omega)]
    rw [List.foldlM_cons, hpush, Option.bind_eq_bind, Option.bind_some,
      ih hcs (by simp; omega), List.append_assoc, List.singleton_append]

theorem head?_pathOf (cs : List Path) : (pathOf cs).head? = some slash := by
  cases cs with
  | nil => rfl
  | cons c cs => simp [pathOf]

/-! ### The raw path in the buffer -/

/-- The buffer holds `raw` and `raw` is all that was stored in it. -/
structure Holds (cap : Nat) (raw : Path) (out : Out) : Prop where
  length : out.1.length = cap
  used : out.2 = raw.length
  bytes : out.1.take out.2 = raw

variable {cap : Nat} {raw : Path} {out : Out}

theorem Holds.append (h : Holds cap raw out) (hcap : raw.length < cap) (c : UInt8) :
    ∃ out', appendByte out c = some out' ∧ Holds cap (raw ++ [c]) out' := by
  have hlt : out.2 < out.1.length := by rw [h.used, h.length]; exact hcap
  refine ⟨_, if_neg (by omega), by simpa using h.length, by simp [h.used], ?_⟩
  rw [List.take_add_one, List.take_set_of_le le_rfl, List.getElem?_set_self hlt, h.bytes]
  rfl

theorem Holds.append_full (h : Holds cap raw out) (hcap : cap ≤ raw.length) (c : UInt8) :
    appendByte out c = none := by
  rw [appendByte, if_pos (by rw [h.used, h.length]; exact hcap)]

theorem Holds.foldlM (h : Holds cap raw out) (bytes : Path) :
    (cap < raw.length + bytes.length → raw.length ≤ cap → bytes.foldlM appendByte out = none) ∧
    (raw.length + bytes.length ≤ cap →
      ∃ out', bytes.foldlM appendByte out = some out' ∧ Holds cap (raw ++ bytes) out') := by
  induction bytes generalizing raw out with
  | nil => exact ⟨fun hlt hle => absurd hlt (by simpa using hle), fun _ => ⟨out, rfl, by simpa⟩⟩
  | cons c bytes ih =>
    rw [List.length_cons, List.foldlM_cons]
    rcases Nat.lt_or_ge raw.length cap with hlt | hge
    · obtain ⟨out', happend, hholds⟩ := h.append hlt c
      rw [happend]
      obtain ⟨hnone, hsome⟩ := ih hholds
      rw [List.length_append, List.length_singleton] at hnone hsome
      refine ⟨fun h1 _ => hnone (by omega) hlt, fun h1 => ?_⟩
      rw [List.append_cons]
      exact hsome (by omega)
    · rw [h.append_full hge]
      exact ⟨fun _ _ => rfl, fun h1 => by omega⟩

theorem holds_nil (buf : Path) : Holds buf.length [] (buf, 0) := ⟨rfl, rfl, rfl⟩

theorem join_eq (cwd : WorkDir) (input buf : Path) :
    (buf.length < (joined cwd.path input).length → join cwd.path input buf = none) ∧
    ((joined cwd.path input).length ≤ buf.length →
      ∃ out, join cwd.path input buf = some out ∧
        Holds buf.length (joined cwd.path input) out) := by
  unfold join joined
  split_ifs with habs hlast
  · -- The slash that is stored first is the first byte of the input.
    obtain ⟨rest, rfl⟩ : ∃ rest, input = slash :: rest := by
      cases input with
      | nil => cases habs
      | cons c rest => exact ⟨rest, by rw [List.head?_cons] at habs; rw [Option.some.inj habs]⟩
    have hfold := (holds_nil buf).foldlM (slash :: rest)
    rw [List.length_nil, Nat.zero_add, List.nil_append, List.foldlM_cons] at hfold
    exact ⟨fun h => hfold.1 h (Nat.zero_le _), hfold.2⟩
  all_goals
    obtain ⟨hnone, hsome⟩ := (holds_nil buf).foldlM cwd.path
    rw [List.length_nil, Nat.zero_add] at hnone hsome
    rcases Nat.lt_or_ge buf.length cwd.path.length with hlt | hle
    · rw [hnone hlt (Nat.zero_le _)]
      exact ⟨fun _ => rfl, fun h => by simp at h; omega⟩
    obtain ⟨out, hout, hholds⟩ := hsome hle
    rw [List.nil_append] at hholds
    have hpos : out.2 ≠ 0 := by
      rw [hholds.used]
      intro h0
      have := cwd.absolute
      rw [List.length_eq_zero_iff.mp h0] at this
      cases this
    have hbyte : out.1[out.2 - 1]? = cwd.path.getLast? := by
      rw [List.getLast?_eq_getElem?, ← hholds.bytes, List.length_take, List.getElem?_take,
        hholds.length, hholds.used]
      rw [if_pos (by rw [hholds.used] at hpos; omega), Nat.min_eq_left hle]
    rw [hout]
    simp only [Option.bind_eq_bind, Option.bind_some, hpos, false_or, hbyte]
  · rw [if_neg (not_not.mpr hlast), List.length_append]
    exact ⟨fun h => (hholds.foldlM input).1 h hle, (hholds.foldlM input).2⟩
  · rw [if_pos hlast]
    simp only [List.length_append, List.length_singleton]
    rcases Nat.lt_or_ge cwd.path.length buf.length with hlt | hge
    · obtain ⟨out', happend, hholds'⟩ := hholds.append hlt slash
      rw [happend, Option.bind_some]
      have hfold := hholds'.foldlM input
      rw [List.length_append, List.length_singleton] at hfold
      exact ⟨fun h => hfold.1 h hlt, hfold.2⟩
    · rw [hholds.append_full hge]
      exact ⟨fun _ => rfl, fun h => by omega⟩

/-! ### The ranges -/

theorem pushRange_eq (raw : Path) (segs : List (Nat × Nat)) (seg : Nat × Nat) :
    (pushRange raw segs seg).map (·.map (slice raw)) =
      pushSegment (segs.map (slice raw)) (slice raw seg) := by
  unfold pushRange pushSegment
  rw [List.length_map]
  split_ifs <;> simp [List.map_dropLast]

theorem segments_drop {raw : Path} {i : Nat} (h : i < raw.length) (hi : raw[i] ≠ slash) :
    segments (raw.drop i) =
      slice raw (i, componentEnd raw i) :: segments (raw.drop (componentEnd raw i)) := by
  have hne : (raw.drop i).take (componentEnd raw i - i) ≠ [] := by
    have := lt_componentEnd h hi
    rw [← List.length_pos_iff, List.length_take, List.length_drop]
    omega
  rw [segments_component h.le hne, slice, take_component h.le]

theorem scan_eq (raw : Path) (i : Nat) (segs : List (Nat × Nat)) :
    (scan raw i segs).map (·.map (slice raw)) =
      (segments (raw.drop i)).foldlM pushSegment (segs.map (slice raw)) := by
  fun_induction scan raw i segs with
  | case1 i segs h hi ih => rw [ih, List.drop_eq_getElem_cons h, hi, segments_slash]
  | case2 i segs h hi hpush =>
    rw [segments_drop h hi, List.foldlM_cons, ← pushRange_eq, hpush]
    rfl
  | case3 i segs h hi segs' hpush ih =>
    rw [ih, segments_drop h hi, List.foldlM_cons, ← pushRange_eq, hpush]
    rfl
  | case4 i segs h =>
    rw [List.drop_of_length_le (by omega)]
    rfl

/-- The ranges stand in the raw path one behind the other, with a slash before each. -/
structure Spaced (len : Nat) (segs : List (Nat × Nat)) : Prop where
  apart : segs.Pairwise fun a b => a.2 < b.1
  inside : ∀ a ∈ segs, 0 < a.1 ∧ a.1 ≤ a.2 ∧ a.2 ≤ len

/-- The ranges end before position `i`, and before the byte before it if a segment starts there. -/
structure Behind (raw : Path) (i : Nat) (segs : List (Nat × Nat)) : Prop where
  ends : ∀ a ∈ segs, a.2 ≤ i
  starts : ∀ c, raw[i]? = some c → c ≠ slash → 0 < i ∧ ∀ a ∈ segs, a.2 < i

theorem mem_pushRange {segs segs' : List (Nat × Nat)} {seg : Nat × Nat}
    (h : pushRange raw segs seg = some segs') : segs'.Sublist segs ∨ segs' = segs ++ [seg] := by
  unfold pushRange at h
  split_ifs at h <;> cases h
  · exact .inl (List.Sublist.refl _)
  · exact .inl (List.dropLast_sublist _)
  · exact .inr rfl

theorem Spaced.sublist {len : Nat} {segs segs' : List (Nat × Nat)} (h : Spaced len segs)
    (hsub : segs'.Sublist segs) : Spaced len segs' :=
  ⟨h.apart.sublist hsub, fun a ha => h.inside a (hsub.subset ha)⟩

theorem behind_componentEnd {i : Nat} {segs : List (Nat × Nat)} (hi : i ≤ raw.length)
    (h : ∀ a ∈ segs, a.2 ≤ componentEnd raw i) : Behind raw (componentEnd raw i) segs := by
  refine ⟨h, fun c hc hne => ?_⟩
  have hdrop := dropWhile_slash (raw.drop i)
  rw [← drop_component hi] at hdrop
  rw [← List.head?_drop] at hc
  rcases hdrop with hnil | ⟨r, hr⟩
  · rw [hnil] at hc
    cases hc
  · rw [hr, List.head?_cons] at hc
    exact absurd (Option.some.inj hc).symm hne

theorem componentEnd_le {i : Nat} (hi : i ≤ raw.length) : componentEnd raw i ≤ raw.length := by
  have := (List.takeWhile_sublist (p := fun c => decide (c ≠ slash)) (l := raw.drop i)).length_le
  rw [List.length_drop] at this
  rw [componentEnd_eq hi, untilSlash]
  omega

theorem scan_spaced {i : Nat} {segs r : List (Nat × Nat)} (h : scan raw i segs = some r)
    (hspaced : Spaced raw.length segs) (hbehind : Behind raw i segs) : Spaced raw.length r := by
  fun_induction scan raw i segs with
  | case1 i segs hlt hi ih =>
    refine ih h hspaced ⟨fun a ha => ?_, fun _ _ _ => ⟨Nat.succ_pos i, fun a ha => ?_⟩⟩
    · exact (hbehind.ends a ha).trans (Nat.le_succ i)
    · exact Nat.lt_succ_of_le (hbehind.ends a ha)
  | case2 => cases h
  | case3 i segs hlt hi segs' hpush ih =>
    obtain ⟨hpos, hends⟩ := hbehind.starts _ (List.getElem?_eq_getElem hlt) hi
    have hend := lt_componentEnd hlt hi
    rcases mem_pushRange hpush with hsub | rfl
    · refine ih h (hspaced.sublist hsub) (behind_componentEnd hlt.le fun a ha => ?_)
      exact ((hends a (hsub.subset ha)).trans hend).le
    · refine ih h ⟨?_, ?_⟩ (behind_componentEnd hlt.le ?_)
      · refine List.pairwise_append.mpr ⟨hspaced.apart, List.pairwise_singleton _ _, ?_⟩
        rintro a ha b hb
        rw [List.mem_singleton.mp hb]
        exact hends a ha
      · rintro a ha
        rcases List.mem_append.mp ha with ha | ha
        · exact hspaced.inside a ha
        · rw [List.mem_singleton.mp ha]
          exact ⟨hpos, hend.le, componentEnd_le hlt.le⟩
      · rintro a ha
        rcases List.mem_append.mp ha with ha | ha
        · exact ((hends a ha).trans hend).le
        · rw [List.mem_singleton.mp ha]
  | case4 => cases h; exact hspaced

/-! ### The compaction -/

/-- A segment is written before the next one, so that the bytes still to be read are as they
were. -/
theorem compactStep_eq {buf : Path} {o : Nat} {seg : Nat × Nat} (ho : o < seg.1)
    (hseg : seg.1 ≤ seg.2) (hlen : seg.2 ≤ buf.length) :
    ∃ buf', compactStep (buf, o) seg = some (buf', o + 1 + (seg.2 - seg.1)) ∧
      buf'.length = buf.length ∧
      buf'.take (o + 1 + (seg.2 - seg.1)) = buf.take o ++ slash :: slice buf seg ∧
      buf'.drop (o + 1 + (seg.2 - seg.1)) = buf.drop (o + 1 + (seg.2 - seg.1)) := by
  have hslice : slice (buf.set o slash) seg = slice buf seg := by
    rw [slice, List.drop_set_of_lt ho, slice]
  have hsize : (slice buf seg).length = seg.2 - seg.1 := by
    rw [slice, List.length_take, List.length_drop]
    omega
  have hstart : (buf.set o slash).take (o + 1) = buf.take o ++ [slash] := by
    rw [List.take_add_one, List.take_set_of_le le_rfl, List.getElem?_set_self (by omega)]
    rfl
  have hlength : ((buf.set o slash).take (o + 1) ++ slice buf seg).length =
      o + 1 + (seg.2 - seg.1) := by
    rw [List.length_append, List.length_take, List.length_set, hsize]
    omega
  refine ⟨store (buf.set o slash) (o + 1) (slice (buf.set o slash) seg), ?_, ?_, ?_, ?_⟩
  · rw [compactStep, if_neg (by simp only; omega)]
    simp only [List.length_set]
    rw [if_neg (by omega)]
  · rw [store, hslice, List.length_append, hlength, List.length_drop, List.length_set, hsize]
    omega
  · rw [store, hslice, List.take_left' hlength, hstart, List.append_assoc, List.singleton_append]
  · rw [store, hslice, List.drop_left' hlength, hsize, List.drop_set_of_lt (by omega)]

theorem slice_of_drop {buf buf' : Path} {o : Nat} {seg : Nat × Nat}
    (h : buf'.drop o = buf.drop o) (ho : o ≤ seg.1) : slice buf' seg = slice buf seg := by
  obtain ⟨k, hk⟩ := Nat.exists_eq_add_of_le ho
  rw [slice, slice, hk, ← List.drop_drop, h, List.drop_drop]

theorem compact_foldlM {buf : Path} {o : Nat} {segs : List (Nat × Nat)} (hoLe : o ≤ buf.length)
    (hspaced : Spaced buf.length segs) (ho : ∀ a ∈ segs, o < a.1) :
    ∃ out, segs.foldlM compactStep (buf, o) = some out ∧ out.1.length = buf.length ∧
      out.2 ≤ buf.length ∧
      out.1.take out.2 = buf.take o ++ ((segs.map (slice buf)).map (slash :: ·)).flatten := by
  induction segs generalizing buf o with
  | nil => exact ⟨(buf, o), rfl, rfl, hoLe, by simp⟩
  | cons seg segs ih =>
    obtain ⟨-, hseg, hlen⟩ := hspaced.inside seg (by simp)
    obtain ⟨hnext, hapart⟩ := List.pairwise_cons.mp hspaced.apart
    have ho' : o + 1 + (seg.2 - seg.1) ≤ seg.2 := by
      have := ho seg (by simp)
      omega
    obtain ⟨buf', hstep, hlength, htake, hdrop⟩ := compactStep_eq (ho seg (by simp)) hseg hlen
    have hlater : ∀ a ∈ segs, o + 1 + (seg.2 - seg.1) < a.1 := fun a ha =>
      lt_of_le_of_lt ho' (hnext a ha)
    obtain ⟨out, hout, hsize, hle, hbytes⟩ := @ih buf' _ (by omega)
      ⟨hapart, fun a ha => hlength ▸ hspaced.inside a (by simp [ha])⟩ hlater
    refine ⟨out, ?_, hsize.trans hlength, hlength ▸ hle, ?_⟩
    · rw [List.foldlM_cons, hstep]
      exact hout
    · have hsame : segs.map (slice buf') = segs.map (slice buf) :=
        List.map_congr_left fun a ha => slice_of_drop hdrop (hlater a ha).le
      rw [hbytes, htake, hsame]
      simp

theorem slice_take {buf : Path} {len : Nat} {seg : Nat × Nat} (h : seg.2 ≤ len) :
    slice (buf.take len) seg = slice buf seg := by
  rw [slice, slice, List.drop_take, List.take_take, Nat.min_eq_left (by omega)]

theorem compact_eq {out : Out} {segs : List (Nat × Nat)} (h : Holds cap raw out)
    (hraw : 0 < raw.length) (hcap : raw.length ≤ cap) (hspaced : Spaced raw.length segs) :
    ∃ out', compact out.1 segs = some out' ∧ out'.1.length = cap ∧ out'.2 ≤ cap ∧
      out'.1.take out'.2 = pathOf (segs.map (slice raw)) := by
  unfold compact pathOf
  simp only [List.map_eq_nil_iff]
  split_ifs with hnil
  · obtain ⟨out', happend, hholds⟩ := (holds_nil out.1).append
      (by rw [List.length_nil, h.length]; omega) slash
    refine ⟨out', happend, hholds.length.trans h.length, ?_, hholds.bytes⟩
    rw [hholds.used, List.nil_append, List.length_singleton]
    exact hraw.trans_le hcap
  · obtain ⟨out', hout, hsize, hle, hbytes⟩ := compact_foldlM (Nat.zero_le out.1.length)
      ⟨hspaced.apart, fun a ha => by
        obtain ⟨h1, h2, h3⟩ := hspaced.inside a ha
        exact ⟨h1, h2, h3.trans (hcap.trans h.length.ge)⟩⟩ fun a ha => (hspaced.inside a ha).1
    refine ⟨out', hout, hsize.trans h.length, h.length ▸ hle, ?_⟩
    have hsame : segs.map (slice raw) = segs.map (slice out.1) := by
      refine List.map_congr_left fun a ha => ?_
      rw [← h.bytes]
      exact slice_take ((hspaced.inside a ha).2.2.trans h.used.ge)
    rw [hbytes, hsame]
    rfl

end Normalize

theorem head?_joined (cwd : WorkDir) (input : Path) :
    (joined cwd.path input).head? = some slash := by
  unfold joined
  split_ifs with habs
  · exact habs
  all_goals simp [cwd.absolute]

theorem normalizeInto_eq (cwd : WorkDir) {input : Path} (hne : input ≠ []) (buf : Path) :
    (buf.length < (joined cwd.path input).length → normalizeInto cwd input buf = none) ∧
    ((joined cwd.path input).length ≤ buf.length →
      match (segments (joined cwd.path input)).foldlM pushSegment [] with
      | none => normalizeInto cwd input buf = none
      | some cs => ∃ out, normalizeInto cwd input buf = some out ∧
          out.1.length = buf.length ∧ out.2 ≤ buf.length ∧ out.1.take out.2 = pathOf cs) := by
  obtain ⟨hnone, hsome⟩ := join_eq cwd input buf
  unfold normalizeInto
  rw [if_neg hne]
  refine ⟨fun h => by rw [hnone h], fun h => ?_⟩
  obtain ⟨out, hjoin, hholds⟩ := hsome h
  have hhead := head?_joined cwd input
  rw [hjoin]
  simp only [hholds.bytes]
  generalize joined cwd.path input = raw at h hholds hhead
  have hraw : 0 < raw.length := by
    cases raw with
    | nil => cases hhead
    | cons => exact Nat.succ_pos _
  have hscan := scan_eq raw 0 []
  rw [List.drop_zero, List.map_nil] at hscan
  rw [← hscan]
  cases hs : scan raw 0 [] with
  | none => rfl
  | some segs =>
    refine compact_eq hholds hraw h (scan_spaced hs ⟨List.Pairwise.nil, by simp⟩ ⟨by simp, ?_⟩)
    intro c hc hslash
    rw [← List.head?_eq_getElem?, hhead] at hc
    exact absurd (Option.some.inj hc).symm hslash

theorem normalizeInto_pathOf (cwd : WorkDir) {cs : List Path} (hcs : ∀ c ∈ cs, Plain c)
    (hlen : cs.length ≤ 64) {buf : Path} (hbuf : (pathOf cs).length ≤ buf.length) :
    ∃ out, normalizeInto cwd (pathOf cs) buf = some out ∧ out.1.take out.2 = pathOf cs := by
  have hhead := head?_pathOf cs
  have hjoined : joined cwd.path (pathOf cs) = pathOf cs := if_pos hhead
  have hne : pathOf cs ≠ [] := fun h => by rw [h] at hhead; cases hhead
  have hfit := (normalizeInto_eq cwd hne buf).2
  rw [hjoined, segments_pathOf hcs, foldlM_pushSegment_plain hcs (by simpa using hlen)] at hfit
  obtain ⟨out, hout, -, -, hbytes⟩ := hfit hbuf
  exact ⟨out, hout, hbytes⟩

/-- The raw path is longer than the buffer or has too many components live at once. -/
def Refused (cap : Nat) (raw : Path) : Prop :=
  cap < raw.length ∨ Overflows [] (raw.splitOn slash)

theorem normalizeInto_cases (cwd : WorkDir) {input : Path} (hne : input ≠ []) (buf : Path) :
    normalizeInto cwd input buf = none ∧ Refused buf.length (joined cwd.path input) ∨
    ∃ out cs, normalizeInto cwd input buf = some out ∧
      ¬ Refused buf.length (joined cwd.path input) ∧
      ((joined cwd.path input).splitOn slash).foldl stackStep [] = cs ∧ (∀ c ∈ cs, Plain c) ∧
      cs.length ≤ 64 ∧ out.1.take out.2 = pathOf cs ∧ (pathOf cs).length = out.2 ∧
      out.2 ≤ buf.length := by
  obtain ⟨hlong, hfit⟩ := normalizeInto_eq cwd hne buf
  rcases Nat.lt_or_ge buf.length (joined cwd.path input).length with hlt | hle
  · exact .inl ⟨hlong hlt, .inl hlt⟩
  specialize hfit hle
  have hempty : ([] : List Path).length ≤ 64 := Nat.zero_le 64
  rcases foldlM_pushSegment ((joined cwd.path input).splitOn slash) hempty with
    ⟨hover, hfold⟩ | ⟨hnot, hfold⟩
  all_goals
    rw [segments, hfold] at hfit
    simp only at hfit
  · exact .inl ⟨hfit, .inr hover⟩
  · obtain ⟨out, hout, hlength, hused, hbytes⟩ := hfit
    refine .inr ⟨out, _, hout, fun h => ?_, rfl, plain_stack _, ?_, hbytes, ?_, hused⟩
    · exact h.elim (fun hlt => by omega) hnot
    · exact Nat.le_of_not_lt fun h => hnot ⟨_, List.prefix_rfl, h⟩
    · rw [← hbytes, List.length_take]
      omega

/-- For every working directory, non-empty input and buffer: the call fails exactly if the raw path
is longer than the buffer or more than 64 components are live at once, and otherwise leaves the
canonical path, which consists of plain components and is left as it is by another call. -/
theorem normalize_path_canonical (cwd : WorkDir) (input buf : Path) (hne : input ≠ []) :
    (normalizeInto cwd input buf = none ↔ Refused buf.length (joined cwd.path input)) ∧
    ∀ out, normalizeInto cwd input buf = some out →
      out.2 ≤ buf.length ∧ out.1.take out.2 = canonical (joined cwd.path input) ∧
      (∃ cs, canonical (joined cwd.path input) = pathOf cs ∧ ∀ c ∈ cs, Plain c) ∧
      ∀ (cwd' : WorkDir) (buf' : Path), out.2 ≤ buf'.length →
        ∃ out', normalizeInto cwd' (out.1.take out.2) buf' = some out' ∧
          out'.1.take out'.2 = out.1.take out.2 := by
  rcases normalizeInto_cases cwd hne buf with
    ⟨hnone, hwhy⟩ | ⟨out, cs, hout, hnot, hstack, hcs, hlen, hbytes, hpath, hused⟩
  · rw [hnone]
    exact ⟨⟨fun _ => hwhy, fun _ => rfl⟩, fun _ h => by cases h⟩
  · rw [hout, canonical, hstack]
    refine ⟨⟨fun h => (by cases h), fun h => absurd h hnot⟩, ?_⟩
    rintro _ ⟨⟩
    refine ⟨hused, hbytes, ⟨cs, rfl, hcs⟩, fun cwd' buf' hbuf => ?_⟩
    rw [hbytes]
    exact normalizeInto_pathOf cwd' hcs hlen (hpath.trans_le hbuf)

theorem normalize_path_canonical_dots :
    normalizeInto ⟨[slash], rfl⟩ [97, 47, 46, 46] (List.replicate 8 0) = none ↔
      Refused 8 (joined [slash] [97, 47, 46, 46]) :=
  (normalize_path_canonical ⟨[slash], rfl⟩ [97, 47, 46, 46] (List.replicate 8 0) (by decide)).1

/-- Of an empty input the call makes an empty path. -/
theorem normalize_empty_input :
    normalizeInto ⟨[slash], rfl⟩ [] (List.replicate 8 0) = some (List.replicate 8 0, 0) ∧
      canonical (joined [slash] []) = [slash] := by
  decide +kernel

end Rynex.Fs
