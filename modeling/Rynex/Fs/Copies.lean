import Rynex.Fs.Normalize

/-! The copies that `normalize_path` makes while it compacts its buffer, each with
`copy_nonoverlapping` inside that buffer: where they read, where they write, and when the two
ranges share no byte. -/

namespace Rynex.Fs

namespace Normalize

structure Copy where
  src : Nat
  dst : Nat
  len : Nat
  deriving DecidableEq

def Copy.Disjoint (c : Copy) : Prop := c.src + c.len ≤ c.dst ∨ c.dst + c.len ≤ c.src

def Copy.Inside (cap : Nat) (c : Copy) : Prop := c.src + c.len ≤ cap ∧ c.dst + c.len ≤ cap

/-- The copies of the loop in `compact`, up to the turn that fails. -/
def copies : Out → List (Nat × Nat) → List Copy
  | _, [] => []
  | out, seg :: segs =>
    match compactStep out seg with
    | none => []
    | some out' => ⟨seg.1, out.2 + 1, seg.2 - seg.1⟩ :: copies out' segs

/-- The ranges of the components that are live at the end of the scan. -/
def liveRanges (cwd : WorkDir) (input buf : Path) : List (Nat × Nat) :=
  if input = [] then []
  else
    match join cwd.path input buf with
    | none => []
    | some out => (scan (out.1.take out.2) 0 []).getD []

def normalizeCopies (cwd : WorkDir) (input buf : Path) : List Copy :=
  match join cwd.path input buf with
  | none => []
  | some out => copies (out.1, 0) (liveRanges cwd input buf)

/-- How long the canonical path of the components `segs` is. -/
def written (segs : List (Nat × Nat)) : Nat := (segs.map fun seg => 1 + (seg.2 - seg.1)).sum

/-- The copy of a range behind the components `pre`. -/
def copyBehind (o : Nat) (pre : List (Nat × Nat)) (seg : Nat × Nat) : Copy :=
  ⟨seg.1, o + written pre + 1, seg.2 - seg.1⟩

variable {buf : Path} {o : Nat} {segs pre post : List (Nat × Nat)} {seg : Nat × Nat}

@[simp] theorem written_cons : written (seg :: segs) = 1 + (seg.2 - seg.1) + written segs := rfl

/-- No turn fails, and the turn of `seg` writes behind what the components before it take. -/
theorem mem_copies (hspaced : Spaced buf.length segs) (ho : ∀ a ∈ segs, o < a.1) {c : Copy} :
    c ∈ copies (buf, o) segs ↔
      ∃ pre seg post, segs = pre ++ seg :: post ∧ c = copyBehind o pre seg := by
  induction segs generalizing buf o with
  | nil => simp [copies]
  | cons seg segs ih =>
    obtain ⟨-, hseg, hlen⟩ := hspaced.inside seg List.mem_cons_self
    obtain ⟨hnext, hapart⟩ := List.pairwise_cons.mp hspaced.apart
    have hlow := ho seg List.mem_cons_self
    obtain ⟨buf', hstep, hlength, -, -⟩ := compactStep_eq hlow hseg hlen
    have hlater : ∀ a ∈ segs, o + 1 + (seg.2 - seg.1) < a.1 := by
      intro a ha
      have := hnext a ha
      omega
    have hrest : Spaced buf'.length segs :=
      ⟨hapart, fun a ha => hlength ▸ hspaced.inside a (List.mem_cons_of_mem _ ha)⟩
    simp only [copies, hstep, List.mem_cons, ih hrest hlater]
    constructor
    · rintro (rfl | ⟨pre, a, post, rfl, rfl⟩)
      · exact ⟨[], seg, segs, rfl, rfl⟩
      · refine ⟨seg :: pre, a, post, rfl, ?_⟩
        simp only [copyBehind, written_cons, Copy.mk.injEq, true_and, and_true]
        omega
    · rintro ⟨pre, a, post, heq, rfl⟩
      cases pre with
      | nil =>
        obtain ⟨rfl, rfl⟩ := List.cons.inj heq
        exact .inl rfl
      | cons b pre =>
        obtain ⟨rfl, rfl⟩ := List.cons.inj heq
        refine .inr ⟨pre, a, post, rfl, ?_⟩
        simp only [copyBehind, written_cons, Copy.mk.injEq, true_and, and_true]
        omega

theorem written_lt {len : Nat} (hspaced : Spaced len (pre ++ seg :: post))
    (ho : ∀ a ∈ pre ++ seg :: post, o < a.1) : o + written pre < seg.1 := by
  induction pre generalizing o with
  | nil => exact ho seg (by simp)
  | cons b pre ih =>
    obtain ⟨hnext, hapart⟩ := List.pairwise_cons.mp hspaced.apart
    have hb := hspaced.inside b List.mem_cons_self
    have hlow := ho b List.mem_cons_self
    have hlater : ∀ a ∈ pre ++ seg :: post, o + (1 + (b.2 - b.1)) < a.1 := by
      intro a ha
      have := hnext a ha
      omega
    have hrest : Spaced len (pre ++ seg :: post) :=
      ⟨hapart, fun a ha => hspaced.inside a (List.mem_cons_of_mem _ ha)⟩
    have hlt := ih hrest hlater
    rw [written_cons]
    omega

/-- What the scan of a joined path leaves lies in the buffer, apart and behind the first slash. -/
theorem spaced_liveRanges {cwd : WorkDir} {input : Path} {out : Out}
    (h : join cwd.path input buf = some out) :
    out.1.length = buf.length ∧ Spaced buf.length (liveRanges cwd input buf) := by
  have hfit : (joined cwd.path input).length ≤ buf.length := by
    by_contra hlong
    rw [(join_eq cwd input buf).1 (by omega)] at h
    cases h
  obtain ⟨out', hjoin, hholds⟩ := (join_eq cwd input buf).2 hfit
  obtain rfl : out' = out := Option.some.inj (hjoin.symm.trans h)
  refine ⟨hholds.length, ?_⟩
  unfold liveRanges
  split_ifs with hne
  · exact ⟨.nil, nofun⟩
  · simp only [h, hholds.bytes]
    cases hscan : scan (joined cwd.path input) 0 [] with
    | none => exact ⟨.nil, nofun⟩
    | some segs =>
      have hslash : Behind (joined cwd.path input) 0 [] := by
        refine ⟨nofun, fun c hc hne => absurd ?_ hne⟩
        rw [← List.head?_eq_getElem?, head?_joined] at hc
        exact (Option.some.inj hc).symm
      have hspaced := scan_spaced hscan ⟨.nil, nofun⟩ hslash
      exact ⟨hspaced.apart, fun a ha =>
        ⟨(hspaced.inside a ha).1, (hspaced.inside a ha).2.1, (hspaced.inside a ha).2.2.trans hfit⟩⟩

theorem mem_normalizeCopies {cwd : WorkDir} {input : Path} {c : Copy} :
    c ∈ normalizeCopies cwd input buf ↔
      ∃ pre seg post, liveRanges cwd input buf = pre ++ seg :: post ∧ c = copyBehind 0 pre seg := by
  unfold normalizeCopies
  cases h : join cwd.path input buf with
  | none =>
    have hnil : liveRanges cwd input buf = [] := by simp [liveRanges, h]
    simp [hnil]
  | some out =>
    obtain ⟨hlength, hspaced⟩ := spaced_liveRanges h
    exact mem_copies (hlength ▸ hspaced) fun a ha => (hspaced.inside a ha).1

theorem normalizeCopies_split {cwd : WorkDir} {input : Path}
    (h : liveRanges cwd input buf = pre ++ seg :: post) :
    written pre < seg.1 ∧ seg.1 ≤ seg.2 ∧ seg.2 ≤ buf.length := by
  cases hjoin : join cwd.path input buf with
  | none =>
    have hnil : liveRanges cwd input buf = [] := by simp [liveRanges, hjoin]
    simp [hnil] at h
  | some out =>
    obtain ⟨-, hspaced⟩ := spaced_liveRanges hjoin
    rw [h] at hspaced
    have hseg := hspaced.inside seg (by simp)
    have hlt := written_lt (o := 0) hspaced fun a ha => (hspaced.inside a ha).1
    exact ⟨by omega, hseg.2.1, hseg.2.2⟩

end Normalize

open Normalize

/-- Every copy stays in the buffer. All of them are disjoint exactly if each live component stands
in the raw path at least its own length behind its place in the canonical one. -/
theorem normalize_copies_disjoint_iff (cwd : WorkDir) (input buf : Path) :
    (∀ c ∈ normalizeCopies cwd input buf, c.Inside buf.length) ∧
      ((∀ c ∈ normalizeCopies cwd input buf, c.Disjoint) ↔
        ∀ pre seg post, liveRanges cwd input buf = pre ++ seg :: post →
          written pre + 1 + (seg.2 - seg.1) ≤ seg.1) := by
  refine ⟨fun c hc => ?_, fun hall pre seg post hsplit => ?_, fun hall c hc => ?_⟩
  · obtain ⟨pre, seg, post, hsplit, rfl⟩ := mem_normalizeCopies.mp hc
    obtain ⟨hlt, hle, hlen⟩ := normalizeCopies_split hsplit
    exact ⟨by simp only [copyBehind]; omega, by simp only [copyBehind]; omega⟩
  · obtain ⟨hlt, hle, -⟩ := normalizeCopies_split hsplit
    have hdisjoint := hall _ (mem_normalizeCopies.mpr ⟨pre, seg, post, hsplit, rfl⟩)
    simp only [Copy.Disjoint, copyBehind] at hdisjoint
    omega
  · obtain ⟨pre, seg, post, hsplit, rfl⟩ := mem_normalizeCopies.mp hc
    have hgap := hall pre seg post hsplit
    refine .inr ?_
    simp only [copyBehind]
    omega

/-- The path `/a` is copied onto itself. -/
theorem canonical_path_copied_onto_itself :
    let cwd : WorkDir := ⟨[slash], rfl⟩
    normalizeCopies cwd [slash, 97] (List.replicate 8 0) = [⟨1, 1, 1⟩] ∧
      ¬∀ c ∈ normalizeCopies cwd [slash, 97] (List.replicate 8 0), c.Disjoint := by
  intro cwd
  have hcopies : normalizeCopies cwd [slash, 97] (List.replicate 8 0) = [⟨1, 1, 1⟩] := by
    decide +kernel
  rw [hcopies]
  exact ⟨rfl, fun h => by simpa [Copy.Disjoint] using h ⟨1, 1, 1⟩ List.mem_cons_self⟩

end Rynex.Fs
