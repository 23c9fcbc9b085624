import Rynex.Fs.Directory
import Rynex.Fs.Normalize
import Rynex.Fs.Paths

/-! `mkdir_p` in the ramfs of the root mount. It goes up to the first ancestor that resolves and
makes the missing directories on the way back. -/

namespace Rynex.Fs

open Normalize RamInode

/-! ### Normalized paths -/

/-- A component that `path_resolve` takes as it is and that fits an entry. -/
structure Tidy (c : Path) : Prop where
  plain : Plain c
  length : c.length ≤ maxName
  head : ∀ b, c.head? = some b → isBlank b = false
  last : ∀ b, c.getLast? = some b → isBlank b = false

theorem Tidy.ne_slash {c : Path} (h : Tidy c) : c ≠ [slash] := fun he =>
  h.plain.2.2.2 (by simp [he])

theorem pathOf_concat (cs : List Path) (c : Path) :
    pathOf (cs ++ [c]) = (cs.map (slash :: ·)).flatten ++ slash :: c := by
  simp [pathOf]

theorem split_pathOf {cs : List Path} {c : Path} (hc : Plain c) :
    parentPath (pathOf (cs ++ [c])) = pathOf cs ∧ fileName (pathOf (cs ++ [c])) = c := by
  have h := split_concat (cs.map (slash :: ·)).flatten hc.2.2.2 (.inl ⟨rfl, hc.1⟩)
  rw [List.append_nil, ← pathOf_concat] at h
  refine ⟨h.1.trans ?_, h.2⟩
  cases cs <;> simp [pathOf]

/-- Below the root mount the names of a normalized path are its components. -/
theorem names_pathOf {cs : List Path} (hcs : ∀ c ∈ cs, Tidy c) {e : MountEntry}
    (he : e.mountPoint = [slash]) : Mounts.names e (pathOf cs) = cs := by
  rcases List.eq_nil_or_concat cs with rfl | ⟨ds, d, rfl⟩
  · simpa [he, pathOf] using names_append e []
  obtain ⟨c, rest, hsplit⟩ : ∃ c rest, ds.concat d = c :: rest := by
    cases ds with
    | nil => exact ⟨d, [], rfl⟩
    | cons c ds => exact ⟨c, ds ++ [d], by simp⟩
  have hc : Tidy c := hcs c (hsplit ▸ List.mem_cons_self)
  have hd : Tidy d := hcs d (by simp)
  have hpath : pathOf (ds.concat d) = slash :: (c ++ (rest.map (slash :: ·)).flatten) := by
    rw [hsplit, pathOf, if_neg (List.cons_ne_nil _ _)]
    rfl
  have hsegs := segments_pathOf fun c hc => (hcs c hc).plain
  have hlast : (pathOf (ds.concat d)).getLast? = d.getLast? := by
    rw [List.concat_eq_append, pathOf_concat, List.getLast?_append, List.getLast?_cons]
    cases h : d.getLast? with
    | none => exact absurd (List.getLast?_eq_none_iff.mp h) hd.plain.1
    | some b => rfl
  rw [hpath] at hsegs hlast ⊢
  rw [segments_slash] at hsegs
  generalize hrel : c ++ (rest.map (slash :: ·)).flatten = rel at *
  have hrelNe : rel ≠ [] := fun h => hc.plain.1 (List.append_eq_nil_iff.mp (hrel.trans h)).1
  have hdot : rel ≠ [dot] := by
    rintro rfl
    rw [segments, List.splitOn_eq_singleton (by decide)] at hsegs
    have hmem : [dot] ∈ ds.concat d := by rw [← hsegs]; decide
    exact (hcs _ hmem).plain.2.1 rfl
  have htrim : trimAscii rel = rel := by
    rw [trimAscii_of_closed fun b hb => hd.last b ?_, dropWhile_isBlank fun b hb => hc.head b ?_]
    · rwa [← hrel, List.head?_append_of_ne_nil _ hc.plain.1] at hb
    · rw [← hlast, List.getLast?_cons, hb]
      rfl
  have hnames := names_append e rel
  rwa [he, List.singleton_append, if_neg (by simp [hdot, hrelNe]), htrim, hsegs] at hnames

/-! ### Lookups in the tree -/

namespace Ramfs

variable {fs fs' : Ramfs} {p ino : Nat} {c : Path}

/-- `ino` is a new directory without entries that has been entered as `c` in `p`. -/
structure Entered (fs : Ramfs) (p : Nat) (c : Path) (ino : Nat) (fs' : Ramfs) : Prop where
  fresh : (fs.inodes ino).used = false
  isDir : (fs'.inodes ino).used = true ∧ (fs'.inodes ino).isDir ∧ (fs'.inodes ino).direntCount = 0
  parent : p ∈ fs.live
  entry : ∃ slot, (fs.inodes p).Free slot ∧
    fs'.inodes p = (fs.inodes p).withEntry slot ino c ftDir
  others : ∀ d, d ≠ ino → d ≠ p → fs'.inodes d = fs.inodes d

/-- No inode in use has changed and none has come into use. -/
def Untouched (fs fs' : Ramfs) : Prop :=
  ∀ d, (fs'.inodes d).used = (fs.inodes d).used ∧
    ((fs.inodes d).used = true → fs'.inodes d = fs.inodes d)

theorem ne_of_live {d : Nat} (hd : d ∈ fs.live) (hfree : (fs.inodes ino).used = false) : d ≠ ino :=
  fun he => by
    have := hd.2
    rw [he, hfree] at this
    cases this

/-- `mkdir` enters a new directory, or fails and leaves everything in use as it was. -/
theorem mkdir_cases (fs : Ramfs) (p : Nat) (c : Path) :
    (∃ e fs', fs.mkdir p c 0o754 = (.error e, fs') ∧ fs.Untouched fs') ∨
      ∃ ino fs', fs.mkdir p c 0o754 = (.ok ino, fs') ∧ fs.Entered p c ino fs' := by
  unfold mkdir make
  cases hget : fs.getIno p with
  | none => exact .inl ⟨_, _, rfl, fun d => ⟨rfl, fun _ => rfl⟩⟩
  | some n =>
    obtain ⟨hlive, -⟩ := getIno_eq_some.mp hget
    cases halloc : fs.allocInode with
    | none => exact .inl ⟨_, _, rfl, fun d => ⟨rfl, fun _ => rfl⟩⟩
    | some r =>
      obtain ⟨ino, fs₁⟩ := r
      obtain ⟨-, hfree, rfl⟩ := allocInode_eq_some halloc
      have hne := ne_of_live hlive hfree
      simp only
      cases hslot : mkdirSlot _ with
      | none =>
        refine .inl ⟨_, _, rfl, fun d => ?_⟩
        by_cases hd : d = ino
        · subst hd
          simp [freeInode, hfree]
        · simp [freeInode, setInode, hd]
      | some slot =>
        simp only [inodes_setInode_of_ne _ _ hne] at hslot
        refine .inr ⟨_, _, rfl, hfree, ?_, hlive, ⟨slot, mkdirSlot_free hslot, ?_⟩,
          fun d h1 h2 => ?_⟩
        · rw [addEntry, inodes_setInode_of_ne _ _ hne.symm]
          simp [isDir, sIfmt, sIfdir]
        · rw [addEntry, inodes_setInode_self, inodes_setInode_of_ne _ _ hne,
            inodes_setInode_of_ne _ _ hne]
        · rw [addEntry, inodes_setInode_of_ne _ _ h2, inodes_setInode_of_ne _ _ h1,
            inodes_setInode_of_ne _ _ h1]

theorem Untouched.lookup (h : fs.Untouched fs') : fs'.lookup = fs.lookup := by
  funext d name
  have hget : fs'.getIno d = fs.getIno d := by
    unfold getIno
    rw [(h d).1]
    split_ifs with hd
    · rw [(h d).2 (by simpa using (Bool.and_eq_true _ _ ▸ hd).2)]
    · rfl
  unfold Ramfs.lookup
  rw [hget]

theorem lookup_eq_ok {d n : Nat} {name : Path} (hname : name ≠ [slash]) :
    fs.lookup d name = .ok n ↔ d ∈ fs.live ∧
      ∃ i, (fs.inodes d).find name = some i ∧ ((fs.inodes d).dirents i).ino = n := by
  have hroot : ¬ (decide (d = 0) && decide (name = [47])) = true := by
    simp only [Bool.and_eq_true, decide_eq_true_eq, not_and]
    exact fun _ => hname
  simp only [Ramfs.lookup, if_neg hroot]
  cases hget : fs.getIno d with
  | none =>
    refine ⟨fun h => (by cases h), fun h => ?_⟩
    rw [getIno_eq_some.mpr ⟨h.1, rfl⟩] at hget
    cases hget
  | some n' =>
    obtain ⟨hlive, rfl⟩ := getIno_eq_some.mp hget
    cases hfind : (fs.inodes d).find name with
    | none => simp [hfind]
    | some i => simp [hfind, hlive]

theorem Entered.live (h : fs.Entered p c ino fs') {d : Nat} (hd : d ∈ fs.live) : d ∈ fs'.live := by
  refine ⟨hd.1, ?_⟩
  have hne := ne_of_live hd h.fresh
  by_cases hp : d = p
  · obtain ⟨slot, -, heq⟩ := h.entry
    rw [hp, heq]
    exact hp ▸ hd.2
  · rw [h.others d hne hp]
    exact hd.2

theorem Entered.lookup_mono (h : fs.Entered p c ino fs') (hc : Tidy c)
    (hnone : ∀ n, fs.lookup p c ≠ .ok n) {d n : Nat} {name : Path}
    (hname : name ≠ [slash]) (hok : fs.lookup d name = .ok n) : fs'.lookup d name = .ok n := by
  obtain ⟨hlive, i, hfind, hino⟩ := (lookup_eq_ok hname).mp hok
  refine (lookup_eq_ok hname).mpr ⟨h.live hlive, i, ?_⟩
  have hne := ne_of_live hlive h.fresh
  by_cases hp : d = p
  · obtain ⟨slot, hslot, heq⟩ := h.entry
    have hnc : name ≠ c := fun he => hnone n (by rw [← he, ← hp]; exact hok)
    rw [hp] at hfind hino
    have hi : i ≠ slot := fun he => by
      have := hslot.holds
      rw [← he, (find_some hfind).1] at this
      cases this
    rw [hp, heq, find_withEntry_of_ne hslot hc.length hnc]
    exact ⟨hfind, by simpa [RamInode.withEntry, hi] using hino⟩
  · rw [h.others d hne hp]
    exact ⟨hfind, hino⟩

theorem Entered.lookup_self (h : fs.Entered p c ino fs') (hc : Tidy c)
    (hnone : ∀ n, fs.lookup p c ≠ .ok n) : fs'.lookup p c = .ok ino := by
  have hname := hc.ne_slash
  obtain ⟨slot, hslot, heq⟩ := h.entry
  have hfind : (fs.inodes p).find c = none := by
    cases hf : (fs.inodes p).find c with
    | none => rfl
    | some i => exact absurd ((lookup_eq_ok hname).mpr ⟨h.parent, i, hf, rfl⟩) (hnone _)
  refine (lookup_eq_ok hname).mpr ⟨h.live h.parent, slot, ?_⟩
  rw [heq, find_withEntry_self hslot hc.length fun j _ => not_hits hfind j]
  exact ⟨rfl, by simp [RamInode.withEntry, RamDirent.set]⟩

theorem Entered.lookup_new (h : fs.Entered p c ino fs') {name : Path} (hname : name ≠ [slash])
    (n : Nat) : fs'.lookup ino name ≠ .ok n := by
  intro hok
  obtain ⟨-, i, hfind, -⟩ := (lookup_eq_ok hname).mp hok
  rw [RamInode.find, h.isDir.2.2] at hfind
  cases hfind

/-- The directories `made`, one in the other from `p` on; the last of them is `q`. -/
inductive Created (fs : Ramfs) (p : Nat) : List Path → Nat → Ramfs → Prop
  | nil : Created fs p [] p fs
  | snoc {made : List Path} {c : Path} {q ino : Nat} {fs₁ fs₂ : Ramfs} :
    Created fs p made q fs₁ → (∀ n, fs₁.lookup q c ≠ .ok n) → fs₁.Entered q c ino fs₂ →
    Created fs p (made ++ [c]) ino fs₂

/-- The lookups of `fs` succeed in `fs'` with the same inode. -/
def Finds (fs fs' : Ramfs) : Prop :=
  ∀ d name n, name ≠ [slash] → fs.lookup d name = .ok n → fs'.lookup d name = .ok n

theorem Finds.foldlM (h : fs.Finds fs') {cs : List Path} (hcs : ∀ c ∈ cs, c ≠ [slash]) {d n : Nat}
    (hok : cs.foldlM fs.lookup d = .ok n) : cs.foldlM fs'.lookup d = .ok n := by
  induction cs generalizing d with
  | nil => exact hok
  | cons c cs ih =>
    obtain ⟨hc, hcs⟩ := List.forall_mem_cons.mp hcs
    rw [List.foldlM_cons] at hok ⊢
    cases hl : fs.lookup d c with
    | error e =>
      rw [hl] at hok
      cases hok
    | ok m =>
      rw [hl] at hok
      rw [h d c m hc hl]
      exact ih hcs hok

theorem Created.finds {made : List Path} {q : Nat} (h : Created fs p made q fs')
    (hmade : ∀ c ∈ made, Tidy c) : fs.Finds fs' := by
  induction h with
  | nil => exact fun _ _ _ _ hok => hok
  | snoc _ hnone hentered ih =>
    rw [List.forall_mem_append, List.forall_mem_singleton] at hmade
    exact fun d name n hname hok =>
      hentered.lookup_mono hmade.2 hnone hname (ih hmade.1 d name n hname hok)

theorem Created.walk {made : List Path} {q : Nat} (h : Created fs p made q fs')
    (hmade : ∀ c ∈ made, Tidy c) : made.foldlM fs'.lookup p = .ok q := by
  induction h with
  | nil => rfl
  | @snoc made c q ino fs₁ fs₂ hcreated hnone hentered ih =>
    rw [List.forall_mem_append, List.forall_mem_singleton] at hmade
    have hfinds : fs₁.Finds fs₂ := fun d name n hname hok =>
      hentered.lookup_mono hmade.2 hnone hname hok
    rw [List.foldlM_append, hfinds.foldlM (fun c hc => (hmade.1 c hc).ne_slash) (ih hmade.1)]
    change (fs₂.lookup q c >>= fun n => pure n) = .ok ino
    rw [hentered.lookup_self hmade.2 hnone]
    rfl

theorem Created.eq_of_nil {q : Nat} (h : Created fs p [] q fs') : q = p ∧ fs' = fs := by
  generalize hmade : ([] : List Path) = made at h
  cases h with
  | nil => exact ⟨rfl, rfl⟩
  | snoc => simp at hmade

theorem Created.lookup_last {made : List Path} {q : Nat} (h : Created fs p made q fs')
    (hne : made ≠ []) {name : Path} (hname : name ≠ [slash]) (n : Nat) :
    fs'.lookup q name ≠ .ok n := by
  cases h with
  | nil => exact absurd rfl hne
  | snoc _ _ hentered => exact hentered.lookup_new hname n

end Ramfs

/-! ### The recursion -/

namespace Rooted

open Ramfs

/-- What the file systems answer: ramfs as it is, the others as they do. -/
def contents (other : Contents) (fs : Ramfs) : Contents where
  lookup kind := if kind = .ramfs then fs.lookup else other.lookup kind

variable (m : Mounts) (other : Contents) (foreign : Kind → Nat → Path → Except String Nat)

def pathResolve (fs : Ramfs) (path : Path) : Except String (Nat × Kind) :=
  (contents other fs).pathResolve m path

def mkdir (fs : Ramfs) (path : Path) (mode : Nat) : Except String Nat × Ramfs :=
  match pathResolve m other fs (parentPath path) with
  | .error e => (.error e, fs)
  | .ok (pino, ops) =>
    if ops = .ramfs then fs.mkdir pino (fileName path) mode
    else (foreign ops pino (fileName path), fs)

/-- `mkdir_p`. Every path but the root has a parent that is shorter or the root, so that the
recursion ends for every path. -/
def mkdirP (fs : Ramfs) (path : Path) : Except String Unit × Ramfs :=
  if _h : path = [] ∨ path = [slash] then (.ok (), fs)
  else
    match pathResolve m other fs path with
    | .ok _ => (.ok (), fs)
    | .error _ =>
      match mkdirP fs (parentPath path) with
      | (.error e, fs) => (.error e, fs)
      | (.ok _, fs) =>
        let r := mkdir m other foreign fs path 0o754
        (r.1.map fun _ => (), r.2)
termination_by if path = [slash] then 0 else path.length
decreasing_by
  obtain ⟨hnil, hslash⟩ := not_or.mp _h
  have hpos := List.length_pos_iff.mpr hnil
  rcases parentPath_shorter path with heq | hlt
  · rw [if_pos heq, if_neg hslash]
    exact hpos
  · rw [if_neg hslash]
    split_ifs <;> omega

/-- The path lies in the root mount, the ramfs with root inode 0. -/
def AtRoot (path : Path) : Prop :=
  ∃ e, m.findMount path = some e ∧ e.mountPoint = [slash] ∧ e.rootIno = 0 ∧ e.ops = .ramfs

variable {m other foreign} {fs : Ramfs} {cs : List Path}

theorem pathResolve_pathOf (hcs : ∀ c ∈ cs, Tidy c) (hroot : AtRoot m (pathOf cs)) :
    pathResolve m other fs (pathOf cs) =
      (cs.foldlM fs.lookup 0).map fun ino => (ino, Kind.ramfs) := by
  obtain ⟨e, hfind, hpoint, hino, hops⟩ := hroot
  rw [pathResolve, Contents.pathResolve_eq, Contents.resolved, hfind]
  simp only [names_pathOf hcs hpoint, hino, hops]
  rfl

theorem mkdir_pathOf {c : Path} {q mode : Nat} (hcs : ∀ c ∈ cs, Tidy c) (hc : Tidy c)
    (hroot : AtRoot m (pathOf cs)) (hq : cs.foldlM fs.lookup 0 = .ok q) :
    mkdir m other foreign fs (pathOf (cs ++ [c])) mode = fs.mkdir q c mode := by
  rw [mkdir, (split_pathOf hc.plain).1, pathResolve_pathOf hcs hroot, hq, (split_pathOf hc.plain).2]
  rfl

/-- How far a call got: `pre` is there, `made` has been made and `rest` is missing. -/
structure Progress (fs : Ramfs) (cs : List Path) (r : Except String Unit × Ramfs)
    (pre made rest : List Path) (p q : Nat) (fs₁ : Ramfs) : Prop where
  split : cs = pre ++ made ++ rest
  found : pre.foldlM fs.lookup 0 = .ok p
  missing : ∀ c ∈ (made ++ rest).head?, ∀ n, fs.lookup p c ≠ .ok n
  created : Created fs p made q fs₁
  blocked : ∀ c ∈ rest.head?, ∀ n, fs₁.lookup q c ≠ .ok n
  result : r = (.ok (), fs₁) ∧ rest = [] ∨
    (∃ e, r.1 = .error e) ∧ fs₁.Untouched r.2 ∧ rest ≠ []

/-- Where the whole of `cs` has been made, the next name is looked up in its last directory. -/
theorem Progress.reached {r : Except String Unit × Ramfs} {pre made : List Path} {p q : Nat}
    {fs₁ : Ramfs} (h : Progress fs cs r pre made [] p q fs₁) (hcs : ∀ c ∈ cs, Tidy c) :
    cs.foldlM fs₁.lookup 0 = .ok q := by
  have hsplit := h.split
  rw [List.append_nil] at hsplit
  rw [hsplit, List.forall_mem_append] at hcs
  have hpre := (h.created.finds hcs.2).foldlM (fun c hc => (hcs.1 c hc).ne_slash) h.found
  rw [hsplit, List.foldlM_append, hpre]
  exact h.created.walk hcs.2

theorem Progress.next_missing {r : Except String Unit × Ramfs} {pre made : List Path} {p q : Nat}
    {fs₁ : Ramfs} {c : Path} (h : Progress fs cs r pre made [] p q fs₁) (hc : Tidy c)
    (hnot : ∀ n, (cs ++ [c]).foldlM fs.lookup 0 ≠ .ok n) (n : Nat) : fs₁.lookup q c ≠ .ok n := by
  by_cases hmade : made = []
  · have hsplit := h.split
    obtain ⟨rfl, rfl⟩ := (hmade ▸ h.created).eq_of_nil
    rw [hmade, List.append_nil, List.append_nil] at hsplit
    intro hok
    refine hnot n ?_
    rw [List.foldlM_append, hsplit, h.found]
    change (fs₁.lookup q c >>= fun n => pure n) = .ok n
    rw [hok]
    rfl
  · exact h.created.lookup_last hmade hc.ne_slash n

variable (m other foreign fs) in
theorem mkdirP_progress (hcs : ∀ c ∈ cs, Tidy c) (hroot : ∀ ds, ds <+: cs → AtRoot m (pathOf ds)) :
    ∃ pre made rest p q fs₁,
      Progress fs cs (mkdirP m other foreign fs (pathOf cs)) pre made rest p q fs₁ := by
  induction cs using List.reverseRecOn with
  | nil =>
    refine ⟨[], [], [], 0, 0, fs, rfl, rfl, nofun, .nil, nofun, .inl ⟨?_, rfl⟩⟩
    rw [Rooted.mkdirP, dif_pos (.inr rfl)]
  | append_singleton cs c ih =>
    have hwhole := hcs
    rw [List.forall_mem_append, List.forall_mem_singleton] at hcs
    obtain ⟨hcs, hc⟩ := hcs
    have hne : ¬ (pathOf (cs ++ [c]) = [] ∨ pathOf (cs ++ [c]) = [slash]) := by
      rw [pathOf_concat]
      exact concat_ne _ hc.plain.1
    rw [Rooted.mkdirP, dif_neg hne, pathResolve_pathOf hwhole (hroot _ List.prefix_rfl),
      (split_pathOf hc.plain).1]
    cases hfold : (cs ++ [c]).foldlM fs.lookup 0 with
    | ok p =>
      refine ⟨cs ++ [c], [], [], p, p, fs, by simp, hfold, nofun, .nil, nofun, .inl ⟨rfl, rfl⟩⟩
    | error e =>
      have hnot : ∀ n, (cs ++ [c]).foldlM fs.lookup 0 ≠ .ok n := fun n h => by
        rw [hfold] at h
        cases h
      obtain ⟨pre, made, rest, p, q, fs₁, h⟩ :=
        ih hcs fun ds hds => hroot ds (hds.trans (List.prefix_append _ _))
      simp only [Except.map]
      rcases h.result with ⟨hr, hrest⟩ | ⟨⟨e', he'⟩, huntouched, hrest⟩
      · -- All parents are there now.
        subst hrest
        have hnext := h.next_missing hc hnot
        rw [hr]
        simp only [mkdir_pathOf hcs hc (hroot _ (List.prefix_append _ _)) (h.reached hcs)]
        have hsplit : cs ++ [c] = pre ++ made ++ [c] := by rw [h.split, List.append_nil]
        have hhead : ∀ c' ∈ (made ++ [c]).head?, ∀ n, fs.lookup p c' ≠ .ok n := by
          cases hmade : made with
          | nil =>
            obtain ⟨rfl, rfl⟩ := (hmade ▸ h.created).eq_of_nil
            rintro c' ⟨⟩
            exact hnext
          | cons d ds =>
            have hmissing := h.missing
            rw [hmade] at hmissing
            exact hmissing
        rcases mkdir_cases fs₁ q c with ⟨e', fs', hmk, huntouched⟩ | ⟨ino, fs', hmk, hentered⟩
        · refine ⟨pre, made, [c], p, q, fs₁, hsplit, h.found, hhead, h.created, ?_, .inr ?_⟩
          · rintro c' ⟨⟩
            exact hnext
          · rw [hmk]
            exact ⟨⟨e', rfl⟩, huntouched, List.cons_ne_nil _ _⟩
        · refine ⟨pre, made ++ [c], [], p, ino, fs', by simp [hsplit], h.found,
            by simpa using hhead,
            h.created.snoc hnext hentered, nofun, .inl ⟨?_, rfl⟩⟩
          rw [hmk]
      · refine ⟨pre, made, rest ++ [c], p, q, fs₁, by rw [h.split]; simp, h.found, ?_,
          h.created, ?_,
          .inr ?_⟩
        · rw [← List.append_assoc, List.head?_append_of_ne_nil _ (by simp [hrest])]
          exact h.missing
        · rw [List.head?_append_of_ne_nil _ hrest]
          exact h.blocked
        · generalize hprev : mkdirP m other foreign fs (pathOf cs) = prev at he' huntouched
          obtain ⟨r, fs'⟩ := prev
          simp only at he'
          subst he'
          exact ⟨⟨e', rfl⟩, huntouched, by simp⟩

/-- Of a path of which `pre` is found and the next name is not, the prefixes of `pre` resolve. -/
theorem foldlM_ok_iff {pre rest ds : List Path} {p : Nat} (hpre : pre.foldlM fs.lookup 0 = .ok p)
    (hrest : ∀ c ∈ rest.head?, ∀ n, fs.lookup p c ≠ .ok n) (hds : ds <+: pre ++ rest) :
    (∃ n, ds.foldlM fs.lookup 0 = .ok n) ↔ ds <+: pre := by
  constructor
  · rintro ⟨n, hn⟩
    obtain ⟨t, ht⟩ := hds
    rcases List.append_eq_append_iff.mp ht with ⟨l, rfl, -⟩ | ⟨l, rfl, hl⟩
    · exact List.prefix_append _ _
    · cases l with
      | nil => simp
      | cons c l =>
        rw [List.foldlM_append, hpre] at hn
        change (fs.lookup p c >>= fun n => l.foldlM fs.lookup n) = .ok n at hn
        cases hlook : fs.lookup p c with
        | error e =>
          rw [hlook] at hn
          cases hn
        | ok n' => exact absurd hlook (hrest c (by simp [hl]) n')
  · rintro ⟨t, rfl⟩
    rw [List.foldlM_append] at hpre
    cases hfold : ds.foldlM fs.lookup 0 with
    | error e =>
      rw [hfold] at hpre
      cases hpre
    | ok n => exact ⟨n, rfl⟩

theorem pathResolve_mono {fs' : Ramfs} (h : fs.Finds fs') {path : Path} {x : Nat × Kind}
    (hok : pathResolve m other fs path = .ok x) : pathResolve m other fs' path = .ok x := by
  rw [pathResolve, Contents.pathResolve_eq, Contents.resolved] at hok ⊢
  cases hfind : m.findMount path with
  | none =>
    rw [hfind] at hok
    cases hok
  | some e =>
    rw [hfind] at hok
    simp only [contents] at hok ⊢
    split_ifs at hok ⊢ with hkind
    · cases hfold : (Mounts.names e path).foldlM fs.lookup e.rootIno with
      | error err =>
        rw [hfold] at hok
        cases hok
      | ok n =>
        rw [hfold] at hok
        rw [h.foldlM (fun c hc => ?_) hfold]
        · exact hok
        · rintro rfl
          unfold Mounts.names at hc
          simp only at hc
          split_ifs at hc
          · cases hc
          · exact slash_notMem_of_mem_splitOn (List.mem_filter.mp hc).1 (List.mem_singleton.mpr rfl)
    · exact hok

variable (m other foreign) in
def Resolves (fs : Ramfs) (path : Path) : Prop := ∃ x, pathResolve m other fs path = .ok x

theorem resolves_iff {ds : List Path} (hds : ∀ c ∈ ds, Tidy c) (hroot : AtRoot m (pathOf ds)) :
    Resolves m other fs (pathOf ds) ↔ ∃ n, ds.foldlM fs.lookup 0 = .ok n := by
  rw [Resolves, pathResolve_pathOf hds hroot]
  cases ds.foldlM fs.lookup 0 with
  | error e => simp [Except.map]
  | ok n => simp [Except.map]

end Rooted

open Rooted Ramfs in
/-- `mkdir_p` of a normalized path whose ancestors all lie in the root mount. The path falls into
what resolved before, what was made and what is missing still; `Created` says that what was made are
new directories without entries but for the next one, and nothing else in use has changed. What
resolved still resolves to the same inode. The call succeeds exactly if nothing is missing. -/
theorem mkdir_p_creates (m : Mounts) (other : Contents)
    (foreign : Kind → Nat → Path → Except String Nat) (fs : Ramfs) (cs : List Path)
    (hcs : ∀ c ∈ cs, Tidy c) (hroot : ∀ ds, ds <+: cs → AtRoot m (pathOf ds)) :
    ∃ pre made rest p q fs₁, cs = pre ++ made ++ rest ∧
      (∀ ds, ds <+: cs → (Resolves m other fs (pathOf ds) ↔ ds <+: pre)) ∧
      (∀ ds, ds <+: cs → (Resolves m other (mkdirP m other foreign fs (pathOf cs)).2 (pathOf ds) ↔
        ds <+: pre ++ made)) ∧
      (∀ path x, Rooted.pathResolve m other fs path = .ok x →
        Rooted.pathResolve m other (mkdirP m other foreign fs (pathOf cs)).2 path = .ok x) ∧
      Rooted.pathResolve m other fs (pathOf pre) = .ok (p, .ramfs) ∧ Created fs p made q fs₁ ∧
      (mkdirP m other foreign fs (pathOf cs) = (.ok (), fs₁) ∧ rest = [] ∨
        (∃ e, (mkdirP m other foreign fs (pathOf cs)).1 = .error e) ∧
          fs₁.Untouched (mkdirP m other foreign fs (pathOf cs)).2 ∧ rest ≠ []) := by
  obtain ⟨pre, made, rest, p, q, fs₁, h⟩ :=
    mkdirP_progress m other foreign fs hcs hroot
  generalize mkdirP m other foreign fs (pathOf cs) = r at h
  have htidy : ∀ {ds}, ds <+: cs → ∀ c ∈ ds, Tidy c := fun hds c hc => hcs c (hds.subset hc)
  have hsplit := h.split
  have hpre : pre <+: cs := ⟨made ++ rest, by rw [hsplit, List.append_assoc]⟩
  have hmade : ∀ c ∈ pre ++ made, Tidy c := htidy ⟨rest, hsplit.symm⟩
  have hlook : r.2.lookup = fs₁.lookup := by
    rcases h.result with ⟨rfl, -⟩ | ⟨-, hun, -⟩
    · rfl
    · exact hun.lookup
  rw [List.forall_mem_append] at hmade
  have hfinds : fs.Finds r.2 := by
    unfold Finds
    rw [hlook]
    exact h.created.finds hmade.2
  have hreach : (pre ++ made).foldlM r.2.lookup 0 = .ok q := by
    rw [List.foldlM_append, hfinds.foldlM (fun c hc => (hmade.1 c hc).ne_slash) h.found, hlook]
    exact h.created.walk hmade.2
  refine ⟨pre, made, rest, p, q, fs₁, hsplit, fun ds hds => ?_, fun ds hds => ?_,
    fun path x => pathResolve_mono hfinds, ?_, h.created, h.result⟩
  · rw [resolves_iff (htidy hds) (hroot ds hds)]
    exact foldlM_ok_iff h.found h.missing (by rwa [← List.append_assoc, ← hsplit])
  · rw [resolves_iff (htidy hds) (hroot ds hds)]
    exact foldlM_ok_iff hreach (hlook ▸ h.blocked) (by rwa [← hsplit])
  · rw [pathResolve_pathOf (htidy hpre) (hroot pre hpre), h.found]
    rfl

def rootTable : Mounts where
  mounts i := if i = 0 then ⟨[slash], 1, 0, .ramfs, true⟩ else .empty

open Rooted Ramfs in
/-- `/a/b` in a new tree: both directories are made, the second by way of the first. -/
theorem mkdir_p_creates_ab : let other : Contents := ⟨fun _ _ _ => .error ""⟩
    let r := mkdirP rootTable other (fun _ _ _ => .error "") Ramfs.init (pathOf [[97], [98]])
    ∃ q, r.1 = .ok () ∧ Created Ramfs.init 0 [[97], [98]] q r.2 ∧
      Resolves rootTable other r.2 (pathOf [[97], [98]]) := by
  intro other r
  have hcs : ∀ c ∈ [[(97 : UInt8)], [98]], Tidy c := by
    intro c hc
    fin_cases hc <;>
      exact ⟨by unfold Plain; decide, by decide, by rintro b ⟨⟩; rfl, by rintro b ⟨⟩; rfl⟩
  have hroot : ∀ ds, ds <+: [[(97 : UInt8)], [98]] → AtRoot rootTable (pathOf ds) := by
    intro ds hds
    rw [← List.mem_inits] at hds
    fin_cases hds <;> exact ⟨rootTable.mounts 0, by decide, rfl, rfl, rfl⟩
  have hok : r.1 = .ok () := by
    have hb : parentPath [slash, 97, slash, 98] = [slash, 97] := by decide
    have ha : parentPath [slash, 97] = [slash] := by decide
    change (mkdirP _ _ _ _ [slash, 97, slash, 98]).1 = _
    rw [mkdirP, dif_neg (by decide), hb, mkdirP, dif_neg (by decide), ha, mkdirP,
      dif_pos (.inr rfl)]
    simp only [Rooted.mkdir, Rooted.pathResolve, Contents.pathResolve_eq, hb, ha]
    rfl
  obtain ⟨pre, made, rest, p, q, fs₁, hsplit, hbefore, hafter, -, hp, hcreated, hresult⟩ :=
    mkdir_p_creates rootTable other (fun _ _ _ => .error "") Ramfs.init [[97], [98]] hcs hroot
  rcases hresult with ⟨hrun, rfl⟩ | ⟨⟨e, he⟩, -⟩
  · cases pre with
    | nil =>
      rw [Rooted.pathResolve, Contents.pathResolve_eq] at hp
      cases hp
      obtain rfl : made = [[97], [98]] := by simpa using hsplit.symm
      exact ⟨q, hok, congrArg Prod.snd hrun ▸ hcreated,
        (hafter _ List.prefix_rfl).mpr List.prefix_rfl⟩
    | cons c pre =>
      obtain ⟨rfl, -⟩ := List.cons.inj hsplit
      obtain ⟨x, hx⟩ := (hbefore [[97]] ⟨[[98]], rfl⟩).mpr ⟨pre, rfl⟩
      rw [Rooted.pathResolve, Contents.pathResolve_eq] at hx
      cases hx
  · cases hok.symm.trans he

end Rynex.Fs
