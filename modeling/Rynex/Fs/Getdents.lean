import Rynex.Fs.Ramfs

/-! `sys_getdents64` on a ramfs directory. The call asks `readdir` for ten entries at a time and
counts the entries that it emits, while `readdir` takes that count for the number of a slot. -/

namespace Rynex.Fs

/-- The length of a record: 19 bytes, the name and a zero, rounded up to a multiple of 8. -/
def recLen (nameLen : Nat) : Nat := (19 + nameLen + 1 + 7) / 8 * 8

namespace RamInode

variable (n : RamInode)

def live : List Nat := (List.range n.direntCount).filter fun i => (n.dirents i).used

/-- The slots that `readdir` with ten entries of room finds from `off` on. -/
def batch (off : Nat) : List Nat := (n.live.filter fun i => off ≤ i).take 10

/-- `readdir`. There is no result if a name is longer than the array that it is copied to. -/
def readdir (off : Nat) : Option (List Nat) :=
  if ∀ i ∈ n.batch off, (n.dirents i).nameLen ≤ maxName then some (n.batch off) else none

def len (i : Nat) : Nat := recLen (n.dirents i).nameLen

/-- The entries that are not passed over for an empty name. -/
def named (is : List Nat) : List Nat := is.filter fun i => (n.dirents i).nameLen ≠ 0

/-- The loop of `sys_getdents64` over the entries of one `readdir`, with the bytes written and the
slots emitted so far. It ends at the first entry that does not fit. -/
def emit (count : Nat) : List Nat → Nat × List Nat → Nat × List Nat
  | [], acc => acc
  | i :: is, (written, out) =>
    if (n.dirents i).nameLen = 0 then emit count is (written, out)
    else if count < written + n.len i then (written, out)
    else emit count is (written + n.len i, out ++ [i])

/-- The outer loop, for so many rounds. The offset is where the call began and what it emitted. -/
def getdentsLoop (pos count : Nat) : Nat → Nat × List Nat → Option (Nat × List Nat)
  | 0, _ => none
  | rounds + 1, acc =>
    match n.readdir (pos + acc.2.length) with
    | none => none
    | some [] => some acc
    | some is => getdentsLoop pos count rounds (n.emit count is acc)

/-- The call comes back: with the bytes written, and the slots emitted. -/
def Returns (pos count : Nat) (r : Nat × List Nat) : Prop :=
  ∃ rounds, n.getdentsLoop pos count rounds (0, []) = some r

/-- The slots that the rounds emit in a buffer without end. -/
def listLoop (pos : Nat) : Nat → List Nat → Option (List Nat)
  | 0, _ => none
  | rounds + 1, out =>
    match n.readdir (pos + out.length) with
    | none => none
    | some [] => some out
    | some is => listLoop pos rounds (out ++ n.named is)

def total (is : List Nat) : Nat := (is.map n.len).sum

/-- The slot behind as many slots as the ten entries from `off` on have names. -/
def next (off : Nat) : Nat := off + (n.named (n.batch off)).length

/-- The named entries of the batches from `off` on, each of which begins where the number of names
in those before it says. After a gap, a batch begins with entries of the batch before it. -/
def listing (off : Nat) : List Nat :=
  (List.range n.direntCount).flatMap fun k => n.named (n.batch (n.next^[k] off))

/-! ### One round -/

variable {n} {off pos count : Nat}

theorem pairwise_batch : (n.batch off).Pairwise (· < ·) :=
  ((List.pairwise_lt_range.filter _).filter _).take

theorem mem_batch {i : Nat} (h : i ∈ n.batch off) : off ≤ i ∧ i ∈ n.live := by
  obtain ⟨hlive, hoff⟩ := List.mem_filter.mp (List.mem_of_mem_take h)
  exact ⟨by simpa using hoff, hlive⟩

theorem lt_of_notMem_batch {s i : Nat} (hs : s ∈ n.live) (hoff : off ≤ s) (hnot : s ∉ n.batch off)
    (hi : i ∈ n.batch off) : i < s := by
  have hmem : s ∈ n.live.filter fun i => off ≤ i := List.mem_filter.mpr ⟨hs, by simpa using hoff⟩
  have hsorted : (n.live.filter fun i => off ≤ i).Pairwise (· < ·) :=
    (List.pairwise_lt_range.filter _).filter _
  rw [← List.take_append_drop 10 (n.live.filter fun i => off ≤ i)] at hmem hsorted
  exact (List.pairwise_append.mp hsorted).2.2 i hi s ((List.mem_append.mp hmem).resolve_left hnot)

theorem add_length_le {l : List Nat} {s : Nat} (hl : l.Pairwise (· < ·)) (hoff : off ≤ s)
    (h : ∀ i ∈ l, off ≤ i ∧ i < s) : off + l.length ≤ s := by
  have hsub : l ⊆ List.range' off (s - off) := fun i hi =>
    List.mem_range'_1.mpr ⟨(h i hi).1, by have := h i hi; omega⟩
  have := (List.subperm_of_subset (hl.imp fun hxy => hxy.ne) hsub).length_le
  rw [List.length_range'] at this
  omega

/-- A round emits all its named entries, or it ends at one that does not fit. -/
theorem emit_cases (is : List Nat) {w : Nat} (out : List Nat) (hw : w ≤ count) :
    (n.emit count is (w, out) = (w + n.total (n.named is), out ++ n.named is) ∧
      w + n.total (n.named is) ≤ count) ∨
    ∃ pre e post, is = pre ++ e :: post ∧ (n.dirents e).nameLen ≠ 0 ∧
      n.emit count is (w, out) = (w + n.total (n.named pre), out ++ n.named pre) ∧
      w + n.total (n.named pre) ≤ count ∧ count < w + n.total (n.named pre) + n.len e := by
  induction is generalizing w out with
  | nil => exact .inl ⟨by simp [emit, total, named], by simpa [total, named] using hw⟩
  | cons i is ih =>
    rw [emit]
    split_ifs with hname hfit
    · have hnamed (l : List Nat) : n.named (i :: l) = n.named l := by simp [named, hname]
      rcases ih out hw with ⟨heq, hle⟩ | ⟨pre, e, post, rfl, he, heq, hle, hlt⟩
      · exact .inl (by rw [hnamed]; exact ⟨heq, hle⟩)
      · exact .inr ⟨i :: pre, e, post, rfl, he, by rw [hnamed]; exact ⟨heq, hle, hlt⟩⟩
    · exact .inr ⟨[], i, is, rfl, hname, by simp [total, named], by simpa [total, named] using hw,
        by simpa [total, named] using hfit⟩
    · have hnamed (l : List Nat) : n.named (i :: l) = i :: n.named l := by simp [named, hname]
      have htotal (l : List Nat) : w + n.total (i :: l) = w + n.len i + n.total l := by
        simp [total, Nat.add_assoc]
      rcases ih (out ++ [i]) (not_lt.mp hfit) with ⟨heq, hle⟩ |
        ⟨pre, e, post, rfl, he, heq, hle, hlt⟩
      · refine .inl ?_
        rw [hnamed, htotal]
        exact ⟨by simpa using heq, hle⟩
      · refine .inr ⟨i :: pre, e, post, rfl, he, ?_⟩
        rw [hnamed, htotal]
        exact ⟨by simpa using heq, hle, hlt⟩

/-! ### A call -/

theorem total_append (is js : List Nat) : n.total (is ++ js) = n.total is + n.total js := by
  simp [total]

theorem total_mono {is js : List Nat} (h : is <+: js) : n.total is ≤ n.total js := by
  obtain ⟨ks, rfl⟩ := h
  rw [total_append]
  exact Nat.le_add_right _ _

theorem named_sublist (is : List Nat) : (n.named is).Sublist is := List.filter_sublist

theorem readdir_eq_some {is : List Nat} (h : n.readdir off = some is) : is = n.batch off := by
  unfold readdir at h
  split_ifs at h
  exact (Option.some_inj.mp h).symm

/-- There is an entry that does not fit, and the offset is not behind it. -/
def Doomed (n : RamInode) (pos count : Nat) (acc : Nat × List Nat) : Prop :=
  acc.1 ≤ count ∧ ∃ s ∈ n.live, (n.dirents s).nameLen ≠ 0 ∧ pos + acc.2.length ≤ s ∧
    count < acc.1 + n.len s

/-- The entries that a round emits lie before any entry that does not fit, so that the offset stays
before it too. -/
theorem Doomed.emit {acc : Nat × List Nat} (h : n.Doomed pos count acc) :
    n.Doomed pos count (n.emit count (n.batch (pos + acc.2.length)) acc) := by
  obtain ⟨w, out⟩ := acc
  obtain ⟨hw, s, hs, hname, hoff, hlt⟩ := h
  simp only at hw hoff hlt ⊢
  set is := n.batch (pos + out.length) with his
  have hsorted : is.Pairwise (· < ·) := pairwise_batch
  -- It is enough that what is emitted lies before `s`.
  have hdone {l : List Nat} (hl : l.Sublist is) (hle : w + n.total (n.named l) ≤ count)
      (hbefore : ∀ i ∈ n.named l, i < s) :
      n.Doomed pos count (w + n.total (n.named l), out ++ n.named l) := by
    have hsub := (named_sublist (n := n) l).trans hl
    have hroom := add_length_le (hsorted.sublist hsub) hoff fun i hi =>
      ⟨(mem_batch (hsub.subset hi)).1, hbefore i hi⟩
    exact ⟨hle, s, hs, hname, by rw [List.length_append]; omega, by omega⟩
  have hnotin {l : List Nat} (hle : w + n.total (n.named l) ≤ count) : s ∉ l := by
    intro hmem
    have hle' : n.len s ≤ n.total (n.named l) :=
      List.single_le_sum (by simp) _ (List.mem_map_of_mem
        (List.mem_filter.mpr ⟨hmem, by simpa using hname⟩))
    omega
  rcases emit_cases is out hw with ⟨heq, hle⟩ | ⟨pre, e, post, hsplit, -, heq, hle, -⟩
  · rw [heq]
    exact hdone (List.Sublist.refl _) hle fun i hi => lt_of_notMem_batch hs hoff (hnotin hle)
      ((named_sublist is).subset hi)
  · rw [heq]
    refine hdone (hsplit ▸ List.sublist_append_left _ _) hle fun i hi => ?_
    have hi' : i ∈ pre := (named_sublist pre).subset hi
    by_cases hmem : s ∈ is
    · -- `s` is the entry that the round ends at, or comes later.
      rw [hsplit] at hmem hsorted
      exact (List.pairwise_append.mp hsorted).2.2 i hi' s
        ((List.mem_append.mp hmem).resolve_left (hnotin hle))
    · refine lt_of_notMem_batch hs hoff hmem ?_
      rw [← his, hsplit]
      exact List.mem_append_left _ hi'

theorem Doomed.never {rounds : Nat} {acc : Nat × List Nat} (h : n.Doomed pos count acc) :
    n.getdentsLoop pos count rounds acc = none := by
  induction rounds generalizing acc with
  | zero => rfl
  | succ rounds ih =>
    rw [getdentsLoop]
    cases hread : n.readdir (pos + acc.2.length) with
    | none => rfl
    | some is =>
      have his := readdir_eq_some hread
      cases is with
      | cons i is =>
        simp only
        rw [his]
        exact ih h.emit
      | nil =>
        obtain ⟨-, s, hs, -, hoff, -⟩ := h
        have hmem : s ∈ n.live.filter fun i => pos + acc.2.length ≤ i :=
          List.mem_filter.mpr ⟨hs, by simpa using hoff⟩
        rw [batch, eq_comm, List.take_eq_nil_iff] at his
        rw [his.resolve_left (by decide)] at hmem
        cases hmem

/-- A call that comes back emitted in every round all that it could. -/
theorem listLoop_of_getdentsLoop {rounds : Nat} {acc r : Nat × List Nat}
    (h : n.getdentsLoop pos count rounds acc = some r) (hacc : acc.1 = n.total acc.2)
    (hle : acc.1 ≤ count) :
    n.listLoop pos rounds acc.2 = some r.2 ∧ r.1 = n.total r.2 ∧ r.1 ≤ count := by
  induction rounds generalizing acc with
  | zero => cases h
  | succ rounds ih =>
    obtain ⟨w, out⟩ := acc
    rw [getdentsLoop] at h
    rw [listLoop]
    simp only at h hacc hle ⊢
    cases hread : n.readdir (pos + out.length) with
    | none => rw [hread] at h; cases h
    | some is =>
      rw [hread] at h
      cases is with
      | nil =>
        cases h
        exact ⟨rfl, hacc, hle⟩
      | cons i is =>
        simp only at h ⊢
        rcases emit_cases (i :: is) out hle with ⟨heq, hfit⟩ |
          ⟨pre, e, post, hsplit, hname, heq, hfit, hbig⟩
        · rw [heq] at h
          exact ih h (by rw [total_append, hacc]) hfit
        · -- The round that ends early leaves its entry ahead.
          exfalso
          rw [heq] at h
          have hbatch := readdir_eq_some hread
          have hmem : e ∈ n.batch (pos + out.length) := by rw [← hbatch, hsplit]; simp
          have hsorted : (pre ++ e :: post).Pairwise (· < ·) := by
            rw [← hsplit, hbatch]; exact pairwise_batch
          have hsub : (n.named pre).Sublist pre := named_sublist pre
          have hroom := add_length_le (((List.pairwise_append.mp hsorted).1).sublist hsub)
            (mem_batch hmem).1 fun i hi =>
              ⟨(mem_batch (hbatch ▸ hsplit ▸ List.mem_append_left _ (hsub.subset hi))).1,
                (List.pairwise_append.mp hsorted).2.2 i (hsub.subset hi) e List.mem_cons_self⟩
          have hdoomed : n.Doomed pos count (w + n.total (n.named pre), out ++ n.named pre) :=
            ⟨hfit, e, (mem_batch hmem).2, hname, by rw [List.length_append]; omega, hbig⟩
          rw [hdoomed.never] at h
          cases h

/-- What each batch keeps, the whole loop keeps; it ends where nothing more is read. -/
theorem listLoop_invariant {I : List Nat → Prop} {rounds : Nat} {out l : List Nat}
    (hstep : ∀ out is, I out → n.readdir (pos + out.length) = some is → I (out ++ n.named is))
    (h : n.listLoop pos rounds out = some l) (hout : I out) :
    I l ∧ n.readdir (pos + l.length) = some [] := by
  induction rounds generalizing out with
  | zero => cases h
  | succ rounds ih =>
    rw [listLoop] at h
    split at h
    · cases h
    · rename_i hread
      cases h
      exact ⟨hout, hread⟩
    · rename_i is _ hread
      exact ih h (hstep out is hout hread)

theorem listLoop_unique {r₁ r₂ : Nat} {out l₁ l₂ : List Nat}
    (h₁ : n.listLoop pos r₁ out = some l₁) (h₂ : n.listLoop pos r₂ out = some l₂) : l₁ = l₂ := by
  induction r₁ generalizing r₂ out with
  | zero => cases h₁
  | succ r₁ ih =>
    cases r₂ with
    | zero => cases h₂
    | succ r₂ =>
      rw [listLoop] at h₁ h₂
      cases hread : n.readdir (pos + out.length) with
      | none => rw [hread] at h₁; cases h₁
      | some is =>
        rw [hread] at h₁ h₂
        cases is with
        | nil => cases h₁; cases h₂; rfl
        | cons i is => exact ih h₁ h₂

theorem prefix_of_listLoop {rounds : Nat} {out l : List Nat}
    (h : n.listLoop pos rounds out = some l) :
    out <+: l :=
  (listLoop_invariant (I := (out <+: ·)) (fun _ _ hpre _ => hpre.trans (List.prefix_append _ _)) h
    (List.prefix_refl out)).1

theorem getdentsLoop_of_listLoop {rounds : Nat} {out l : List Nat}
    (h : n.listLoop pos rounds out = some l) (hfit : n.total l ≤ count) :
    n.getdentsLoop pos count rounds (n.total out, out) = some (n.total l, l) := by
  induction rounds generalizing out with
  | zero => cases h
  | succ rounds ih =>
    rw [listLoop] at h
    rw [getdentsLoop]
    simp only
    cases hread : n.readdir (pos + out.length) with
    | none => rw [hread] at h; cases h
    | some is =>
      rw [hread] at h
      cases is with
      | nil => cases h; rfl
      | cons i is =>
        simp only at h ⊢
        have hpre := prefix_of_listLoop h
        have hout : n.total out ≤ count :=
          (total_mono ((List.prefix_append _ _).trans hpre)).trans hfit
        rcases emit_cases (i :: is) out hout with ⟨heq, -⟩ |
          ⟨pre, e, post, hsplit, hname, -, -, hbig⟩
        · rw [heq, ← total_append]
          exact ih h
        · exfalso
          have hnamed : n.named (i :: is) = n.named pre ++ e :: n.named post := by
            rw [hsplit]
            simp [named, hname]
          rw [hnamed] at hpre
          have hle := (total_mono (n := n) hpre).trans hfit
          rw [total_append, total_append, show n.total (e :: n.named post) =
            n.len e + n.total (n.named post)
            by simp [total]] at hle
          omega

theorem returns_iff {r : Nat × List Nat} :
    n.Returns pos count r ↔ (∃ rounds, n.listLoop pos rounds [] = some r.2) ∧ r.1 = n.total r.2 ∧
      n.total r.2 ≤ count := by
  constructor
  · rintro ⟨rounds, h⟩
    obtain ⟨hlist, hr, hle⟩ := listLoop_of_getdentsLoop h rfl (Nat.zero_le _)
    exact ⟨⟨rounds, hlist⟩, hr, hr ▸ hle⟩
  · rintro ⟨⟨rounds, hlist⟩, hr, hle⟩
    obtain ⟨w, l⟩ := r
    simp only at hr
    exact ⟨rounds, hr ▸ getdentsLoop_of_listLoop hlist hle⟩

/-! ### The directories with which a call comes back -/

theorem lt_of_readdir_nil (h : n.readdir off = some []) {s : Nat} (hs : s ∈ n.live) : s < off := by
  by_contra hge
  have hbatch := readdir_eq_some h
  rw [batch, eq_comm, List.take_eq_nil_iff] at hbatch
  have hmem : s ∈ n.live.filter fun i => off ≤ i :=
    List.mem_filter.mpr ⟨hs, by simpa using hge⟩
  rw [hbatch.resolve_left (by decide)] at hmem
  cases hmem

theorem exists_pass {rounds s : Nat} {l : List Nat} (h : n.listLoop pos rounds [] = some l)
    (hs : s ∈ n.live) {off : Nat} (hpos : pos ≤ off) (hoff : off ≤ s) :
    ∃ o ≤ off, n.readdir o = some (n.batch o) ∧ ∃ i ∈ n.named (n.batch o), off ≤ i := by
  by_contra hnone
  push Not at hnone
  have hend := listLoop_invariant (I := fun out => pos + out.length ≤ off)
    (fun out is hout hread => ?_) h (by simpa using hpos)
  · have := lt_of_readdir_nil hend.2 hs
    omega
  · obtain rfl := readdir_eq_some hread
    have := add_length_le (pairwise_batch.sublist (named_sublist _)) hout fun i hi =>
      ⟨(mem_batch ((named_sublist _).subset hi)).1, hnone _ hout hread i hi⟩
    rw [List.length_append]
    omega

/-- A batch has every slot from `off` on that one from an earlier offset has. -/
theorem mem_batch_of_le {o i : Nat} (ho : o ≤ off) (hi : i ∈ n.batch o) (hoff : off ≤ i) :
    i ∈ n.batch off := by
  by_contra hnot
  have hlive := (mem_batch hi).2
  have hfull : (n.batch off).length = 10 := by
    by_contra hlen
    have hall : n.batch off = n.live.filter fun i => off ≤ i := by
      refine List.take_of_length_le ?_
      rw [batch, List.length_take] at hlen
      omega
    exact hnot (hall ▸ List.mem_filter.mpr ⟨hlive, by simpa using hoff⟩)
  have hsub : i :: n.batch off ⊆ n.batch o := by
    refine List.cons_subset.mpr ⟨hi, fun j hj => ?_⟩
    by_contra hj'
    have hlt := lt_of_notMem_batch (mem_batch hj).2 (ho.trans (mem_batch hj).1) hj' hi
    have := lt_of_notMem_batch hlive hoff hnot hj
    omega
  have hnodup : (i :: n.batch off).Nodup :=
    List.nodup_cons.mpr ⟨hnot, pairwise_batch.imp fun h => h.ne⟩
  have hle := (List.subperm_of_subset hnodup hsub).length_le
  have : (n.batch o).length ≤ 10 := List.length_take_le _ _
  rw [List.length_cons] at hle
  omega

/-- Where every name from `off` on can be copied and every batch has a name, each round moves the
offset on, and the rounds emit the listing. -/
theorem listLoop_eq (hlong : ∀ s ∈ n.live, off ≤ s → (n.dirents s).nameLen ≤ maxName)
    (hbatch : ∀ o, off ≤ o → n.batch o ≠ [] → n.named (n.batch o) ≠ []) {rounds : Nat}
    (hrounds : n.direntCount ≤ off + rounds) {out : List Nat} (hout : pos + out.length = off) :
    n.listLoop pos (rounds + 1) out = some (out ++
      (List.range rounds).flatMap fun k => n.named (n.batch (n.next^[k] off))) := by
  have hread : n.readdir (pos + out.length) = some (n.batch off) := by
    rw [hout, readdir, if_pos fun i hi => hlong i (mem_batch hi).2 (mem_batch hi).1]
  induction rounds generalizing off out with
  | zero =>
    have hnil : n.batch off = [] := List.eq_nil_iff_forall_not_mem.mpr fun i hi => by
      have hlive := List.mem_range.mp (List.mem_filter.mp (mem_batch hi).2).1
      have := (mem_batch hi).1
      omega
    rw [listLoop, hread, hnil]
    simp
  | succ rounds ih =>
    rw [listLoop, hread]
    cases hb : n.batch off with
    | nil =>
      have hfix : n.next off = off := by simp [next, hb, named]
      simp [Function.iterate_fixed hfix, hb, named]
    | cons i is =>
      have hnext : n.next off = pos + (out ++ n.named (i :: is)).length := by
        rw [next, hb, List.length_append]
        omega
      have hlt : off < n.next off := Nat.lt_add_of_pos_right
        (List.length_pos_iff.mpr (hbatch off le_rfl (by rw [hb]; simp)))
      simp only
      rw [ih (fun s hs h => hlong s hs (hlt.le.trans h)) (fun o h => hbatch o (hlt.le.trans h))
        (by omega) hnext.symm, List.range_succ_eq_map, List.flatMap_cons, List.flatMap_map,
        Function.iterate_zero_apply, hb, List.append_assoc]
      · simp only [Function.iterate_succ_apply]
      · rw [← hnext, readdir, if_pos fun j hj =>
          hlong j (mem_batch hj).2 (hlt.le.trans (mem_batch hj).1)]

end RamInode

open RamInode

/-- `sys_getdents64` comes back exactly if no name from its offset on is longer than the array that
it is copied to, no batch of slots is without a name, and the buffer holds the listing. -/
theorem getdents_terminates_iff (n : RamInode) (pos count : Nat) :
    (∃ r, n.Returns pos count r) ↔
      (∀ s ∈ n.live, pos ≤ s → (n.dirents s).nameLen ≤ maxName) ∧
      (∀ off, pos ≤ off → n.batch off ≠ [] → n.named (n.batch off) ≠ []) ∧
      n.total (n.listing pos) ≤ count := by
  have hlisting : (∀ s ∈ n.live, pos ≤ s → (n.dirents s).nameLen ≤ maxName) →
      (∀ off, pos ≤ off → n.batch off ≠ [] → n.named (n.batch off) ≠ []) →
      n.listLoop pos (n.direntCount + 1) [] = some (n.listing pos) := fun hlong hbatch =>
    listLoop_eq hlong hbatch (Nat.le_add_left _ _) rfl
  constructor
  · rintro ⟨r, h⟩
    obtain ⟨⟨rounds, hlist⟩, -, hle⟩ := returns_iff.mp h
    have hlong : ∀ s ∈ n.live, pos ≤ s → (n.dirents s).nameLen ≤ maxName := by
      intro s hs hpos
      obtain ⟨o, ho, hread, i, hi, hsi⟩ := exists_pass hlist hs hpos le_rfl
      have hmem : s ∈ n.batch o := by
        by_contra hnot
        have := lt_of_notMem_batch hs ho hnot ((named_sublist _).subset hi)
        omega
      unfold readdir at hread
      split_ifs at hread with hall
      exact hall s hmem
    have hbatch : ∀ off, pos ≤ off → n.batch off ≠ [] → n.named (n.batch off) ≠ [] := by
      intro off hpos hne
      obtain ⟨s, hs⟩ := List.exists_mem_of_ne_nil _ hne
      obtain ⟨o, ho, -, i, hi, hoff⟩ := exists_pass hlist (mem_batch hs).2 hpos (mem_batch hs).1
      obtain ⟨hmem, hname⟩ := List.mem_filter.mp hi
      exact List.ne_nil_of_mem (List.mem_filter.mpr ⟨mem_batch_of_le ho hmem hoff, hname⟩)
    have heq : r.2 = n.listing pos := listLoop_unique hlist (hlisting hlong hbatch)
    exact ⟨hlong, hbatch, heq ▸ hle⟩
  · rintro ⟨hlong, hbatch, hle⟩
    exact ⟨(n.total (n.listing pos), n.listing pos),
      returns_iff.mpr ⟨⟨_, hlisting hlong hbatch⟩, rfl, hle⟩⟩

/-- The root of a new ramfs has two names of three bytes, of which a buffer of 24 bytes holds one:
the call never comes back. -/
theorem getdents_hangs : ¬ ∃ r, (Ramfs.init.inodes 0).Returns 0 24 r := by
  rintro ⟨r, rounds, h⟩
  have hdoomed : (Ramfs.init.inodes 0).Doomed 0 24 (24, [0]) :=
    ⟨le_rfl, 1, by decide, by decide, by decide, by decide⟩
  cases rounds with
  | zero => cases h
  | succ rounds =>
    rw [getdentsLoop, show (Ramfs.init.inodes 0).readdir (0 + ([] : List Nat).length) =
      some [0, 1] by
      decide] at h
    simp only at h
    rw [show (Ramfs.init.inodes 0).emit 24 [0, 1] (0, []) = (24, [0]) by decide, hdoomed.never] at h
    cases h

/-! ### Listing a directory -/

namespace RamInode

/-- Calls from `pos` on with buffers of these sizes, until one returns 0, emit these slots. -/
inductive Lists (n : RamInode) : Nat → (Nat → Nat) → List Nat → Prop
  | done {pos : Nat} {sizes : Nat → Nat} {out : List Nat} (h : n.Returns pos (sizes 0) (0, out)) :
    Lists n pos sizes []
  | more {pos w : Nat} {sizes : Nat → Nat} {out rest : List Nat}
    (h : n.Returns pos (sizes 0) (w, out))
    (hw : w ≠ 0) (hrest : Lists n (pos + out.length) (fun k => sizes (k + 1)) rest) :
    Lists n pos sizes (out ++ rest)

variable {n : RamInode} {pos : Nat}

theorem end_of_listLoop {rounds : Nat} {out l : List Nat} (h : n.listLoop pos rounds out = some l) :
    n.readdir (pos + l.length) = some [] :=
  (listLoop_invariant (I := fun _ => True) (fun _ _ _ _ => trivial) h trivial).2

theorem named_of_listLoop {rounds : Nat} {out l : List Nat} (h : n.listLoop pos rounds out = some l)
    (hout : ∀ i ∈ out, (n.dirents i).nameLen ∈ Set.Icc 1 maxName) :
    ∀ i ∈ l, (n.dirents i).nameLen ∈ Set.Icc 1 maxName := by
  refine (listLoop_invariant (I := fun l => ∀ i ∈ l, (n.dirents i).nameLen ∈ Set.Icc 1 maxName)
    (fun out is hout hread i hi => ?_) h hout).1
  rcases List.mem_append.mp hi with hold | hnew
  · exact hout i hold
  · obtain ⟨hmem, hname⟩ := List.mem_filter.mp hnew
    unfold readdir at hread
    split_ifs at hread with hall
    cases hread
    exact ⟨Nat.one_le_iff_ne_zero.mpr (by simpa using hname), hall i hmem⟩

theorem Lists.nil_of_readdir_nil {sizes : Nat → Nat} {l : List Nat} (h : n.Lists pos sizes l)
    (hnil : n.readdir pos = some []) : l = [] := by
  cases h with
  | done => rfl
  | more h hw _ =>
    obtain ⟨rounds, hloop⟩ := h
    cases rounds with
    | zero => cases hloop
    | succ rounds =>
      rw [getdentsLoop] at hloop
      simp only [List.length_nil, Nat.add_zero, hnil, Option.some.injEq, Prod.mk.injEq] at hloop
      exact absurd hloop.1.symm hw

theorem filter_range_ge {k off : Nat} (h : off ≤ k) :
    ((List.range k).filter fun i => off ≤ i) = List.range' off (k - off) := by
  have hsplit : List.range k = List.range off ++ List.range' off (k - off) := by
    conv_lhs => rw [show k = off + (k - off) by omega]
    rw [List.range_eq_range', List.range_eq_range', ← List.range'_append_1, Nat.zero_add]
  rw [hsplit, List.filter_append, List.filter_eq_nil_iff.mpr, List.filter_eq_self.mpr,
    List.nil_append]
  · intro i hi
    simpa using (List.mem_range'_1.mp hi).1
  · intro i hi
    simpa using List.mem_range.mp hi

/-- In a directory without gaps, all of whose entries have names, the rounds emit every entry. -/
theorem listLoop_range {k : Nat} (hlive : n.live = List.range k)
    (hnames : ∀ i < k, (n.dirents i).nameLen ∈ Set.Icc 1 maxName)
    {off rounds : Nat} (hoff : off ≤ k)
    (hrounds : k - off < rounds) : n.listLoop 0 rounds (List.range off) = some (List.range k) := by
  induction rounds generalizing off with
  | zero => omega
  | succ rounds ih =>
    have hbatch : n.batch off = List.range' off (min 10 (k - off)) := by
      rw [batch, hlive, filter_range_ge hoff]
      rcases Nat.le_total 10 (k - off) with hge | hle
      · rw [min_eq_left hge, show k - off = 10 + (k - off - 10) by omega, ← List.range'_append_1,
          List.take_left' (by simp)]
      · rw [min_eq_right hle, List.take_of_length_le (by simpa using hle)]
    have hlt {i : Nat} (hi : i ∈ n.batch off) : i < k := by
      rw [hbatch, List.mem_range'_1] at hi
      omega
    have hread : n.readdir (0 + (List.range off).length) = some (n.batch off) := by
      rw [List.length_range, Nat.zero_add, readdir, if_pos fun i hi => (hnames i (hlt hi)).2]
    have hnamed : n.named (n.batch off) = n.batch off := List.filter_eq_self.mpr fun i hi => by
      simpa using Nat.one_le_iff_ne_zero.mp (hnames i (hlt hi)).1
    rw [listLoop, hread]
    rcases Nat.lt_or_ge off k with hmore | hend
    · have hnext : List.range off ++ n.batch off = List.range (off + min 10 (k - off)) := by
        rw [hbatch, List.range_eq_range', List.range_eq_range', ← List.range'_append_1,
          Nat.zero_add]
      obtain ⟨i, is, his⟩ : ∃ i is, n.batch off = i :: is :=
        List.exists_cons_of_ne_nil fun h0 => by
          rw [h0, eq_comm, List.range'_eq_nil_iff] at hbatch
          omega
      rw [his] at hnamed hnext ⊢
      simp only
      rw [hnamed, hnext]
      exact ih (by omega) (by omega)
    · have hnil : n.batch off = [] := by rw [hbatch, show min 10 (k - off) = 0 by omega]; rfl
      rw [hnil, show off = k by omega]

end RamInode

/-- Repeated calls list every entry of a directory once exactly if no entry comes after a gap, every
entry has a name, and the first buffer holds them all. -/
theorem getdents_lists_iff (n : RamInode) (sizes : Nat → Nat) :
    (∃ l, n.Lists 0 sizes l ∧ l.Perm n.live) ↔ n.live = List.range n.live.length ∧
      (∀ i ∈ n.live, (n.dirents i).nameLen ∈ Set.Icc 1 maxName) ∧ n.total n.live ≤ sizes 0 := by
  constructor
  · rintro ⟨l, hlists, hperm⟩
    cases hlists with
    | done h =>
      have hnil := hperm.symm.eq_nil
      rw [hnil]
      exact ⟨rfl, by simp, by simp [total]⟩
    | @more _ w _ out rest h hw hrest =>
      obtain ⟨⟨rounds, hlist⟩, hr, hle⟩ := returns_iff.mp h
      simp only at hlist hr hle
      have hend := end_of_listLoop hlist
      rw [hrest.nil_of_readdir_nil hend, List.append_nil] at hperm
      have hlen : out.length = n.live.length := hperm.length_eq
      have hsorted : n.live.Pairwise (· < ·) := List.pairwise_lt_range.filter _
      have hsub : n.live ⊆ List.range n.live.length := fun s hs =>
        List.mem_range.mpr (by have := lt_of_readdir_nil hend hs; omega)
      have hall : n.live.Perm (List.range n.live.length) :=
        (List.subperm_of_subset (hsorted.imp fun h => h.ne) hsub).perm_of_length_le (by simp)
      refine ⟨?_, fun i hi => ?_, ?_⟩
      · exact hall.eq_of_pairwise' (hsorted.imp le_of_lt) (List.pairwise_lt_range.imp le_of_lt)
      · exact named_of_listLoop hlist (by simp) i (hperm.mem_iff.mpr hi)
      · rw [show n.total n.live = n.total out from ((hperm.map n.len).sum_eq).symm]
        exact hle
  · rintro ⟨hlive, hnames, hle⟩
    set k := n.live.length with hk
    have hlist := listLoop_range hlive (fun i hi => hnames i (hlive ▸ List.mem_range.mpr hi))
      (Nat.zero_le k) (show k - 0 < k + 1 by omega)
    have hret : n.Returns 0 (sizes 0) (n.total (List.range k), List.range k) :=
      returns_iff.mpr ⟨⟨_, hlist⟩, rfl, hlive ▸ hle⟩
    have hend : n.Returns (0 + (List.range k).length) (sizes 1) (0, []) := by
      refine ⟨1, ?_⟩
      have hnil : n.readdir (0 + (List.range k).length + 0) = some [] := end_of_listLoop hlist
      rw [getdentsLoop, List.length_nil, hnil]
    refine ⟨List.range k, ?_, hlive ▸ List.Perm.refl _⟩
    by_cases h0 : n.total (List.range k) = 0
    · have hzero : k = 0 := by
        by_contra hne
        have hle' : n.len 0 ≤ n.total (List.range k) := List.single_le_sum (by simp) _
          (List.mem_map_of_mem (List.mem_range.mpr (Nat.pos_of_ne_zero hne)))
        have hpos : 0 < n.len 0 := by unfold len recLen; omega
        omega
      rw [h0] at hret
      rw [hzero] at hret ⊢
      exact Lists.done hret
    · have := Lists.more hret h0 (Lists.done hend)
      rwa [List.append_nil] at this

/-- A directory with a gap: `bin` is gone, `lib` is in slot 1. One large buffer gets it twice. -/
theorem getdents_lists_twice :
    ((Ramfs.init.remove 0 [98, 105, 110]).2.inodes 0).Returns 0 1000 (48, [1, 1]) :=
  ⟨3, by decide⟩

end Rynex.Fs
