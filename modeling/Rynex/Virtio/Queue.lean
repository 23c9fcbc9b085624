import Rynex.Lib.Fallible

/-! The descriptors of a virtio queue, as `virtio_blk.rs` hands them out and takes them back. -/

namespace Rynex.Virtio

open Rynex.Lib

def maxQueueSize : Nat := 256
def descFNext : Nat := 1
def descFWrite : Nat := 2

structure VirtqDesc where
  addr : Nat
  len : Nat
  flags : Nat
  next : Nat
deriving DecidableEq, Repr

/-- The fields of a queue that its descriptors concern. The legacy queue keeps the same ones in the
device record. -/
structure VirtQueue where
  queueSize : Nat
  desc : Nat → VirtqDesc
  numFree : Nat
  freeList : Nat → Nat

namespace VirtQueue

variable (q : VirtQueue)

/-- A queue of `n` descriptors as `VirtQueue::new` and `setup_legacy_virtqueue` leave it. -/
def new (n : Nat) : VirtQueue := ⟨n, fun _ => ⟨0, 0, 0, 0⟩, n, fun i => if i < n then i else 0⟩

/-- The index into the free list that both functions use, unless it is out of bounds. -/
def top : Option Nat :=
  if q.numFree ≤ q.queueSize ∧ q.queueSize - q.numFree < maxQueueSize then
    some (q.queueSize - q.numFree)
  else none

def allocateDesc : Option (Option Nat × VirtQueue) :=
  if q.numFree = 0 then some (none, q)
  else q.top.map fun i => (some (q.freeList i), { q with numFree := q.numFree - 1 })

def push (d : Nat) : Option VirtQueue :=
  q.top.map fun i =>
    { q with freeList := Function.update q.freeList i d, numFree := q.numFree + 1 }

/-- The loop of `free_desc_chain`. Each round frees one descriptor more, so that it is at an index
out of bounds after as many rounds as there are descriptors. -/
def freeLoop : Nat → VirtQueue → Nat → Option VirtQueue
  | 0, _, _ => none
  | fuel + 1, q, head =>
    match q.push head with
    | none => none
    | some q' =>
      if (q.desc head).flags &&& descFNext = 0 then some q'
      else freeLoop fuel q' (q.desc head).next

def freeDescChain (head : Nat) : Option VirtQueue := freeLoop (q.queueSize + 1) q head

def legacyAllocateDesc : Option (Option Nat × VirtQueue) := q.allocateDesc

def legacyFreeDescChain (head : Nat) : Option VirtQueue := q.freeDescChain head

def setDesc (d : Nat) (e : VirtqDesc) : VirtQueue := { q with desc := Function.update q.desc d e }

def addBuf (head : Nat) (writable : Bool) (len : Nat) : VirtQueue :=
  q.setDesc head { q.desc head with len := len, flags := if writable then descFWrite else 0 }

/-- `chain_desc` and `legacy_chain_desc`. -/
def chainDesc (head next : Nat) : VirtQueue :=
  q.setDesc head { q.desc head with flags := (q.desc head).flags ||| descFNext, next := next }

def freeEntries : List Nat :=
  (List.range' (q.queueSize - q.numFree) q.numFree).map q.freeList

end VirtQueue

/-- A queue with the chains that are in flight, each from its head on. -/
structure Flight where
  queue : VirtQueue
  chains : List (List Nat)

/-- A chain is begun with one descriptor, gets one more, or is completed by the device. -/
inductive DescEvent where
  | start
  | extend (k : Nat) (writable : Bool)
  | complete (k : Nat)
deriving DecidableEq, Repr

namespace Flight

variable {s s' : Flight}

def step (s : Flight) : DescEvent → Option Flight
  | .start =>
    s.queue.allocateDesc.map fun
      | (none, _) => s
      | (some d, q) => ⟨q.addBuf d false 16, s.chains ++ [[d]]⟩
  | .extend k writable =>
    match s.chains[k]? with
    | none => some s
    | some c =>
      s.queue.allocateDesc.map fun
        | (none, _) => s
        | (some d, q) =>
          ⟨(q.addBuf d writable 1).chainDesc (c.getLastD 0) d, s.chains.set k (c ++ [d])⟩
  | .complete k =>
    match s.chains[k]? with
    | none => some s
    | some c => (s.queue.freeDescChain (c.headD 0)).map fun q => ⟨q, s.chains.eraseIdx k⟩

/-- Every descriptor of the queue is either one of the `num_free` free entries or in flight, and
only once. -/
structure Sound (s : Flight) : Prop where
  numFree : s.queue.numFree ≤ s.queue.queueSize
  perm : (s.queue.freeEntries ++ s.chains.flatten).Perm (List.range s.queue.queueSize)

/-- A completed chain holds the last descriptors that the queue had, and the free list has room
behind its last entry. -/
def Harmless (s : Flight) : DescEvent → Prop
  | .complete k => ∀ c, s.chains[k]? = some c → s.queue.numFree = 0 ∧
      s.queue.queueSize < maxQueueSize ∧
      c.headD 0 = s.queue.freeList (s.queue.queueSize - c.length)
  | _ => True

/-! ### Chains in memory -/

def Linked (desc : Nat → VirtqDesc) : List Nat → Prop
  | [] => True
  | [d] => (desc d).flags &&& descFNext = 0
  | d :: e :: c => (desc d).flags &&& descFNext ≠ 0 ∧ (desc d).next = e ∧ Linked desc (e :: c)

theorem Linked.congr {desc desc' : Nat → VirtqDesc} {c : List Nat} (h : Linked desc c)
    (heq : ∀ d ∈ c, desc' d = desc d) : Linked desc' c := by
  induction c with
  | nil => trivial
  | cons d c ih =>
    cases c with
    | nil => simpa [Linked, heq] using h
    | cons e c =>
      obtain ⟨hflags, hnext, hrest⟩ := h
      have hd := heq d List.mem_cons_self
      exact ⟨hd ▸ hflags, hd ▸ hnext, ih hrest fun x hx => heq x (List.mem_cons_of_mem d hx)⟩

theorem or_next_and_next (flags : Nat) : (flags ||| descFNext) &&& descFNext ≠ 0 := by
  simp [descFNext, Nat.and_one_is_mod]

theorem Linked.snoc {desc desc' : Nat → VirtqDesc} {c : List Nat} {l d : Nat}
    (h : Linked desc (c ++ [l])) (heq : ∀ e ∈ c, desc' e = desc e)
    (hlast : (desc' l).flags &&& descFNext ≠ 0 ∧ (desc' l).next = d)
    (hnew : (desc' d).flags &&& descFNext = 0) : Linked desc' (c ++ [l, d]) := by
  induction c with
  | nil => exact ⟨hlast.1, hlast.2, hnew⟩
  | cons a c ih =>
    have ha := heq a List.mem_cons_self
    cases c with
    | nil =>
      obtain ⟨hflags, hnext, -⟩ := h
      exact ⟨ha ▸ hflags, ha ▸ hnext, hlast.1, hlast.2, hnew⟩
    | cons b c =>
      obtain ⟨hflags, hnext, hrest⟩ := h
      exact ⟨ha ▸ hflags, ha ▸ hnext, ih hrest fun e he => heq e (List.mem_cons_of_mem a he)⟩

theorem freeLoop_eq {q : VirtQueue} {c : List Nat} {fuel : Nat} (h : Linked q.desc c) (hne : c ≠ [])
    (hfuel : c.length ≤ fuel) : q.freeLoop fuel (c.headD 0) = c.foldlM VirtQueue.push q := by
  induction c generalizing q fuel with
  | nil => exact absurd rfl hne
  | cons d c ih =>
    obtain ⟨fuel, rfl⟩ : ∃ k, fuel = k + 1 := ⟨fuel - 1, by simp at hfuel; omega⟩
    rw [List.headD_cons, VirtQueue.freeLoop, List.foldlM_cons]
    cases hpush : q.push d with
    | none => rfl
    | some q' =>
      obtain ⟨i, -, rfl⟩ := Option.map_eq_some_iff.mp hpush
      cases c with
      | nil =>
        rw [Linked] at h
        simp [h]
      | cons e c =>
        obtain ⟨hflags, hnext, hrest⟩ := h
        simp only [hflags, if_false, hnext]
        exact ih (q := { q with freeList := _, numFree := _ }) hrest (by simp)
          (by simpa using hfuel)

/-- The free list with the chain written to it from entry `p` downwards. -/
def written (list : Nat → Nat) : Nat → List Nat → Nat → Nat
  | _, [] => list
  | p, d :: c => written (Function.update list p d) (p - 1) c

theorem written_apply {list : Nat → Nat} {c : List Nat} {p i : Nat} (hc : c.length ≤ p) :
    written list p c i = if p < i + c.length ∧ i ≤ p then c.getD (p - i) 0 else list i := by
  induction c generalizing list p with
  | nil =>
    simp [written]
  | cons d c ih =>
    rw [List.length_cons] at hc
    rw [written, ih (by omega)]
    rcases lt_trichotomy i p with hlt | rfl | hgt
    · have hidx : p - i = p - 1 - i + 1 := by omega
      rw [Function.update_of_ne hlt.ne, hidx, List.getD_cons_succ]
      exact if_congr (by rw [List.length_cons]; omega) rfl rfl
    · have hno : ¬ (i - 1 < i + c.length ∧ i ≤ i - 1) := by omega
      simp [hno, Function.update_self]
    · have hno : ¬ (p - 1 < i + c.length ∧ i ≤ p - 1) := by omega
      have hno' : ¬ (p < i + (d :: c).length ∧ i ≤ p) := by omega
      rw [if_neg hno, if_neg hno', Function.update_of_ne hgt.ne']

/-- Freeing a chain writes it to the free list, from the first entry that is free downwards. -/
theorem foldlM_push {q : VirtQueue} {c : List Nat} (hfree : q.numFree + c.length ≤ q.queueSize)
    (htop : q.queueSize - q.numFree < maxQueueSize) :
    c.foldlM VirtQueue.push q = some { q with
      freeList := written q.freeList (q.queueSize - q.numFree) c
      numFree := q.numFree + c.length } := by
  induction c generalizing q with
  | nil => rfl
  | cons d c ih =>
    rw [List.length_cons] at hfree
    have hcond : q.numFree ≤ q.queueSize ∧ q.queueSize - q.numFree < maxQueueSize :=
      ⟨by omega, htop⟩
    have hpush : q.push d = some { q with
        freeList := Function.update q.freeList (q.queueSize - q.numFree) d
        numFree := q.numFree + 1 } := by
      rw [VirtQueue.push, VirtQueue.top, if_pos hcond]
      rfl
    rw [List.foldlM_cons, hpush]
    change c.foldlM VirtQueue.push { q with freeList := _, numFree := _ } = _
    rw [ih (by simp only; omega) (by simp only; omega)]
    have hp : q.queueSize - (q.numFree + 1) = q.queueSize - q.numFree - 1 := by omega
    have hn : q.numFree + 1 + c.length = q.numFree + (c.length + 1) := by omega
    simp only [written, List.length_cons, hp, hn]

/-! ### Runs -/

/-- The free list is still a permutation of the descriptors. Those in flight are its first entries,
each chain in the order in which it was handed out. -/
structure Aligned (s : Flight) : Prop where
  size : s.queue.queueSize ≤ maxQueueSize
  numFree : s.queue.numFree ≤ s.queue.queueSize
  inj : ∀ i < s.queue.queueSize, ∀ j < s.queue.queueSize,
    s.queue.freeList i = s.queue.freeList j → i = j
  lt : ∀ i < s.queue.queueSize, s.queue.freeList i < s.queue.queueSize
  linked : ∀ c ∈ s.chains, Linked s.queue.desc c
  chains : ∃ ps : List (List Nat), s.chains = ps.map (List.map s.queue.freeList) ∧
    ps.flatten.Perm (List.range (s.queue.queueSize - s.queue.numFree)) ∧
    ∀ p ∈ ps, p ≠ [] ∧ p.Pairwise (· < ·)

theorem aligned_new {n : Nat} (hn : n ≤ maxQueueSize) : Aligned ⟨.new n, []⟩ where
  size := hn
  numFree := le_rfl
  inj i hi j hj h := by
    simp only [VirtQueue.new] at hi hj h
    simpa [hi, hj] using h
  lt i hi := by
    simp only [VirtQueue.new] at hi ⊢
    simp [hi]
  linked := by simp
  chains := ⟨[], rfl, by simp [VirtQueue.new], by simp⟩

namespace Aligned

theorem sound (h : Aligned s) : Sound s := by
  obtain ⟨ps, hps, hperm, -⟩ := h.chains
  refine ⟨h.numFree, ?_⟩
  set n := s.queue.queueSize
  set L := s.queue.freeList
  have hnodup : ((List.range n).map L).Nodup := List.Nodup.map_on
    (fun i hi j hj he => h.inj i (List.mem_range.mp hi) j (List.mem_range.mp hj) he)
      List.nodup_range
  have hsub : (List.range n).map L ⊆ List.range n := fun d hd => by
    obtain ⟨i, hi, rfl⟩ := List.mem_map.mp hd
    exact List.mem_range.mpr (h.lt i (List.mem_range.mp hi))
  have hself : ((List.range n).map L).Perm (List.range n) :=
    (List.subperm_of_subset hnodup hsub).perm_of_length_le (by simp)
  have hsplit : List.range n =
      List.range (n - s.queue.numFree) ++ List.range' (n - s.queue.numFree) s.queue.numFree := by
    have hn : n = n - s.queue.numFree + s.queue.numFree := by have := h.numFree; omega
    conv_lhs => rw [hn]
    rw [List.range_eq_range', List.range_eq_range', ← List.range'_append_1, Nat.zero_add]
  have hflat : s.chains.flatten = ps.flatten.map L := by rw [hps, List.map_flatten]
  calc s.queue.freeEntries ++ s.chains.flatten
      _ = (List.range' (n - s.queue.numFree) s.queue.numFree).map L ++ ps.flatten.map L := by
        rw [hflat]; rfl
      List.Perm _ (((List.range' (n - s.queue.numFree) s.queue.numFree) ++
          List.range (n - s.queue.numFree)).map L) := by
        rw [List.map_append]
        exact (hperm.map L).append_left _
      List.Perm _ ((List.range n).map L) := by
        rw [hsplit]
        exact List.perm_append_comm.map L
      List.Perm _ (List.range n) := hself

theorem position (h : Aligned s) {c : List Nat} {d : Nat} (hc : c ∈ s.chains) (hd : d ∈ c) :
    ∃ j < s.queue.queueSize - s.queue.numFree, d = s.queue.freeList j := by
  obtain ⟨ps, hps, hperm, -⟩ := h.chains
  rw [hps] at hc
  obtain ⟨p, hp, rfl⟩ := List.mem_map.mp hc
  obtain ⟨j, hj, rfl⟩ := List.mem_map.mp hd
  exact ⟨j, List.mem_range.mp (hperm.mem_iff.mp (List.mem_flatten.mpr ⟨p, hp, hj⟩)), rfl⟩

theorem allocateDesc (h : Aligned s) (hfree : s.queue.numFree ≠ 0) :
    s.queue.allocateDesc =
      some (some (s.queue.freeList (s.queue.queueSize - s.queue.numFree)),
        { s.queue with numFree := s.queue.numFree - 1 }) := by
  have hsize := h.size
  have hnum := h.numFree
  rw [VirtQueue.allocateDesc, if_neg hfree, VirtQueue.top, if_pos ⟨hnum, by omega⟩]
  rfl

theorem fresh (h : Aligned s) (hfree : s.queue.numFree ≠ 0) {c : List Nat} (hc : c ∈ s.chains) :
    s.queue.freeList (s.queue.queueSize - s.queue.numFree) ∉ c := by
  intro hmem
  obtain ⟨j, hj, heq⟩ := h.position hc hmem
  have hnum := h.numFree
  have := h.inj _ (by omega) j (by omega) heq
  omega

theorem handOut (h : Aligned s) (hfree : s.queue.numFree ≠ 0) {desc : Nat → VirtqDesc}
    {ps : List (List Nat)} (hlinked : ∀ p ∈ ps, Linked desc (p.map s.queue.freeList))
    (hperm : ps.flatten.Perm (List.range (s.queue.queueSize - s.queue.numFree + 1)))
    (hsorted : ∀ p ∈ ps, p ≠ [] ∧ p.Pairwise (· < ·)) :
    Aligned ⟨{ s.queue with desc := desc, numFree := s.queue.numFree - 1 },
      ps.map (List.map s.queue.freeList)⟩ where
  size := h.size
  numFree := (Nat.sub_le _ _).trans h.numFree
  inj := h.inj
  lt := h.lt
  linked := by simpa using hlinked
  chains := by
    refine ⟨ps, rfl, ?_, hsorted⟩
    have hnum := h.numFree
    rwa [show s.queue.queueSize - (s.queue.numFree - 1) = s.queue.queueSize - s.queue.numFree + 1 by
      omega]

theorem start (h : Aligned s) : ∃ s', s.step .start = some s' ∧ Aligned s' := by
  by_cases hfree : s.queue.numFree = 0
  · exact ⟨s, by simp [step, VirtQueue.allocateDesc, hfree], h⟩
  · obtain ⟨ps, hps, hperm, hsorted⟩ := h.chains
    set i := s.queue.queueSize - s.queue.numFree with hi
    have hstep : s.step .start = some ⟨{ s.queue with
        desc := Function.update s.queue.desc (s.queue.freeList i)
          { s.queue.desc (s.queue.freeList i) with len := 16, flags := 0 }
        numFree := s.queue.numFree - 1 }, s.chains ++ [[s.queue.freeList i]]⟩ := by
      rw [step, h.allocateDesc hfree]
      rfl
    refine ⟨_, hstep, ?_⟩
    rw [hps, show ps.map (List.map s.queue.freeList) ++ [[s.queue.freeList i]] =
      (ps ++ [[i]]).map (List.map s.queue.freeList) by simp]
    refine h.handOut hfree (fun p hp => ?_) ?_ ?_
    · rcases List.mem_append.mp hp with hold | hnew
      · have hmem : p.map s.queue.freeList ∈ s.chains := hps ▸ List.mem_map_of_mem hold
        refine (h.linked _ hmem).congr fun d hd => Function.update_of_ne ?_ _ _
        rintro rfl
        exact h.fresh hfree hmem hd
      · rw [List.mem_singleton.mp hnew]
        simp [Linked, Function.update_self]
    · rw [List.flatten_append, List.range_succ]
      exact hperm.append_right [i]
    · intro p hp
      rcases List.mem_append.mp hp with hold | hnew
      · exact hsorted p hold
      · rw [List.mem_singleton.mp hnew]
        exact ⟨by simp, by simp⟩

theorem split (h : Aligned s) {k : Nat} {c : List Nat} (hc : s.chains[k]? = some c) :
    ∃ pl p pr, s.chains = (pl ++ p :: pr).map (List.map s.queue.freeList) ∧ pl.length = k ∧
      c = p.map s.queue.freeList ∧
      (pl ++ p :: pr).flatten.Perm (List.range (s.queue.queueSize - s.queue.numFree)) ∧
      ∀ p' ∈ pl ++ p :: pr, p' ≠ [] ∧ p'.Pairwise (· < ·) := by
  obtain ⟨ps, hps, hperm, hsorted⟩ := h.chains
  rw [hps, List.getElem?_map, Option.map_eq_some_iff] at hc
  obtain ⟨p, hp, rfl⟩ := hc
  obtain ⟨hk, rfl⟩ := List.getElem?_eq_some_iff.mp hp
  have hdec : ps = ps.take k ++ ps[k] :: ps.drop (k + 1) := by
    rw [← List.drop_eq_getElem_cons hk, List.take_append_drop]
  refine ⟨ps.take k, ps[k], ps.drop (k + 1), ?_, ?_, rfl, ?_, ?_⟩
  · rw [← hdec, hps]
  · rw [List.length_take, min_eq_left hk.le]
  · rwa [← hdec]
  · rwa [← hdec]

theorem extend (h : Aligned s) (k : Nat) (writable : Bool) :
    ∃ s', s.step (.extend k writable) = some s' ∧ Aligned s' := by
  cases hc : s.chains[k]? with
  | none => exact ⟨s, by simp [step, hc], h⟩
  | some c =>
    by_cases hfree : s.queue.numFree = 0
    · exact ⟨s, by simp [step, hc, VirtQueue.allocateDesc, hfree], h⟩
    · obtain ⟨pl, p, pr, hps, rfl, rfl, hperm, hsorted⟩ := h.split hc
      set i := s.queue.queueSize - s.queue.numFree with hi
      set L := s.queue.freeList with hL
      obtain ⟨hne, hlt⟩ := hsorted p (by simp)
      obtain ⟨p, j, rfl⟩ : ∃ p' j, p = p' ++ [j] := ⟨_, _, (List.dropLast_append_getLast hne).symm⟩
      have hpos : ∀ x ∈ (pl ++ (p ++ [j]) :: pr).flatten, x < i :=
        fun x hx => List.mem_range.mp (hperm.mem_iff.mp hx)
      have hmem : ∀ p' ∈ pl ++ (p ++ [j]) :: pr, p'.map L ∈ s.chains :=
        fun p' hp' => hps ▸ List.mem_map_of_mem hp'
      have hnodup : (pl ++ (p ++ [j]) :: pr).flatten.Nodup := hperm.nodup_iff.mpr List.nodup_range
      -- What `add_buf` and `chain_desc` make of the descriptors.
      let added := Function.update s.queue.desc (L i)
        { s.queue.desc (L i) with len := 1, flags := if writable then descFWrite else 0 }
      let chained := Function.update added (L j)
        { added (L j) with flags := (added (L j)).flags ||| descFNext, next := L i }
      have hstep : s.step (.extend pl.length writable) = some ⟨{ s.queue with
          desc := chained, numFree := s.queue.numFree - 1 },
          (pl ++ (p ++ [j, i]) :: pr).map (List.map L)⟩ := by
        have hset : s.chains.set pl.length ((p ++ [j]).map L ++ [L i]) =
            (pl ++ (p ++ [j, i]) :: pr).map (List.map L) := by
          rw [hps]
          simp
        have hlast : ((p ++ [j]).map L).getLastD 0 = L j := by simp
        rw [← hset, step, hc]
        simp only
        rw [h.allocateDesc hfree, ← hi, ← hL]
        simp only [Option.map_some, hlast]
        rfl
      have hother : ∀ x < i, x ≠ j → chained (L x) = s.queue.desc (L x) := by
        intro x hx hxj
        have hn := h.numFree
        have hj := hpos j (by simp)
        have h1 : L x ≠ L j := fun he => hxj (h.inj x (by omega) j (by omega) he)
        have h2 : L x ≠ L i := fun he => by
          have := h.inj x (by omega) i (by omega) he
          omega
        simp only [chained, added]
        rw [Function.update_of_ne h1, Function.update_of_ne h2]
      have hij : L i ≠ L j := fun he => by
        have hn := h.numFree
        have hj := hpos j (by simp)
        have := h.inj i (by omega) j (by omega) he
        omega
      have hflat : (pl ++ (p ++ [j, i]) :: pr).flatten.Perm
          ((pl ++ (p ++ [j]) :: pr).flatten ++ [i]) := by
        simp only [List.flatten_append, List.flatten_cons, List.append_assoc]
        refine (List.Perm.append_left p ?_).append_left pl.flatten
        simpa using (List.perm_append_comm : ([i] ++ pr.flatten).Perm _).cons j
      have hnotin : ∀ p' ∈ pl ++ pr, j ∉ p' := by
        have hall : ((p ++ [j]) ++ (pl ++ pr).flatten).Nodup :=
          (List.perm_middle.flatten).nodup_iff.mp hnodup
        intro p' hp' hj
        exact (List.disjoint_of_nodup_append hall) (by simp) (List.mem_flatten.mpr ⟨p', hp', hj⟩)
      have hcase : ∀ p' ∈ pl ++ (p ++ [j, i]) :: pr, p' ∈ pl ++ pr ∨ p' = p ++ [j, i] := by
        intro p' hp'
        simp only [List.mem_append, List.mem_cons] at hp' ⊢
        tauto
      have hold : ∀ p' ∈ pl ++ pr, p' ∈ pl ++ (p ++ [j]) :: pr := by
        intro p' hp'
        simp only [List.mem_append, List.mem_cons] at hp' ⊢
        tauto
      refine ⟨_, hstep, h.handOut hfree (fun p' hp' => ?_) ?_ fun p' hp' => ?_⟩
      · rcases hcase p' hp' with ho | rfl
        · refine (h.linked _ (hmem p' (hold p' ho))).congr fun d hd => ?_
          obtain ⟨x, hx, rfl⟩ := List.mem_map.mp hd
          refine hother x (hpos x (List.mem_flatten.mpr ⟨p', hold p' ho, hx⟩)) ?_
          rintro rfl
          exact hnotin p' ho hx
        · have hlink := h.linked _ (hmem (p ++ [j]) (by simp))
          rw [List.map_append] at hlink ⊢
          refine hlink.snoc (fun d hd => ?_) ?_ ?_
          · obtain ⟨x, hx, rfl⟩ := List.mem_map.mp hd
            refine hother x (hpos x (by simp [hx])) (ne_of_lt ?_)
            exact (List.pairwise_append.mp hlt).2.2 x hx j (by simp)
          · simp only [chained, Function.update_self]
            exact ⟨or_next_and_next _, rfl⟩
          · have hnew : chained (L i) = added (L i) := Function.update_of_ne hij _ _
            change (chained (L i)).flags &&& descFNext = 0
            rw [hnew]
            simp only [added, Function.update_self]
            cases writable <;> rfl
      · rw [List.range_succ]
        exact hflat.trans (hperm.append_right [i])
      · rcases hcase p' hp' with ho | rfl
        · exact hsorted p' (hold p' ho)
        · refine ⟨by simp, ?_⟩
          rw [show p ++ [j, i] = p ++ [j] ++ [i] by simp, List.pairwise_append]
          refine ⟨hlt, by simp, fun x hx y hy => ?_⟩
          rw [List.mem_singleton.mp hy]
          exact hpos x (List.mem_flatten.mpr ⟨p ++ [j], by simp, hx⟩)

theorem freeDescChain_eq (h : Aligned s) {k : Nat} {c : List Nat} (hc : s.chains[k]? = some c) :
    s.queue.freeDescChain (c.headD 0) = c.foldlM VirtQueue.push s.queue ∧ c ≠ [] ∧
      s.queue.numFree + c.length ≤ s.queue.queueSize := by
  obtain ⟨pl, p, pr, hps, rfl, rfl, hperm, hsorted⟩ := h.split hc
  have hne : p ≠ [] := (hsorted p (by simp)).1
  have hlen : p.length ≤ s.queue.queueSize - s.queue.numFree := by
    have := hperm.length_eq
    simp only [List.flatten_append, List.flatten_cons, List.length_append,
      List.length_range] at this
    omega
  have hnum := h.numFree
  refine ⟨freeLoop_eq (h.linked _ (List.mem_of_getElem? hc)) (by simpa using hne) ?_,
    by simpa using hne, ?_⟩
  · rw [List.length_map]; omega
  · rw [List.length_map]; omega

theorem complete_eq (h : Aligned s) {k : Nat} {c : List Nat} (hc : s.chains[k]? = some c)
    (htop : s.queue.queueSize - s.queue.numFree < maxQueueSize) :
    s.step (.complete k) = some ⟨{ s.queue with
      freeList := written s.queue.freeList (s.queue.queueSize - s.queue.numFree) c
      numFree := s.queue.numFree + c.length }, s.chains.eraseIdx k⟩ := by
  obtain ⟨heq, -, hlen⟩ := h.freeDescChain_eq hc
  rw [step, hc]
  simp only
  rw [heq, foldlM_push hlen htop]
  rfl

theorem complete_panics (h : Aligned s) {k : Nat} {c : List Nat} (hc : s.chains[k]? = some c)
    (htop : ¬ s.queue.queueSize - s.queue.numFree < maxQueueSize) :
    s.step (.complete k) = none := by
  obtain ⟨heq, hne, -⟩ := h.freeDescChain_eq hc
  obtain ⟨d, c, rfl⟩ := List.exists_cons_of_ne_nil hne
  have hpush : s.queue.push d = none := by
    rw [VirtQueue.push, VirtQueue.top, if_neg fun hcond => htop hcond.2]
    rfl
  rw [step, hc]
  simp only
  rw [heq, List.foldlM_cons, hpush]
  rfl

/-- A chain that is not the last one handed out costs a descriptor: the one whose entry is
overwritten, or the head of the chain, which is written behind the last entry. -/
theorem complete_breaks (h : Aligned s) {k : Nat} (hbad : ¬ s.Harmless (.complete k))
    (hstep : s.step (.complete k) = some s') : ¬ Sound s' := by
  simp only [Harmless, not_forall] at hbad
  obtain ⟨ch, hc, hbad⟩ := hbad
  have hmem := List.mem_of_getElem? hc
  by_cases htop : s.queue.queueSize - s.queue.numFree < maxQueueSize
  swap
  · rw [h.complete_panics hc htop] at hstep
    cases hstep
  rw [h.complete_eq hc htop] at hstep
  cases hstep
  obtain ⟨-, hne, hlen⟩ := h.freeDescChain_eq hc
  have hpos := List.length_pos_iff.mpr hne
  intro hsound
  have hnodup : (s.chains.flatten).Nodup :=
    (List.nodup_append.mp (h.sound.perm.nodup_iff.mpr List.nodup_range)).2.1
  -- The value of an entry that is free now.
  have hentry {x : Nat} (hx : x ∈ (List.range' (s.queue.queueSize - (s.queue.numFree + ch.length))
      (s.queue.numFree + ch.length)).map (written s.queue.freeList
        (s.queue.queueSize - s.queue.numFree) ch)) :
      (∃ t, 0 < t + s.queue.numFree ∧ ∃ ht : t < ch.length, x = ch[t]) ∨
      ∃ y < s.queue.queueSize, x = s.queue.freeList y ∧
        (y = s.queue.queueSize - s.queue.numFree - ch.length ∨
          s.queue.queueSize - s.queue.numFree < y) := by
    obtain ⟨y, hy, rfl⟩ := List.mem_map.mp hx
    rw [List.mem_range'_1] at hy
    rw [written_apply (by omega)]
    split_ifs with hin
    · refine .inl ⟨s.queue.queueSize - s.queue.numFree - y, by omega, by omega, ?_⟩
      rw [List.getD_eq_getElem _ _ (by omega)]
    · exact .inr ⟨y, by omega, rfl, by omega⟩
  by_cases hfree : s.queue.numFree = 0
  · have hhead : ch.headD 0 = ch[0] := by
      obtain ⟨d, ch, rfl⟩ := List.exists_cons_of_ne_nil hne
      rfl
    have hlt : ch[0] < s.queue.queueSize := by
      obtain ⟨j, hj, heq⟩ := h.position hmem (List.getElem_mem hpos)
      rw [heq]
      exact h.lt j (by omega)
    rcases List.mem_append.mp (hsound.perm.mem_iff.mpr (List.mem_range.mpr hlt)) with hx | hx
    · rcases hentry hx with ⟨t, ht0, ht, heq⟩ | ⟨y, hy, heq, hcase⟩
      · have hc : ch.Nodup := (List.nodup_flatten.mp hnodup).1 ch hmem
        have := (hc.getElem_inj_iff).mp heq
        omega
      · refine hbad ⟨hfree, by simpa [hfree] using htop, ?_⟩
        rw [hhead, heq, show y = s.queue.queueSize - ch.length by omega]
    · obtain ⟨hk, rfl⟩ := List.getElem?_eq_some_iff.mp hc
      have hperm := (List.getElem_cons_eraseIdx_perm hk).flatten
      have hdis := List.disjoint_of_nodup_append (hperm.nodup_iff.mpr hnodup)
      exact hdis (List.getElem_mem hpos) hx
  · have hlt : s.queue.queueSize - s.queue.numFree < s.queue.queueSize := by omega
    rcases List.mem_append.mp (hsound.perm.mem_iff.mpr (List.mem_range.mpr (h.lt _ hlt))) with hx |
      hx
    · rcases hentry hx with ⟨t, ht0, ht, heq⟩ | ⟨y, hy, heq, hcase⟩
      · exact h.fresh hfree hmem (heq ▸ List.getElem_mem ht)
      · have := h.inj _ hlt y hy heq
        omega
    · obtain ⟨c', hc', hx⟩ := List.mem_flatten.mp hx
      exact h.fresh hfree (List.mem_of_mem_eraseIdx hc') hx

/-- The last chain handed out goes back to the entries that it came from, in another order. -/
theorem complete (h : Aligned s) {k : Nat} (hok : s.Harmless (.complete k)) :
    ∃ s', s.step (.complete k) = some s' ∧ Aligned s' := by
  cases hc : s.chains[k]? with
  | none => exact ⟨s, by simp [step, hc], h⟩
  | some ch =>
    obtain ⟨hfree, hsize, hhead⟩ := hok ch hc
    refine ⟨_, h.complete_eq hc (by omega), ?_⟩
    obtain ⟨-, hne, hlen⟩ := h.freeDescChain_eq hc
    obtain ⟨pl, p, pr, hps, rfl, rfl, hperm, hsorted⟩ := h.split hc
    obtain ⟨a, p, rfl⟩ := List.exists_cons_of_ne_nil (hsorted p (by simp)).1
    set n := s.queue.queueSize with hn
    set L := s.queue.freeList with hL
    simp only [hfree, Nat.sub_zero, Nat.zero_add, List.length_map] at hhead hlen hperm ⊢
    have hlt : ∀ x ∈ a :: p, x < n := fun x hx =>
      List.mem_range.mp (hperm.mem_iff.mp (List.mem_flatten.mpr ⟨a :: p, by simp, hx⟩))
    have hincr := (hsorted (a :: p) (by simp)).2
    have ha : a = n - (a :: p).length :=
      h.inj a (hlt a List.mem_cons_self) _ (by simp only [List.length_cons] at hlen ⊢; omega) hhead
    have hge : ∀ x ∈ a :: p, n - (a :: p).length ≤ x := by
      intro x hx
      rcases List.mem_cons.mp hx with rfl | hx
      · exact ha.ge
      · exact ha ▸ ((List.pairwise_cons.mp hincr).1 x hx).le
    have hnodup : (a :: p).Nodup := hincr.imp fun hxy => hxy.ne
    set m := (a :: p).length with hm
    have hback : (a :: p).Perm (List.range' (n - m) m) := by
      refine (List.subperm_of_subset hnodup fun x hx => ?_).perm_of_length_le (by simp [hm])
      exact List.mem_range'_1.mpr ⟨hge x hx, by have := hlt x hx; omega⟩
    have hothers : (pl ++ pr).flatten.Perm (List.range (n - m)) := by
      have hall : ((a :: p) ++ (pl ++ pr).flatten).Perm
          (List.range' (n - m) m ++ List.range (n - m)) := by
        refine ((List.perm_middle.flatten).symm.trans hperm).trans ?_
        have hsplit : List.range n = List.range (n - m) ++ List.range' (n - m) m := by
          rw [show n = n - m + m by omega, List.range_eq_range', List.range_eq_range',
            ← List.range'_append_1, Nat.zero_add, Nat.add_sub_cancel]
        rw [hsplit]
        exact List.perm_append_comm
      exact (List.perm_append_left_iff _).mp ((hback.append_right _).symm.trans hall)
    -- Entry `y` of the new list is entry `pos y` of the old one.
    let pos (y : Nat) : Nat := if n < y + m then (a :: p).getD (n - y) 0 else y
    have hwritten : ∀ y < n, written L n ((a :: p).map L) y = L (pos y) := by
      intro y hy
      rw [written_apply (by simpa [hm] using hlen), List.length_map, ← hm]
      simp only [pos]
      split_ifs with h1 h2 h2
      · rw [List.getD_eq_getElem _ _ (by rw [List.length_map]; omega),
          List.getD_eq_getElem _ _ (by omega), List.getElem_map]
      · omega
      · omega
      · rfl
    have hposlt : ∀ y < n, pos y < n := by
      intro y hy
      simp only [pos]
      split_ifs with h1
      · rw [List.getD_eq_getElem _ _ (by omega)]
        exact hlt _ (List.getElem_mem _)
      · exact hy
    have hposinj : ∀ y < n, ∀ z < n, pos y = pos z → y = z := by
      -- The chain starts at the lowest of its entries, which stays where it is.
      have hup {y z : Nat} (hy : y < n) (h1 : n < y + m) (h2 : ¬ n < z + m)
          (he : (a :: p).getD (n - y) 0 = z) : False := by
        have hidx : n - y < (a :: p).length := by omega
        rw [List.getD_eq_getElem _ _ hidx] at he
        have := hge _ (List.getElem_mem hidx)
        have h0 : (a :: p)[n - y] = (a :: p)[0] := by rw [List.getElem_cons_zero]; omega
        have := hnodup.getElem_inj_iff.mp h0
        omega
      intro y hy z hz he
      simp only [pos] at he
      split_ifs at he with h1 h2 h2
      · rw [List.getD_eq_getElem _ _ (by omega), List.getD_eq_getElem _ _ (by omega)] at he
        have := hnodup.getElem_inj_iff.mp he
        omega
      · exact (hup hy h1 h2 he).elim
      · exact (hup hz h2 h1 he.symm).elim
      · exact he
    have herase : s.chains.eraseIdx pl.length = (pl ++ pr).map (List.map L) := by
      rw [hps, List.map_append, List.map_cons,
        List.eraseIdx_append_of_length_le (by simp), List.length_map, Nat.sub_self,
        List.eraseIdx_cons_zero, List.map_append]
    refine ⟨h.size, by simpa using hlen, fun y hy z hz he => ?_, fun y hy => ?_, fun c' hc' => ?_,
      pl ++ pr, ?_, by simpa using hothers, fun p' hp' => ?_⟩
    · exact hposinj y hy z hz (h.inj _ (hposlt y hy) _ (hposlt z hz)
        ((hwritten y hy).symm.trans (he.trans (hwritten z hz))))
    · exact (hwritten y hy).trans_lt (h.lt _ (hposlt y hy))
    · exact h.linked c' (List.mem_of_mem_eraseIdx hc')
    · rw [herase]
      refine List.map_congr_left fun p' hp' => List.map_congr_left fun x hx => ?_
      have hx' := List.mem_range.mp (hothers.mem_iff.mp (List.mem_flatten.mpr ⟨p', hp', hx⟩))
      change L x = written L n ((a :: p).map L) x
      rw [hwritten x (by omega)]
      simp only [pos, if_neg (show ¬ n < x + m by omega)]
    · refine hsorted p' ?_
      simp only [List.mem_append, List.mem_cons] at hp' ⊢
      tauto

end Aligned

end Flight

open Flight

/-- From a new queue of any size, the free list stays sound through a run exactly if every chain
that completes in it holds the last descriptors of a queue with none left and fewer than 256. -/
theorem free_list_sound_iff (n : Nat) (hn : n ≤ maxQueueSize) (es : List DescEvent) :
    Throughout step Sound ⟨.new n, []⟩ es ↔ Allowed step Harmless ⟨.new n, []⟩ es := by
  refine throughout_iff_allowed (I := Aligned) (fun _ h => h.sound) (fun s e h hok => ?_)
    (fun s e h hbad s' hstep => ?_) (aligned_new hn) es
  · cases e with
    | start => exact h.start
    | extend k writable => exact h.extend k writable
    | complete k => exact h.complete hok
  · cases e with
    | complete k => exact h.complete_breaks hbad hstep
    | start => exact absurd trivial hbad
    | extend k writable => exact absurd trivial hbad

/-- A queue of two descriptors, of which a chain takes both. -/
theorem free_list_sound_pair :
    Throughout step Sound ⟨.new 2, []⟩ [.start, .extend 0 true, .complete 0] :=
  (free_list_sound_iff 2 (by decide) _).mpr ⟨trivial, fun _ h₁ => by
    cases h₁
    refine ⟨trivial, fun _ h₂ => ?_⟩
    cases h₂
    exact ⟨by rintro _ ⟨⟩; exact ⟨rfl, by decide, rfl⟩, fun _ _ => trivial⟩⟩

/-- One chain of one descriptor comes back to a queue of four; then two allocations hand out that
descriptor twice. -/
theorem descriptor_handed_out_twice :
    ([.start, .complete 0, .start, .start].foldlM step ⟨.new 4, []⟩).map (·.chains) =
      some [[0], [0]] := by
  decide

end Rynex.Virtio
