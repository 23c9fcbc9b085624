import Mathlib

/-! Queues at several levels whose elements are linked through one array of next pointers, with a
head, a tail and a bit for each level. -/

namespace Rynex.Lib

@[ext]
structure LevelQueue (ι α σ : Type*) where
  heads : ι → Option α
  tails : ι → Option α
  bitmap : ι → Bool
  next : σ → Option α

namespace LevelQueue

variable {ι α σ : Type*}

def empty : LevelQueue ι α σ := ⟨fun _ => none, fun _ => none, fun _ => false, fun _ => none⟩

/-! ### The lists that the pointers stand for -/

variable {slot : α → σ} {r : LevelQueue ι α σ} {q : ι → List α} {next : σ → Option α}
  {x t : α} {p : ι} {l l₁ l₂ : List α} {head : Option α}

/-- The pointers lead from `head` through `l` and end there. -/
def Chain (slot : α → σ) (next : σ → Option α) : Option α → List α → Prop
  | head, [] => head = none
  | head, x :: l => head = some x ∧ Chain slot next (next (slot x)) l

/-- The levels are the lists `q`, and no slot is used twice. -/
structure Holds (slot : α → σ) (r : LevelQueue ι α σ) (q : ι → List α) : Prop where
  chain : ∀ p, Chain slot r.next (r.heads p) (q p)
  tail : ∀ p, r.tails p = (q p).getLast?
  bit : ∀ p, r.bitmap p = true ↔ q p ≠ []
  nodup : ∀ p, ((q p).map slot).Nodup
  apart : ∀ {p p' x y}, x ∈ q p → y ∈ q p' → slot x = slot y → p = p'

theorem holds_empty : Holds slot (empty : LevelQueue ι α σ) fun _ => [] where
  chain _ := rfl
  tail _ := rfl
  bit _ := by simp [empty]
  nodup _ := List.nodup_nil
  apart h := by cases h

theorem Chain.congr {next' : σ → Option α} (h : Chain slot next head l)
    (hnext : ∀ y ∈ l, next' (slot y) = next (slot y)) : Chain slot next' head l := by
  induction l generalizing head with
  | nil => exact h
  | cons y l ih =>
    refine ⟨h.1, ?_⟩
    rw [hnext y List.mem_cons_self]
    exact ih h.2 fun z hz => hnext z (List.mem_cons_of_mem _ hz)

theorem Holds.fresh_of_ne {y : α} {p' : ι} (h : Holds slot r q) (hx : x ∈ q p) (hy : y ∈ q p')
    (hp : p ≠ p') : slot y ≠ slot x :=
  fun heq => hp (h.apart hx hy heq.symm)

section Walk

variable [DecidableEq α]

/-- How a walk along the pointers ends. -/
inductive Walk (α : Type*) where
  | found (prev : Option α)
  | absent
  | loops

/-- The walk from `curr` to `x`. It loops if it takes more steps than there are elements. -/
def walk (slot : α → σ) (next : σ → Option α) (x : α) : Nat → Option α → Option α → Walk α
  | _, _, none => .absent
  | 0, _, some _ => .loops
  | n + 1, prev, some y =>
    if y = x then .found prev else walk slot next x n (some y) (next (slot y))

theorem walk_found {n : Nat} (prev : Option α) (h : Chain slot next head (l₁ ++ x :: l₂))
    (hx : x ∉ l₁) (hn : l₁.length < n) :
    walk slot next x n prev head = .found (l₁.getLast?.or prev) := by
  induction l₁ generalizing n head prev with
  | nil =>
    obtain ⟨n, rfl⟩ := Nat.exists_eq_succ_of_ne_zero (Nat.ne_of_gt hn)
    simp [walk, h.1]
  | cons y l₁ ih =>
    obtain ⟨n, rfl⟩ := Nat.exists_eq_succ_of_ne_zero (Nat.ne_of_gt (Nat.zero_lt_of_lt hn))
    have hyx : y ≠ x := fun heq => hx (heq ▸ List.mem_cons_self)
    rw [h.1, walk, if_neg hyx, ih _ h.2 (fun hmem => hx (List.mem_cons_of_mem _ hmem))
      (Nat.lt_of_succ_lt_succ hn)]
    cases l₁ with
    | nil => simp
    | cons z l₁ => simp [List.getLast?_cons]

theorem walk_absent {n : Nat} {prev : Option α} (h : Chain slot next head l) (hx : x ∉ l)
    (hn : l.length ≤ n) : walk slot next x n prev head = .absent := by
  induction l generalizing n head prev with
  | nil => simp [show head = none from h, walk]
  | cons y l ih =>
    obtain ⟨n, rfl⟩ := Nat.exists_eq_succ_of_ne_zero (Nat.ne_of_gt (Nat.zero_lt_of_lt hn))
    have hyx : y ≠ x := fun heq => hx (heq ▸ List.mem_cons_self)
    rw [h.1, walk, if_neg hyx]
    exact ih h.2 (fun hmem => hx (List.mem_cons_of_mem _ hmem)) (Nat.le_of_succ_le_succ hn)

end Walk

section Updates

variable [DecidableEq ι]

theorem Holds.shrink {r' : LevelQueue ι α σ} (h : Holds slot r q) (hsub : l.Sublist (q p))
    (hchain : Chain slot r'.next (r'.heads p) l)
    (htail : r'.tails p = l.getLast?) (hbit : r'.bitmap p = true ↔ l ≠ [])
    (hother : ∀ p', p' ≠ p → Chain slot r'.next (r'.heads p') (q p') ∧ r'.tails p' = r.tails p' ∧
      r'.bitmap p' = r.bitmap p') : Holds slot r' (Function.update q p l) := by
  have hsub' : ∀ p', (Function.update q p l p').Sublist (q p') := by
    intro p'
    obtain rfl | hp := eq_or_ne p' p
    · rwa [Function.update_self]
    · rw [Function.update_of_ne hp]
  refine ⟨fun p' => ?_, fun p' => ?_, fun p' => ?_, fun p' => ?_, fun hx hy heq => ?_⟩
  · obtain rfl | hp := eq_or_ne p' p
    · rwa [Function.update_self]
    · rw [Function.update_of_ne hp]
      exact (hother p' hp).1
  · obtain rfl | hp := eq_or_ne p' p
    · rwa [Function.update_self]
    · rw [Function.update_of_ne hp, (hother p' hp).2.1]
      exact h.tail p'
  · obtain rfl | hp := eq_or_ne p' p
    · rwa [Function.update_self]
    · rw [Function.update_of_ne hp, (hother p' hp).2.2]
      exact h.bit p'
  · exact (h.nodup p').sublist ((hsub' p').map slot)
  · exact h.apart ((hsub' _).subset hx) ((hsub' _).subset hy) heq

variable [DecidableEq σ]

theorem Chain.update {k : σ} {v : Option α} (h : Chain slot next head l)
    (hk : ∀ y ∈ l, slot y ≠ k) : Chain slot (Function.update next k v) head l :=
  h.congr fun y hy => Function.update_of_ne (hk y hy) _ _

omit [DecidableEq ι] in
theorem Holds.forget {k : σ} (h : Holds slot r q) (hk : ∀ p, ∀ y ∈ q p, slot y ≠ k) :
    Holds slot { r with next := Function.update r.next k none } q where
  chain p := (h.chain p).update (hk p)
  tail := h.tail
  bit := h.bit
  nodup := h.nodup
  apart := h.apart

theorem Chain.concat (h : Chain slot next head l) (ht : l.getLast? = some t)
    (hnodup : (l.map slot).Nodup) (hx : next (slot x) = none) (hfresh : ∀ y ∈ l, slot y ≠ slot x) :
    Chain slot (Function.update next (slot t) (some x)) head (l ++ [x]) := by
  induction l generalizing head with
  | nil => cases ht
  | cons y l ih =>
    refine ⟨h.1, ?_⟩
    cases l with
    | nil =>
      obtain rfl : y = t := by simpa using ht
      refine ⟨Function.update_self _ _ _, ?_⟩
      rw [Function.update_of_ne (hfresh y List.mem_cons_self).symm]
      exact hx
    | cons z l =>
      have hty : slot y ≠ slot t := by
        have hmem : t ∈ z :: l := List.mem_of_getLast? ht
        rw [List.map_cons, List.nodup_cons] at hnodup
        exact fun heq => hnodup.1 (heq ▸ List.mem_map_of_mem hmem)
      rw [Function.update_of_ne hty]
      exact ih h.2 ht (List.nodup_cons.mp hnodup).2 fun w hw => hfresh w (List.mem_cons_of_mem _ hw)

theorem Chain.bypass {y : α} (h : Chain slot next head (l₁ ++ y :: x :: l₂))
    (hnodup : ((l₁ ++ y :: x :: l₂).map slot).Nodup) :
    Chain slot (Function.update next (slot y) (next (slot x))) head (l₁ ++ y :: l₂) := by
  induction l₁ generalizing head with
  | nil =>
    refine ⟨h.1, ?_⟩
    rw [Function.update_self]
    simp only [List.nil_append, List.map_cons, List.nodup_cons, List.mem_cons, not_or] at hnodup
    exact h.2.2.update fun z hz heq => hnodup.1.2 (heq ▸ List.mem_map_of_mem hz)
  | cons z l₁ ih =>
    refine ⟨h.1, ?_⟩
    have hzy : slot z ≠ slot y := by
      simp only [List.cons_append, List.map_cons, List.nodup_cons, List.map_append] at hnodup
      intro heq
      exact hnodup.1 (by rw [heq]; simp)
    rw [Function.update_of_ne hzy]
    exact ih h.2 (List.nodup_cons.mp hnodup).2

/-! ### The operations -/

/-- Links `x`, whose pointer is in `slot x`, behind the tail of level `p`. -/
def enqueue (slot : α → σ) (r : LevelQueue ι α σ) (x : α) (p : ι) : LevelQueue ι α σ :=
  let next := Function.update r.next (slot x) none
  match r.tails p with
  | none =>
    { heads := Function.update r.heads p (some x)
      tails := Function.update r.tails p (some x)
      bitmap := Function.update r.bitmap p true
      next := next }
  | some t =>
    { r with
      tails := Function.update r.tails p (some x)
      next := Function.update next (slot t) (some x) }

/-- Unlinks the head of the first level whose bit is set. -/
def dequeue (slot : α → σ) (levels : List ι) (r : LevelQueue ι α σ) :
    Option α × LevelQueue ι α σ :=
  match levels.find? r.bitmap with
  | none => (none, r)
  | some p =>
    match r.heads p with
    | none => (none, r)
    | some x =>
      let head := r.next (slot x)
      (some x,
        { heads := Function.update r.heads p head
          tails := if head = none then Function.update r.tails p none else r.tails
          bitmap := if head = none then Function.update r.bitmap p false else r.bitmap
          next := Function.update r.next (slot x) none })

/-! ### What the operations do to the lists -/

/-- A new element joins the end of its level. -/
theorem Holds.enqueue (h : Holds slot r q) (hfresh : ∀ p', ∀ y ∈ q p', slot y ≠ slot x) :
    Holds slot (r.enqueue slot x p) (Function.update q p (q p ++ [x])) := by
  have hchain : ∀ p', Chain slot (Function.update r.next (slot x) none) (r.heads p') (q p') :=
    fun p' => (h.chain p').update (hfresh p')
  have hnodup : ∀ p', ((Function.update q p (q p ++ [x]) p').map slot).Nodup := by
    intro p'
    obtain rfl | hp := eq_or_ne p' p
    · rw [Function.update_self, List.map_append, List.nodup_append]
      refine ⟨h.nodup p', List.nodup_singleton _, fun a ha b hb => ?_⟩
      obtain ⟨y, hy, rfl⟩ := List.mem_map.mp ha
      obtain rfl : b = slot x := by simpa using hb
      exact hfresh p' y hy
    · rw [Function.update_of_ne hp]
      exact h.nodup p'
  have hmem : ∀ {p' y}, y ∈ Function.update q p (q p ++ [x]) p' → y ∈ q p' ∨ y = x ∧ p' = p := by
    intro p' y hy
    obtain rfl | hp := eq_or_ne p' p
    · rw [Function.update_self] at hy
      simpa using hy
    · rw [Function.update_of_ne hp] at hy
      exact .inl hy
  have hapart : ∀ {p₁ p₂ y z}, y ∈ Function.update q p (q p ++ [x]) p₁ →
      z ∈ Function.update q p (q p ++ [x]) p₂ → slot y = slot z → p₁ = p₂ := by
    intro p₁ p₂ y z hy hz heq
    rcases hmem hy with hy' | ⟨hyx, rfl⟩ <;> rcases hmem hz with hz' | ⟨hzx, rfl⟩
    · exact h.apart hy' hz' heq
    · exact absurd (hzx ▸ heq) (hfresh p₁ y hy')
    · exact absurd (hyx ▸ heq).symm (hfresh p₂ z hz')
    · rfl
  cases ht : r.tails p with
  | none =>
    have hnil : q p = [] := by rw [h.tail p] at ht; simpa using ht
    simp only [LevelQueue.enqueue, ht]
    refine ⟨fun p' => ?_, fun p' => ?_, fun p' => ?_, hnodup, hapart⟩ <;>
      obtain rfl | hp := eq_or_ne p' p
    · simp [hnil, Chain]
    · simpa [hp] using hchain p'
    · simp
    · simpa [hp] using h.tail p'
    · simp
    · simpa [hp] using h.bit p'
  | some t =>
    have hlast : (q p).getLast? = some t := (h.tail p).symm.trans ht
    have htq : t ∈ q p := List.mem_of_getLast? hlast
    simp only [LevelQueue.enqueue, ht]
    refine ⟨fun p' => ?_, fun p' => ?_, fun p' => ?_, hnodup, hapart⟩ <;>
      obtain rfl | hp := eq_or_ne p' p
    · simpa using (hchain p').concat hlast (h.nodup p') (Function.update_self _ _ _) (hfresh p')
    · simpa [hp] using (hchain p').update fun y hy => h.fresh_of_ne htq hy hp.symm
    · simp
    · simpa [hp] using h.tail p'
    · have hne : q p' ≠ [] := List.ne_nil_of_mem htq
      simpa using (h.bit p').mpr hne
    · simpa [hp] using h.bit p'

/-- The levels are empty, or the first element leaves the first of them that has one. -/
theorem Holds.dequeue_first (h : Holds slot r q) (levels : List ι) :
    (r.dequeue slot levels = (none, r) ∧ ∀ p ∈ levels, q p = []) ∨
      ∃ p x l r', levels.find? r.bitmap = some p ∧ r.dequeue slot levels = (some x, r') ∧
        q p = x :: l ∧ Holds slot r' (Function.update q p l) := by
  cases hfind : levels.find? r.bitmap with
  | none =>
    refine .inl ⟨by simp [LevelQueue.dequeue, hfind], fun p hp => ?_⟩
    by_contra hne
    exact List.find?_eq_none.mp hfind p hp ((h.bit p).mpr hne)
  | some p =>
    obtain ⟨x, l, hq⟩ := List.exists_cons_of_ne_nil ((h.bit p).mp (List.find?_some hfind))
    have hchain := h.chain p
    have hnodup := h.nodup p
    have htail := h.tail p
    rw [hq] at hchain hnodup htail
    have hhead : r.heads p = some x := hchain.1
    refine .inr ⟨p, x, l, ?_⟩
    simp only [LevelQueue.dequeue, hfind, hhead, Prod.mk.injEq, true_and, exists_eq_left', hq]
    have hx : x ∈ q p := hq ▸ List.mem_cons_self
    refine h.shrink (hq ▸ List.sublist_cons_self x l) ?_ ?_ ?_ fun p' hp => ⟨?_, ?_, ?_⟩
    · simp only [Function.update_self]
      exact hchain.2.update fun y hy heq =>
        (List.nodup_cons.mp hnodup).1 (heq ▸ List.mem_map_of_mem hy)
    · cases l with
      | nil => simp [show r.next (slot x) = none from hchain.2]
      | cons y l => simpa [show r.next (slot x) = some y from hchain.2.1] using htail
    · cases l with
      | nil => simp [show r.next (slot x) = none from hchain.2]
      | cons y l =>
        simpa [show r.next (slot x) = some y from hchain.2.1] using
          (h.bit p).mpr (hq ▸ List.cons_ne_nil _ _)
    · simp only [Function.update_of_ne hp]
      exact (h.chain p').update fun y hy => h.fresh_of_ne hx hy hp.symm
    · simp only
      split <;> simp [hp]
    · simp only
      split <;> simp [hp]

theorem Holds.dequeue (h : Holds slot r q) (levels : List ι) (hall : ∀ p, p ∈ levels) :
    (r.dequeue slot levels = (none, r) ∧ ∀ p, q p = []) ∨
      ∃ p x l r', r.dequeue slot levels = (some x, r') ∧ q p = x :: l ∧
        Holds slot r' (Function.update q p l) := by
  rcases h.dequeue_first levels with ⟨hd, hq⟩ | ⟨p, x, l, r', -, hd, hq, hholds⟩
  · exact .inl ⟨hd, fun p => hq p (hall p)⟩
  · exact .inr ⟨p, x, l, r', hd, hq, hholds⟩

/-! ### Taking an element out of the middle -/

variable [DecidableEq α]

/-- Unlinks `x` from level `p`; `none` if the walk never ends. -/
def remove (slot : α → σ) (size : Nat) (r : LevelQueue ι α σ) (x : α) (p : ι) :
    Option (LevelQueue ι α σ) :=
  match walk slot r.next x size none (r.heads p) with
  | .loops => none
  | .absent => some r
  | .found prev =>
    let after := r.next (slot x)
    let heads := if prev = none then Function.update r.heads p after else r.heads
    let next := match prev with
      | none => r.next
      | some y => Function.update r.next (slot y) after
    some
      { heads := heads
        tails := if r.tails p = some x then Function.update r.tails p prev else r.tails
        bitmap := if heads p = none then Function.update r.bitmap p false else r.bitmap
        next := Function.update next (slot x) none }

omit [DecidableEq σ] in
theorem ite_update_of_ne {β : Type*} {f : ι → β} {v : β} {c : Prop} [Decidable c] {p' : ι}
    (hp : p' ≠ p) : (if c then Function.update f p v else f) p' = f p' := by
  split
  · exact Function.update_of_ne hp _ _
  · rfl

theorem Holds.remove_absent {size : Nat} (h : Holds slot r q) (hsize : (q p).length ≤ size)
    (hx : x ∉ q p) : r.remove slot size x p = some r := by
  simp only [LevelQueue.remove, walk_absent (h.chain p) hx hsize]

/-- An element leaves its level, wherever it stands. -/
theorem Holds.remove_mem {size : Nat} (h : Holds slot r q) (hsize : (q p).length ≤ size)
    (hx : x ∈ q p) : ∃ r', r.remove slot size x p = some r' ∧
      Holds slot r' (Function.update q p ((q p).erase x)) := by
  obtain ⟨l₁, l₂, hq, hx₁⟩ := List.eq_append_cons_of_mem hx
  have hchain := hq ▸ h.chain p
  have hnodup := hq ▸ h.nodup p
  have hlast : r.tails p = (l₁ ++ x :: l₂).getLast? := hq ▸ h.tail p
  have herase : (q p).erase x = l₁ ++ l₂ := by
    rw [hq, List.erase_append_right _ hx₁, List.erase_cons_head]
  have hsub : (l₁ ++ l₂).Sublist (q p) := hq ▸ (List.sublist_cons_self x l₂).append_left l₁
  have hx₂ : ∀ y ∈ l₁ ++ l₂, slot y ≠ slot x := by
    intro y hy heq
    have hmiddle : (l₁ ++ x :: l₂).Perm (x :: (l₁ ++ l₂)) := List.perm_middle
    have hperm := hmiddle.map slot
    exact (List.nodup_cons.mp (hperm.nodup_iff.mp hnodup)).1 (heq ▸ List.mem_map_of_mem hy)
  have hxl₂ : x ∉ l₂ := fun hmem => hx₂ x (List.mem_append_right _ hmem) rfl
  have hwalk := walk_found none hchain hx₁
    (show l₁.length < size by simp only [hq, List.length_append, List.length_cons] at hsize; omega)
  rw [Option.or_none] at hwalk
  simp only [LevelQueue.remove, hwalk, Option.some.injEq, exists_eq_left', herase]
  have htails : (if r.tails p = some x then Function.update r.tails p l₁.getLast? else r.tails) p =
      (l₁ ++ l₂).getLast? := by
    cases l₂ with
    | nil => simp [hlast]
    | cons z l₂ =>
      have hne : (l₁ ++ x :: z :: l₂).getLast? ≠ some x := by
        rw [List.getLast?_append, List.getLast?_cons_cons]
        intro heq
        obtain ⟨w, hw⟩ : ∃ w, (z :: l₂).getLast? = some w :=
          ⟨_, List.getLast?_eq_getLast_of_ne_nil (by simp)⟩
        rw [hw] at heq
        obtain rfl : w = x := by simpa using heq
        exact hxl₂ (List.mem_of_getLast? hw)
      rw [hlast, if_neg hne, hlast]
      simp [List.getLast?_append]
  have hchain' : ∀ {next' : σ → Option α} {p' head'}, p' ≠ p → Chain slot next' head' (q p') →
      Chain slot (Function.update next' (slot x) none) head' (q p') :=
    fun hp hc => hc.update fun y hy => h.fresh_of_ne hx hy hp.symm
  rcases List.eq_nil_or_concat' l₁ with rfl | ⟨l₀, y, rfl⟩
  · -- `x` is the head
    have hl₂ : r.next (slot x) = none ↔ l₂ = [] := by
      cases l₂ with
      | nil => simp [show r.next (slot x) = none from hchain.2]
      | cons z l₂ => simp [hchain.2.1]
    refine h.shrink hsub ?_ htails ?_ fun p' hp => ⟨?_, ite_update_of_ne hp, ite_update_of_ne hp⟩
    · simpa using hchain.2.update fun y hy => hx₂ y hy
    · simp only [List.getLast?_nil, reduceIte, Function.update_self, hl₂, List.nil_append]
      split
      next hnil => simp [hnil]
      next hnil => simpa [hnil] using (h.bit p).mpr (List.ne_nil_of_mem hx)
    · simpa [hp] using hchain' hp (h.chain p')
  · -- `y` stands before `x`
    have hy : y ∈ q p := hq ▸ by simp
    rw [List.append_assoc] at hchain hnodup
    have hprev : (l₀ ++ [y]).getLast? = some y := List.getLast?_concat
    simp only [hprev, reduceCtorEq, if_false] at htails ⊢
    refine h.shrink hsub ?_ htails ?_ fun p' hp => ⟨?_, ite_update_of_ne hp, ite_update_of_ne hp⟩
    · refine Chain.update ?_ hx₂
      simpa using hchain.bypass hnodup
    · have hhead : r.heads p ≠ none := by
        cases l₀ with
        | nil => simp [hchain.1]
        | cons z l₀ => simp [hchain.1]
      simpa [hhead] using (h.bit p).mpr (List.ne_nil_of_mem hx)
    · exact hchain' hp ((h.chain p').update fun z hz => h.fresh_of_ne hy hz hp.symm)

end Updates

end LevelQueue

end Rynex.Lib
