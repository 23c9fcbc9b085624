import Rynex.Paging.KernelMap

/-! What `map_into` and `unmap_into` do to the translation of addresses, huge pages on the way
included: `map_into` splits them, and the parts lead where the whole did. -/

namespace Rynex.Paging

open Rynex.Memory Rynex.Lib Rynex.Lib.Radix

variable {m m' m₁ : Machine} {a p q s t i n e va virt : Nat} {π ρ : List Nat}

/-- `unmap_into`: the page that was mapped at `virt`. -/
def Machine.unmapInto (m : Machine) (pml4 virt : Nat) : Except String Nat × Machine :=
  let pml4e := m.mem pml4 (vpn virt 0)
  if !Pte.present pml4e then (.error "no pml4e", m)
  else
    let pdpte := m.mem (Pte.addr pml4e) (vpn virt 1)
    if !Pte.present pdpte then (.error "no pdpte", m)
    else if Pte.huge pdpte then (.error "huge pdpte", m)
    else
      let pde := m.mem (Pte.addr pdpte) (vpn virt 2)
      if !Pte.present pde then (.error "no pde", m)
      else if Pte.huge pde then (.error "huge pde", m)
      else
        let pt := Pte.addr pde
        let pte := m.mem pt (vpn virt 3)
        if !Pte.present pte then (.error "no pte", m)
        else (.ok (Pte.addr pte), m.write pt (vpn virt 3) 0)

/-! ### Translation -/

/-- The page that the processor finds for `va`, whatever the access. -/
def frameAt (m : Machine) (a va : Nat) : Option Nat := (view m a va).map Prod.fst

/-- The page at `va` of the huge page that `e`, at depth `d`, maps. -/
def hugeFrame (d e va : Nat) : Nat :=
  let size := 2 ^ (39 - 9 * d)
  Pte.addr e - Pte.addr e % size + pageAlignDown (va % size)

/-- The translation from the table `t` on, with the given number of levels below it. -/
def translate (m : Machine) (va : Nat) : Nat → Nat → Option Nat
  | 0, t => if Pte.present (m.mem t (vpn va 3)) then some (Pte.addr (m.mem t (vpn va 3))) else none
  | levels + 1, t =>
    let d := 2 - levels
    let e := m.mem t (vpn va d)
    if !Pte.present e then none
    else if levels ≠ 2 && Pte.huge e then some (hugeFrame d e va)
    else translate m va levels (Pte.addr e)

theorem look_fst {levels : Nat} {w u : Bool} :
    (look m va levels t w u).map Prod.fst = translate m va levels t := by
  induction levels generalizing t w u with
  | zero =>
    simp only [look, translate]
    split <;> rfl
  | succ levels ih =>
    simp only [look, translate]
    split
    · rfl
    split
    · rfl
    · exact ih

theorem frameAt_eq (m : Machine) (a va : Nat) : frameAt m a va = translate m va 3 a := look_fst

/-- The number of the page that the processor looks up for `va`. -/
def pageOf (va : Nat) : Nat := va / pageSize % 2 ^ 36

theorem path_eq_iff : path va = path virt ↔ pageOf va = pageOf virt := by
  simp only [path, vpn_eq, pageOf, pageSize, List.cons.injEq, and_true]
  norm_num
  omega

theorem hugeFrame_page {d : Nat} (hd : d < 3) (h : pageOf va = pageOf virt) :
    hugeFrame d e va = hugeFrame d e virt := by
  simp only [pageOf, pageSize] at h
  interval_cases d <;>
    simp only [hugeFrame, pageAlignDown, pageSize, Nat.reduceMul, Nat.reduceSub] <;> omega

theorem frameAt_page (m : Machine) (a : Nat) (h : pageOf va = pageOf virt) :
    frameAt m a va = frameAt m a virt := by
  obtain ⟨h0, h1, h2, h3⟩ : vpn va 0 = vpn virt 0 ∧ vpn va 1 = vpn virt 1 ∧
      vpn va 2 = vpn virt 2 ∧ vpn va 3 = vpn virt 3 := by
    simpa [path] using path_eq_iff.mpr h
  have hframe : ∀ d < 3, ∀ e, hugeFrame d e va = hugeFrame d e virt :=
    fun d hd e => hugeFrame_page hd h
  simp only [frameAt_eq, translate, h0, h1, h2, h3, Nat.reduceSub, hframe 0 (by decide),
    hframe 1 (by decide), hframe 2 (by decide)]

/-- Translations agree if at each table on the way the entries do, or the rest is known to. -/
theorem frameAt_of_entries (hentry : ∀ levels ρ s, At table m.mem a ρ s → ρ <+: path va →
      ρ.length + levels = 3 → m'.mem s (vpn va ρ.length) = m.mem s (vpn va ρ.length) ∨
        translate m' va levels s = translate m va levels s) :
    frameAt m' a va = frameAt m a va := by
  rw [frameAt_eq, frameAt_eq]
  suffices htr : ∀ levels (ρ : List Nat) s, At table m.mem a ρ s → ρ <+: path va →
      ρ.length + levels = 3 → translate m' va levels s = translate m va levels s from
    htr 3 [] a .root List.nil_prefix rfl
  intro levels
  induction levels with
  | zero =>
    intro ρ s hs hpre hρ
    rcases hentry 0 ρ s hs hpre hρ with heq | hknown
    · simp only [translate, show ρ.length = 3 by omega ▸ heq]
    · exact hknown
  | succ levels ih =>
    intro ρ s hs hpre hρ
    rcases hentry (levels + 1) ρ s hs hpre hρ with heq | hknown
    case inr => exact hknown
    have hd : 2 - levels = ρ.length := by omega
    simp only [translate, hd, heq]
    split
    · rfl
    split
    · rfl
    next hp hh =>
    refine ih (ρ ++ [vpn va ρ.length]) _ (hs.concat (table_eq_some.mpr ⟨vpn_lt va _, ?_, ?_, rfl⟩))
      (path_snoc hpre (by omega)) (by simp; omega)
    · simpa using hp
    · by_cases h2 : levels = 2
      · exact .inl (by omega)
      · exact .inr ⟨by omega, by simpa [h2] using hh⟩

/-! ### The parts of a huge page -/

theorem testBit_low_mask (k i : Nat) :
    ((0xFFFFFFFFFF <<< k) % 2 ^ 64).testBit i =
      (decide (k ≤ i) && decide (i < 40 + k) && decide (i < 64)) := by
  rw [Nat.testBit_mod_two_pow, Nat.testBit_shiftLeft, show 0xFFFFFFFFFF = 2 ^ 40 - 1 from rfl,
    Nat.testBit_two_pow_sub_one, Bool.eq_iff_iff]
  simp only [Bool.and_eq_true, decide_eq_true_eq, ge_iff_le]
  omega

theorem base_add {k j : Nat} (hj : j < 2 ^ k) :
    (e &&& ((0xFFFFFFFFFF <<< k) % 2 ^ 64)) + j = (e &&& ((0xFFFFFFFFFF <<< k) % 2 ^ 64)) |||
      j := by
  have hshift : e &&& ((0xFFFFFFFFFF <<< k) % 2 ^ 64) =
      ((e &&& ((0xFFFFFFFFFF <<< k) % 2 ^ 64)) >>> k) <<< k := by
    refine Nat.eq_of_testBit_eq fun i => ?_
    rw [Nat.testBit_shiftLeft, Nat.testBit_shiftRight, Nat.testBit_and, testBit_low_mask k i]
    by_cases h : k ≤ i
    · rw [Nat.add_sub_cancel' h, Nat.testBit_and, testBit_low_mask k i]
      simp [h]
    · simp [h]
  rw [hshift, Nat.shiftLeft_add_eq_or_of_lt hj]

/-- The address of a part: the bits of the base above the part's, and the part's own. -/
theorem addr_part {k j f : Nat} (hk : 21 ≤ k) (hk' : k ≤ 30) (hj : j < 2 ^ k) (hdvd : 4096 ∣ j)
    (hf : Pte.addr f = 0) :
    Pte.addr (((e &&& ((0xFFFFFFFFFF <<< k) % 2 ^ 64)) + j) ||| f) =
      Pte.addr e - Pte.addr e % 2 ^ k + j := by
  have hbase : Pte.addr e - Pte.addr e % 2 ^ k = (Pte.addr e >>> k) <<< k := by
    rw [Nat.shiftLeft_eq, Nat.shiftRight_eq_div_pow, Nat.mul_comm]
    have := Nat.div_add_mod (Pte.addr e) (2 ^ k)
    omega
  have hjaddr : Pte.addr j = j := Pte.addr_of_dvd hdvd
    (hj.trans (Nat.pow_lt_pow_right (by decide) (by omega)))
  rw [base_add hj, hbase, Nat.shiftLeft_add_eq_or_of_lt hj]
  refine Nat.eq_of_testBit_eq fun i => ?_
  have hfi := congrArg (fun x => x.testBit i) hf
  have hji := congrArg (fun x => x.testBit i) hjaddr
  simp only [Pte.testBit_addr, Nat.zero_testBit] at hfi hji
  simp only [Pte.testBit_addr, Nat.testBit_or, Nat.testBit_and, testBit_low_mask k i,
    Nat.testBit_shiftLeft, Nat.testBit_shiftRight]
  by_cases hlow : k ≤ i
  · rw [Nat.add_sub_cancel' hlow]
    by_cases hhigh : i < 52
    · have h12 : 12 ≤ i := by omega
      simp only [h12, hhigh, decide_true, Bool.and_true] at hfi hji ⊢
      simp [hfi, hlow, show i < 40 + k by omega, show i < 64 by omega]
    · simp only [hhigh, decide_false, Bool.and_false] at hji ⊢
      simp [← hji]
  · simp only [hlow, decide_false, Bool.false_and, Bool.and_false, Bool.false_or]
    rw [Bool.and_or_distrib_right, hfi, Bool.or_false, hji]

theorem addr_flags (e : Nat) : Pte.addr (Pte.flags e) = 0 := by
  refine Nat.eq_of_testBit_eq fun i => ?_
  rw [Pte.testBit_addr, Pte.testBit_flags, Nat.zero_testBit]
  by_cases h : 12 ≤ i ∧ i < 52
  · simp [h, show i < 64 by omega]
  · rcases not_and_or.mp h with h | h <;> simp [h]

theorem testBit_part {k j f : Nat} (hk : 12 ≤ k) (hj : j < 2 ^ k) (hdvd : 4096 ∣ j) (hi : i < 12) :
    (((e &&& ((0xFFFFFFFFFF <<< k) % 2 ^ 64)) + j) ||| f).testBit i = f.testBit i := by
  obtain ⟨c, rfl⟩ := hdvd
  rw [base_add hj, Nat.testBit_or, Nat.testBit_or, Nat.testBit_and, testBit_low_mask,
    show 4096 * c = 2 ^ 12 * c from rfl, Nat.testBit_two_pow_mul]
  simp [show ¬ k ≤ i by omega, show ¬ 12 ≤ i by omega]

theorem addr_and_zero {f g : Nat} (h : Pte.addr f = 0) : Pte.addr (f &&& g) = 0 := by
  rw [Pte.addr, Nat.and_right_comm, show f &&& pteAddrMask = 0 from h, Nat.zero_and]

theorem addr_or_zero {f g : Nat} (h : Pte.addr f = 0) (h' : Pte.addr g = 0) :
    Pte.addr (f ||| g) = 0 := by
  rw [Pte.addr, Nat.and_or_distrib_right, show f &&& pteAddrMask = 0 from h,
    show g &&& pteAddrMask = 0 from h', Nat.or_zero]

theorem splitPdpte_spec (hi : i < 512) :
    Pte.addr (Machine.splitPdpte e i) = Pte.addr e - Pte.addr e % 2 ^ 30 + i * 0x200000 ∧
    Pte.present (Machine.splitPdpte e i) = Pte.present e ∧
    Pte.huge (Machine.splitPdpte e i) = true := by
  have hj : i * 0x200000 < 2 ^ 30 := by omega
  have hdvd : 4096 ∣ i * 0x200000 := by omega
  refine ⟨addr_part (by decide) (by decide) hj hdvd ?_, ?_, ?_⟩
  · exact addr_and_zero (addr_or_zero (addr_flags e) (by decide))
  · rw [Pte.present_eq, Pte.present_eq, Machine.splitPdpte,
      testBit_part (by decide) hj hdvd (by decide),
      Nat.testBit_and, Nat.testBit_or, Pte.testBit_flags, Pte.testBit_complement]
    simp [pteHuge, pteUser]
  · rw [Pte.huge_eq, Machine.splitPdpte, testBit_part (by decide) hj hdvd (by decide),
      Nat.testBit_and, Nat.testBit_or, Pte.testBit_complement,
        show pteHuge.testBit 7 = true by decide,
      show pteUser.testBit 7 = false by decide]
    simp

theorem splitPde_spec (hi : i < 512) :
    Pte.addr (Machine.splitPde e i) = Pte.addr e - Pte.addr e % 2 ^ 21 + i * 4096 ∧
    Pte.present (Machine.splitPde e i) = Pte.present e := by
  have hj : i * 4096 < 2 ^ 21 := by omega
  have hdvd : 4096 ∣ i * 4096 := by omega
  have hlow : Pte.addr (e &&& 0x7F) = 0 := by
    rw [Pte.addr, Nat.and_assoc, show 0x7F &&& pteAddrMask = 0 by decide, Nat.and_zero]
  refine ⟨addr_part (by decide) (by decide) hj hdvd (addr_and_zero hlow), ?_⟩
  rw [Pte.present_eq, Pte.present_eq, Machine.splitPde,
    testBit_part (by decide) hj hdvd (by decide),
    Nat.testBit_and, Nat.testBit_and, Pte.testBit_complement]
  simp [pteUser]

theorem hugeFrame_pdpte (e va : Nat) :
    hugeFrame 2 (Machine.splitPdpte e (vpn va 2)) va = hugeFrame 1 e va := by
  have hi := vpn_lt va 2
  rw [hugeFrame, hugeFrame, (splitPdpte_spec hi).1]
  simp only [vpn_eq, pageAlignDown, pageSize, Nat.reduceMul, Nat.reduceSub] at hi ⊢
  omega

theorem hugeFrame_pde (e va : Nat) : Pte.addr (Machine.splitPde e (vpn va 3)) =
    hugeFrame 2 e va := by
  have hi := vpn_lt va 3
  rw [hugeFrame, (splitPde_spec hi).1]
  simp only [vpn_eq, pageAlignDown, pageSize, Nat.reduceMul, Nat.reduceSub] at hi ⊢
  omega

/-! ### A new table in place of an entry -/

/-- The tables of the address space `a` form a tree, and the allocator has none of them to give. -/
structure TreeShaped (m : Machine) (a : Nat) : Prop where
  wf : m.buddy.pool.Wf
  small : ∀ x, m.buddy.pool.AvailAt x → x < 2 ^ 52
  placed : ∀ {π π' t}, At table m.mem a π t → At table m.mem a π' t → π = π'
  held : ∀ t, IsTable m a t → ¬ m.buddy.pool.AvailAt t

/-- The table `n`, with no tables below it, is put under entry `i` of the table `t` at `ρ`, which
led to no table, and translates as the entry did. -/
structure Grafted (m m' : Machine) (a : Nat) (ρ : List Nat) (t i n : Nat) : Prop where
  at_table : At table m.mem a ρ t
  short : ρ.length < 3
  index : i < 512
  leaf : table ρ.length i (m.mem t i) = none
  fresh : ¬ IsTable m a n
  same : ∀ q j, q ≠ n → ¬ (q = t ∧ j = i) → m'.mem q j = m.mem q j
  below : ∀ j, table (ρ.length + 1) j (m'.mem n j) = none
  link : table ρ.length i (m'.mem t i) = some n
  frames : ∀ va, vpn va ρ.length = i → translate m' va (3 - ρ.length) t =
    translate m va (3 - ρ.length) t

namespace Grafted

variable (h : Grafted m m' a ρ t i n) (htree : TreeShaped m a)

include h htree

theorem at_old (hq : At table m.mem a π q) : At table m'.mem a π q := by
  induction π using List.reverseRecOn generalizing q with
  | nil => exact hq
  | append_singleton π j ih =>
    obtain ⟨s, hs, hj⟩ := hq.of_concat
    refine (ih hs).concat ?_
    by_cases heq : s = t ∧ j = i
    · -- an entry that leads to a table is not the one that was replaced
      obtain ⟨rfl, rfl⟩ := heq
      obtain rfl := htree.placed hs h.at_table
      rw [h.leaf] at hj
      cases hj
    · rw [h.same s j (fun hn => h.fresh ⟨π, hn ▸ hs⟩) heq]
      exact hj

theorem at_new : At table m'.mem a (ρ ++ [i]) n := (h.at_old htree h.at_table).concat h.link

theorem at_cases (hq : At table m'.mem a π q) : At table m.mem a π q ∨ π = ρ ++ [i] ∧ q = n := by
  induction π using List.reverseRecOn generalizing q with
  | nil => exact .inl hq
  | append_singleton π j ih =>
    obtain ⟨s, hs, hj⟩ := hq.of_concat
    rcases ih hs with hs | ⟨rfl, rfl⟩
    · by_cases heq : s = t ∧ j = i
      · obtain ⟨rfl, rfl⟩ := heq
        obtain rfl := htree.placed hs h.at_table
        rw [h.link] at hj
        exact .inr ⟨rfl, (Option.some.inj hj).symm⟩
      · rw [h.same s j (fun hn => h.fresh ⟨π, hn ▸ hs⟩) heq] at hj
        exact .inl (hs.concat hj)
    · rw [List.length_append, List.length_singleton, h.below] at hj
      cases hj

theorem frameAt_eq (va : Nat) : frameAt m' a va = frameAt m a va := by
  refine frameAt_of_entries fun levels π s hs _ hlen => ?_
  by_cases heq : s = t ∧ vpn va π.length = i
  · obtain ⟨rfl, hi⟩ := heq
    obtain rfl := htree.placed hs h.at_table
    have hf := h.frames va hi
    rw [show 3 - π.length = levels by omega] at hf
    exact .inr hf
  · exact .inl (h.same s _ (fun hn => h.fresh ⟨π, hn ▸ hs⟩) heq)

theorem treeShaped (hwf : m'.buddy.pool.Wf)
    (hsub : ∀ x, m'.buddy.pool.AvailAt x → m.buddy.pool.AvailAt x)
    (hn : ¬ m'.buddy.pool.AvailAt n) : TreeShaped m' a := by
  refine ⟨hwf, fun x hx => htree.small x (hsub x hx), fun {π π' q} h₁ h₂ => ?_, ?_⟩
  · rcases h.at_cases htree h₁ with h₁ | ⟨rfl, rfl⟩ <;>
      rcases h.at_cases htree h₂ with h₂ | ⟨rfl, hq⟩
    · exact htree.placed h₁ h₂
    · exact absurd ⟨π, hq ▸ h₁⟩ h.fresh
    · exact absurd ⟨π', h₂⟩ h.fresh
    · rfl
  · rintro q ⟨π, hq⟩ hx
    rcases h.at_cases htree hq with hq | ⟨-, rfl⟩
    · exact htree.held q ⟨π, hq⟩ (hsub q hx)
    · exact hn hx

end Grafted

/-- `m'` comes from `m` by steps that keep the tables, and every translation. -/
structure SameFrames (m m' : Machine) (a : Nat) : Prop where
  tree : TreeShaped m' a
  at_old : ∀ {π q}, At table m.mem a π q → At table m'.mem a π q
  frame : ∀ va, frameAt m' a va = frameAt m a va

theorem SameFrames.refl (h : TreeShaped m a) : SameFrames m m a := ⟨h, id, fun _ => rfl⟩

theorem SameFrames.trans (h : SameFrames m m₁ a) (h' : SameFrames m₁ m' a) : SameFrames m m' a :=
  ⟨h'.tree, fun hq => h'.at_old (h.at_old hq), fun va => (h'.frame va).trans (h.frame va)⟩

/-- Moreover only tables above the last level are written, and new ones: the page tables of `m`, and
the pages that are in use for other things, are left alone. -/
structure Extends (m m' : Machine) (a : Nat) : Prop extends SameFrames m m' a where
  leaves : ∀ {va t}, At table m.mem a (dir va) t → m'.mem t = m.mem t
  tables : ∀ q, IsTable m' a q → IsTable m a q ∨ m.buddy.pool.AvailAt q
  sub : ∀ x, m'.buddy.pool.AvailAt x → m.buddy.pool.AvailAt x
  data : ∀ q, ¬ IsTable m a q → ¬ m.buddy.pool.AvailAt q → m'.mem q = m.mem q

theorem Extends.refl (h : TreeShaped m a) : Extends m m a :=
  ⟨.refl h, fun _ => rfl, fun _ => .inl, fun _ => id, fun _ _ _ => rfl⟩

theorem Extends.not_table (h : Extends m m' a) (hq : ¬ IsTable m a q)
    (hused : ¬ m.buddy.pool.AvailAt q) : ¬ IsTable m' a q :=
  fun h' => (h.tables q h').elim hq hused

theorem Extends.trans (h : Extends m m₁ a) (h' : Extends m₁ m' a) : Extends m m' a := by
  refine ⟨h.toSameFrames.trans h'.toSameFrames, fun ht => ?_, fun q hq => ?_,
    fun x hx => h.sub x (h'.sub x hx), fun q hq hused => ?_⟩
  · rw [h'.leaves (h.at_old ht), h.leaves ht]
  · rcases h'.tables q hq with hq | hq
    exacts [h.tables q hq, .inr (h.sub q hq)]
  · rw [h'.data q (h.not_table hq hused) fun hx => hused (h.sub q hx), h.data q hq hused]

/-- What an entry at depth `d` that leads to no table makes of `va`. -/
def entryFrame (d e va : Nat) : Option Nat :=
  if !Pte.present e then none else if d = 3 then some (Pte.addr e) else some (hugeFrame d e va)

theorem translate_leaf {d levels : Nat} (hd : d + levels = 3)
    (hleaf : table d (vpn va d) (m.mem t (vpn va d)) = none) :
    translate m va levels t = entryFrame d (m.mem t (vpn va d)) va := by
  cases levels with
  | zero =>
    obtain rfl : d = 3 := by omega
    simp only [translate, entryFrame]
    cases Pte.present (m.mem t (vpn va 3)) <;> rfl
  | succ levels =>
    have hd' : 2 - levels = d := by omega
    simp only [translate, entryFrame, hd']
    cases hp : Pte.present (m.mem t (vpn va d)) with
    | false => rfl
    | true =>
      have hne : d ≠ 3 := by omega
      have hhuge : (decide (levels ≠ 2) && Pte.huge (m.mem t (vpn va d))) = true := by
        by_contra hcon
        refine absurd hleaf ?_
        rw [table, if_pos]
        · simp
        · have hlt := vpn_lt va d
          simp only [hlt, hp, decide_true, Bool.and_true, Bool.true_and, Bool.or_eq_true,
            Bool.and_eq_true, decide_eq_true_eq, Bool.not_eq_true']
          by_cases h2 : levels = 2
          · exact .inl (by omega)
          · exact .inr ⟨by omega, by simpa [h2] using hcon⟩
      simp only [hhuge, hne, Bool.not_true, Bool.false_eq_true, if_true, if_false]

theorem translate_table {d levels c : Nat} (hd : d + levels = 2)
    (h : table d (vpn va d) (m.mem t (vpn va d)) = some c) :
    translate m va (levels + 1) t = translate m va levels c := by
  obtain ⟨-, hp, hplain, rfl⟩ := table_eq_some.mp h
  have hd' : 2 - levels = d := by omega
  have hgo : (decide (levels ≠ 2) && Pte.huge (m.mem t (vpn va d))) = false := by
    rcases hplain with h0 | ⟨-, hh⟩
    · simp [show levels = 2 by omega]
    · simp [hh]
  simp only [translate, hd', hp, hgo, Bool.not_true, Bool.false_eq_true, if_false]

def newWords (fill : Option (Nat → Nat)) : Nat → Nat := fill.getD fun _ => 0

theorem newWords_some (f : Nat → Nat) : newWords (some f) = f := rfl

theorem TreeShaped.linkTable {fill : Option (Nat → Nat)} (h : TreeShaped m a)
    (ht : At table m.mem a ρ t) (hshort : ρ.length < 3) (hi : i < 512)
    (hleaf : table ρ.length i (m.mem t i) = none)
    (hbelow : ∀ j, table (ρ.length + 1) j (newWords fill j) = none)
    (hframes : ∀ va, vpn va ρ.length = i →
      entryFrame (ρ.length + 1) (newWords fill (vpn va (ρ.length + 1))) va =
        entryFrame ρ.length (m.mem t i) va)
    (hl : m.linkTable t i fill = (.ok n, m')) :
    Extends m m' a ∧ At table m'.mem a (ρ ++ [i]) n ∧ (∀ j, m'.mem n j = newWords fill j) ∧
      ∀ q j, IsTable m a q → ¬ (q = t ∧ j = i) → m'.mem q j = m.mem q j := by
  unfold Machine.linkTable at hl
  split at hl
  · cases hl
  next n m₁ ha =>
  cases hl
  have halloc := allocZeroedPage_some h.wf ha
  have hn : Pte.addr n = n := Pte.addr_of_dvd halloc.page_dvd (h.small n halloc.avail)
  have hfresh : ¬ IsTable m a n := fun hT => h.held n hT halloc.avail
  have htn : t ≠ n := by rintro rfl; exact hfresh ⟨ρ, ht⟩
  obtain ⟨hpres, hplain, -, haddr⟩ := link_entry hn
  set m' := ((m₁.zeroPage n).fillTable n fill).write t i
    (n ||| ptePresent ||| pteWritable ||| pteUser) with hm'
  have hfill : ((m₁.zeroPage n).fillTable n fill).mem =
    Function.update m.mem n (newWords fill) := by
    cases fill <;> simp [Machine.fillTable, Machine.zeroPage, Machine.writePage, halloc.mem,
      newWords]
  have hmem : ∀ q j, m'.mem q j =
      if q = t ∧ j = i then n ||| ptePresent ||| pteWritable ||| pteUser
      else Function.update m.mem n (newWords fill) q j := by
    intro q j
    rw [hm', mem_write, hfill]
  have hnew : ∀ j, m'.mem n j = newWords fill j := fun j => by
    rw [hmem, if_neg fun heq => htn heq.1.symm, Function.update_self]
  have hlink : table ρ.length i (m'.mem t i) = some n := by
    rw [hmem, if_pos ⟨rfl, rfl⟩]
    exact table_eq_some.mpr ⟨hi, hpres, .inr ⟨hshort, hplain⟩, haddr⟩
  have hg : Grafted m m' a ρ t i n := by
    constructor
    case at_table => exact ht
    case short => exact hshort
    case index => exact hi
    case leaf => exact hleaf
    case fresh => exact hfresh
    case same => exact fun q j hq hqt => by rw [hmem, if_neg hqt, Function.update_of_ne hq]
    case below => exact fun j => by rw [hnew]; exact hbelow j
    case link => exact hlink
    case frames =>
      rintro va rfl
      rw [translate_leaf (d := ρ.length) (by omega) hleaf, ← hframes va rfl,
        show 3 - ρ.length = 2 - ρ.length + 1 by omega,
        translate_table (d := ρ.length) (by omega) hlink,
        translate_leaf (d := ρ.length + 1) (by omega) (by rw [hnew]; exact hbelow _), hnew]
  have hbuddy : m'.buddy = m₁.buddy := by cases fill <;> rfl
  have hsub : ∀ x, m'.buddy.pool.AvailAt x → m.buddy.pool.AvailAt x := fun x hx => by
    rw [hbuddy] at hx
    exact (halloc.grants.sub x hx).1
  have hsame : SameFrames m m' a :=
    ⟨hg.treeShaped h (hbuddy ▸ halloc.grants.wf) hsub (hbuddy ▸ halloc.not_avail),
      hg.at_old h, hg.frameAt_eq h⟩
  refine ⟨⟨hsame, fun {va q} hq => ?_, fun q hq => ?_, hsub, fun q hq hused => ?_⟩, hg.at_new h,
    hnew,
    fun q j hq => hg.same q j fun hqn => hfresh (hqn ▸ hq)⟩
  · refine funext fun j => hg.same q j (fun hqn => hfresh ⟨_, hqn ▸ hq⟩) fun heq => ?_
    have hpath := congrArg List.length (h.placed (heq.1 ▸ hq) ht)
    exact hshort.ne' hpath
  · obtain ⟨π, hq⟩ := hq
    rcases hg.at_cases h hq with hq | ⟨-, rfl⟩
    exacts [.inl ⟨π, hq⟩, .inr halloc.avail]
  · exact funext fun j => hg.same q j (fun hqn => hused (hqn ▸ halloc.avail))
      fun heq => hq ⟨ρ, heq.1 ▸ ht⟩

/-! ### The stages of `map_into` -/

theorem entryFrame_absent {d : Nat} (h : Pte.present e = false) : entryFrame d e va = none := by
  simp [entryFrame, h]

theorem TreeShaped.linkEmpty (h : TreeShaped m a) (ht : At table m.mem a ρ t)
    (hshort : ρ.length < 3) (hi : i < 512) (habs : Pte.present (m.mem t i) = false)
    (hl : m.linkTable t i none = (.ok n, m')) :
    Extends m m' a ∧ At table m'.mem a (ρ ++ [i]) n := by
  have hzero : Pte.present 0 = false := by decide
  obtain ⟨hsame, hat, -⟩ := h.linkTable ht hshort hi (table_absent habs)
    (fun j => table_zero _ j)
    (fun va _ => (entryFrame_absent hzero).trans (entryFrame_absent habs).symm) hl
  exact ⟨hsame, hat⟩

theorem mapPdpt_frames (h : TreeShaped m a) (hm : m.mapPdpt a virt = (.ok t, m')) :
    Extends m m' a ∧ At table m'.mem a [vpn virt 0] t := by
  unfold Machine.mapPdpt at hm
  simp only at hm
  split_ifs at hm with hp
  · cases hm
    exact ⟨.refl h, At.root.concat (table_eq_some.mpr ⟨vpn_lt virt 0, hp, .inl rfl, rfl⟩)⟩
  · exact h.linkEmpty .root (by simp) (vpn_lt virt 0) (by simpa using hp) hm

theorem splitPdpte_below (j : Nat) : table 2 j (newWords (some (Machine.splitPdpte e)) j) =
    none := by
  rw [newWords_some]
  by_cases hj : j < 512
  · obtain ⟨-, -, hh⟩ := splitPdpte_spec (e := e) hj
    generalize Machine.splitPdpte e j = part at hh
    simp [table, hh]
  · generalize Machine.splitPdpte e j = part
    simp [table, hj]

theorem entryFrame_splitPdpte (e va : Nat) :
    entryFrame 2 (newWords (some (Machine.splitPdpte e)) (vpn va 2)) va = entryFrame 1 e va := by
  obtain ⟨-, hp, -⟩ := splitPdpte_spec (e := e) (vpn_lt va 2)
  have hframe := hugeFrame_pdpte e va
  rw [newWords_some]
  generalize Machine.splitPdpte e (vpn va 2) = part at hp hframe
  simp [entryFrame, hp, hframe]

theorem entryFrame_splitPde (e va : Nat) :
    entryFrame 3 (newWords (some (Machine.splitPde e)) (vpn va 3)) va = entryFrame 2 e va := by
  obtain ⟨-, hp⟩ := splitPde_spec (e := e) (vpn_lt va 3)
  have hframe := hugeFrame_pde e va
  rw [newWords_some]
  generalize Machine.splitPde e (vpn va 3) = part at hp hframe
  simp [entryFrame, hp, hframe]

theorem mapPd_frames (h : TreeShaped m a) (ht : At table m.mem a [vpn virt 0] t)
    (hm : m.mapPd t virt = (.ok n, m')) :
    Extends m m' a ∧ At table m'.mem a [vpn virt 0, vpn virt 1] n := by
  unfold Machine.mapPd at hm
  simp only at hm
  split at hm
  next hgo =>
    simp only [Bool.and_eq_true, Bool.not_eq_true'] at hgo
    cases hm
    exact ⟨.refl h, ht.concat (table_eq_some.mpr
      ⟨vpn_lt virt 1, hgo.1, .inr ⟨by simp, hgo.2⟩, rfl⟩)⟩
  next hstop =>
  split at hm
  next hhuge =>
    -- the 2 MiB parts of the 1 GiB page
    have hleaf : table 1 (vpn virt 1) (m.mem t (vpn virt 1)) = none := by simp [table, hhuge]
    obtain ⟨hsame, hat, -⟩ := h.linkTable ht (by simp) (vpn_lt virt 1) hleaf splitPdpte_below
      (fun va _ => entryFrame_splitPdpte _ va) hm
    exact ⟨hsame, hat⟩
  next hsmall =>
    refine h.linkEmpty ht (by simp) (vpn_lt virt 1) ?_ hm
    simpa [hsmall] using hstop

theorem mem_orUser (m : Machine) (t i q j : Nat) :
    (m.write t i (m.mem t i ||| pteUser)).mem q j = m.mem q j ∨
      (m.write t i (m.mem t i ||| pteUser)).mem q j = m.mem q j ||| pteUser := by
  rw [mem_write]
  split_ifs with heq
  · exact .inr (by rw [heq.1, heq.2])
  · exact .inl rfl

theorem at_orUser (m : Machine) (t i : Nat) :
    At table (m.write t i (m.mem t i ||| pteUser)).mem a π q ↔ At table m.mem a π q := by
  have htable : ∀ d q j,
      table d j ((m.write t i (m.mem t i ||| pteUser)).mem q j) = table d j (m.mem q j) := by
    intro d q j
    rcases mem_orUser m t i q j with heq | heq <;> rw [heq]
    exact table_or_user d j _
  rw [At, At, walk_of_next htable]

theorem TreeShaped.orUser (h : TreeShaped m a) (t i : Nat) :
    SameFrames m (m.write t i (m.mem t i ||| pteUser)) a := by
  set m' := m.write t i (m.mem t i ||| pteUser)
  have hmem : ∀ q j, m'.mem q j = m.mem q j ∨ m'.mem q j = m.mem q j ||| pteUser := mem_orUser m t i
  have hat : ∀ {π q}, At table m'.mem a π q ↔ At table m.mem a π q := at_orUser m t i
  have hentry : ∀ q j, Pte.present (m'.mem q j) = Pte.present (m.mem q j) ∧
      Pte.huge (m'.mem q j) = Pte.huge (m.mem q j) ∧
        Pte.addr (m'.mem q j) = Pte.addr (m.mem q j) := by
    intro q j
    rcases hmem q j with heq | heq <;> rw [heq]
    · exact ⟨rfl, rfl, rfl⟩
    · exact ⟨present_or_user _, huge_or_user _, addr_or_user _⟩
  have htr : ∀ va levels q, translate m' va levels q = translate m va levels q := by
    intro va levels
    induction levels with
    | zero => simp [translate, hentry]
    | succ levels ih => simp [translate, hugeFrame, hentry, ih]
  refine ⟨⟨h.wf, h.small, fun h₁ h₂ => h.placed (hat.mp h₁) (hat.mp h₂), ?_⟩, hat.mpr, fun va => ?_⟩
  · rintro q ⟨π, hq⟩
    exact h.held q ⟨π, hat.mp hq⟩
  · rw [frameAt_eq, frameAt_eq, htr]

theorem TreeShaped.extends_orUser (h : TreeShaped m a) (ht : At table m.mem a ρ t)
    (hshort : ρ.length < 3) (i : Nat) : Extends m (m.write t i (m.mem t i ||| pteUser)) a := by
  refine ⟨h.orUser t i, fun {va q} hq => funext fun j => ?_,
    fun q ⟨π, hq⟩ => .inl ⟨π, (at_orUser m t i).mp hq⟩, fun _ => id,
      fun q hq _ => funext fun j => ?_⟩
  · rw [mem_write, if_neg]
    rintro ⟨rfl, -⟩
    have hpath := congrArg List.length (h.placed hq ht)
    exact hshort.ne' hpath
  · rw [mem_write, if_neg]
    rintro ⟨rfl, -⟩
    exact hq ⟨ρ, ht⟩

theorem mapPt_frames (h : TreeShaped m a) (ht : At table m.mem a [vpn virt 0, vpn virt 1] t)
    (hm : m.mapPt t virt = (.ok n, m')) : Extends m m' a ∧ At table m'.mem a (dir virt) n := by
  unfold Machine.mapPt at hm
  simp only at hm
  split at hm
  next hgo =>
    simp only [Bool.and_eq_true, Bool.not_eq_true'] at hgo
    cases hm
    have hext := h.extends_orUser ht (by simp) (vpn virt 2)
    exact ⟨hext, hext.at_old
      (ht.concat (table_eq_some.mpr ⟨vpn_lt virt 2, hgo.1, .inr ⟨by simp, hgo.2⟩, rfl⟩))⟩
  next hstop =>
  split at hm
  next hhuge =>
    -- the 4 KiB parts of the 2 MiB page
    have hleaf : table 2 (vpn virt 2) (m.mem t (vpn virt 2)) = none := by simp [table, hhuge]
    obtain ⟨hsame, hat, -⟩ := h.linkTable ht (by simp) (vpn_lt virt 2) hleaf
      (fun j => table_leaf j _) (fun va _ => entryFrame_splitPde _ va) hm
    exact ⟨hsame, hat⟩
  next hsmall =>
    refine h.linkEmpty ht (by simp) (vpn_lt virt 2) ?_ hm
    simpa [hsmall] using hstop

/-! ### The leaf entry -/

theorem table_dir (h : At table m.mem a (dir va) t) : ∃ pdpt pd,
    (Pte.present (m.mem a (vpn va 0)) = true ∧ Pte.addr (m.mem a (vpn va 0)) = pdpt) ∧
    (Pte.present (m.mem pdpt (vpn va 1)) = true ∧ Pte.huge (m.mem pdpt (vpn va 1)) = false ∧
      Pte.addr (m.mem pdpt (vpn va 1)) = pd) ∧
    Pte.present (m.mem pd (vpn va 2)) = true ∧ Pte.huge (m.mem pd (vpn va 2)) = false ∧
      Pte.addr (m.mem pd (vpn va 2)) = t := by
  obtain ⟨pd, hpd, ht⟩ := At.of_concat (π := [vpn va 0, vpn va 1]) h
  obtain ⟨pdpt, hpdpt, hpd⟩ := At.of_concat (π := [vpn va 0]) hpd
  obtain ⟨r, hr, hpdpt⟩ := At.of_concat (π := []) hpdpt
  obtain rfl : a = r := Option.some.inj hr
  obtain ⟨-, hp₀, -, ha₀⟩ := table_eq_some.mp hpdpt
  obtain ⟨-, hp₁, hh₁, ha₁⟩ := table_eq_some.mp hpd
  obtain ⟨-, hp₂, hh₂, ha₂⟩ := table_eq_some.mp ht
  exact ⟨pdpt, pd, ⟨hp₀, ha₀⟩, ⟨hp₁, (hh₁.resolve_left (by simp)).2, ha₁⟩, hp₂,
    (hh₂.resolve_left (by simp)).2, ha₂⟩

theorem frameAt_of_dir (h : At table m.mem a (dir va) t) : frameAt m a va = translate m va 0 t := by
  obtain ⟨pdpt, pd, ⟨hp₀, rfl⟩, ⟨hp₁, hh₁, rfl⟩, hp₂, hh₂, rfl⟩ := table_dir h
  simp [frameAt_eq, translate, hp₀, hp₁, hh₁, hp₂, hh₂]

theorem TreeShaped.setLeaf_view (h : TreeShaped m a) (ht : At table m.mem a (dir virt) t) (v : Nat)
    (hva : pageOf va ≠ pageOf virt) : view (m.write t (vpn virt 3) v) a va = view m a va := by
  refine view_of_entries fun levels ρ s hs hpre hρ => .inl ?_
  rw [mem_write, if_neg]
  rintro ⟨rfl, hl⟩
  obtain rfl := h.placed hs ht
  refine hva (path_eq_iff.mp (((path_snoc hpre (by simp [dir])).eq_of_length rfl).symm.trans ?_))
  rw [hl]
  rfl

theorem at_write_leaf (hplaced : ∀ {π π' t}, At table m.mem a π t → At table m.mem a π' t → π = π')
    (ht : At table m.mem a (dir virt) t) (v : Nat) :
    At table (m.write t (vpn virt 3) v).mem a π q ↔ At table m.mem a π q := by
  rw [At, At, walk_congr fun ρ i s _ hs => ?_]
  rw [mem_write]
  split_ifs with heq
  · obtain ⟨rfl, rfl⟩ := heq
    rw [hplaced hs ht, show (dir virt).length = 3 from rfl, table_leaf, table_leaf]
  · rfl

theorem TreeShaped.setLeaf (h : TreeShaped m a) (ht : At table m.mem a (dir virt) t) (v : Nat) :
    TreeShaped (m.write t (vpn virt 3) v) a ∧
    (∀ {π q}, At table m.mem a π q → At table (m.write t (vpn virt 3) v).mem a π q) ∧
    (∀ va, pageOf va = pageOf virt → frameAt (m.write t (vpn virt 3) v) a va =
      if Pte.present v then some (Pte.addr v) else none) ∧
    ∀ va, pageOf va ≠ pageOf virt → frameAt (m.write t (vpn virt 3) v) a va = frameAt m a va := by
  set m' := m.write t (vpn virt 3) v with hm'
  have hmem : ∀ q j, m'.mem q j = if q = t ∧ j = vpn virt 3 then v else m.mem q j :=
    fun q j => mem_write m t _ v q j
  have hat : ∀ {π q}, At table m'.mem a π q ↔ At table m.mem a π q := at_write_leaf h.placed ht v
  refine ⟨⟨h.wf, h.small, fun h₁ h₂ => h.placed (hat.mp h₁) (hat.mp h₂), ?_⟩, hat.mpr,
    fun va hva => ?_, fun va hva => congrArg _ (h.setLeaf_view ht v hva)⟩
  · rintro q ⟨π, hq⟩
    exact h.held q ⟨π, hat.mp hq⟩
  · obtain ⟨h0, h1, h2, h3⟩ : vpn va 0 = vpn virt 0 ∧ vpn va 1 = vpn virt 1 ∧
        vpn va 2 = vpn virt 2 ∧ vpn va 3 = vpn virt 3 := by
      simpa [path] using path_eq_iff.mpr hva
    have hdir : dir va = dir virt := by rw [dir, dir, h0, h1, h2]
    have hself : m'.mem t (vpn virt 3) = v := by rw [hmem, if_pos ⟨rfl, rfl⟩]
    rw [frameAt_of_dir (hdir ▸ hat.mpr ht), translate, h3, hself]

theorem TreeShaped.mapInto {phys flags : Nat} (h : TreeShaped m a)
    (hm : m.mapInto a virt phys flags = (.ok (), m')) :
    ∃ m₁ t, Extends m m₁ a ∧ At table m₁.mem a (dir virt) t ∧
      m' = m₁.write t (vpn virt 3) (phys ||| flags ||| ptePresent) := by
  unfold Machine.mapInto at hm
  split at hm
  · cases hm
  next pdpt m₁ h₁ =>
  obtain ⟨hs₁, hpdpt⟩ := mapPdpt_frames h h₁
  split at hm
  · cases hm
  next pd m₂ h₂ =>
  obtain ⟨hs₂, hpd⟩ := mapPd_frames hs₁.tree hpdpt h₂
  split at hm
  · cases hm
  next pt m₃ h₃ =>
  obtain ⟨hs₃, hpt⟩ := mapPt_frames hs₂.tree hpd h₃
  exact ⟨m₃, pt, (hs₁.trans hs₂).trans hs₃, hpt, (Prod.mk.inj hm).2.symm⟩

theorem unmapInto_of_dir (h : At table m.mem a (dir virt) t)
    (hp : Pte.present (m.mem t (vpn virt 3)) = true) :
    m.unmapInto a virt = (.ok (Pte.addr (m.mem t (vpn virt 3))), m.write t (vpn virt 3) 0) := by
  obtain ⟨pdpt, pd, ⟨hp₀, rfl⟩, ⟨hp₁, hh₁, rfl⟩, hp₂, hh₂, rfl⟩ := table_dir h
  simp [Machine.unmapInto, hp₀, hp₁, hh₁, hp₂, hh₂, hp]

/-- The address of a page of physical memory; the processor's have 52 bits. -/
def PhysPage : Type := { p : Nat // pageSize ∣ p ∧ p < 2 ^ 52 }

/-- Mapping a page leads its addresses to `phys` and leaves the translation of all others alone,
the siblings in a huge page that is split included; unmapping it then gives `phys` back and takes
away what was mapped and nothing else. -/
theorem map_unmap_translation (h : TreeShaped m a) (virt : Nat) (phys : PhysPage) (flags : Nat)
    (hflags : Pte.addr flags = 0) (hm : m.mapInto a virt phys.val flags = (.ok (), m₁)) :
    (∀ va, pageOf va = pageOf virt → frameAt m₁ a va = some phys.val) ∧
    (∀ va, pageOf va ≠ pageOf virt → frameAt m₁ a va = frameAt m a va) ∧
    ∃ m₂, m₁.unmapInto a virt = (.ok phys.val, m₂) ∧
      (∀ va, pageOf va = pageOf virt → frameAt m₂ a va = none) ∧
      (∀ va, pageOf va ≠ pageOf virt → frameAt m₂ a va = frameAt m₁ a va) ∧
      (frameAt m a virt = none → ∀ va, frameAt m₂ a va = frameAt m a va) := by
  obtain ⟨m₀, t, hsame, ht, rfl⟩ := h.mapInto hm
  have hpres : Pte.present (phys.val ||| flags ||| ptePresent) = true := by
    rw [Pte.present_eq, Nat.testBit_or]
    simp [ptePresent]
  have haddr : Pte.addr (phys.val ||| flags ||| ptePresent) = phys.val := by
    have hphys := Pte.addr_of_dvd phys.property.1 phys.property.2
    have hpresent : Pte.addr ptePresent = 0 := by decide
    simp only [Pte.addr, Nat.and_or_distrib_right] at hphys hflags hpresent ⊢
    rw [hphys, hflags, hpresent, Nat.or_zero, Nat.or_zero]
  obtain ⟨htree, hat, hown, hother⟩ := hsame.tree.setLeaf ht (phys.val ||| flags ||| ptePresent)
  obtain ⟨-, -, hown', hother'⟩ := htree.setLeaf (hat ht) 0
  have hword : (m₀.write t (vpn virt 3) (phys.val ||| flags ||| ptePresent)).mem t (vpn virt 3) =
      phys.val ||| flags ||| ptePresent := by rw [mem_write, if_pos ⟨rfl, rfl⟩]
  have hunmap := unmapInto_of_dir (hat ht) (by rw [hword]; exact hpres)
  rw [hword, haddr] at hunmap
  have hzero : Pte.present 0 = false := by decide
  simp only [hpres, if_true, haddr] at hown
  simp only [hzero, Bool.false_eq_true, if_false] at hown'
  have hkeep : ∀ va, pageOf va ≠ pageOf virt → _ = frameAt m a va := fun va hva =>
    (hother va hva).trans (hsame.frame va)
  refine ⟨hown, hkeep, _, hunmap, hown', hother', fun hnone va => ?_⟩
  by_cases hva : pageOf va = pageOf virt
  · rw [hown' va hva, frameAt_page m a hva, hnone]
  · exact (hother' va hva).trans (hkeep va hva)

theorem hugePages_treeShaped : TreeShaped hugePages 0x200000 where
  wf := hugePages_sound.wf
  small x hx := by
    have := hugePages_avail hx
    omega
  placed h₁ h₂ := by
    rcases hugePages_at h₁ with ⟨rfl, rfl⟩ | ⟨rfl, rfl⟩ | ⟨rfl, rfl⟩ <;>
      rcases hugePages_at h₂ with ⟨rfl, hq⟩ | ⟨rfl, hq⟩ | ⟨rfl, hq⟩ <;> first | rfl | cases hq
  held := hugePages_held

/-- A page in the middle of a 2 MiB page. -/
theorem map_unmap_translation_split : ∃ m₁,
    hugePages.mapInto 0x200000 0x40001000 0x300000 7 = (.ok (), m₁) ∧
      frameAt m₁ 0x200000 0x40001000 = some 0x300000 ∧
      frameAt m₁ 0x200000 0x40002000 = frameAt hugePages 0x200000 0x40002000 ∧
      frameAt hugePages 0x200000 0x40002000 = some 0x602000 := by
  have hok : (hugePages.mapInto 0x200000 0x40001000 0x300000 7).1 = .ok () := by decide
  have h := map_unmap_translation hugePages_treeShaped 0x40001000
    ⟨0x300000, by decide, by decide⟩ 7 (by decide) (Prod.ext hok rfl)
  exact ⟨_, Prod.ext hok rfl, h.1 0x40001000 rfl, h.2.1 0x40002000 (by decide), by decide⟩

end Rynex.Paging
