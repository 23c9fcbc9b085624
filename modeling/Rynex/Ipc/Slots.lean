import Rynex.Ipc.Turns

/-! Reply slots over whole runs: whose a slot is, how long its page lives, and what a call
returns. -/

namespace Rynex.Ipc

open Rynex.Errno Rynex.Lib

/-- The system with its history: for every call, by its number, the replies that its slot accepted
in their order. A reply that finds its slot unused is not accepted and gets `ESRCH`. -/
structure Answering where
  sys : Sys
  replied : Nat → List Reply

namespace Answering

def init : Answering := ⟨.init, fun _ => []⟩

def step (a : Answering) (e : Event) : Answering where
  sys := a.sys.step e
  replied :=
    match a.sys.replyOf e with
    | none => a.replied
    | some r =>
      let slot := a.sys.replies r.token
      if r.token < maxReplies ∧ slot.used = true then
        Function.update a.replied slot.call (a.replied slot.call ++ [r])
      else a.replied

/-- The slot's length and page are those of the first reply that it accepted, if it accepted
one. -/
structure Decided (a : Answering) (i : Nat) : Prop where
  waiting : (a.sys.replies i).done = false → a.replied (a.sys.replies i).call = []
  answered : (a.sys.replies i).done = true → ∃ r rest,
    a.replied (a.sys.replies i).call = r :: rest ∧
    (a.sys.replies i).len = (r.bytes.take ipcMsgMax).length ∧
    a.sys.data (a.sys.replies i).page = r.bytes.take ipcMsgMax

/-- What holds between two steps. -/
structure Sound (a : Answering) : Prop where
  owned : a.sys.Owned 0 0
  owns : ∀ t < maxTasks, ∀ c, (a.sys.tasks t).call = some c → c.token < maxReplies ∧
    (a.sys.replies c.token).used = true ∧ (a.sys.replies c.token).call = c.number
  apart : ∀ t < maxTasks, ∀ t' < maxTasks, ∀ c c', (a.sys.tasks t).call = some c →
    (a.sys.tasks t').call = some c' → c.token = c'.token → t = t'
  owner : ∀ i < maxReplies, (a.sys.replies i).used = true →
    ∃ t < maxTasks, ∃ c, (a.sys.tasks t).call = some c ∧ c.token = i
  reads : ∀ t < maxTasks, (a.sys.tasks t).Reads a.sys.replies
  numbers : ∀ i < maxReplies, (a.sys.replies i).used = true →
    (a.sys.replies i).call < a.sys.calls ∧ ∀ j < maxReplies, (a.sys.replies j).used = true →
      (a.sys.replies i).call = (a.sys.replies j).call → i = j
  fresh : ∀ n, a.sys.calls ≤ n → a.replied n = []
  decided : ∀ i < maxReplies, (a.sys.replies i).used = true → Decided a i

theorem sound_init : Sound init where
  owned := Sys.owned_init
  owns _ _ _ hc := nomatch hc
  apart _ _ _ _ _ _ hc := nomatch hc
  owner _ _ hused := nomatch hused
  reads _ _ := trivial
  numbers _ _ hused := nomatch hused
  fresh _ _ := rfl
  decided _ _ hused := nomatch hused

variable {a : Answering} {e : Event} {r : Reply} {i : Nat}

theorem Sound.turn (h : Sound a) (e : Event) : a.sys.Turn (a.sys.replyOf e) (a.sys.step e) :=
  Sys.turn h.owned (fun t ht c hc => ⟨(h.owns t ht c hc).1, (h.owns t ht c hc).2.1⟩) e

theorem replied_of_none (h : a.sys.replyOf e = none) : (a.step e).replied = a.replied := by
  unfold step
  rw [h]

theorem replied_of_unused (h : a.sys.replyOf e = some r)
    (hid : ¬ (r.token < maxReplies ∧ (a.sys.replies r.token).used = true)) :
    (a.step e).replied = a.replied := by
  unfold step
  rw [h]
  exact if_neg hid

theorem replied_of_used (h : a.sys.replyOf e = some r)
    (hid : r.token < maxReplies ∧ (a.sys.replies r.token).used = true) :
    (a.step e).replied = Function.update a.replied (a.sys.replies r.token).call
      (a.replied (a.sys.replies r.token).call ++ [r]) := by
  unfold step
  rw [h]
  exact if_pos hid

theorem replied_cases (a : Answering) (e : Event) : (a.step e).replied = a.replied ∨
    ∃ r, a.sys.replyOf e = some r ∧ r.token < maxReplies ∧
      (a.sys.replies r.token).used = true ∧
      (a.step e).replied = Function.update a.replied (a.sys.replies r.token).call
        (a.replied (a.sys.replies r.token).call ++ [r]) := by
  cases hr : a.sys.replyOf e with
  | none => exact .inl (replied_of_none hr)
  | some r =>
    by_cases hid : r.token < maxReplies ∧ (a.sys.replies r.token).used = true
    · exact .inr ⟨r, rfl, hid.1, hid.2, replied_of_used hr hid⟩
    · exact .inl (replied_of_unused hr hid)

theorem Sound.fresh_step (h : Sound a) {n : Nat} (hn : a.sys.calls ≤ n) :
    (a.step e).replied n = [] := by
  rcases replied_cases a e with heq | ⟨r, -, hlt, hused, heq⟩
  · rw [heq]
    exact h.fresh n hn
  · have hne : n ≠ (a.sys.replies r.token).call := by
      have := (h.numbers _ hlt hused).1
      omega
    rw [heq, Function.update_of_ne hne]
    exact h.fresh n hn

/-- A slot that a step does not touch stays decided as it was: a further reply only adds to the
history of a call that has its answer. -/
theorem Sound.decided_step (h : Sound a) (hi : i < maxReplies)
    (hused : (a.sys.replies i).used = true)
    (hslot : (a.sys.step e).replies i = a.sys.replies i)
    (hdata : (a.sys.step e).data (a.sys.replies i).page = a.sys.data (a.sys.replies i).page)
    (hreply : ∀ r, a.sys.replyOf e = some r → r.token = i → (a.sys.replies i).done = true) :
    Decided (a.step e) i := by
  obtain ⟨hwaiting, hanswered⟩ := h.decided i hi hused
  change (a.step e).sys.replies i = a.sys.replies i at hslot
  change (a.step e).sys.data (a.sys.replies i).page = a.sys.data (a.sys.replies i).page at hdata
  have hhist : (a.step e).replied (a.sys.replies i).call = a.replied (a.sys.replies i).call ∨
      (a.sys.replies i).done = true ∧ ∃ r, (a.step e).replied (a.sys.replies i).call =
        a.replied (a.sys.replies i).call ++ [r] := by
    rcases replied_cases a e with heq | ⟨r, hr, hlt, hused', heq⟩
    · exact .inl (by rw [heq])
    · by_cases htok : r.token = i
      · subst htok
        exact .inr ⟨hreply r hr rfl, r, by rw [heq, Function.update_self]⟩
      · have hne : (a.sys.replies i).call ≠ (a.sys.replies r.token).call := fun hcall =>
          htok ((h.numbers i hi hused).2 _ hlt hused' hcall).symm
        exact .inl (by rw [heq, Function.update_of_ne hne])
  constructor
  · rw [hslot]
    intro hdone
    rcases hhist with hsame | ⟨hdone', -⟩
    · rw [hsame]
      exact hwaiting hdone
    · rw [hdone] at hdone'
      cases hdone'
  · rw [hslot, hdata]
    intro hdone
    obtain ⟨r, rest, hlist, hlen, hbytes⟩ := hanswered hdone
    rcases hhist with hsame | ⟨-, r', hmore⟩
    · exact ⟨r, rest, hsame.trans hlist, hlen, hbytes⟩
    · exact ⟨r, rest ++ [r'], by rw [hmore, hlist]; rfl, hlen, hbytes⟩

theorem Sound.still (h : Sound a) (hq : a.sys.Settled (a.sys.step e))
    (hreply : ∀ r, a.sys.replyOf e = some r → r.token < maxReplies →
      (a.sys.replies r.token).used = true → (a.sys.replies r.token).done = true) :
    Sound (a.step e) := by
  have hreplies : (a.step e).sys.replies = a.sys.replies := hq.replies
  have hcall : ∀ t, ((a.step e).sys.tasks t).call = (a.sys.tasks t).call := hq.call
  have hcalls : (a.step e).sys.calls = a.sys.calls := hq.calls
  constructor
  case owned => exact h.owned.step e
  case owns => simpa only [hreplies, hcall] using h.owns
  case apart => simpa only [hcall] using h.apart
  case owner => simpa only [hreplies, hcall] using h.owner
  case reads =>
    intro t ht
    rw [hreplies]
    exact hq.reads t (h.reads t ht)
  case numbers => simpa only [hreplies, hcalls] using h.numbers
  case fresh =>
    intro n hn
    exact h.fresh_step (by rwa [hcalls] at hn)
  case decided =>
    intro i hi hused
    rw [hreplies] at hused
    refine h.decided_step hi hused (congrFun hq.replies i) (hq.data i hi hused) fun r hr htok => ?_
    subst htok
    exact hreply r hr hi hused

theorem Sound.opens (h : Sound a) {t p outLen : Nat} (he : a.sys.replyOf e = none)
    (ht : t < maxTasks) (hcall : (a.sys.tasks t).call = none)
    (hi : i < maxReplies) (hfree : (a.sys.replies i).used = false) (hp : p ∉ a.sys.live)
    (hreplies : (a.step e).sys.replies =
      Function.update a.sys.replies i ⟨true, p, 0, false, a.sys.calls⟩)
    (hdata : (a.step e).sys.data = Function.update a.sys.data p [])
    (hcalls : (a.step e).sys.calls = a.sys.calls + 1)
    (hpc : ∃ port msg, (a.step e).sys.tasks t = .post port msg (some ⟨a.sys.calls, i, outLen⟩))
    (hothers : ∀ t' ≠ t, (a.step e).sys.tasks t' = a.sys.tasks t') : Sound (a.step e) := by
  obtain ⟨port, msg, hpc⟩ := hpc
  have hmine : ((a.step e).sys.tasks t).call = some ⟨a.sys.calls, i, outLen⟩ := by rw [hpc]; rfl
  have hself : (a.step e).sys.replies i = ⟨true, p, 0, false, a.sys.calls⟩ := by
    rw [hreplies, Function.update_self]
  have hslot : ∀ j ≠ i, (a.step e).sys.replies j = a.sys.replies j := fun j hj => by
    rw [hreplies, Function.update_of_ne hj]
  -- The other calls have other slots.
  have hold : ∀ t' < maxTasks, ∀ c, ((a.step e).sys.tasks t').call = some c → t' ≠ t →
      (a.sys.tasks t').call = some c ∧ c.token ≠ i := by
    intro t' ht' c hc hne
    rw [hothers t' hne] at hc
    refine ⟨hc, fun htok => ?_⟩
    have hused := (h.owns t' ht' c hc).2.1
    rw [htok, hfree] at hused
    cases hused
  constructor
  case owned => exact h.owned.step e
  case owns =>
    intro t' ht' c hc
    by_cases hne : t' = t
    · rw [hne, hmine, Option.some_inj] at hc
      subst hc
      rw [hself]
      exact ⟨hi, rfl, rfl⟩
    · obtain ⟨hc, htok⟩ := hold t' ht' c hc hne
      rw [hslot _ htok]
      exact h.owns t' ht' c hc
  case apart =>
    intro t₁ ht₁ t₂ ht₂ c₁ c₂ hc₁ hc₂ htok
    by_cases h₁ : t₁ = t <;> by_cases h₂ : t₂ = t
    · rw [h₁, h₂]
    · rw [h₁, hmine, Option.some_inj] at hc₁
      exact absurd (htok.symm.trans (congrArg Call.token hc₁.symm)) (hold t₂ ht₂ c₂ hc₂ h₂).2
    · rw [h₂, hmine, Option.some_inj] at hc₂
      exact absurd (htok.trans (congrArg Call.token hc₂.symm)) (hold t₁ ht₁ c₁ hc₁ h₁).2
    · exact h.apart t₁ ht₁ t₂ ht₂ c₁ c₂ (hold t₁ ht₁ c₁ hc₁ h₁).1 (hold t₂ ht₂ c₂ hc₂ h₂).1 htok
  case owner =>
    intro j hj hused
    by_cases hji : j = i
    · exact ⟨t, ht, _, hmine, hji.symm⟩
    · rw [hslot j hji] at hused
      obtain ⟨t', ht', c, hc, htok⟩ := h.owner j hj hused
      have hne : t' ≠ t := by
        rintro rfl
        rw [hcall] at hc
        cases hc
      exact ⟨t', ht', c, by rw [hothers t' hne, hc], htok⟩
  case reads =>
    intro t' ht'
    by_cases hne : t' = t
    · rw [hne, hpc]
      trivial
    · rw [hothers t' hne]
      refine Pc.reads_congr (h.reads t' ht') fun c hc => hslot _ ?_
      exact (hold t' ht' c (by rw [hothers t' hne, hc]) hne).2
  case numbers =>
    intro j hj hused
    rw [hcalls]
    by_cases hji : j = i
    · rw [hji, hself]
      refine ⟨Nat.lt_succ_self _, fun k hk hku hnum => ?_⟩
      by_contra hki
      rw [hslot k (Ne.symm hki)] at hku hnum
      exact absurd hnum.symm ((h.numbers k hk hku).1).ne
    · rw [hslot j hji] at hused ⊢
      obtain ⟨hlt, hinj⟩ := h.numbers j hj hused
      refine ⟨hlt.trans (Nat.lt_succ_self _), fun k hk hku hnum => ?_⟩
      by_cases hki : k = i
      · rw [hki, hself] at hnum
        exact absurd hnum hlt.ne
      · rw [hslot k hki] at hku hnum
        exact hinj k hk hku hnum
  case fresh =>
    intro n hn
    rw [hcalls] at hn
    exact h.fresh_step (by omega)
  case decided =>
    intro j hj hused
    by_cases hji : j = i
    · rw [hji]
      constructor
      · intro _
        rw [hself]
        exact h.fresh_step (le_refl _)
      · rw [hself]
        exact fun hdone => nomatch hdone
    · rw [hslot j hji] at hused
      have hpage : (a.sys.replies j).page ≠ p := fun heq => hp (heq ▸ h.owned.page_live hj hused)
      refine h.decided_step hj hused (hslot j hji) ?_ fun r hr => ?_
      · change (a.step e).sys.data _ = _
        rw [hdata, Function.update_of_ne hpage]
      · rw [he] at hr
        cases hr

theorem Sound.fills (h : Sound a) (hreply : a.sys.replyOf e = some r) (hlt : r.token < maxReplies)
    (hused : (a.sys.replies r.token).used = true) (hdone : (a.sys.replies r.token).done = false)
    (hreplies : (a.step e).sys.replies = Function.update a.sys.replies r.token
      { a.sys.replies r.token with len := (r.bytes.take ipcMsgMax).length, done := true })
    (hdata : (a.step e).sys.data =
      Function.update a.sys.data (a.sys.replies r.token).page (r.bytes.take ipcMsgMax))
    (hcalls : (a.step e).sys.calls = a.sys.calls)
    (hcall : ∀ t, ((a.step e).sys.tasks t).call = (a.sys.tasks t).call)
    (hreads : ∀ t, (a.sys.tasks t).Reads a.sys.replies →
      ((a.step e).sys.tasks t).Reads a.sys.replies) : Sound (a.step e) := by
  have hslot : ∀ j ≠ r.token, (a.step e).sys.replies j = a.sys.replies j := fun j hj => by
    rw [hreplies, Function.update_of_ne hj]
  have hself : (a.step e).sys.replies r.token =
      { a.sys.replies r.token with len := (r.bytes.take ipcMsgMax).length, done := true } := by
    rw [hreplies, Function.update_self]
  -- Whose a slot is does not change.
  have hused' : ∀ j, ((a.step e).sys.replies j).used = (a.sys.replies j).used ∧
      ((a.step e).sys.replies j).call = (a.sys.replies j).call := by
    intro j
    by_cases hj : j = r.token
    · rw [hj, hself]; exact ⟨rfl, rfl⟩
    · rw [hslot j hj]; exact ⟨rfl, rfl⟩
  constructor
  case owned => exact h.owned.step e
  case owns => simpa only [hcall, (hused' _).1, (hused' _).2] using h.owns
  case apart => simpa only [hcall] using h.apart
  case owner => simpa only [hcall, (hused' _).1] using h.owner
  case reads =>
    intro t ht
    rw [hreplies]
    exact Pc.reads_fill (hreads t (h.reads t ht)) hdone
  case numbers => simpa only [(hused' _).1, (hused' _).2, hcalls] using h.numbers
  case fresh =>
    intro n hn
    exact h.fresh_step (by rwa [hcalls] at hn)
  case decided =>
    intro j hj hu
    rw [(hused' j).1] at hu
    by_cases hjr : j = r.token
    · subst hjr
      constructor
      · rw [hself]
        exact fun hno => nomatch hno
      · intro _
        refine ⟨r, [], ?_, by rw [hself], ?_⟩
        · rw [(hused' _).2, replied_of_used hreply ⟨hlt, hused⟩, Function.update_self,
            (h.decided _ hlt hused).waiting hdone]
          rfl
        · rw [hself, hdata, Function.update_self]
    · have hpage := h.owned.page_ne hj hlt hjr hu hused
      refine h.decided_step hj hu (hslot j hjr) ?_ fun r' hr' htok => ?_
      · change (a.step e).sys.data _ = _
        rw [hdata, Function.update_of_ne hpage]
      · obtain rfl : r = r' := Option.some.inj (hreply.symm.trans hr')
        exact absurd htok.symm hjr

theorem Sound.returns (h : Sound a) {t : Nat} {c : Call} {v : Int} {bytes : List UInt8}
    (he : a.sys.replyOf e = none) (hret : a.sys.Returns (a.sys.step e) t c v bytes) :
    Sound (a.step e) := by
  have hslot : ∀ j ≠ c.token, (a.step e).sys.replies j = a.sys.replies j := hret.replies
  have hgone : ((a.step e).sys.tasks t).call = none := by
    rw [show (a.step e).sys.tasks t = _ from hret.ret]
    rfl
  have hothers : ∀ t' ≠ t, (a.step e).sys.tasks t' = a.sys.tasks t' := hret.others
  have hcalls : (a.step e).sys.calls = a.sys.calls := hret.calls
  -- The calls that go on have other slots.
  have hold : ∀ t' < maxTasks, ∀ c', ((a.step e).sys.tasks t').call = some c' →
      t' ≠ t ∧ (a.sys.tasks t').call = some c' ∧ c'.token ≠ c.token := by
    intro t' ht' c' hc'
    have hne : t' ≠ t := by
      rintro rfl
      rw [hgone] at hc'
      cases hc'
    rw [hothers t' hne] at hc'
    exact ⟨hne, hc', fun htok => hne (h.apart t' ht' t hret.lt c' c hc' hret.call htok)⟩
  have hsame : ∀ j, ((a.step e).sys.replies j).used = true →
      j ≠ c.token ∧ (a.step e).sys.replies j = a.sys.replies j := by
    intro j hused
    have hne : j ≠ c.token := by
      rintro rfl
      rw [show ((a.step e).sys.replies c.token).used = false from hret.unused] at hused
      cases hused
    exact ⟨hne, hslot j hne⟩
  constructor
  case owned => exact h.owned.step e
  case owns =>
    intro t' ht' c' hc'
    obtain ⟨-, hc', htok⟩ := hold t' ht' c' hc'
    rw [hslot _ htok]
    exact h.owns t' ht' c' hc'
  case apart =>
    intro t₁ ht₁ t₂ ht₂ c₁ c₂ hc₁ hc₂
    exact h.apart t₁ ht₁ t₂ ht₂ c₁ c₂ (hold t₁ ht₁ c₁ hc₁).2.1 (hold t₂ ht₂ c₂ hc₂).2.1
  case owner =>
    intro j hj hused
    obtain ⟨hne, heq⟩ := hsame j hused
    rw [heq] at hused
    obtain ⟨t', ht', c', hc', htok⟩ := h.owner j hj hused
    have hne' : t' ≠ t := by
      rintro rfl
      rw [hret.call, Option.some_inj] at hc'
      exact hne (hc' ▸ htok.symm)
    exact ⟨t', ht', c', by rw [hothers t' hne', hc'], htok⟩
  case reads =>
    intro t' ht'
    by_cases hne : t' = t
    · rw [hne, show (a.step e).sys.tasks t = _ from hret.ret]
      trivial
    · rw [hothers t' hne]
      refine Pc.reads_congr (h.reads t' ht') fun c' hc' => hslot _ ?_
      exact (hold t' ht' c' (by rw [hothers t' hne, hc'])).2.2
  case numbers =>
    intro j hj hused
    obtain ⟨-, heq⟩ := hsame j hused
    rw [heq] at hused ⊢
    rw [hcalls]
    obtain ⟨hlt, hinj⟩ := h.numbers j hj hused
    refine ⟨hlt, fun k hk hku hnum => ?_⟩
    obtain ⟨-, heq'⟩ := hsame k hku
    rw [heq'] at hku hnum
    exact hinj k hk hku hnum
  case fresh =>
    intro n hn
    exact h.fresh_step (by rwa [hcalls] at hn)
  case decided =>
    intro j hj hused
    obtain ⟨hne, heq⟩ := hsame j hused
    rw [heq] at hused
    refine h.decided_step hj hused (hslot j hne) (congrFun hret.data _) fun r hr => ?_
    rw [he] at hr
    cases hr

theorem Sound.step (h : Sound a) (e : Event) : Sound (a.step e) := by
  have hturn := h.turn e
  generalize hs' : a.sys.step e = s' at hturn
  cases hturn with
  | still hq hreply => exact h.still (hs' ▸ hq) hreply
  | opens hr ht hcall hi hfree hp hreplies hdata hcalls hpc hothers =>
    subst hs'
    exact h.opens hr ht hcall hi hfree hp hreplies hdata hcalls hpc hothers
  | fills hreply hlt hused hdone hreplies hdata hcalls hcall hreads =>
    subst hs'
    exact h.fills hreply hlt hused hdone hreplies hdata hcalls hcall hreads
  | returns hr hret => exact h.returns hr (hs' ▸ hret)

theorem sound_run (es : List Event) : Sound (es.foldl step init) :=
  List.foldlRecOn es step sound_init fun _ h e _ => h.step e

/-- The call `c` of task `t` goes on over a step: it keeps its slot and its page, and once a reply
has been accepted nothing changes in either. -/
structure Continues (a a' : Answering) (t : Nat) (c : Call) : Prop where
  call : (a'.sys.tasks t).call = some c
  used : (a'.sys.replies c.token).used = true
  page : (a'.sys.replies c.token).page = (a.sys.replies c.token).page
  live : (a.sys.replies c.token).page ∈ a'.sys.live
  first : (a.sys.replies c.token).done = true → a'.sys.replies c.token = a.sys.replies c.token ∧
    a'.sys.data (a.sys.replies c.token).page = a.sys.data (a.sys.replies c.token).page

/-- The call `c` of task `t` returns: its slot is unused and its page is freed. It returns the
first reply that its slot accepted, cut at the maximum, with as much of it as the caller's buffer
holds, or else an error: its request was not posted, or the idle task could not block. -/
structure Ends (a a' : Answering) (t : Nat) (c : Call) : Prop where
  unused : (a'.sys.replies c.token).used = false
  freed : (a.sys.replies c.token).page ∉ a'.sys.live
  value : ∃ v bytes, a'.sys.tasks t = .ret v bytes 0 ∧
    ((∃ r rest, a.replied c.number = r :: rest ∧ v = min r.bytes.length ipcMsgMax ∧
      bytes = r.bytes.take (min (min r.bytes.length ipcMsgMax) c.outLen)) ∨
    a.sys.Fails t c v ∧ bytes = [])

theorem Sound.finish (h : Sound a) {t page len : Nat} {c : Call} (ht : t < maxTasks)
    (hpc : a.sys.tasks t = .finish page len c) : ∃ r rest, a.replied c.number = r :: rest ∧
      len = min r.bytes.length ipcMsgMax ∧ a.sys.data page = r.bytes.take ipcMsgMax := by
  obtain ⟨hlt, hused, hnumber⟩ := h.owns t ht c (by rw [hpc]; rfl)
  have hreads := h.reads t ht
  rw [hpc] at hreads
  obtain ⟨hdone, rfl, rfl⟩ := hreads
  obtain ⟨r, rest, hlist, hlen, hdata⟩ := (h.decided _ hlt hused).answered hdone
  refine ⟨r, rest, hnumber ▸ hlist, ?_, hdata⟩
  rw [hlen, List.length_take, min_comm]

theorem Sound.ends (h : Sound a) {t : Nat} {c : Call} {v : Int} {bytes : List UInt8}
    (hret : a.sys.Returns (a.sys.step e) t c v bytes) : Ends a (a.step e) t c where
  unused := hret.unused
  freed := hret.freed
  value := by
    refine ⟨v, bytes, hret.ret, ?_⟩
    rcases hret.value with ⟨page, len, hpc, rfl, rfl⟩ | hfail
    · obtain ⟨r, rest, hlist, hlen, hdata⟩ := h.finish hret.lt hpc
      refine .inl ⟨r, rest, hlist, congrArg Nat.cast hlen, ?_⟩
      rw [hdata, hlen, List.take_take]
      congr 1
      omega
    · exact .inr hfail

theorem Sound.call_step (h : Sound a) (e : Event) {t : Nat} (ht : t < maxTasks) {c : Call}
    (hc : (a.sys.tasks t).call = some c) :
    Continues a (a.step e) t c ∨ Ends a (a.step e) t c := by
  obtain ⟨hlt, hused, -⟩ := h.owns t ht c hc
  have hlive : ∀ {a' : Answering}, Sound a' → (a'.sys.replies c.token).used = true →
      (a'.sys.replies c.token).page ∈ a'.sys.live := fun h' hu => h'.owned.page_live hlt hu
  have hkeep : (a.step e).sys.replies c.token = a.sys.replies c.token →
      ((a.step e).sys.tasks t).call = some c →
      (a.step e).sys.data (a.sys.replies c.token).page = a.sys.data (a.sys.replies c.token).page →
      Continues a (a.step e) t c := by
    intro hslot hcall hdata
    have hused' : ((a.step e).sys.replies c.token).used = true := by rw [hslot, hused]
    have hpage := hlive (h.step e) hused'
    rw [hslot] at hpage
    exact ⟨hcall, hused', by rw [hslot], hpage, fun _ => ⟨hslot, hdata⟩⟩
  have hturn := h.turn e
  generalize hs' : a.sys.step e = s' at hturn
  cases hturn with
  | still hq =>
    subst hs'
    exact .inl (hkeep (congrFun hq.replies _) ((hq.call t).trans hc) (hq.data _ hlt hused))
  | @opens t' i p outLen _ hr ht' hcall hi hfree hp hreplies hdata hcalls hpc hothers =>
    subst hs'
    have hne : t ≠ t' := by
      rintro rfl
      rw [hcall] at hc
      cases hc
    have htok : c.token ≠ i := by
      rintro rfl
      rw [hfree] at hused
      cases hused
    have hpage : (a.sys.replies c.token).page ≠ p := fun heq => hp (heq ▸ hlive h hused)
    refine .inl (hkeep ?_ ?_ ?_)
    · change (a.sys.step _).replies _ = _
      rw [hreplies, Function.update_of_ne htok]
    · change ((a.sys.step _).tasks t).call = _
      rw [hothers t hne, hc]
    · change (a.sys.step _).data _ = _
      rw [hdata, Function.update_of_ne hpage]
  | @fills r _ hreply hltr hur hdone hreplies hdata hcalls hcall hreads =>
    subst hs'
    have hcall' : ((a.step e).sys.tasks t).call = some c := (hcall t).trans hc
    by_cases htok : c.token = r.token
    · have hself : (a.step e).sys.replies c.token =
          { a.sys.replies r.token with len := (r.bytes.take ipcMsgMax).length, done := true } := by
        rw [htok]
        exact (congrFun hreplies r.token).trans (Function.update_self ..)
      have hused' : ((a.step e).sys.replies c.token).used = true := by rw [hself]; exact hur
      have hpage := hlive (h.step e) hused'
      rw [hself] at hpage
      refine .inl ⟨hcall', hused', by rw [hself, htok], by rw [htok]; exact hpage, fun hno => ?_⟩
      rw [htok, hdone] at hno
      cases hno
    · refine .inl (hkeep ?_ hcall' ?_)
      · exact (congrFun hreplies _).trans (Function.update_of_ne htok ..)
      · exact (congrFun hdata _).trans
          (Function.update_of_ne (h.owned.page_ne hlt hltr htok hused hur) ..)
  | @returns t' c' v bytes _ hr hret =>
    subst hs'
    by_cases hne : t = t'
    · subst hne
      obtain rfl : c = c' := Option.some.inj (hc.symm.trans hret.call)
      exact .inr (h.ends hret)
    · have htok : c.token ≠ c'.token := fun htok =>
        hne (h.apart t ht t' hret.lt c c' hc hret.call htok)
      refine .inl (hkeep (hret.replies _ htok) ?_ (congrFun hret.data _))
      exact (congrArg Pc.call (hret.others t hne)).trans hc

/-- Over every run: a slot in use belongs to exactly one call in progress, its page is live and is
no message page and no other slot's page; and over every step each call in progress goes on with
its slot and its page untouched, or returns, which frees the page, with the first reply that its
slot accepted or with an error. -/
theorem reply_slots (es : List Event) :
    let a := es.foldl step init
    (∀ i < maxReplies, (a.sys.replies i).used = true →
      (∃! t, t < maxTasks ∧ ∃ c, (a.sys.tasks t).call = some c ∧ c.token = i) ∧
      (a.sys.replies i).page ∈ a.sys.live ∧ (a.sys.replies i).page ∉ a.sys.messages 0 ∧
      ∀ j < maxReplies, (a.sys.replies j).used = true → i ≠ j →
        (a.sys.replies i).page ≠ (a.sys.replies j).page) ∧
    (∀ t < maxTasks, ∀ c, (a.sys.tasks t).call = some c →
      c.token < maxReplies ∧ (a.sys.replies c.token).used = true ∧
      ∀ e, Continues a (a.step e) t c ∨ Ends a (a.step e) t c) := by
  intro a
  have h : Sound a := sound_run es
  refine ⟨fun i hi hused => ⟨?_, h.owned.page_live hi hused, ?_, ?_⟩, fun t ht c hc => ?_⟩
  · obtain ⟨t, ht, c, hc, htok⟩ := h.owner i hi hused
    refine ⟨t, ⟨ht, c, hc, htok⟩, ?_⟩
    rintro t' ⟨ht', c', hc', htok'⟩
    exact h.apart t' ht' t ht c' c hc' hc (htok'.trans htok.symm)
  · exact h.owned.page_not_message hi hused
  · intro j hj huj hne
    exact h.owned.page_ne hi hj hne hused huj
  · obtain ⟨hlt, hused, -⟩ := h.owns t ht c hc
    exact ⟨hlt, hused, fun e => h.call_step e ht hc⟩

/-- The slot of a call is answered by a task that guessed its token, before the call finds that
the port does not exist: the call returns `ESRCH`, whatever its slot accepted. -/
theorem reply_before_post : ∃ es : List Event, let a := es.foldl step init
    a.replied 0 = [⟨1, none, [5]⟩] ∧ (a.sys.tasks 2).call = some ⟨0, 1, 8⟩ ∧
      (a.step (.run 2 none true)).sys.tasks 2 = .ret (-esrch) [] 0 := by
  refine ⟨[.start 2 (.call 7 [1] 8), .run 2 (some 4096) true, .start 1 (.reply ⟨1, none, [5]⟩),
    .run 1 none true], ?_⟩
  decide

end Answering

end Rynex.Ipc
