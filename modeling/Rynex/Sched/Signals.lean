import Rynex.Sched.Effects

/-! What the end of a task and the delivery of signals keep of the scheduler's invariant. -/

namespace Rynex.Sched

open Rynex.Lib State
open Rynex.Task (sigChld sigKill sigStop sigDfl sigIgn terminates)

variable {full : Prop} {out out' : List Nat} {s s' s'' : State} {t i idx : Nat} {p : Nat}
  {f : Task → Task}

/-! ### What stays as it was -/

/-- Nobody has changed who is who, and who is blocked was so before, on the same word and with the
same handlers. -/
structure Calm (s s' : State) : Prop where
  current : s'.current = s.current
  idle : s'.idle = s.idle
  ids : ∀ i, (s'.tasks i).id = (s.tasks i).id ∧ (s'.tasks i).tgid = (s.tasks i).tgid
  blocked : ∀ i, (s'.tasks i).state = .blocked → (s.tasks i).state = .blocked ∧
    (s'.tasks i).blockedOn = (s.tasks i).blockedOn ∧
    (s'.tasks i).signals.handlers = (s.tasks i).signals.handlers

namespace Calm

theorem congr (htasks : s'.tasks = s.tasks) (hcur : s'.current = s.current)
    (hidle : s'.idle = s.idle) : Calm s s' where
  current := hcur
  idle := hidle
  ids i := by rw [htasks]; exact ⟨rfl, rfl⟩
  blocked i hb := by rw [htasks] at hb ⊢; exact ⟨hb, rfl, rfl⟩

theorem refl (s : State) : Calm s s := .congr rfl rfl rfl

theorem trans (h : Calm s s') (h' : Calm s' s'') : Calm s s'' where
  current := h'.current.trans h.current
  idle := h'.idle.trans h.idle
  ids i := ⟨(h'.ids i).1.trans (h.ids i).1, (h'.ids i).2.trans (h.ids i).2⟩
  blocked i hb := by
    obtain ⟨hb', hon', hh'⟩ := h'.blocked i hb
    obtain ⟨hb'', hon'', hh''⟩ := h.blocked i hb'
    exact ⟨hb'', hon'.trans hon'', hh'.trans hh''⟩

theorem setTask (s : State) (i : Nat) (hid : ∀ t, (f t).id = t.id ∧ (f t).tgid = t.tgid)
    (hb : ∀ t, (f t).state = .blocked → t.state = .blocked ∧ (f t).blockedOn = t.blockedOn ∧
      (f t).signals.handlers = t.signals.handlers) : Calm s (s.setTask i f) where
  current := rfl
  idle := rfl
  ids j := by
    obtain rfl | hj := eq_or_ne j i
    · rw [tasks_setTask_self]
      exact hid _
    · rw [tasks_setTask_ne _ _ hj]
      exact ⟨rfl, rfl⟩
  blocked j := by
    obtain rfl | hj := eq_or_ne j i
    · rw [tasks_setTask_self]
      exact hb _
    · rw [tasks_setTask_ne _ _ hj]
      exact fun h => ⟨h, rfl, rfl⟩

theorem woke (h : Woke s s') : Calm s s' := by
  obtain ⟨T, R, rfl⟩ := h.rest
  refine ⟨rfl, rfl, fun i => ⟨(h.tasks i).id, (h.tasks i).tgid⟩, fun i hb => ?_⟩
  rcases (h.tasks i).state with ⟨hs, hon⟩ | ⟨-, hr⟩
  · exact ⟨hs.symm.trans hb, hon, (h.tasks i).handlers⟩
  · rw [hr] at hb
    cases hb

theorem reparentChildrenToInit (s : State) (pid : Nat) : Calm s (s.reparentChildrenToInit pid) where
  current := rfl
  idle := rfl
  ids i := by
    simp only [State.reparentChildrenToInit]
    split <;> exact ⟨rfl, rfl⟩
  blocked i := by
    simp only [State.reparentChildrenToInit]
    split <;> exact fun h => ⟨h, rfl, rfl⟩

theorem clearTid (s : State) (tidptr : Nat) : Calm s (s.clearTid tidptr) := by
  obtain ⟨w, hw⟩ := Woke.clearTid s tidptr
  have hword : Calm s { s with word := w } := .congr rfl rfl rfl
  exact hword.trans (.woke hw)

end Calm

/-! ### The pieces of `exit_task` and `kill_task_zombie` -/

/-- The number is a pid, or stands for any child. -/
def pidLike (n : Nat) : Bool := (n ≠ 0 && n < maxTasks) || n = anyChild

/-- If the current task is blocked, it does not wait for a child by number. -/
def NoChildWait (s : State) : Prop :=
  (s.tasks s.current).state = .blocked → pidLike (s.tasks s.current).blockedOn = false

theorem NoChildWait.calm (h : NoChildWait s) (hc : Calm s s') : NoChildWait s' := by
  intro hb
  rw [hc.current] at hb ⊢
  obtain ⟨hb', hon, -⟩ := hc.blocked _ hb
  rw [hon]
  exact h hb'

theorem NoChildWait.of_not_blocked (h : (s.tasks s.current).state ≠ .blocked) : NoChildWait s :=
  fun hb => absurd hb h

namespace Sane

theorem clearTid (h : Sane full [s.current] s) (hnb : (s.tasks s.current).state ≠ .blocked)
    (tidptr : Nat) : Sane full [s.current] (s.clearTid tidptr) := by
  unfold State.clearTid
  split
  · obtain ⟨w₁, e₁⟩ := s.storeWord_eq tidptr 0
    obtain ⟨w₂, e₂⟩ := State.storeWord_eq { s with word := w₁ } (tidptr + 4) 0
    rw [e₁, e₂]
    have h₁ : Sane full [s.current] { s with word := w₂ } := h.congr rfl rfl rfl rfl
    have h₂ := (Scanned.futexWake (s := { s with word := w₂ }) h₁ tidptr 1).sane hnb
    rw [h₂.2.1] at h₂
    exact h₂.1
  · exact h

theorem wakeOther (h : Sane full [s.current] s) (hb : (s.task p).state = .blocked)
    (hp : p ≠ s.current) (hid : ∀ t, (f t).id = t.id) :
    Sane full [s.current] (s.wakeTask (taskIdx p) p f) := by
  have hidx : taskIdx p = p := by
    by_contra hne
    have hzero : taskIdx p = 0 := by
      unfold taskIdx at hne ⊢
      split <;> simp_all
    rw [State.task, hzero, h.slots.zero.2] at hb
    cases hb
  have hlt : p < maxTasks := hidx ▸ taskIdx_lt p
  rw [s.task_of_lt hlt] at hb
  obtain ⟨hne, -⟩ := Scanned.slot_of_blocked h.slots hlt hb
  rw [hidx]
  simpa [Ne.symm hp] using h.wakeTask ⟨hne, hlt⟩ hb hid

theorem wakeParent {id : Nat} (h : Sane full [s.current] s) (hno : NoChildWait s)
    (hid : id ≠ 0 ∧ id < maxTasks) (p : Option Nat) :
    Sane full [s.current] (s.wakeParent p id) := by
  cases p with
  | none => exact h
  | some p => ?_
  simp only [State.wakeParent]
  split
  next hc =>
    simp only [Bool.and_eq_true, Bool.or_eq_true, decide_eq_true_eq] at hc
    refine h.wakeOther hc.1 (fun hp => ?_) fun _ => rfl
    subst hp
    rw [h.current_task] at hc
    have hn := hno hc.1
    simp only [pidLike, Bool.or_eq_false_iff, Bool.and_eq_false_iff, decide_eq_false_iff_not,
      not_not] at hn
    rcases hc.2 with hon | hon <;> rw [hon] at hn
    · rcases hn.1 with h0 | h0
      · exact hid.1 h0
      · exact h0 hid.2
    · exact hn.2 rfl
  next => exact h

theorem notifyParent (h : Sane full [s.current] s) (hnb : (s.tasks s.current).state ≠ .blocked)
    (p : Nat) : Sane full [s.current] (s.notifyParent p) := by
  have hpend := h.setTask (taskIdx p)
    (f := fun t => { t with signals := t.signals.setPending sigChld }) ⟨rfl, rfl, rfl⟩
  simp only [State.notifyParent]
  split
  · split
    next hb =>
      simp only [Bool.and_eq_true, decide_eq_true_eq] at hb
      refine Sane.wakeOther (s := State.setTask _ _ _) hpend ?_ (fun hp => ?_) fun _ => rfl
      · simpa [State.task] using hb.1
      · obtain rfl : p = s.current := hp
        rw [h.current_task] at hb
        exact hnb hb.1
    next => exact hpend
  · exact h

theorem reparentChildrenToInit (h : Sane full out s) (pid : Nat) :
    Sane full out (s.reparentChildrenToInit pid) := by
  have halike : ∀ t, Alike (s.tasks t) ((s.reparentChildrenToInit pid).tasks t) := by
    intro t
    simp only [State.reparentChildrenToInit]
    split <;> exact ⟨rfl, rfl, rfl⟩
  obtain ⟨q, hq⟩ := h.queued
  exact ⟨h.slots.frame rfl rfl ((halike 0).state.trans h.slots.zero.2) (fun t _ => (halike t).id)
    fun t _ => by rw [(halike t).state], q, hq.frame rfl fun t _ _ => .inl (halike t)⟩

/-! ### `exit_task` -/

theorem closeFds (h : Sane full out s) (id : Nat) : Sane full out (s.closeFds id) := by
  unfold State.closeFds
  exact h.congr rfl rfl rfl rfl

theorem exitHead (h : Sane full [s.current] s) (code : Int) :
    Sane full [s.current] (s.exitHead code) ∧ (s.exitHead code).current = s.current ∧
      ((s.exitHead code).tasks s.current).state ≠ .blocked := by
  have hclose := h.closeFds s.current
  have hcur : (s.closeFds s.current).current = s.current := by rw [State.closeFds]
  unfold State.exitHead
  simp only
  generalize s.closeFds s.current = c at hclose hcur ⊢
  rw [← hcur] at hclose ⊢
  have hzombie := hclose.setCurrent (f := die code) (fun _ => rfl) fun _ _ => by simp [die]
  have hnb : ((c.setTask (taskIdx c.current) (die code)).tasks c.current).state ≠ .blocked := by
    rw [hclose.current_idx, tasks_setTask_self]
    simp [die]
  have hcalm := Calm.clearTid (c.setTask (taskIdx c.current) (die code))
    ((c.setTask (taskIdx c.current) (die code)).task c.current).childTidptr
  exact ⟨hzombie.clearTid hnb _, hcalm.current, fun hb => hnb (hcalm.blocked _ hb).1⟩

theorem exitTail (h : Sane full [s.current] s) (hnb : (s.tasks s.current).state ≠ .blocked) :
    Sane full [s.current] s.exitTail ∧ s.exitTail.current = s.current := by
  have hw := h.wakeParent (.of_not_blocked hnb) ⟨h.slots.current.2.1, h.slots.current.1⟩
    (s.task s.current).parent
  exact ⟨hw.reparentChildrenToInit _, (Calm.woke (.wakeParent s _ s.current)).current⟩

theorem exitBody {code : Int} (h : Sane full [s.current] s) (hs' : s.exitBody code = some s') :
    Sane full [s.current] s' ∧ s'.current = s.current := by
  obtain ⟨hhead, hcur, hnb⟩ := h.exitHead code
  unfold State.exitBody at hs'
  simp only at hs'
  rw [← hcur] at hhead hnb
  split at hs'
  · obtain rfl := Option.some.inj hs'
    obtain ⟨htail, hcur'⟩ := hhead.exitTail hnb
    exact ⟨hcur ▸ htail, hcur'.trans hcur⟩
  · split at hs'
    · cases hs'
    · obtain rfl := Option.some.inj hs'
      have hcalm := Calm.woke (.notifyParent (s.exitHead code) ‹Nat›)
      have hnot := hhead.notifyParent hnb ‹Nat›
      rw [← hcalm.current] at hnot
      obtain ⟨htail, hcur'⟩ := hnot.exitTail fun hb => hnb (by
        rw [hcalm.current] at hb
        exact (hcalm.blocked _ hb).1)
      exact ⟨(hcalm.current.trans hcur) ▸ htail, hcur'.trans (hcalm.current.trans hcur)⟩

theorem exitTask (h : Sane full [s.current] s) (code : Int) :
    Sane full [(s.exitTask code).2.current] (s.exitTask code).2 ∧ (s.exitTask code).1 = false ∧
      Going (s.exitTask code).2 := by
  rw [State.exitTask, if_neg h.slots.current.2.1]
  cases hb : s.exitBody code with
  | none =>
    obtain ⟨hhead, hcur, -⟩ := h.exitHead code
    refine ⟨?_, rfl, .inl rfl⟩
    rw [← hcur] at hhead
    exact hhead.congr rfl rfl rfl rfl
  | some s' =>
    obtain ⟨hs', hcur⟩ := h.exitBody hb
    rw [← hcur] at hs'
    exact ⟨hs'.scheduleInner true, hs'.scheduleInner_leaves, .scheduleInner hs' true nofun⟩

/-! ### `kill_task_zombie` -/

theorem removeFromRunqueue_setTask (s : State) (i tid : Nat) (hf : ∀ t, (f t).prio = t.prio) :
    (s.setTask i f).removeFromRunqueue tid = (s.removeFromRunqueue tid).map (·.setTask i f) := by
  have hprio : ((s.setTask i f).task tid).prio = (s.task tid).prio := by
    unfold State.task
    obtain heq | hne := eq_or_ne (taskIdx tid) i
    · rw [heq, tasks_setTask_self, hf]
    · rw [tasks_setTask_ne _ _ hne]
  simp only [State.removeFromRunqueue, hprio, Option.map_map]
  rfl

theorem zombify (h : Sane full [s.current] s) (hidx : idx ≠ 0 ∧ idx < maxTasks)
    (hstate : (s.tasks idx).state ≠ .empty) (code : Int) :
    ∃ rq, (s.setTask idx (die code)).removeFromRunqueue idx =
        some ({ s with rq := rq }.setTask idx (die code)) ∧
      Sane full [s.current] ({ s with rq := rq }.setTask idx (die code)) := by
  obtain ⟨rq, hrem, hs⟩ := h.remove hidx.2
  refine ⟨rq,
    by rw [removeFromRunqueue_setTask (f := die code) s idx idx fun _ => rfl, hrem]; rfl, ?_⟩
  have hz := hs.setOut (i := idx) (f := die code) (by simp) hidx.1 rfl (by simp [die, hstate])
  exact hz.put_back (by simp [die])

theorem killTaskZombie (h : Sane full [s.current] s) (hno : NoChildWait s)
    (hidx : idx ≠ 0 ∧ idx < maxTasks) (hstate : (s.tasks idx).state ≠ .empty) (code : Int) :
    ∃ s', s.killTaskZombie idx code = some s' ∧ Sane full [s'.current] s' ∧ Calm s s' := by
  obtain ⟨rq, hrem, hz⟩ := h.zombify hidx hstate code
  have hid : (s.tasks idx).id = idx := h.slots.ids idx hidx.2 hidx.1 hstate
  have hcalm : Calm s ({ s with rq := rq }.setTask idx (die code)) :=
    have hqueue : Calm s { s with rq := rq } := .congr rfl rfl rfl
    hqueue.trans
      (.setTask (f := die code) _ _ (fun _ => ⟨rfl, rfl⟩) fun _ hb => by simp [die] at hb)
  have hzid : (({ s with rq := rq }.setTask idx (die code)).tasks idx) = die code (s.tasks idx) :=
    tasks_setTask_self ..
  have hdie : (die code (s.tasks idx)).id = idx := hid
  simp only [State.killTaskZombie, tasks_setTask_self, hdie, ne_eq, hidx.1, not_false_eq_true,
    if_true,
    hrem, Option.map_some, Option.some.injEq, exists_eq_left']
  generalize { s with rq := rq }.setTask idx (die code) = z at hz hcalm hzid ⊢
  generalize (die code (s.tasks idx)).childTidptr = tidptr
  have hcur : z.current = s.current := hcalm.current
  -- the tid word is cleared only if the task kills itself, and it is a zombie then
  have hclear : Sane full [z.current]
      (z.clearTid (if idx = z.current then tidptr else 0)) := by
    rw [← hcur] at hz
    split
    next hself =>
      refine hz.clearTid ?_ _
      rw [← hself, hzid]
      simp [die]
    next => simpa [State.clearTid] using hz
  have hcalm' := hcalm.trans (Calm.clearTid z (if idx = z.current then tidptr else 0))
  generalize z.clearTid (if idx = z.current then tidptr else 0) = c at hclear hcalm' ⊢
  rw [hcur, ← hcalm'.current] at hclear
  have hw := hclear.wakeParent (hno.calm hcalm') hidx (c.tasks idx).parent
  have hcalm'' := (hcalm'.trans (.woke (.wakeParent c (c.tasks idx).parent idx))).trans
    (Calm.reparentChildrenToInit _ idx)
  refine ⟨?_, hcalm''⟩
  rw [hcalm''.current, ← hcalm'.current]
  exact hw.reparentChildrenToInit idx

end Sane

/-! ### Delivery -/

/-- What a function leaves behind: the invariant, and a calm table if it comes back. -/
structure Sent (full : Prop) (s s' : State) (back : Bool) : Prop where
  sane : Sane full [s'.current] s'
  calm : back = true → Calm s s'
  gone : back = false → Going s'

theorem Sent.of_calm (h : Sane full [s'.current] s') (hcalm : Calm s s') : Sent full s s' true :=
  ⟨h, fun _ => hcalm, nofun⟩

namespace Sane

theorem lose (h : Sane full [s.current] s) (hfull : ¬ full) (hi : i ≠ 0)
    (hb : (s.tasks i).state = .blocked) (hid : (f (s.tasks i)).id = (s.tasks i).id)
    (hstate : (f (s.tasks i)).state ≠ .empty) : Sane full [s.current] (s.setTask i f) := by
  have hs := (h.put_out (t := i) (by simp [hb])).setOut (f := f) List.mem_cons_self hi hid
    (by simp [hb, hstate])
  obtain ⟨q, hq⟩ := hs.queued
  refine ⟨hs.slots, q, hq.holds, fun ht => ?_, fun hf => absurd hf hfull⟩
  obtain ⟨hne, hlt, hp, hr, hout⟩ := hq.member ht
  exact ⟨hne, hlt, hp, hr, fun hin => hout (List.mem_cons_of_mem _ hin)⟩

theorem setSignals (h : Sane full [s.current] s) (i : Nat) {g : Task → Task.Signals}
    (hg : ∀ t, (g t).handlers = t.signals.handlers) :
    Sent full s (s.setTask i fun t => { t with signals := g t }) true :=
  .of_calm (h.setTask i ⟨rfl, rfl, rfl⟩)
    (.setTask s i (fun _ => ⟨rfl, rfl⟩) fun t hb => ⟨hb, rfl, hg t⟩)

theorem caught {sig : Int} (h : Sane full [s.current] s) (hne : idx ≠ 0)
    (hloud : (s.tasks idx).state = .blocked ∧ (s.tasks idx).blockedOn = sigsuspendMagic →
      full → idx = s.current) : Sent full s (s.setTask idx (caughtBy sig)) true where
  sane := by
    have hid : (caughtBy sig (s.tasks idx)).id = (s.tasks idx).id := by
      unfold caughtBy
      dsimp only
      split <;> rfl
    by_cases hsus : (s.tasks idx).state = .blocked ∧ (s.tasks idx).blockedOn = sigsuspendMagic
    · by_cases hf : full
      · obtain rfl := hloud hsus hf
        exact h.setOut (by simp) hne hid (by simp [caughtBy, hsus])
      · exact h.lose hf hne hsus.1 hid (by simp [caughtBy, hsus])
    · refine h.setTask idx ?_
      unfold caughtBy
      dsimp only
      rw [if_neg hsus]
      exact ⟨rfl, rfl, rfl⟩
  calm _ := by
    refine .setTask s idx (fun t => ?_) fun t hb => ?_
    · unfold caughtBy
      dsimp only
      split <;> exact ⟨rfl, rfl⟩
    · unfold caughtBy at hb ⊢
      dsimp only at hb ⊢
      split at hb
      · cases hb
      · rw [if_neg ‹_›]
        exact ⟨hb, rfl, rfl⟩
  gone := nofun

theorem deliverLocked {sig : Int} (h : Sane full [s.current] s) (hno : NoChildWait s)
    (hlt : idx < maxTasks) (hloud : full → idx ≠ s.current → silent (s.tasks idx) sig = false) :
    Sent full s (s.deliverLocked idx sig).2 (s.deliverLocked idx sig).1.isSome := by
  have hkill (hlive : (s.tasks idx).id ≠ 0 ∧ (s.tasks idx).state ≠ .empty) :=
    h.killTaskZombie hno ⟨fun h0 => hlive.1 (h0 ▸ h.slots.zero.1), hlt⟩ hlive.2 (128 + sig)
  have hd := delivers s idx sig
  generalize s.deliverLocked idx sig = r at hd
  cases hd with
  | refused | ignored => exact .of_calm h (.refl s)
  | pended => exact h.setSignals idx (g := fun t => t.signals.setPending _) fun _ => rfl
  | caught hid hsilent =>
    refine h.caught (fun h0 => hid (h0 ▸ h.slots.zero.1)) fun hsus hf => ?_
    by_contra hcur
    have := hloud hf hcur
    rw [hsilent hsus] at this
    cases this
  | killed hlive _ _ _ hk =>
    obtain ⟨sk, hsk, hsane, hcalm⟩ := hkill hlive
    obtain rfl := Option.some.inj (hsk.symm.trans hk)
    exact .of_calm hsane hcalm
  | lost hlive hk =>
    obtain ⟨sk, hsk, -⟩ := hkill hlive
    cases hsk.symm.trans hk
  | exits =>
    obtain ⟨hexit, hback, hgone⟩ := h.exitTask (128 + sig)
    simp only [hback]
    exact ⟨hexit, nofun, fun _ => hgone⟩

end Sane

theorem Sent.locked {α : Type} {g : State → Option α × State} (h : Sane full [s.current] s)
    (hg : Sent full { s with sigLock := true } (g { s with sigLock := true }).2
      (g { s with sigLock := true }).1.isSome) :
    Sent full s (s.locked g).2 (s.locked g).1.isSome := by
  unfold State.locked
  split
  · exact ⟨h.congr rfl rfl rfl rfl, nofun, fun _ => .inl rfl⟩
  · rcases hr : g { s with sigLock := true } with ⟨r, s'⟩
    rw [hr] at hg
    cases r with
    | none => exact ⟨hg.sane, nofun, hg.gone⟩
    | some r =>
      have hcalm := hg.calm rfl
      exact .of_calm (hg.sane.congr rfl rfl rfl rfl)
        ⟨hcalm.current, hcalm.idle, hcalm.ids, hcalm.blocked⟩

theorem silent_calm {sig : Int} (hc : Calm s s') (h : silent (s.tasks i) sig = false) :
    silent (s'.tasks i) sig = false := by
  by_contra hs
  have hb : (s'.tasks i).state = .blocked := by
    simp only [silent, Bool.not_eq_false, Bool.and_eq_true, decide_eq_true_eq] at hs
    exact hs.1.1.1.1.1.1.1
  obtain ⟨hb', hon, hh⟩ := hc.blocked i hb
  rw [silent, hb, hon, hh] at hs
  rw [silent, hb'] at h
  exact hs h

/-- A test that looks at the numbers of a task. -/
def ByNumber (test : Task → Bool) : Prop :=
  ∀ t t' : Task, t'.id = t.id → t'.tgid = t.tgid → test t' = test t

/-- The tasks that `signal_foreground_group` selects. -/
def foreground (s : State) (fg : Nat) (t : Task) : Bool :=
  let target := if 0 < fg then fg else (s.task s.current).tgid
  t.tgid = target || target = 0

namespace Sane

theorem sigDeliverToTask {sig : Int} (h : Sane full [s.current] s) (hno : NoChildWait s)
    (hlt : idx < maxTasks) (hloud : full → idx ≠ s.current → silent (s.tasks idx) sig = false) :
    Sent full s (s.sigDeliverToTask idx sig).2 (s.sigDeliverToTask idx sig).1.isSome :=
  Sent.locked h (Sane.deliverLocked (s := { s with sigLock := true }) (h.congr rfl rfl rfl rfl) hno
    hlt hloud)

theorem sendAll {test : Task → Bool} {sig : Int} {is : List Nat} (htest : ByNumber test)
    (his : ∀ i ∈ is, i < maxTasks) (h : Sane full [s.current] s) (hno : NoChildWait s)
    (hloud : full → ∀ i ∈ is, (s.tasks i).id ≠ 0 → test (s.tasks i) = true → i ≠ s.current →
      silent (s.tasks i) sig = false) (hits : Nat) :
    Sane full [(State.sendAll test sig s hits is).2.current]
      (State.sendAll test sig s hits is).2 := by
  induction is generalizing s hits with
  | nil => exact h
  | cons i is ih =>
    have his' : ∀ j ∈ is, j < maxTasks := fun j hj => his j (List.mem_cons_of_mem _ hj)
    rw [State.sendAll]
    split
    next hsel =>
      simp only [Bool.and_eq_true, decide_eq_true_eq] at hsel
      have hsent : Sent full s (s.sigDeliverToTask i sig).2 (s.sigDeliverToTask i sig).1.isSome :=
        h.sigDeliverToTask hno (his i List.mem_cons_self) fun hf hcur =>
          hloud hf i List.mem_cons_self hsel.1 hsel.2 hcur
      rcases hr : s.sigDeliverToTask i sig with ⟨r, s'⟩
      rw [hr] at hsent
      cases r with
      | none => exact hsent.sane
      | some r =>
        have hcalm := hsent.calm rfl
        refine ih his' hsent.sane (hno.calm hcalm) (fun hf j hj hid htj hcur => ?_) _
        refine silent_calm hcalm (hloud hf j (List.mem_cons_of_mem _ hj) ?_ ?_ ?_)
        · rwa [← (hcalm.ids j).1]
        · rwa [← htest _ _ (hcalm.ids j).1 (hcalm.ids j).2]
        · rwa [← hcalm.current]
    next =>
      exact ih his' h hno (fun hf j hj => hloud hf j (List.mem_cons_of_mem _ hj)) _

theorem killTargets_byNumber (current : Nat) (pid : Int) : ByNumber (killTargets current pid) := by
  intro t t' hid htgid
  simp [killTargets, hid, htgid]

theorem sysKill {pid sig : Int} (h : Sane full [s.current] s) (hno : NoChildWait s)
    (hloud : full → ∀ i, i < maxTasks → (s.tasks i).id ≠ 0 →
      killTargets s.current pid (s.tasks i) = true → i ≠ s.current →
        silent (s.tasks i) sig = false) :
    Sane full [(s.sysKill pid sig).2.current] (s.sysKill pid sig).2 := by
  have hsend := h.sendAll (killTargets_byNumber s.current pid)
    (fun i hi => List.mem_range.mp hi) hno
    (fun hf i hi => hloud hf i (List.mem_range.mp hi)) 0
  unfold State.sysKill
  split
  · exact h
  · split <;>
    next hr =>
      rw [hr] at hsend
      exact hsend

theorem signalForegroundGroup {fg : Nat} {sig : Int} (h : Sane full [s.current] s)
    (hno : NoChildWait s)
    (hloud : full → ∀ i, i < maxTasks → (s.tasks i).id ≠ 0 → foreground s fg (s.tasks i) = true →
      i ≠ s.current → silent (s.tasks i) sig = false) :
    Sane full [(s.signalForegroundGroup fg sig).current] (s.signalForegroundGroup fg sig) := by
  unfold State.signalForegroundGroup
  split
  · exact h
  · have htest : ByNumber (foreground s fg) := fun t t' _ htgid => by simp [foreground, htgid]
    exact h.sendAll htest (fun i hi => List.mem_range.mp hi) hno
      (fun hf i hi hid htest => hloud hf i (List.mem_range.mp hi) hid htest) 0

theorem deliverPending (h : Sane full [s.current] s) (sigs : List Nat) :
    Sent full s (s.deliverPending sigs).2 (s.deliverPending sigs).1.isSome := by
  induction sigs with
  | nil => exact .of_calm h (.refl s)
  | cons sig sigs ih =>
    rw [State.deliverPending]
    split
    · exact ih
    · have hclear := h.setTask (taskIdx s.current)
        (f := fun t => { t with signals := t.signals.clearPending sig }) ⟨rfl, rfl, rfl⟩
      obtain ⟨hexit, hback, hgone⟩ := Sane.exitTask (s := State.setTask _ _ _) hclear (128 + sig)
      simp only [hback]
      exact ⟨hexit, nofun, fun _ => hgone⟩
    · exact h.setSignals _ (g := handlerSignals sig) fun _ => rfl

theorem checkDeliverSignal (h : Sane full [s.current] s) (restore : Bool) :
    Sent full s (s.checkDeliverSignal restore).2 (s.checkDeliverSignal restore).1.isSome := by
  refine Sent.locked h ?_
  have h' : Sane full [s.current] { s with sigLock := true } := h.congr rfl rfl rfl rfl
  dsimp only
  split
  · exact .of_calm h' (.refl _)
  · split
    · exact .of_calm h' (.refl _)
    · exact Sane.deliverPending (s := { s with sigLock := true }) h' _

end Sane

end Rynex.Sched
