import Rynex.Sched.Queue

/-! What scheduling and waking keep of the scheduler's invariant. -/

namespace Rynex.Sched

open Rynex.Lib

variable {full : Prop} {out out' : List Nat} {s s' : State} {q : Prio → List Nat} {t i : Nat}
  {p : Prio}

namespace State

@[simp]
theorem tasks_setTask_self (s : State) (i : Nat) (f : Task → Task) :
    (s.setTask i f).tasks i = f (s.tasks i) := Function.update_self ..

theorem tasks_setTask_ne (s : State) {i j : Nat} (f : Task → Task) (h : j ≠ i) :
    (s.setTask i f).tasks j = s.tasks j := Function.update_of_ne h ..

theorem tasks_enqueueTask (s : State) (t : Nat) (p : Prio) : (s.enqueueTask t p).tasks = s.tasks :=
  rfl

theorem tasks_wakeTask_ne (s : State) {i j tid : Nat} (f : Task → Task) (h : j ≠ i) :
    (s.wakeTask i tid f).tasks j = s.tasks j :=
  s.tasks_setTask_ne (fun t => { f t with state := .ready }) h

theorem tasks_wakeTask_self (s : State) (i tid : Nat) (f : Task → Task) :
    (s.wakeTask i tid f).tasks i = { f (s.tasks i) with state := .ready } :=
  s.tasks_setTask_self i fun t => { f t with state := .ready }

theorem dequeueTask_eq (s : State) : ∃ t rq, s.dequeueTask = (t, { s with rq := rq }) := ⟨_, _, rfl⟩

theorem task_of_lt (s : State) (h : t < maxTasks) : s.task t = s.tasks t :=
  congrArg s.tasks (taskIdx_of_lt h)

end State

open State

theorem Queued.out_congr (h : Queued full out s q) (hout : ∀ t, t ∈ out ↔ t ∈ out') :
    Queued full out' s q where
  holds := h.holds
  member ht := by
    obtain ⟨hne, hlt, hp, hr, hnot⟩ := h.member ht
    exact ⟨hne, hlt, hp, hr, fun hin => hnot ((hout _).mpr hin)⟩
  complete hf t hlt hr hnot := h.complete hf t hlt hr fun hin => hnot ((hout t).mp hin)

theorem Slots.frame (h : Slots s) (hcur : s'.current = s.current) (hpids : s'.pids = s.pids)
    (hzero : (s'.tasks 0).state = .running)
    (hid : ∀ t, t < maxTasks → (s'.tasks t).id = (s.tasks t).id)
    (hempty : ∀ t, t < maxTasks → ((s'.tasks t).state = .empty ↔ (s.tasks t).state = .empty)) :
    Slots s' where
  zero := ⟨(hid 0 (by decide)).trans h.zero.1, hzero⟩
  ids t hlt hne hstate := (hid t hlt).trans (h.ids t hlt hne (mt (hempty t hlt).mpr hstate))
  fresh t hlt hp := (hempty t hlt).mpr (h.fresh t hlt (hpids ▸ hp))
  current := by
    obtain ⟨hlt, hne, hstate⟩ := h.current
    rw [hcur]
    exact ⟨hlt, hne, mt (hempty _ hlt).mp hstate⟩

namespace Sane

theorem congr (h : Sane full out s) (htasks : s'.tasks = s.tasks) (hrq : s'.rq = s.rq)
    (hcur : s'.current = s.current) (hpids : s'.pids = s.pids) : Sane full out s' := by
  obtain ⟨q, hq⟩ := h.queued
  refine ⟨h.slots.frame hcur hpids (htasks ▸ h.slots.zero.2) (fun t _ => by rw [htasks])
    fun t _ => by rw [htasks], q, hq.frame hrq fun t _ _ => .inl ?_⟩
  rw [htasks]
  exact .refl _

theorem current_task (h : Sane full out s) : s.task s.current = s.tasks s.current :=
  s.task_of_lt h.slots.current.1

theorem current_idx (h : Sane full out s) : taskIdx s.current = s.current :=
  taskIdx_of_lt h.slots.current.1

theorem setTask (h : Sane full out s) (i : Nat) {f : Task → Task}
    (hf : Alike (s.tasks i) (f (s.tasks i))) : Sane full out (s.setTask i f) := by
  have halike : ∀ t, Alike (s.tasks t) ((s.setTask i f).tasks t) := by
    intro t
    obtain rfl | hne := eq_or_ne t i
    · rwa [tasks_setTask_self]
    · rw [tasks_setTask_ne _ _ hne]
      exact .refl _
  obtain ⟨q, hq⟩ := h.queued
  refine ⟨h.slots.frame rfl rfl ((halike 0).state.trans h.slots.zero.2) (fun t _ => (halike t).id)
    fun t _ => by rw [(halike t).state], q, hq.frame rfl fun t _ _ => .inl (halike t)⟩

theorem setOut (h : Sane full out s) {f : Task → Task} (hi : i ∈ out) (hne : i ≠ 0)
    (hid : (f (s.tasks i)).id = (s.tasks i).id)
    (hstate : (f (s.tasks i)).state = .empty ↔ (s.tasks i).state = .empty) :
    Sane full out (s.setTask i f) := by
  obtain ⟨q, hq⟩ := h.queued
  refine ⟨h.slots.frame rfl rfl ?_ (fun t _ => ?_) (fun t _ => ?_), q,
    hq.frame rfl fun t _ ht => ?_⟩
  · rw [tasks_setTask_ne _ _ hne.symm]
    exact h.slots.zero.2
  · obtain rfl | hti := eq_or_ne t i
    · rwa [tasks_setTask_self]
    · rw [tasks_setTask_ne _ _ hti]
  · obtain rfl | hti := eq_or_ne t i
    · rwa [tasks_setTask_self]
    · rw [tasks_setTask_ne _ _ hti]
  · have hti : t ≠ i := fun heq => ht (heq ▸ hi)
    rw [tasks_setTask_ne _ _ hti]
    exact .inl (.refl _)

theorem dequeue (h : Sane full out s) : s.dequeueTask = (none, s) ∨
    ∃ t rq, s.dequeueTask = (some t, { s with rq := rq }) ∧ t ≠ 0 ∧ t < maxTasks ∧
      (s.tasks t).state = .ready ∧ t ∉ out ∧ Sane full (t :: out) { s with rq := rq } := by
  obtain ⟨q, hq⟩ := h.queued
  rcases hq.dequeue with ⟨hd, -⟩ | ⟨t, rq, q', hd, ⟨p, hp⟩, hq'⟩
  · exact .inl hd
  · obtain ⟨hne, hlt, -, hr, hout⟩ := hq.member hp
    exact .inr ⟨t, rq, hd, hne, hlt, hr, hout,
      h.slots.frame rfl rfl h.slots.zero.2 (fun _ _ => rfl) fun _ _ => Iff.rfl, q', hq'⟩

theorem out_congr (h : Sane full out s) (hout : ∀ t, t ∈ out ↔ t ∈ out') : Sane full out' s :=
  ⟨h.slots, h.queued.imp fun _ hq => hq.out_congr hout⟩

theorem enqueue (h : Sane full (t :: out) s) (hne : t ≠ 0) (hlt : t < maxTasks)
    (hr : (s.tasks t).state = .ready) (hp : (s.tasks t).prio = p) (hout : t ∉ out) :
    Sane full out (s.enqueueTask t p) := by
  obtain ⟨q, hq⟩ := h.queued
  exact ⟨h.slots.frame rfl rfl h.slots.zero.2 (fun _ _ => rfl) fun _ _ => Iff.rfl, _,
    hq.enqueue hne hlt hr hp hout⟩

theorem put_back (h : Sane full (t :: out) s) (hnr : (s.tasks t).state ≠ .ready) :
    Sane full out s :=
  ⟨h.slots, h.queued.imp fun _ hq => hq.put_back hnr⟩

theorem put_out (h : Sane full out s) (hnr : (s.tasks t).state ≠ .ready) : Sane full (t :: out) s :=
  ⟨h.slots, h.queued.imp fun _ hq => hq.put_out fun _ ht => hnr (hq.member ht).2.2.2.1⟩

theorem remove (h : Sane full out s) (ht : t < maxTasks) :
    ∃ rq, s.removeFromRunqueue t = some { s with rq := rq } ∧
      Sane full (t :: out) { s with rq := rq } := by
  obtain ⟨q, hq⟩ := h.queued
  obtain ⟨rq, q', hrem, hq'⟩ := hq.remove ht
  exact ⟨rq, hrem,
    h.slots.frame rfl rfl h.slots.zero.2 (fun _ _ => rfl) fun _ _ => Iff.rfl, q', hq'⟩

/-! ### Scheduling -/

theorem stepBack {next : Nat} (h : Sane full [next, s.current] s) (hne : next ≠ s.current) :
    Sane full [next] s.stepBack ∧ s.stepBack.tasks next = s.tasks next := by
  obtain ⟨hlt, hne0, hstate⟩ := h.slots.current
  unfold State.stepBack
  simp only [h.current_task, h.current_idx]
  split
  next hact =>
    have hs := h.setOut (i := s.current) (f := fun t => { t with state := .ready }) (by simp) hne0
      rfl (by simp [hstate])
    refine ⟨Sane.enqueue (hs.out_congr fun t => ?_) hne0 hlt (by simp) (by simp)
      (by simp [hne.symm]),
      by rw [tasks_enqueueTask, tasks_setTask_ne _ _ hne]⟩
    simp [or_comm]
  next hact =>
    have hswap : Sane full [s.current, next] s := h.out_congr fun t => by simp [or_comm]
    exact ⟨hswap.put_back fun hr => hact ⟨hne0, .inr hr⟩, rfl⟩

theorem dispatch {next : Nat} (h : Sane full [next] s) (hnext : next ≠ 0 ∧ next < maxTasks)
    (hready : (s.tasks next).state = .ready) (s' : State)
    (hs' : s' = { s.setTask next fun t => { t with state := .running } with current := next }) :
    Sane full [next] s' := by
  have hs := h.setOut (i := next) (f := fun t => { t with state := .running }) (by simp) hnext.1 rfl
    (by simp [hready])
  subst hs'
  obtain ⟨q, hq⟩ := hs.queued
  exact ⟨⟨hs.slots.zero, hs.slots.ids, hs.slots.fresh, hnext.2, hnext.1, by simp⟩, q,
    hq.frame rfl fun t _ _ => .inl (.refl _)⟩

theorem switchTo {next : Nat} (h : Sane full [next, s.current] s)
    (hnext : next ≠ 0 ∧ next < maxTasks)
    (hready : (s.tasks next).state = .ready) (hne : next ≠ s.current) :
    Sane full [next] (s.switchTo next) := by
  obtain ⟨hback, hkeep⟩ := h.stepBack hne
  have hdisp := hback.dispatch hnext (hkeep ▸ hready) _ rfl
  simp only [State.switchTo, taskIdx_of_lt hnext.2, h.current_idx]
  refine (hdisp.setTask s.current (f := fun t => { t with userMode := false })
    ⟨rfl, rfl, rfl⟩).congr
    rfl rfl rfl rfl

theorem scheduleInner_cases (h : Sane full [s.current] s) (force : Bool) :
    force = false ∧ s.scheduleInner force = (true, s) ∨
    s.scheduleInner force = (false, { s with idle := true, leaked := s.leaked || s.sigLock }) ∨
    ∃ t rq, t ≠ s.current ∧ (t ≠ 0 ∧ t < maxTasks) ∧ (s.tasks t).state = .ready ∧
      Sane full [t, s.current] { s with rq := rq } ∧
      s.scheduleInner force = (false, State.switchTo { s with rq := rq } t) := by
  unfold State.scheduleInner
  split
  next hback =>
    simp only [Bool.and_eq_true, Bool.not_eq_eq_eq_not, Bool.not_true] at hback
    exact .inl ⟨hback.1, rfl⟩
  next =>
    rcases h.dequeue with hd | ⟨t, rq, hd, hne, hlt, hr, hout, hs⟩
    · rw [hd]
      exact .inr (.inl rfl)
    · have htc : t ≠ s.current := by simpa using hout
      rw [hd]
      exact .inr (.inr ⟨t, rq, htc, ⟨hne, hlt⟩, hr, hs, if_pos htc⟩)

theorem scheduleInner (h : Sane full [s.current] s) (force : Bool) :
    Sane full [(s.scheduleInner force).2.current] (s.scheduleInner force).2 := by
  rcases h.scheduleInner_cases force with ⟨-, hr⟩ | hr | ⟨t, rq, htc, hlt, hready, hs, hr⟩ <;>
    rw [hr]
  · exact h
  · exact h.congr rfl rfl rfl rfl
  · exact hs.switchTo hlt hready htc

theorem scheduleInner_leaves (h : Sane full [s.current] s) : (s.scheduleInner true).1 = false := by
  rcases h.scheduleInner_cases true with ⟨hf, -⟩ | hr | ⟨t, rq, -, -, -, -, hr⟩
  · cases hf
  · rw [hr]
  · rw [hr]

theorem idlePoll (h : Sane full [s.current] s) : Sane full [s.idlePoll.current] s.idlePoll := by
  unfold State.idlePoll
  rcases h.dequeue with hd | ⟨t, rq, hd, hne, hlt, hr, hout, hs⟩
  · simp only [hd]
    exact h
  · have htc : t ≠ s.current := by simpa using hout
    simp only [hd, ne_eq, htc, not_false_eq_true, if_true]
    exact hs.switchTo ⟨hne, hlt⟩ hr htc

theorem idlePoll_self (h : Sane full [] s) (hfirst : s.dequeueTask.1 = some s.current) :
    Sane full [s.idlePoll.current] s.idlePoll := by
  unfold State.idlePoll
  rcases h.dequeue with hd | ⟨t, rq, hd, hne, hlt, hr, -, hs⟩
  · rw [hd] at hfirst
    cases hfirst
  · obtain rfl : t = s.current := by simpa [hd] using hfirst
    simp only [hd, ne_eq, not_true, if_false, h.current_idx]
    refine (hs.setOut (i := s.current) (f := fun t => { t with state := .running })
      (by simp) hne rfl
      (by simp [hr])).congr rfl rfl rfl rfl

theorem setCurrent (h : Sane full [s.current] s) {f : Task → Task}
    (hid : ∀ t, (f t).id = t.id) (hstate : ∀ t, t.state ≠ .empty → (f t).state ≠ .empty) :
    Sane full [s.current] (s.setTask (taskIdx s.current) f) := by
  rw [h.current_idx]
  have hne := h.slots.current.2.2
  exact h.setOut (by simp) h.slots.current.2.1 (hid _) ⟨fun he => absurd he (hstate _ hne),
    fun he => absurd he hne⟩

theorem yieldNow (h : Sane full [s.current] s) : Sane full [s.yieldNow.current] s.yieldNow := by
  rw [State.yieldNow, if_neg h.slots.current.2.1]
  refine Sane.scheduleInner (s := State.setTask _ _ _) (h.setCurrent (fun t => ?_) fun t ht => ?_) _
  · split <;> rfl
  · split
    · simp
    · exact ht

theorem yieldNowForce (h : Sane full [s.current] s) :
    Sane full [s.yieldNowForce.current] s.yieldNowForce := by
  rw [State.yieldNowForce, if_neg h.slots.current.2.1]
  refine Sane.scheduleInner (s := State.setTask _ _ _) (h.setCurrent (fun t => ?_) fun t ht => ?_) _
  · split <;> rfl
  · split
    · simp
    · exact ht

theorem block (h : Sane full [s.current] s) (force : Bool) {f : Task → Task}
    (hid : ∀ t, (f t).id = t.id) :
    Sane full [(s.block force f).2.current] (s.block force f).2 :=
  Sane.scheduleInner (s := State.setTask _ _ _)
    (h.setCurrent (f := fun t => { f t with state := .blocked }) hid fun _ _ => by simp) force

/-! ### Waking -/

theorem wakeTask (h : Sane full out s) {f : Task → Task} (hi : i ≠ 0 ∧ i < maxTasks)
    (hb : (s.tasks i).state = .blocked) (hid : ∀ t, (f t).id = t.id) :
    Sane full (out.filter (· ≠ i)) (s.wakeTask i i f) := by
  have hout : Sane full (i :: out.filter (· ≠ i)) s := by
    by_cases hmem : i ∈ out
    · refine h.out_congr fun t => ?_
      obtain rfl | hti := eq_or_ne t i <;> simp [*]
    · refine (h.put_out (t := i) (by simp [hb])).out_congr fun t => ?_
      obtain rfl | hti := eq_or_ne t i <;> simp [*]
  have hs := hout.setOut (i := i) (f := fun t => { f t with state := .ready }) (by simp) hi.1
    (hid _) (by simp [hb])
  exact hs.enqueue hi.1 hi.2 (by simp) (by simp) (by simp)

end Sane

/-- The CPU idles, or it runs for a task that is not a zombie. -/
def Awake (s : State) : Prop := s.idle = true ∨ (s.tasks s.current).state ≠ .zombie

/-- So it is, or the CPU is lost in a loop of the kernel. -/
def Going (s : State) : Prop := s.hung = true ∨ Awake s

theorem Going.switchTo (s : State) (ht : t < maxTasks) : Going (s.switchTo t) := by
  refine .inr (.inr ?_)
  simp only [State.switchTo, taskIdx_of_lt ht]
  obtain heq | hne := eq_or_ne t (taskIdx s.current)
  · rw [← heq, tasks_setTask_self, tasks_setTask_self]
    nofun
  · rw [tasks_setTask_ne _ _ hne, tasks_setTask_self]
    nofun

theorem Going.scheduleInner (h : Sane full [s.current] s) (force : Bool)
    (hz : force = false → (s.tasks s.current).state ≠ .zombie) :
    Going (s.scheduleInner force).2 := by
  rcases h.scheduleInner_cases force with ⟨hf, hr⟩ | hr | ⟨t, rq, -, hlt, -, -, hr⟩ <;> rw [hr]
  · exact .inr (.inr (hz hf))
  · exact .inr (.inl rfl)
  · exact .switchTo _ hlt.2

/-- From `s` some tasks were woken: the current one is still off the queue, or it was blocked and
has been put on it. -/
inductive Scanned (full : Prop) (s s' : State) : Prop where
  | kept (sane : Sane full [s.current] s') (current : s'.current = s.current)
      (blocked : (s'.tasks s.current).state = .blocked → (s.tasks s.current).state = .blocked)
  | woken (sane : Sane full [] s') (current : s'.current = s.current)
      (blocked : (s.tasks s.current).state = .blocked)
      (ready : (s'.tasks s.current).state = .ready)

namespace Scanned

theorem refl (h : Sane full [s.current] s) : Scanned full s s := .kept h rfl id

theorem sane (h : Scanned full s s') (hnb : (s.tasks s.current).state ≠ .blocked) :
    Sane full [s'.current] s' ∧ s'.current = s.current ∧
      (s'.tasks s'.current).state ≠ .blocked := by
  cases h with
  | kept hs hcur hb =>
    rw [hcur]
    exact ⟨hs, rfl, mt hb hnb⟩
  | woken _ _ hb _ => exact absurd hb hnb

theorem slots (h : Scanned full s s') : Slots s' := by
  cases h with
  | kept hs _ _ => exact hs.slots
  | woken hs _ _ _ => exact hs.slots

theorem wakeTask (h : Scanned full s s') {f : Task → Task} (hi : i ≠ 0 ∧ i < maxTasks)
    (hb : (s'.tasks i).state = .blocked) (hid : ∀ t, (f t).id = t.id) :
    Scanned full s (s'.wakeTask i i f) := by
  have hself : ((s'.wakeTask i i f).tasks i).state = .ready := by rw [tasks_wakeTask_self]
  cases h with
  | kept hs hcur hblocked =>
    have hs' := hs.wakeTask hi hb hid
    obtain rfl | hic := eq_or_ne i s.current
    · exact .woken (by simpa using hs') hcur (hblocked hb) hself
    · refine .kept (by simpa [Ne.symm hic] using hs') hcur ?_
      rw [tasks_wakeTask_ne _ _ (Ne.symm hic)]
      exact hblocked
  | woken hs hcur hblocked hready =>
    have hic : s.current ≠ i := fun heq => by
      rw [heq, hb] at hready
      cases hready
    refine .woken (hs.wakeTask hi hb hid) hcur hblocked ?_
    rw [tasks_wakeTask_ne _ _ hic]
    exact hready

theorem slot_of_blocked (h : Slots s) (hi : i < maxTasks) (hb : (s.tasks i).state = .blocked) :
    i ≠ 0 ∧ (s.tasks i).id = i := by
  have hne : i ≠ 0 := by
    rintro rfl
    rw [h.zero.2] at hb
    cases hb
  exact ⟨hne, h.ids i hi hne (by simp [hb])⟩

theorem wakeAt {test : State → Task → Bool} {f : State → Task → Task} (h : Scanned full s s')
    (hid : ∀ s t, (f s t).id = t.id) (hi : i < maxTasks) :
    Scanned full s (State.wakeAt test f s' i) := by
  unfold State.wakeAt
  simp only
  split
  next hc =>
    simp only [Bool.and_eq_true, decide_eq_true_eq] at hc
    obtain ⟨hne, hid'⟩ := slot_of_blocked h.slots hi hc.1.1
    rw [hid']
    exact h.wakeTask ⟨hne, hi⟩ hc.1.1 (hid s')
  next => exact h

theorem wakeAll {test : State → Task → Bool} {f : State → Task → Task} (h : Sane full [s.current] s)
    (hid : ∀ s t, (f s t).id = t.id) : Scanned full s (s.wakeAll test f) := by
  refine List.foldlRecOn (motive := Scanned full s) _ _ (.refl h) fun s' hs' i hi => ?_
  exact hs'.wakeAt hid (List.mem_range.mp hi)

theorem futexWakeAt {acc : Nat × State} {uaddr maxWake : Nat} (h : Scanned full s acc.2)
    (hi : i < maxTasks) : Scanned full s (State.futexWakeAt uaddr maxWake acc i).2 := by
  unfold State.futexWakeAt
  simp only
  split
  next hc =>
    simp only [Bool.and_eq_true, decide_eq_true_eq] at hc
    obtain ⟨hne, hid'⟩ := slot_of_blocked h.slots hi hc.1.1.2
    rw [hid']
    exact h.wakeTask ⟨hne, hi⟩ hc.1.1.2 fun _ => rfl
  next => exact h

theorem futexWake (h : Sane full [s.current] s) (uaddr maxWake : Nat) :
    Scanned full s (s.futexWake uaddr maxWake).2 := by
  refine List.foldlRecOn (motive := fun acc : Nat × State => Scanned full s acc.2) _ _ (.refl h)
    fun acc hacc i hi => ?_
  exact hacc.futexWakeAt (List.mem_range.mp hi)

end Scanned

end Rynex.Sched
