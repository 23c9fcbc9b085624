import Rynex.Ipc.Queue

/-! Wake-ups of the tasks that wait on a mailbox. A task tests the ring under the lock and blocks
after it has released the lock, so the ring may have changed by the time it blocks. -/

namespace Rynex.Ipc

open Rynex.Lib

def Word.mailbox : Word → Bool
  | .recv _ => true
  | .send _ => true
  | .reply _ => false

/-- A step of its own comes next, neither a wake nor a block. -/
def Pc.Running : Pc → Prop
  | .wake _ _ => False
  | .park _ _ => False
  | .blocked _ _ => False
  | _ => True

/-- After a wake or a block the task goes on with a step of its own. -/
def Pc.Flat : Pc → Prop
  | .wake _ next => next.Running
  | .park _ next => next.Running
  | .blocked _ next => next.Running
  | _ => True

theorem Pc.Running.waiting {pc : Pc} (h : pc.Running) (w : Word) : pc.waiting w = none := by
  cases pc <;> first | rfl | exact h.elim

namespace Sys

/-- The port of the word is in use. -/
def Open (s : Sys) : Word → Prop
  | .recv i => (s.ports i).used = true
  | .send i => (s.ports i).used = true
  | .reply _ => True

/-- What a task waits on the word for does not hold yet: the ring is empty, or it is full. -/
def Starved (s : Sys) : Word → Prop
  | .recv i => (s.ports i).count = 0
  | .send i => portSlots ≤ (s.ports i).count
  | .reply _ => True

/-- Nobody is blocked on the word. -/
def Clear (s : Sys) (w : Word) : Prop := ∀ t < maxTasks, (s.tasks t).waiting w = none

/-- A task is about to wake one that is blocked on the word. -/
def Pending (s : Sys) (w : Word) : Prop := ∃ t < maxTasks, ∃ next, s.tasks t = .wake w next

/-- What holds between two steps if no wake-up gets lost. -/
structure Awake (s : Sys) : Prop where
  flat : ∀ t < maxTasks, (s.tasks t).Flat
  one : ∀ t < maxTasks, ∀ t' < maxTasks, ∀ w next next', w.mailbox = true →
    s.tasks t = .blocked w next → s.tasks t' = .blocked w next' → t = t'
  blocked : ∀ t < maxTasks, ∀ w next, w.mailbox = true → s.tasks t = .blocked w next →
    s.Open w ∧ (s.Starved w ∨ s.Pending w)
  parked : ∀ t < maxTasks, ∀ w next, w.mailbox = true → s.tasks t = .park w next →
    s.Open w ∧ s.Starved w ∧ s.Clear w

variable {s s' : Sys} {t i : Nat} {pc : Pc} {w : Word}

theorem open_congr (h : s'.ports = s.ports) : s'.Open w ↔ s.Open w := by
  cases w <;> simp only [Open, h]

theorem starved_congr (h : s'.ports = s.ports) : s'.Starved w ↔ s.Starved w := by
  cases w <;> simp only [Starved, h]

@[simp] theorem setTask_open : (s.setTask t pc).Open w ↔ s.Open w := open_congr rfl

@[simp] theorem setTask_starved : (s.setTask t pc).Starved w ↔ s.Starved w := starved_congr rfl

theorem Awake.congr (h : Awake s) (hports : s'.ports = s.ports) (htasks : s'.tasks = s.tasks) :
    Awake s' := by
  constructor
  case flat => simpa only [htasks] using h.flat
  case one => simpa only [htasks] using h.one
  case blocked =>
    simpa only [htasks, open_congr hports, starved_congr hports, Pending] using h.blocked
  case parked =>
    simpa only [htasks, open_congr hports, starved_congr hports, Clear] using h.parked

/-- Nobody but task `t` is about to block on a mailbox. -/
def Quiet (s : Sys) (t : Nat) : Prop :=
  ∀ t' < maxTasks, t' ≠ t → ∀ w next, w.mailbox = true → s.tasks t' ≠ .park w next

/-- Where task `t` goes is sound: if it blocks or is about to, the word is starved and nobody else
is blocked on it. -/
def Sound (s : Sys) (pc : Pc) : Prop :=
  pc.Flat ∧ ∀ w next, w.mailbox = true → pc = .blocked w next ∨ pc = .park w next →
    s.Open w ∧ s.Starved w ∧ s.Clear w

/-- Task `t` moves on. If it gives up a wake, nobody needs it. -/
theorem Awake.setTask (h : Awake s) (hquiet : s.Quiet t) (hpc : s.Sound pc)
    (hwake : ∀ w next, w.mailbox = true → s.tasks t = .wake w next → s.Clear w) :
    Awake (s.setTask t pc) := by
  have hclear : ∀ w, w.mailbox = true → s.Clear w →
      ∀ t' < maxTasks, ∀ next, s.tasks t' ≠ .blocked w next := by
    intro w _ hc t' ht' next hb
    have := hc t' ht'
    simp [hb, Pc.waiting] at this
  have hpending : ∀ w, w.mailbox = true → ¬ s.Clear w → s.Pending w →
    (s.setTask t pc).Pending w := by
    rintro w hw hc ⟨t', ht', next, hpc'⟩
    have hne : t' ≠ t := by
      rintro rfl
      exact hc (hwake w next hw hpc')
    exact ⟨t', ht', next, by rw [setTask_of_ne s pc hne, hpc']⟩
  constructor
  case flat =>
    intro t' ht'
    by_cases heq : t' = t
    · rw [heq, setTask_self]; exact hpc.1
    · rw [setTask_of_ne s pc heq]; exact h.flat t' ht'
  case one =>
    intro t₁ ht₁ t₂ ht₂ w next₁ next₂ hw hb₁ hb₂
    by_cases h₁ : t₁ = t <;> by_cases h₂ : t₂ = t
    · rw [h₁, h₂]
    · rw [h₁, setTask_self] at hb₁
      rw [setTask_of_ne s pc h₂] at hb₂
      exact absurd hb₂ (hclear w hw (hpc.2 w next₁ hw (.inl hb₁)).2.2 t₂ ht₂ next₂)
    · rw [h₂, setTask_self] at hb₂
      rw [setTask_of_ne s pc h₁] at hb₁
      exact absurd hb₁ (hclear w hw (hpc.2 w next₂ hw (.inl hb₂)).2.2 t₁ ht₁ next₁)
    · rw [setTask_of_ne s pc h₁] at hb₁
      rw [setTask_of_ne s pc h₂] at hb₂
      exact h.one t₁ ht₁ t₂ ht₂ w next₁ next₂ hw hb₁ hb₂
  case blocked =>
    intro t' ht' w next hw hb
    rw [setTask_open, setTask_starved]
    by_cases heq : t' = t
    · rw [heq, setTask_self] at hb
      obtain ⟨hopen, hstarved, -⟩ := hpc.2 w next hw (.inl hb)
      exact ⟨hopen, .inl hstarved⟩
    · rw [setTask_of_ne s pc heq] at hb
      obtain ⟨hopen, hwant⟩ := h.blocked t' ht' w next hw hb
      exact ⟨hopen, hwant.imp_right (hpending w hw fun hc => hclear w hw hc t' ht' next hb)⟩
  case parked =>
    intro t' ht' w next hw hp
    rw [setTask_open, setTask_starved]
    by_cases heq : t' = t
    · rw [heq, setTask_self] at hp
      obtain ⟨hopen, hstarved, hc⟩ := hpc.2 w next hw (.inr hp)
      refine ⟨hopen, hstarved, fun t₁ ht₁ => ?_⟩
      by_cases h₁ : t₁ = t
      · rw [h₁, setTask_self, hp]; rfl
      · rw [setTask_of_ne s pc h₁]; exact hc t₁ ht₁
    · rw [setTask_of_ne s pc heq] at hp
      exact absurd hp (hquiet t' ht' heq w next hw)

/-- A ring changes while nobody is about to block on it. Whoever is blocked on it stays in want,
or a wake is on its way. -/
theorem Awake.setPort {port : Port} (h : Awake s)
    (hparked : ∀ t < maxTasks, ∀ w next, w.mailbox = true → s.tasks t ≠ .park w next)
    (hrecv : s.Clear (.recv i) ∨ port.used = true ∧ (port.count = 0 ∨ s.Pending (.recv i)))
    (hsend : s.Clear (.send i) ∨
      port.used = true ∧ (portSlots ≤ port.count ∨ s.Pending (.send i))) :
    Awake (s.setPort i port) := by
  refine { h with
    blocked := fun t ht w next hw hb => ?_
    parked := fun t ht w next hw hp => absurd hp (hparked t ht w next hw) }
  have hnot : ¬ s.Clear w := by
    intro hc
    have := hc t ht
    rw [show s.tasks t = .blocked w next from hb] at this
    simp [Pc.waiting] at this
  have hold := h.blocked t ht w next hw hb
  cases w with
  | reply j => cases hw
  | recv j =>
    by_cases hj : j = i
    · subst hj
      simpa [Open, Starved, Pending, Sys.setPort] using hrecv.resolve_left hnot
    · simpa [Open, Starved, Pending, Sys.setPort, Function.update_of_ne hj] using hold
  | send j =>
    by_cases hj : j = i
    · subst hj
      simpa [Open, Starved, Pending, Sys.setPort] using hsend.resolve_left hnot
    · simpa [Open, Starved, Pending, Sys.setPort, Function.update_of_ne hj] using hold

/-! ### Wakes -/

/-- A wake of as many tasks as are blocked on the word leaves none of them blocked. -/
theorem wakeTasks_waiting {n : Nat} {ts : List Nat} {tasks : Nat → Pc} (hnd : ts.Nodup)
    (hnext : ∀ t ∈ ts, ∀ next, tasks t = .blocked w next → next.waiting w = none)
    (hn : ts.countP (fun t => ((tasks t).waiting w).isSome) ≤ n) (ht : t ∈ ts) :
    (wakeTasks w n ts tasks t).waiting w = none := by
  induction ts generalizing n tasks with
  | nil => cases ht
  | cons t' ts ih =>
    obtain ⟨hnot, hnd⟩ := List.nodup_cons.mp hnd
    cases n with
    | zero =>
      have hzero := List.countP_eq_zero.mp (Nat.le_zero.mp hn) t ht
      simpa [wakeTasks] using hzero
    | succ n =>
      cases hb : (tasks t').waiting w with
      | none =>
        simp only [wakeTasks, hb]
        rw [List.countP_cons_of_neg (by simp [hb])] at hn
        rcases List.mem_cons.mp ht with rfl | ht
        · rw [wakeTasks_of_not_mem hnot, hb]
        · exact ih hnd (fun t₁ h₁ => hnext t₁ (List.mem_cons_of_mem _ h₁)) hn ht
      | some next =>
        simp only [wakeTasks, hb]
        rw [List.countP_cons_of_pos (by simp [hb])] at hn
        have hwoken : next.waiting w = none :=
          hnext t' List.mem_cons_self next (Pc.waiting_eq_some.mp hb)
        have hrest : ∀ t₁ ∈ ts, Function.update tasks t' next t₁ = tasks t₁ := by
          intro t₁ h₁
          refine Function.update_of_ne ?_ ..
          rintro rfl
          exact hnot h₁
        rcases List.mem_cons.mp ht with rfl | ht
        · rw [wakeTasks_of_not_mem hnot, Function.update_self, hwoken]
        refine ih hnd (fun t₁ h₁ => ?_) ?_ ht
        · rw [hrest t₁ h₁]
          exact hnext t₁ (List.mem_cons_of_mem _ h₁)
        · rw [List.countP_congr fun t₁ h₁ => by rw [hrest t₁ h₁]]
          omega

theorem tasks_of_wake {n : Nat} (hflat : ∀ t < maxTasks, (s.tasks t).Flat) (ht : t < maxTasks)
    (hpc : ¬ pc.Running) (heq : (s.futexWake w n).tasks t = pc) : s.tasks t = pc := by
  rcases futexWake_tasks s w n t with hsame | ⟨next, hb, hnext⟩
  · rw [← hsame, heq]
  · have hrun := hflat t ht
    rw [hb] at hrun
    rw [heq] at hnext
    exact absurd (hnext ▸ hrun) hpc

theorem clear_of_wake {w' : Word} {n : Nat} (hflat : ∀ t < maxTasks, (s.tasks t).Flat)
    (hclear : s.Clear w) :
    (s.futexWake w' n).Clear w := by
  intro t ht
  cases hwait : ((s.futexWake w' n).tasks t).waiting w with
  | none => rfl
  | some next =>
    have hb := tasks_of_wake hflat ht id (Pc.waiting_eq_some.mp hwait)
    have := hclear t ht
    simp [hb, Pc.waiting] at this

theorem futexWake_flat {n : Nat} (hflat : ∀ t < maxTasks, (s.tasks t).Flat) :
    ∀ t < maxTasks, ((s.futexWake w n).tasks t).Flat := by
  intro t ht
  have hrun := hflat t ht
  rcases futexWake_tasks s w n t with hsame | ⟨next, hb, hnext⟩
  · rwa [hsame]
  · rw [hb] at hrun
    rw [hnext]
    cases next <;> trivial

theorem Awake.futexWake (h : Awake s) (w : Word) (n : Nat) : Awake (s.futexWake w n) := by
  have hpending : ∀ w', s.Pending w' → (s.futexWake w n).Pending w' := by
    rintro w' ⟨t, ht, next, hpc⟩
    refine ⟨t, ht, next, ?_⟩
    rcases futexWake_tasks s w n t with hsame | ⟨next', hb, -⟩
    · rw [hsame, hpc]
    · rw [hpc] at hb; cases hb
  constructor
  case flat => exact futexWake_flat h.flat
  case one =>
    intro t ht t' ht' w' next next' hw hb hb'
    exact h.one t ht t' ht' w' next next' hw (tasks_of_wake h.flat ht id hb)
      (tasks_of_wake h.flat ht' id hb')
  case blocked =>
    intro t ht w' next hw hb
    obtain ⟨hopen, hwant⟩ := h.blocked t ht w' next hw (tasks_of_wake h.flat ht id hb)
    exact ⟨(open_congr rfl).mpr hopen, hwant.imp (starved_congr rfl).mpr (hpending w')⟩
  case parked =>
    intro t ht w' next hw hp
    obtain ⟨hopen, hstarved, hclear⟩ := h.parked t ht w' next hw (tasks_of_wake h.flat ht id hp)
    exact ⟨(open_congr rfl).mpr hopen, (starved_congr rfl).mpr hstarved,
      clear_of_wake h.flat hclear⟩

theorem clear_of_count {n : Nat} (hflat : ∀ t < maxTasks, (s.tasks t).Flat)
    (hn : (List.range maxTasks).countP (fun t => ((s.tasks t).waiting w).isSome) ≤ n) :
    (s.futexWake w n).Clear w := by
  intro t ht
  refine wakeTasks_waiting List.nodup_range (fun t' ht' next hb => ?_) hn (List.mem_range.mpr ht)
  have hrun := hflat t' (List.mem_range.mp ht')
  rw [hb] at hrun
  exact hrun.waiting w

theorem Awake.wake_one (h : Awake s) (hw : w.mailbox = true) : (s.futexWake w 1).Clear w := by
  refine clear_of_count h.flat ?_
  have hcard : ((Finset.range maxTasks).filter fun t => ((s.tasks t).waiting w).isSome).card ≤
    1 := by
    refine Finset.card_le_one.mpr fun t ht t' ht' => ?_
    simp only [Finset.mem_filter, Finset.mem_range, Option.isSome_iff_exists,
      Pc.waiting_eq_some] at ht ht'
    obtain ⟨ht, next, hb⟩ := ht
    obtain ⟨ht', next', hb'⟩ := ht'
    exact h.one t ht t' ht' w next next' hw hb hb'
  simpa only [Finset.card_def, Finset.filter_val, Finset.range_val, Multiset.range,
    Multiset.filter_coe, Multiset.coe_card, Bool.decide_eq_true,
    ← List.countP_eq_length_filter] using hcard

theorem wake_all (hflat : ∀ t < maxTasks, (s.tasks t).Flat) : (s.futexWake w maxTasks).Clear w :=
  clear_of_count hflat (List.countP_le_length.trans List.length_range.le)

theorem Awake.quiet_of_wake {n : Nat} (h : Awake s) (hquiet : s.Quiet t) :
    (s.futexWake w n).Quiet t :=
  fun t' ht' hne w' next hw hp => hquiet t' ht' hne w' next hw (tasks_of_wake h.flat ht' id hp)

/-! ### Critical sections -/

theorem Awake.clear_or_pending (h : Awake s) (hw : w.mailbox = true) (hfed : ¬ s.Starved w) :
    s.Clear w ∨ s.Pending w := by
  by_cases hclear : s.Clear w
  · exact .inl hclear
  · simp only [Clear, not_forall] at hclear
    obtain ⟨t, ht, hwait⟩ := hclear
    obtain ⟨next, hwait⟩ := Option.ne_none_iff_exists'.mp hwait
    exact .inr ((h.blocked t ht w next hw (Pc.waiting_eq_some.mp hwait)).2.resolve_left hfed)

theorem Awake.clear_of_unused (h : Awake s) (hw : w.mailbox = true) (hopen : ¬ s.Open w) :
    s.Clear w := by
  intro t ht
  cases hwait : (s.tasks t).waiting w with
  | none => rfl
  | some next => exact absurd (h.blocked t ht w next hw (Pc.waiting_eq_some.mp hwait)).1 hopen

/-! ### Steps and runs -/

theorem sound_of_running (h : pc.Running) : s.Sound pc := by
  refine ⟨by cases pc <;> trivial, ?_⟩
  rintro w next - (rfl | rfl) <;> exact h.elim

theorem sound_wake {next : Pc} (h : next.Running) : s.Sound (.wake w next) := by
  refine ⟨h, ?_⟩
  rintro w' next' - (heq | heq) <;> cases heq

theorem sound_park {next : Pc} (h : next.Running)
    (hw : w.mailbox = true → s.Open w ∧ s.Starved w ∧ s.Clear w) : s.Sound (.park w next) := by
  refine ⟨h, ?_⟩
  rintro w' next' hw' (heq | heq) <;> cases heq
  exact hw hw'

theorem Awake.goto (h : Awake s) (hports : s'.ports = s.ports) (htasks : s'.tasks = s.tasks)
    (hquiet : s.Quiet t) (hold : (s.tasks t).Running) (hpc : s.Sound pc) :
    Awake (s'.setTask t pc) := by
  refine (h.setTask hquiet hpc fun w next _ heq => ?_).congr hports (by simp [Sys.setTask, htasks])
  rw [heq] at hold
  exact hold.elim

theorem Clear.setTask (h : s.Clear w) (hpc : pc.waiting w = none) : (s.setTask t pc).Clear w := by
  intro t' ht'
  by_cases heq : t' = t
  · rw [heq, setTask_self, hpc]
  · rw [setTask_of_ne s pc heq]; exact h t' ht'

theorem Quiet.setTask (h : s.Quiet t) (hpc : ∀ w next, pc ≠ .park w next) :
    ∀ t' < maxTasks, ∀ w next, w.mailbox = true → (s.setTask t pc).tasks t' ≠ .park w next := by
  intro t' ht' w next hw
  by_cases heq : t' = t
  · rw [heq, setTask_self]; exact hpc w next
  · rw [setTask_of_ne s pc heq]; exact h t' ht' heq w next hw

theorem Awake.announce {port : Port} {next : Pc} (h : Awake s) (ht : t < maxTasks)
    (hquiet : s.Quiet t) (hold : (s.tasks t).Running) (hnext : next.Running)
    (hports : s'.ports = Function.update s.ports i port) (htasks : s'.tasks = s.tasks)
    (hused : port.used = true) (hrecv : w = .recv i ∨ (s.ports i).count ≠ 0)
    (hsend : w = .send i ∨ (s.ports i).count < portSlots) :
    Awake (s'.setTask t (.wake w next)) := by
  have hwake : Awake (s.setTask t (.wake w next)) :=
    h.goto rfl rfl hquiet hold (sound_wake hnext)
  have hpending : (s.setTask t (.wake w next)).Pending w := ⟨t, ht, next, setTask_self ..⟩
  have hport : Awake ((s.setTask t (.wake w next)).setPort i port) := by
    refine hwake.setPort (hquiet.setTask nofun) ?_ ?_
    · rcases hrecv with rfl | hcount
      · exact .inr ⟨hused, .inr hpending⟩
      · exact (hwake.clear_or_pending (w := .recv i) rfl hcount).imp_right fun hp =>
          ⟨hused, .inr hp⟩
    · rcases hsend with rfl | hcount
      · exact .inr ⟨hused, .inr hpending⟩
      · exact (hwake.clear_or_pending (w := .send i) rfl hcount.not_ge).imp_right fun hp =>
          ⟨hused, .inr hp⟩
  exact hport.congr hports (by simp [Sys.setTask, Sys.setPort, htasks])

/-- The word on which the next step of task `t` finds the ring empty or full. -/
def wants (s : Sys) (t : Nat) : Option Word :=
  match s.tasks t with
  | .post port _ _ =>
    (s.portIdxById port).bind fun i =>
      if portSlots ≤ (s.ports i).count then some (.send i) else none
  | .take port _ true =>
    (s.portIdxById port).bind fun i => if (s.ports i).count = 0 then some (.recv i) else none
  | _ => none

theorem Awake.closed (h : Awake s)
    (hparked : ∀ t < maxTasks, ∀ w next, w.mailbox = true → s.tasks t ≠ .park w next) :
    Awake (s.closed i) ∧ ∀ t < maxTasks, ∀ pc, ¬ pc.Running → (s.closed i).tasks t = pc →
      s.tasks t = pc := by
  obtain ⟨live, freed, heq⟩ := s.closed_eq i
  rw [heq]
  have hfreed : Awake { s with live := live, freed := freed } := h.congr rfl rfl
  have hrecv := hfreed.futexWake (.recv i) maxTasks
  have hsend := hrecv.futexWake (.send i) maxTasks
  have hold : ∀ t < maxTasks, ∀ pc, ¬ pc.Running →
      (({ s with live := live, freed := freed }.futexWake (.recv i) maxTasks).futexWake (.send i)
        maxTasks).tasks t = pc → s.tasks t = pc :=
    fun t ht pc hpc heq => tasks_of_wake hfreed.flat ht hpc (tasks_of_wake hrecv.flat ht hpc heq)
  refine ⟨hsend.setPort (fun t ht w next hw hp => ?_) (.inl ?_) (.inl (wake_all hrecv.flat)), hold⟩
  · exact hparked t ht w next hw (hold t ht _ id hp)
  · exact clear_of_wake hrecv.flat (wake_all hfreed.flat)

theorem Awake.act {r : Option Reply} {u : Sys} {pc' : Pc} (h : Awake s) (ht : t < maxTasks)
    (hpc : s.tasks t = pc) (ha : Act s t r pc u pc') (hquiet : s.Quiet t)
    (hwants : ¬ Pc.Resting pc → ∀ w ∈ s.wants t, s.Clear w) : Awake (u.setTask t pc') := by
  have hflat := h.flat t ht
  rw [hpc] at hflat
  have hgoto (hports : u.ports = s.ports) (htasks : u.tasks = s.tasks) (hrun : pc.Running)
      (hsound : s.Sound pc') : Awake (u.setTask t pc') :=
    h.goto hports htasks hquiet (hpc ▸ hrun) hsound
  have hend {u : Sys} {v : Int} {d : List UInt8} {k : Nat} (call : Option Call)
      (hports : u.ports = s.ports) (htasks : u.tasks = s.tasks)
        (hold : ∀ w next, pc ≠ .wake w next) :
      Awake ((u.release call).setTask t (.ret v d k)) := by
    have hret : Awake (s.setTask t (.ret v d k)) :=
      h.setTask hquiet (sound_of_running trivial) fun w next _ heq => absurd (hpc ▸ heq)
        (hold w next)
    obtain ⟨replies, live, heq⟩ := u.release_eq call
    rw [heq]
    exact hret.congr hports (by simp [Sys.setTask, htasks])
  have hparked (hrun : pc.Running) :
      ∀ t' < maxTasks, ∀ w next, w.mailbox = true → s.tasks t' ≠ .park w next := by
    intro t' ht' w next hw hp
    by_cases heq : t' = t
    · rw [← hpc, ← heq, hp] at hrun
      exact hrun
    · exact hquiet t' ht' heq w next hw hp
  cases ha with
  | refuses | asks | calls | receives | noPage | noSlot | ignored | opens | sees | reads | nothing |
    drains => exact hgoto rfl rfl trivial (sound_of_running trivial)
  | fills => exact hgoto rfl rfl trivial (sound_wake trivial)
  | waits => exact hgoto rfl rfl trivial (sound_park trivial fun hw => by cases hw)
  | fails | faults => exact hend _ rfl rfl (by simp)
  | unslotted | finishes => exact hend (some _) rfl rfl (by simp)
  | stuck => exact hend _ rfl rfl (by simp)
  | @creates _ _ _ i name hi hfree =>
    have hret : Awake (s.setTask t (.ret s.nextPortId [] 0)) :=
      h.goto rfl rfl hquiet (hpc ▸ trivial) (sound_of_running trivial)
    have hrecv := h.clear_of_unused (w := .recv i) rfl (by simp [Open, hfree])
    have hsend := h.clear_of_unused (w := .send i) rfl (by simp [Open, hfree])
    have hport : Awake ((s.setTask t (.ret s.nextPortId [] 0)).setPort i
        ((s.ports i).opened s.nextPortId name)) :=
      hret.setPort (hquiet.setTask (by simp)) (.inl (hrecv.setTask rfl)) (.inl (hsend.setTask rfl))
    exact hport.congr rfl rfl
  | closes =>
    obtain ⟨h', hold⟩ := h.closed (hparked trivial)
    refine h'.goto rfl rfl ?_ (closed_of_ne hpc (by simp) ▸ trivial) (sound_of_running trivial)
    exact fun t' ht' _ w next hw hp => hparked trivial t' ht' w next hw (hold t' ht' _ id hp)
  | @posts _ _ i _ call _ hi hroom =>
    refine h.announce ht hquiet (hpc ▸ trivial) ?_ rfl rfl (portIdxById_spec hi).2.1 (.inl rfl)
      (.inr hroom)
    cases call <;> trivial
  | full hi hfull =>
    refine hgoto rfl rfl trivial (sound_park trivial fun _ => ?_)
    refine ⟨(portIdxById_spec hi).2.1, hfull, hwants (by simp [Pc.Resting]) _ ?_⟩
    simp [wants, hpc, hi, hfull]
  | empty hi hempty =>
    refine hgoto rfl rfl trivial (sound_park trivial fun _ => ?_)
    refine ⟨(portIdxById_spec hi).2.1, hempty, hwants (by simp [Pc.Resting]) _ ?_⟩
    simp [wants, hpc, hi, hempty]
  | takes hi hcount =>
    exact h.announce ht hquiet (hpc ▸ trivial) trivial rfl rfl (portIdxById_spec hi).2.1
      (.inr hcount)
      (.inl rfl)
  | @peeks _ maxLen i p hi hcount =>
    -- the wake comes at once, and it is made before the ring changes
    have hrun : ((s.futexWake (.send i) 1).tasks t).Running := by
      rw [futexWake_of_ne (by simp [hpc]), hpc]
      trivial
    have hquiet' : (s.futexWake (.send i) 1).Quiet t := h.quiet_of_wake hquiet
    have hmove : Awake ((s.futexWake (.send i) 1).setTask t (.drain p maxLen (s.msgs p))) :=
      (h.futexWake (.send i) 1).goto rfl rfl hquiet' hrun (sound_of_running trivial)
    have hport : Awake (((s.futexWake (.send i) 1).setTask t
        (.drain p maxLen (s.msgs p))).setPort i ((s.ports i).pop (s.msgs p))) := by
      refine hmove.setPort (hquiet'.setTask (by simp)) ?_ (.inl ((h.wake_one rfl).setTask rfl))
      exact (hmove.clear_or_pending (w := .recv i) rfl hcount).imp_right fun hp =>
        ⟨(portIdxById_spec hi).2.1, .inr hp⟩
    exact hport.congr rfl rfl
  | wakes =>
    refine (h.futexWake _ 1).setTask (h.quiet_of_wake hquiet) (sound_of_running hflat) ?_
    intro w' next' hw heq
    have hsame := tasks_of_wake h.flat ht id heq
    rw [hpc] at hsame
    cases hsame
    exact h.wake_one hw
  | @blocks w next =>
    refine h.setTask hquiet ⟨hflat, ?_⟩ fun w next _ heq => by rw [hpc] at heq; cases heq
    rintro w' next' hw (heq | heq) <;> cases heq
    exact h.parked t ht w next hw hpc
  | nudged =>
    refine h.setTask hquiet (sound_of_running hflat) fun w next _ heq => ?_
    rw [hpc] at heq
    cases heq

end Sys

/-- The task is about to block on a mailbox. -/
def Pc.parked : Pc → Bool
  | .park w _ => w.mailbox
  | _ => false

namespace Sys

/-- A task that found a ring empty or full blocks before anything else happens, and no other task
is blocked on the word by then. -/
def Prompt (s : Sys) (e : Event) : Prop :=
  (∀ t < maxTasks, (s.tasks t).parked = true → e.runs = some t) ∧
    ∀ t ∈ e.runs, ∀ w ∈ s.wants t, s.Clear w

instance (s : Sys) (w : Word) : Decidable (s.Clear w) :=
  inferInstanceAs (Decidable (∀ t < maxTasks, (s.tasks t).waiting w = none))

instance (s : Sys) (e : Event) : Decidable (s.Prompt e) :=
  inferInstanceAs (Decidable (_ ∧ _))

theorem Awake.step {e : Event} (h : Awake s) (hok : s.Prompt e) : Awake (s.step e) := by
  have hruns : ∀ t < maxTasks, ∀ w next, w.mailbox = true → s.tasks t = .park w next →
      e.runs = some t := by
    intro t ht w next hw hp
    exact hok.1 t ht (by rw [hp]; exact hw)
  rcases step_acts s e with ⟨heq, -⟩ | ⟨ht, hrest, u, pc', ha, heq⟩ <;> rw [heq]
  · exact h
  refine h.act ht rfl ha (fun t' ht' hne w next hw hp => ?_) fun hbusy => ?_
  · rcases hrest with hrun | hrest
    · exact hne (Option.some.inj ((hruns t' ht' w next hw hp).symm.trans hrun))
    · cases e with
      | run t page ok => exact hne (Option.some.inj (hruns t' ht' w next hw hp)).symm
      | start t op => cases hruns t' ht' w next hw hp
      | nudge t => cases hruns t' ht' w next hw hp
  · exact hok.2 _ (hrest.resolve_right hbusy)

theorem awake_init : Awake init where
  flat _ _ := trivial
  one _ _ _ _ _ _ _ _ hb := nomatch hb
  blocked _ _ _ _ _ hb := nomatch hb
  parked _ _ _ _ _ hp := nomatch hp

/-- The wake-up of task `t` is still to come: a task is about to wake one of those on the word,
and that is `t`. -/
def WakeDue (s : Sys) (t : Nat) (w : Word) (next : Pc) : Prop :=
  s.Pending w ∧ (s.futexWake w 1).tasks t = next

theorem Awake.wakeDue {next : Pc} (h : Awake s) (ht : t < maxTasks) (hw : w.mailbox = true)
    (hb : s.tasks t = .blocked w next) (hpending : s.Pending w) : s.WakeDue t w next := by
  refine ⟨hpending, ?_⟩
  rcases futexWake_tasks s w 1 t with heq | ⟨next', hb', heq⟩
  · have := h.wake_one hw t ht
    simp [heq, hb, Pc.waiting] at this
  · rw [hb] at hb'
    cases hb'
    exact heq

end Sys

/-- Over every run in which a task blocks at once after it found a ring empty or full, and does so
alone, nobody is blocked on a port for what is there already unless its wake-up is still to come. -/
theorem no_lost_wakeup {es : List Event} (hes : Steps Sys.step Sys.Prompt Sys.init es) :
    let s := es.foldl Sys.step Sys.init
    ∀ t < maxTasks, ∀ i next,
      (s.tasks t = .blocked (.recv i) next →
        (s.ports i).count = 0 ∨ s.WakeDue t (.recv i) next) ∧
      (s.tasks t = .blocked (.send i) next →
        portSlots ≤ (s.ports i).count ∨ s.WakeDue t (.send i) next) := by
  intro s t ht i next
  have h : s.Awake :=
    Steps.invariant (I := Sys.Awake) (fun _ _ h hok => h.step hok) Sys.awake_init hes
  constructor
  · intro hb
    exact (h.blocked t ht _ next rfl hb).2.imp_right (h.wakeDue ht rfl hb)
  · intro hb
    exact (h.blocked t ht _ next rfl hb).2.imp_right (h.wakeDue ht rfl hb)

/-- A receiver blocks at once, and the message that is then sent is followed by its wake-up. -/
theorem no_lost_wakeup_one_receiver : ∃ es : List Event,
    let s := es.foldl Sys.step Sys.init
    (s.ports 0).count = 1 ∧ s.tasks 2 = .blocked (.recv 0) (.take 1 8 true) ∧
      s.WakeDue 2 (.recv 0) (.take 1 8 true) := by
  let es : List Event := [.start 1 (.create [65]), .start 2 (.recv 1 8), .run 2 none true,
    .run 2 none true, .start 1 (.send 1 [7] 0), .run 1 (some 4096) true]
  have hes : Steps Sys.step Sys.Prompt Sys.init es := by decide
  have hcount : ((es.foldl Sys.step Sys.init).ports 0).count = 1 := by decide
  have hb : (es.foldl Sys.step Sys.init).tasks 2 = .blocked (.recv 0) (.take 1 8 true) := by
    decide
  have hwant := (no_lost_wakeup hes 2 (by decide) 0 (.take 1 8 true)).1 hb
  exact ⟨es, hcount, hb, hwant.resolve_left (by rw [hcount]; decide)⟩

/-- A receiver finds the ring empty, a sender puts a message there and wakes nobody, and then the
receiver blocks. -/
theorem wakeup_lost_before_block : ∃ es : List Event,
    let s := es.foldl Sys.step Sys.init
    (s.ports 0).count = 1 ∧ s.tasks 2 = .blocked (.recv 0) (.take 1 8 true) ∧
      ∀ t < maxTasks, t ≠ 2 → s.tasks t = .ret 0 [] 0 := by
  refine ⟨[.start 1 (.create [65]), .start 2 (.recv 1 8), .run 2 none true,
    .start 1 (.send 1 [7] 0), .run 1 (some 4096) true, .run 1 none true, .run 2 none true], ?_⟩
  decide

end Rynex.Ipc
