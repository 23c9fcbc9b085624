import Rynex.Sched.Signals

/-! What the calls that create, replace and reap tasks keep of the scheduler's invariant. -/

namespace Rynex.Sched

open Rynex.Lib State

variable {full : Prop} {out : List Nat} {s s' : State} {t i : Nat}

namespace Sane

theorem takePid (h : Sane full out s) (t : Nat) :
    Sane full out { s with pids := Function.update s.pids t true } := by
  obtain ⟨q, hq⟩ := h.queued
  refine ⟨⟨h.slots.zero, h.slots.ids, fun u hlt hp => h.slots.fresh u hlt ?_, h.slots.current⟩, q,
    hq.frame rfl fun _ _ _ => .inl (.refl _)⟩
  obtain rfl | hne := eq_or_ne u t
  · simp at hp
  · simpa [hne] using hp

theorem freePid (h : Sane full out s) (hempty : t < maxTasks → (s.tasks t).state = .empty) :
    Sane full out (s.freePid t) := by
  unfold State.freePid
  split
  · exact h
  · obtain ⟨q, hq⟩ := h.queued
    refine ⟨⟨h.slots.zero, h.slots.ids, fun u hlt hp => ?_, h.slots.current⟩, q,
      hq.frame rfl fun _ _ _ => .inl (.refl _)⟩
    obtain rfl | hne := eq_or_ne u t
    · exact hempty hlt
    · exact h.slots.fresh u hlt (by simpa [hne] using hp)

/-- A slot that is not the current one and not ready may be written anew, its link cleared or
not. -/
theorem occupy {u : Task} (h : Sane full [s.current] s) (ht : t ≠ 0) (hcur : t ≠ s.current)
    (hnr : (s.tasks t).state ≠ .ready) (hid : u.state ≠ .empty → u.id = t)
    (hpid : s.pids t = false → u.state = .empty) (htasks : s'.tasks = Function.update s.tasks t u)
    (hrq : s'.rq = s.rq ∨ s'.rq = { s.rq with next := Function.update s.rq.next t none })
    (hpids : s'.pids = s.pids) (hcurrent : s'.current = s.current) :
    Sane full (t :: [s.current]) s' := by
  obtain ⟨q, hq⟩ := h.queued
  have hmem : ∀ p, ∀ v ∈ q p, v ≠ t := by
    rintro p v hv rfl
    exact hnr (hq.member hv).2.2.2.1
  have hout := hq.put_out (t := t) fun p hp => hmem p t hp rfl
  have hother : ∀ v, v ≠ t → s'.tasks v = s.tasks v := fun v hv => by
    rw [htasks, Function.update_of_ne hv]
  have hself : s'.tasks t = u := by rw [htasks, Function.update_self]
  refine ⟨⟨?_, fun v hlt hne hst => ?_, fun v hlt hp => ?_, ?_⟩, q, ?_⟩
  · rw [hother 0 ht.symm]
    exact h.slots.zero
  · obtain rfl | hvt := eq_or_ne v t
    · rw [hself] at hst ⊢
      exact hid hst
    · rw [hother v hvt] at hst ⊢
      exact h.slots.ids v hlt hne hst
  · rw [hpids] at hp
    obtain rfl | hvt := eq_or_ne v t
    · rw [hself]
      exact hpid hp
    · rw [hother v hvt]
      exact h.slots.fresh v hlt hp
  · obtain ⟨hlt, hne, hst⟩ := h.slots.current
    rw [hcurrent, hother _ hcur.symm]
    exact ⟨hlt, hne, hst⟩
  · have hholds : s'.rq.Holds taskIdx q := by
      rcases hrq with hrq | hrq <;> rw [hrq]
      · exact hq.holds
      · exact hq.holds.forget fun p v hv heq => hmem p v hv (by
          rwa [taskIdx_of_lt (hq.member hv).2.1] at heq)
    refine (Queued.mk (s := { s with rq := s'.rq }) hholds hout.member hout.complete).frame rfl
      fun v _ hv => .inl ?_
    rw [hother v fun heq => hv (heq ▸ List.mem_cons_self)]
    exact .refl _

theorem arrive {u : Task} (h : Sane full [s.current] s) (ht : t ≠ 0 ∧ t < maxTasks)
    (hempty : (s.tasks t).state = .empty) (ha : Arrives s s' t u) : Sane full [s'.current] s' := by
  have hcur : t ≠ s.current := by
    rintro rfl
    exact h.slots.current.2.2 hempty
  obtain ⟨rq, hrq, hend⟩ := ha.rq
  have hocc : Sane full [t, s.current] { s' with rq := rq } :=
    Sane.occupy (s := { s with pids := Function.update s.pids t true }) (h.takePid t) ht.1 hcur
      (by simp [hempty]) (fun _ => ha.id) (by simp) ha.tasks hrq ha.pids ha.current
  have hself : s'.tasks t = u := by rw [ha.tasks, Function.update_self]
  have hqueued := hocc.enqueue (p := u.prio) ht.1 ht.2 (by rw [hself, ha.ready]) (by rw [hself])
    (by simpa using hcur)
  have heq : State.enqueueTask { s' with rq := rq } t u.prio =
    s' := by rw [State.enqueueTask, ← hend]
  rwa [heq, ← ha.current] at hqueued

theorem created {min : Nat} {short : Prop} {back : Bool} {kept : Nat → Pipe.Sys}
    {given : Nat → Pipe.Sys → Prop} {made : Nat → Task → Prop} {r : Option Nat}
    (h : Sane full [s.current] s) (hmin : 0 < min)
    (hc : Creates s min short back kept given made r s') : Sane full [s'.current] s' := by
  cases hc with
  | noPid => exact h
  | @noMemory tid hf _ =>
    have htaken : Sane full [s.current]
        { s with pids := Function.update s.pids tid true, files := kept tid } :=
      (h.takePid tid).congr rfl rfl rfl rfl
    have hfreed := htaken.freePid (t := tid) fun _ => h.slots.fresh tid hf.lt hf.free
    dsimp only
    split
    · obtain ⟨pids, hpids⟩ := freePid_eq
        { s with pids := Function.update s.pids tid true, files := kept tid } tid
      rw [hpids] at hfreed ⊢
      exact hfreed
    · exact htaken
  | done hf _ ha _ =>
    have hlow := hf.low
    exact h.arrive ⟨by omega, hf.lt⟩ (h.slots.fresh _ hf.lt hf.free) ha

theorem freeAddressSpace (h : Sane full out s) (pml4 owner : Nat) :
    Sane full out (s.freeAddressSpace pml4 owner) := h.congr rfl rfl rfl rfl

theorem execveCommit (h : Sane full [s.current] s) (pml4 userStack : Nat) :
    Sane full [(s.execveCommit pml4 userStack).current] (s.execveCommit pml4 userStack) := by
  have h₁ := h.setTask (taskIdx s.current) (f := fun t =>
    { t with pml4 := pml4, userStack := userStack, userMode := true, addrSpacePrivate := true })
    ⟨rfl, rfl, rfl⟩
  unfold State.execveCommit
  simp only
  split
  · exact (h₁.freeAddressSpace _ _).setTask _ ⟨rfl, rfl, rfl⟩
  · exact h₁.setTask _ ⟨rfl, rfl, rfl⟩

theorem reap (h : Sane full [s.current] s) (hi : i ≠ 0 ∧ i < maxTasks) (hcur : i ≠ s.current)
    (hz : (s.tasks i).state = .zombie) : Sane full [(s.reap i).current] (s.reap i) := by
  have hid : (s.tasks i).id = i := h.slots.ids i hi.2 hi.1 (by simp [hz])
  have hput : ∀ s₁ : State, Sane full [s₁.current] s₁ → s₁.tasks = s.tasks →
    s₁.current = s.current →
      Sane full [((s₁.putTask i .empty).freePid i).current] ((s₁.putTask i .empty).freePid i) := by
    intro s₁ h₁ htasks hcurrent
    have hocc : Sane full [i, s₁.current] (s₁.putTask i .empty) :=
      h₁.occupy (u := .empty) hi.1 (hcurrent ▸ hcur) (by simp [htasks, hz])
        (fun hne => absurd rfl hne) (fun _ => rfl) rfl (.inr rfl) rfl rfl
    have hself : ((s₁.putTask i .empty).tasks i).state = .empty :=
      by simp [State.putTask, Task.empty]
    have hback := (hocc.put_back (by simp [hself])).freePid (t := i) fun _ => hself
    obtain ⟨pids, hpids⟩ := freePid_eq (s₁.putTask i .empty) i
    rw [hpids] at hback ⊢
    exact hback
  unfold State.reap
  simp only [hid]
  split
  · exact hput _ (h.freeAddressSpace _ _) rfl rfl
  · exact hput s h rfl rfl

end Sane

end Rynex.Sched
