import Mathlib

/-! The lock of `spinlock.rs` between any number of CPUs and under interrupts. A step is one
instruction; memory is sequentially consistent. No guard is dropped by hand, so guards go in the
reverse of the order in which they came. A context switch or `sti` under a guard (`exit_task` under
`SIGNAL_LOCK`) is no event. -/

namespace Rynex.Sync

/-- Between two instructions: of `lock` (the flags are saved; the loop spins), of an update through
the guard (the value was read), of the guard's `drop` (the lock is free). -/
inductive Pc (ι α : Type*) where
  | run
  | saved (l : ι) (was : Bool)
  | spin (l : ι) (was : Bool)
  | loaded (l : ι) (x : α)
  | freed (was : Bool)

/-- A flow of control with its guards, the last one first, each with the flag it saved. -/
structure Flow (ι α : Type*) where
  pc : Pc ι α
  guards : List (ι × Bool)

/-- A CPU: its interrupt flag, the flow that runs and those that were interrupted. -/
structure Cpu (ι α : Type*) where
  irq : Bool
  flow : Flow ι α
  under : List (Flow ι α)

structure State (κ ι α : Type*) where
  locked : ι → Bool
  data : ι → α
  cpus : κ → Cpu ι α

inductive Event (ι α : Type*) where
  | lock (l : ι)
  | cli
  | compareExchange
  | deref (l : ι)
  | store (f : α → α)
  | drop
  | irqRestore
  | interrupt
  | iret

variable {κ ι α : Type*}

def Cpu.held (c : Cpu ι α) : List ι := c.flow.guards.map Prod.fst

/-- No lock is held; the interrupts of CPU `k` are on if `on k`. -/
def boot (on : κ → Bool) (x : ι → α) : State κ ι α :=
  ⟨fun _ => false, x, fun k => ⟨on k, ⟨.run, []⟩, []⟩⟩

def State.setCpu [DecidableEq κ] (s : State κ ι α) (k : κ) (c : Cpu ι α) : State κ ι α :=
  { s with cpus := Function.update s.cpus k c }

/-- One instruction of CPU `k`; one that is not the flow's next changes nothing. -/
def State.step [DecidableEq κ] [DecidableEq ι] (s : State κ ι α) : κ × Event ι α → State κ ι α
  | (k, e) =>
    let c := s.cpus k
    let gs := c.flow.guards
    match e, c.flow.pc, gs with
    | .lock l, .run, _ => s.setCpu k { c with flow := ⟨.saved l c.irq, gs⟩ }
    | .cli, .saved l was, _ => s.setCpu k { c with irq := false, flow := ⟨.spin l was, gs⟩ }
    | .compareExchange, .spin l was, _ =>
      if s.locked l then s
      else { s with locked := Function.update s.locked l true }.setCpu k
        { c with flow := ⟨.run, (l, was) :: gs⟩ }
    | .deref l, .run, _ =>
      if l ∈ c.held then s.setCpu k { c with flow := ⟨.loaded l (s.data l), gs⟩ } else s
    | .store f, .loaded l x, _ => { s with data := Function.update s.data l (f x) }.setCpu k
        { c with flow := ⟨.run, gs⟩ }
    | .drop, .run, (l, was) :: gs => { s with locked := Function.update s.locked l false }.setCpu k
        { c with flow := ⟨.freed was, gs⟩ }
    | .irqRestore, .freed was, _ => s.setCpu k { c with irq := was, flow := ⟨.run, gs⟩ }
    | .interrupt, _, _ => if c.irq then s.setCpu k ⟨false, ⟨.run, []⟩, c.flow :: c.under⟩ else s
    | .iret, .run, [] =>
      match c.under with
      | f :: fs => s.setCpu k ⟨true, f, fs⟩
      | [] => s
    | _, _, _ => s

/-! ### The invariant -/

/-- The flag that the flow has when it is next in the midst of no `lock` and no `drop`. -/
def Cpu.flag (c : Cpu ι α) : Bool :=
  match c.flow.pc with
  | .saved _ was | .spin _ was | .freed was => was
  | _ => c.irq

/-- Interrupts are off inside of the guards, and on as `on` says once all are dropped. -/
def Nested (on : Bool) : List (ι × Bool) → Bool → Prop
  | [], flag => flag = on
  | (_, was) :: gs, flag => flag = false ∧ Nested on gs was

/-- What the place in the code says of the flag. -/
def Pc.Fits (irq : Bool) : Pc ι α → Prop
  | .run | .loaded _ _ => True
  | .saved _ was => was = irq
  | .spin _ _ | .freed _ => irq = false

/-- A flow that may be interrupted. -/
def Flow.Idle (f : Flow ι α) : Prop := f.guards = [] ∧ (f.pc = .run ∨ ∃ l, f.pc = .saved l true)

/-- A CPU that owns the locks in `own`. -/
structure CpuOk (on : Bool) (own : ι → Prop) (data : ι → α) (c : Cpu ι α) : Prop where
  nodup : c.held.Nodup
  held : ∀ l, l ∈ c.held ↔ own l
  nested : Nested (on && c.under.isEmpty) c.flow.guards c.flag
  fits : c.flow.pc.Fits c.irq
  under : c.under = [] ∨ on = true ∧ ∃ f, f.Idle ∧ c.under = [f]
  fresh : ∀ l x, c.flow.pc = .loaded l x → own l ∧ data l = x

/-- Every lock has the owner that `owner` names. -/
structure Inv (on : κ → Bool) (owner : ι → Option κ) (s : State κ ι α) : Prop where
  cpu : ∀ k, CpuOk (on k) (owner · = some k) s.data (s.cpus k)
  locked : ∀ l, s.locked l = (owner l).isSome

variable {s s' : State κ ι α} {k : κ} {c : Cpu ι α} {on : κ → Bool} {owner owner' : ι → Option κ}
  {b : Bool} {own : ι → Prop} {data : ι → α}

theorem Inv.boot (on : κ → Bool) (x : ι → α) : Inv on (fun _ => none) (boot on x) :=
  ⟨fun _ => by constructor <;> simp [Sync.boot, Cpu.held, Cpu.flag, Nested, Pc.Fits], fun _ => rfl⟩

theorem CpuOk.masked (h : CpuOk b own data c) (hg : c.flow.guards ≠ []) : c.irq = false := by
  have hfits := h.fits
  have hn := h.nested
  obtain ⟨g, gs, hgs⟩ := List.exists_cons_of_ne_nil hg
  rw [hgs] at hn
  have hflag := hn.1
  unfold Cpu.flag at hflag
  cases hpc : c.flow.pc <;> simp_all [Pc.Fits]

theorem CpuOk.idle (h : CpuOk b own data c) (hirq : c.irq = true) :
    c.flow.Idle ∧ b = true ∧ c.under = [] := by
  have hfits := h.fits
  have hn := h.nested
  have hg : c.flow.guards = [] := by
    by_contra hg
    simp [h.masked hg] at hirq
  rw [hg] at hn
  cases hpc : c.flow.pc with
  | run => exact ⟨⟨hg, .inl hpc⟩, by simpa [Cpu.flag, hpc, hirq, Nested] using hn⟩
  | saved l was =>
    rw [hpc, hirq] at hfits
    obtain rfl : was = true := hfits
    exact ⟨⟨hg, .inr ⟨l, hpc⟩⟩, by simpa [Cpu.flag, hpc, Nested] using hn⟩
  | loaded l x => simpa [Cpu.held, hg] using (h.held l).mpr (h.fresh l x hpc).1
  | spin | freed => simp [hpc, hirq, Pc.Fits] at hfits

section Steps

variable [DecidableEq κ]

section Put

/-! Another state of CPU `k`. The others go on owning what they do, and their data stay. -/

variable (h : Inv on owner s) (hcpus : s'.cpus = Function.update s.cpus k c)
  (hdata : ∀ l, owner l ≠ some k → s'.data l = s.data l)

include h hcpus hdata

theorem Inv.put (hc : CpuOk (on k) (owner' · = some k) s'.data c)
    (hlocked : ∀ l, s'.locked l = (owner' l).isSome)
    (hkeep : ∀ l k', k ≠ k' → (owner' l = some k' ↔ owner l = some k')) : Inv on owner' s' := by
  refine ⟨fun k' => ?_, hlocked⟩
  rcases eq_or_ne k' k with rfl | hne
  · rwa [hcpus, Function.update_self]
  have hk := h.cpu k'
  rw [hcpus, Function.update_of_ne hne]
  refine { hk with held := fun l => (hk.held l).trans (hkeep l k' hne.symm).symm, fresh := ?_ }
  intro l x hpc
  obtain ⟨hown, hx⟩ := hk.fresh l x hpc
  exact ⟨(hkeep l k' hne.symm).mpr hown, (hdata l (by simp [hown, hne])).trans hx⟩

theorem Inv.same (hlocked : s'.locked = s.locked)
    (hc : CpuOk (on k) (owner · = some k) s'.data c) : ∃ owner', Inv on owner' s' :=
  ⟨owner, h.put hcpus hdata hc (hlocked ▸ h.locked) fun _ _ _ => Iff.rfl⟩

theorem Inv.move (hlocked : s'.locked = s.locked) (hg : c.flow.guards = (s.cpus k).flow.guards)
    (hu : c.under = (s.cpus k).under) (hflag : c.flag = (s.cpus k).flag)
    (hfits : c.flow.pc.Fits c.irq)
    (hfresh : ∀ l x, c.flow.pc = .loaded l x → owner l = some k ∧ s'.data l = x) :
    ∃ owner', Inv on owner' s' :=
  have hk := h.cpu k
  h.same hcpus hdata hlocked ⟨by simpa [Cpu.held, hg] using hk.nodup,
    by simpa [Cpu.held, hg] using hk.held, by simpa [hg, hu, hflag] using hk.nested, hfits,
    hu ▸ hk.under, hfresh⟩

end Put

variable [DecidableEq ι]

theorem Inv.step (h : Inv on owner s) (e : κ × Event ι α) : ∃ owner', Inv on owner' (s.step e) := by
  obtain ⟨k, e⟩ := e
  have hcpu := h.cpu k
  have hfits := hcpu.fits
  have hnested := hcpu.nested
  unfold State.step
  dsimp only
  split
  case h_1 l hpc | h_2 l was hpc | h_7 was hpc =>
    refine h.move rfl (fun _ _ => rfl) rfl rfl rfl ?_ ?_ (by simp)
    · simp [Cpu.flag, hpc]
    · simp [Pc.Fits]
  case h_3 l was hpc =>
    split
    · exact ⟨_, h⟩
    next hfree =>
    have hnone : owner l = none := by simpa [h.locked] using hfree
    simp only [Cpu.flag, hpc] at hnested hfits
    refine ⟨Function.update owner l (some k), h.put rfl (fun _ _ => rfl) ⟨?_, fun l' => ?_,
      ⟨hfits, hnested⟩, trivial, hcpu.under, by simp⟩ (fun l' => ?_) fun l' k' hne => ?_⟩
    · exact List.nodup_cons.mpr ⟨(hcpu.held l).not.mpr (by simp [hnone]), hcpu.nodup⟩
    all_goals rcases eq_or_ne l' l with rfl | hl
    · simp [Cpu.held]
    · simpa [Cpu.held, hl] using hcpu.held l'
    · simp [State.setCpu]
    · simp [State.setCpu, hl, h.locked]
    · simp [hnone, hne]
    · simp [hl]
  case h_4 l hpc =>
    split
    next hl =>
      refine h.move rfl (fun _ _ => rfl) rfl rfl rfl ?_ trivial ?_
      · simp [Cpu.flag, hpc]
      · rintro _ _ ⟨⟩
        exact ⟨(hcpu.held l).mp hl, rfl⟩
    · exact ⟨_, h⟩
  case h_5 f l x hpc =>
    obtain ⟨hl, -⟩ := hcpu.fresh l x hpc
    refine h.move rfl (fun l' hl' => ?_) rfl rfl rfl ?_ trivial (by simp)
    · exact Function.update_of_ne (by rintro rfl; exact hl' hl) _ _
    · simp [Cpu.flag, hpc]
  case h_6 l was gs hpc hgs =>
    have hnodup := hcpu.nodup
    have hheld := hcpu.held
    simp only [Cpu.held, hgs, List.map_cons, List.mem_cons] at hnodup hheld
    rw [hgs] at hnested
    obtain ⟨hl, hnodup⟩ := List.nodup_cons.mp hnodup
    refine ⟨Function.update owner l none, h.put rfl (fun _ _ => rfl) ⟨hnodup, fun l' => ?_,
      hnested.2, hcpu.masked (by simp [hgs]), hcpu.under, by simp⟩ (fun l' => ?_) fun l' k' hne =>
        ?_⟩
    all_goals rcases eq_or_ne l' l with rfl | hl'
    · simpa [Cpu.held] using hl
    · simpa [Cpu.held, hl'] using hheld l'
    · simp [State.setCpu]
    · simp [State.setCpu, hl', h.locked]
    · simp [(hheld l').mp (.inl rfl), hne]
    · simp [hl']
  case h_8 =>
    split
    next hirq =>
      obtain ⟨hidle, hon, hu⟩ := hcpu.idle hirq
      exact h.same rfl (fun _ _ => rfl) rfl ⟨List.nodup_nil,
        by simpa [Cpu.held, hidle.1] using hcpu.held, by simp [Nested, Cpu.flag], trivial,
        .inr ⟨hon, _, hidle, by rw [hu]⟩, by simp⟩
    · exact ⟨_, h⟩
  case h_9 hpc hgs =>
    split
    next f fs hu =>
      obtain ⟨hon, f', ⟨hnil, hrest⟩, hf⟩ := hcpu.under.resolve_left (by simp [hu])
      obtain ⟨rfl, rfl⟩ := List.cons.inj (hu.symm.trans hf)
      refine h.same rfl (fun _ _ => rfl) rfl ⟨by simp [Cpu.held, hnil],
        by simpa [Cpu.held, hnil, hgs] using hcpu.held, ?_, ?_, .inl rfl, ?_⟩
      all_goals rcases hrest with hrun | ⟨l, hsaved⟩
      all_goals simp_all [Cpu.flag, Pc.Fits, Nested]
    · exact ⟨_, h⟩
  · exact ⟨_, h⟩

/-! ### Runs -/

/-- The lock and the function of an update whose store comes next. -/
def commit (s : State κ ι α) : κ × Event ι α → List (ι × (α → α))
  | (k, .store f) =>
    match (s.cpus k).flow.pc with
    | .loaded l _ => [(l, f)]
    | _ => []
  | _ => []

/-- The updates of a run, in the order of their stores. -/
def commits : State κ ι α → List (κ × Event ι α) → List (ι × (α → α))
  | _, [] => []
  | s, e :: es => commit s e ++ commits (s.step e) es

/-- An update that nothing comes between. -/
def apply (d : ι → α) (u : ι × (α → α)) : ι → α := Function.update d u.1 (u.2 (d u.1))

theorem Inv.data_step (h : Inv on owner s) (e : κ × Event ι α) :
    (s.step e).data = (commit s e).foldl apply s.data := by
  obtain ⟨k, e⟩ := e
  cases e with
  | store f =>
    cases hpc : (s.cpus k).flow.pc with
    | loaded l x => simp [State.step, State.setCpu, commit, apply, hpc, ((h.cpu k).fresh l x hpc).2]
    | _ => simp [State.step, commit, hpc]
  | _ =>
    simp only [commit, List.foldl_nil, State.step]
    split <;> (try split) <;> simp_all [State.setCpu]

theorem Inv.run (h : Inv on owner s) (es : List (κ × Event ι α)) :
    (∃ owner', Inv on owner' (es.foldl State.step s)) ∧
      (es.foldl State.step s).data = (commits s es).foldl apply s.data := by
  induction es generalizing s owner with
  | nil => exact ⟨⟨owner, h⟩, rfl⟩
  | cons e es ih =>
    obtain ⟨owner', h'⟩ := h.step e
    rw [List.foldl_cons, commits, List.foldl_append, ← h.data_step e]
    exact ih h'

/-- In every interleaving a lock is taken just if exactly one CPU holds it, once and with its
interrupts off; a flow that was interrupted holds none, and it is the only one. Outside of all locks
a CPU has its interrupts on or off as at the start. -/
theorem mutex_excludes (on : κ → Bool) (x : ι → α) (es : List (κ × Event ι α)) :
    let s := es.foldl State.step (boot on x)
    (∀ l, s.locked l = true ↔ ∃! k, l ∈ (s.cpus k).held) ∧
      ∀ k, (s.cpus k).held.Nodup ∧ ((s.cpus k).held ≠ [] → (s.cpus k).irq = false) ∧
        (∀ f ∈ (s.cpus k).under, f.guards = [] ∧ (s.cpus k).under = [f]) ∧
        ((s.cpus k).under = [] → (s.cpus k).flow = ⟨.run, []⟩ → (s.cpus k).irq = on k) := by
  intro s
  obtain ⟨owner, h⟩ : ∃ owner, Inv on owner s := ((Inv.boot on x).run es).1
  refine ⟨fun l => ?_, fun k => ⟨(h.cpu k).nodup, fun hk => ?_, fun f hf => ?_, fun hu hrun => ?_⟩⟩
  · rw [h.locked, Option.isSome_iff_exists]
    refine exists_congr fun k => ?_
    simp only [(h.cpu _).held]
    exact ⟨fun hk => ⟨hk, fun k' hk' => Option.some.inj (hk'.symm.trans hk)⟩, And.left⟩
  · exact (h.cpu k).masked (by simpa [Cpu.held] using hk)
  · obtain ⟨-, f', hidle, hu⟩ := (h.cpu k).under.resolve_left (List.ne_nil_of_mem hf)
    obtain rfl : f = f' := by simpa [hu] using hf
    exact ⟨hidle.1, hu⟩
  · simpa [Cpu.flag, hrun, Nested, hu] using (h.cpu k).nested

/-- In every interleaving the data are those of the updates made one after another, each at once. -/
theorem no_update_lost (on : κ → Bool) (x : ι → α) (es : List (κ × Event ι α)) :
    (es.foldl State.step (boot on x)).data = (commits (boot on x) es).foldl apply x :=
  ((Inv.boot on x).run es).2

end Steps

end Rynex.Sync
