import Rynex.Ipc.Queue

/-! The names of ports. A name is stored in sixteen bytes, padded with zeros and without its
length, and `port_idx_by_name_locked` takes a zero for the end of the stored name: a name is told
from another one as long as neither contains a zero. -/

namespace Rynex.Ipc

open Rynex.Errno Rynex.Lib

/-! ### Stored names -/

def padName (name : List UInt8) : List UInt8 := name ++ List.replicate (nameLen - name.length) 0

/-- The test of `port_idx_by_name_locked` on one stored name. -/
def nameMatches (stored name : List UInt8) : Bool :=
  stored.take name.length = name && (name.length = nameLen || stored[name.length]? = some 0)

/-- A name of admitted length without a zero byte. -/
structure Proper (name : List UInt8) : Prop where
  nonempty : name ≠ []
  length_le : name.length ≤ nameLen
  no_zero : 0 ∉ name

theorem padName_of_lt {name : List UInt8} {j : Nat} (h : j < name.length) :
    (padName name)[j]? = name[j]? :=
  List.getElem?_append_left h

theorem padName_of_le {name : List UInt8} {j : Nat} (h : name.length ≤ j) (hj : j < nameLen) :
    (padName name)[j]? = some 0 := by
  rw [padName, List.getElem?_append_right h, List.getElem?_replicate, if_pos (by omega)]

theorem Proper.getElem?_ne {name : List UInt8} (h : Proper name) (j : Nat) : name[j]? ≠ some 0 :=
  fun hj => h.no_zero (List.mem_of_getElem? hj)

theorem nameMatches_iff {name name' : List UInt8} (h : Proper name) (h' : Proper name') :
    nameMatches (padName name') name = true ↔ name' = name := by
  simp only [nameMatches, Bool.and_eq_true, Bool.or_eq_true, decide_eq_true_eq]
  constructor
  · rintro ⟨htake, hend⟩
    -- Byte `j` of the name is byte `j` of the stored one.
    have hbyte : ∀ j < name.length, (padName name')[j]? = name[j]? := by
      intro j hj
      rw [← htake, List.getElem?_take_of_lt hj]
    have hle : name.length ≤ name'.length := by
      by_contra hlt
      have hlt : name'.length < name.length := by omega
      have hzero := padName_of_le (le_refl _) (hlt.trans_le h.length_le)
      exact h.getElem?_ne _ ((hbyte _ hlt).symm.trans hzero)
    have hge : name'.length ≤ name.length := by
      by_contra hlt
      have hlt : name.length < name'.length := by omega
      rcases hend with hfull | hzero
      · have := h'.length_le
        omega
      · rw [padName_of_lt hlt] at hzero
        exact h'.getElem?_ne _ hzero
    rw [padName, List.take_append_of_le_length hle, List.take_of_length_le hge] at htake
    exact htake
  · rintro rfl
    refine ⟨List.take_left .., ?_⟩
    rcases h.length_le.lt_or_eq with hlt | heq
    · exact .inr (padName_of_le (le_refl _) hlt)
    · exact .inl heq

theorem append_drop_padName (name : List UInt8) :
    name ++ (List.replicate nameLen (0 : UInt8)).drop name.length = padName name := by
  rw [padName, List.drop_replicate]

namespace Sys

theorem portIdxByName_eq (s : Sys) (name : List UInt8) : s.portIdxByName name =
    (List.range maxPorts).find? fun i => (s.ports i).used && nameMatches (s.ports i).name name := by
  unfold portIdxByName nameMatches
  simp only [Bool.and_assoc]

/-! ### The calls -/

/-- `ipc_create`. A null pointer counts as the empty name. -/
def ipcCreate (s : Sys) (name : List UInt8) : Int × Sys :=
  if name.isEmpty || nameLen < name.length then (-einval, s) else s.createLocked name

def ipcConnect (s : Sys) (name : List UInt8) : Int :=
  if name.isEmpty || nameLen < name.length then -einval
  else
    match s.portIdxByName name with
    | some i => (s.ports i).id
    | none => -esrch

end Sys

inductive NameCall where
  | create (name : List UInt8)
  | connect (name : List UInt8)
  | close (port : Nat)
deriving DecidableEq, Repr

/-- The system with its history: by what name each live port was created. -/
structure Registry where
  sys : Sys
  created : Nat → Option (List UInt8)

namespace Registry

def init : Registry := ⟨.init, fun _ => none⟩

def step (r : Registry) : NameCall → Registry
  | .create name =>
    match r.sys.ipcCreate name with
    | (.ofNat id, s) => ⟨s, Function.update r.created id (some name)⟩
    | (.negSucc _, s) => { r with sys := s }
  | .connect _ => r
  | .close port =>
    match r.sys.closeLocked port with
    | (.ofNat _, s) => ⟨s, Function.update r.created port none⟩
    | (.negSucc _, s) => { r with sys := s }

/-- What the port table has to do with the history. -/
structure Sound (r : Registry) : Prop where
  below : ∀ i < maxPorts, (r.sys.ports i).used = true → (r.sys.ports i).id < r.sys.nextPortId
  unique : ∀ i < maxPorts, ∀ j < maxPorts, (r.sys.ports i).used = true →
    (r.sys.ports j).used = true → (r.sys.ports i).id = (r.sys.ports j).id → i = j
  spare : ∀ i < maxPorts, (r.sys.ports i).used = false →
    (r.sys.ports i).name = List.replicate nameLen 0
  named : ∀ i < maxPorts, (r.sys.ports i).used = true → ∃ name, Proper name ∧
    r.created (r.sys.ports i).id = some name ∧ (r.sys.ports i).name = padName name
  live : ∀ id name, r.created id = some name →
    ∃ i < maxPorts, (r.sys.ports i).used = true ∧ (r.sys.ports i).id = id
  distinct : ∀ id id' name, r.created id = some name → r.created id' = some name → id = id'

theorem sound_init : Sound init where
  below _ _ h := absurd h Bool.false_ne_true
  unique _ _ _ _ h := absurd h Bool.false_ne_true
  spare _ _ _ := rfl
  named _ _ h := absurd h Bool.false_ne_true
  live _ _ h := absurd h (Option.some_ne_none _).symm
  distinct _ _ _ h := absurd h (Option.some_ne_none _).symm

section Lookup

variable {r : Registry} {name : List UInt8} {id i : Nat}

theorem Sound.portIdxByName_some (h : Sound r) (hname : Proper name)
    (hi : r.sys.portIdxByName name = some i) :
    i < maxPorts ∧ (r.sys.ports i).used = true ∧ r.created (r.sys.ports i).id = some name := by
  rw [Sys.portIdxByName_eq] at hi
  have hlt : i < maxPorts := List.mem_range.mp (List.mem_of_find?_eq_some hi)
  have hmatch := List.find?_some hi
  rw [Bool.and_eq_true] at hmatch
  obtain ⟨name', hname', hcreated, hstored⟩ := h.named i hlt hmatch.1
  rw [hstored, nameMatches_iff hname hname'] at hmatch
  exact ⟨hlt, hmatch.1, hmatch.2 ▸ hcreated⟩

theorem Sound.portIdxByName_none (h : Sound r) (hname : Proper name)
    (hi : r.sys.portIdxByName name = none) (id : Nat) : r.created id ≠ some name := by
  intro hcreated
  obtain ⟨i, hlt, hused, hid⟩ := h.live id name hcreated
  obtain ⟨name', hname', hcreated', hstored⟩ := h.named i hlt hused
  rw [hid, hcreated, Option.some_inj] at hcreated'
  rw [Sys.portIdxByName_eq, List.find?_eq_none] at hi
  refine hi i (List.mem_range.mpr hlt) ?_
  rw [hused, Bool.true_and, hstored]
  exact (nameMatches_iff hname hname').mpr hcreated'.symm

theorem Sound.proper (h : Sound r) (hcreated : r.created id = some name) : Proper name := by
  obtain ⟨i, hlt, hused, hid⟩ := h.live id name hcreated
  obtain ⟨name', hname', hcreated', -⟩ := h.named i hlt hused
  rw [hid, hcreated, Option.some_inj] at hcreated'
  exact hcreated' ▸ hname'

end Lookup

section Update

variable {r : Registry} {s' : Sys} {name : List UInt8} {port : Port} {i : Nat}

theorem ports_update (hports : s'.ports = Function.update r.sys.ports i port) (j : Nat) :
    (j = i ∧ s'.ports j = port) ∨ (j ≠ i ∧ s'.ports j = r.sys.ports j) := by
  rw [hports]
  by_cases hj : j = i
  · exact .inl ⟨hj, hj ▸ Function.update_self ..⟩
  · exact .inr ⟨hj, Function.update_of_ne hj ..⟩

theorem Sound.opened (h : Sound r) (hname : Proper name) (hi : i < maxPorts)
    (hfree : (r.sys.ports i).used = false) (hnew : ∀ id, r.created id ≠ some name)
    (hports : s'.ports = Function.update r.sys.ports i port)
    (hnext : s'.nextPortId = r.sys.nextPortId + 1) (hused : port.used = true)
    (hid : port.id = r.sys.nextPortId) (hstored : port.name = padName name) :
    Sound ⟨s', Function.update r.created r.sys.nextPortId (some name)⟩ := by
  have hother : ∀ j < maxPorts, (r.sys.ports j).used = true →
      (r.sys.ports j).id ≠ r.sys.nextPortId := fun j hj hu => (h.below j hj hu).ne
  constructor
  case below =>
    intro j hj hu
    dsimp only at hu ⊢
    rw [hnext]
    rcases ports_update hports j with ⟨-, heq⟩ | ⟨-, heq⟩
    · rw [heq, hid]; exact Nat.lt_succ_self _
    · rw [heq] at hu ⊢; exact (h.below j hj hu).trans (Nat.lt_succ_self _)
  case unique =>
    intro j hj k hk huj huk hids
    dsimp only at huj huk hids
    rcases ports_update hports j with ⟨rfl, hj'⟩ | ⟨-, hj'⟩ <;>
      rcases ports_update hports k with ⟨rfl, hk'⟩ | ⟨-, hk'⟩
    · rfl
    · rw [hj', hk', hid] at hids
      exact absurd hids.symm (hother k hk (hk' ▸ huk))
    · rw [hj', hk', hid] at hids
      exact absurd hids (hother j hj (hj' ▸ huj))
    · rw [hj'] at huj hids
      rw [hk'] at huk hids
      exact h.unique j hj k hk huj huk hids
  case spare =>
    intro j hj hu
    dsimp only at hu ⊢
    rcases ports_update hports j with ⟨-, heq⟩ | ⟨-, heq⟩
    · rw [heq, hused] at hu; cases hu
    · rw [heq] at hu ⊢; exact h.spare j hj hu
  case named =>
    intro j hj hu
    dsimp only at hu ⊢
    rcases ports_update hports j with ⟨-, heq⟩ | ⟨-, heq⟩
    · rw [heq, hid, Function.update_self]
      exact ⟨name, hname, rfl, hstored⟩
    · rw [heq] at hu ⊢
      rw [Function.update_of_ne (hother j hj hu)]
      exact h.named j hj hu
  case live =>
    intro id name' hc
    dsimp only at hc ⊢
    by_cases hn : id = r.sys.nextPortId
    · refine ⟨i, hi, ?_⟩
      rw [hports, Function.update_self]
      exact ⟨hused, hid.trans hn.symm⟩
    · rw [Function.update_of_ne hn] at hc
      obtain ⟨j, hj, hu, hjd⟩ := h.live id name' hc
      have hne : j ≠ i := by rintro rfl; rw [hfree] at hu; cases hu
      exact ⟨j, hj, by rw [hports, Function.update_of_ne hne]; exact ⟨hu, hjd⟩⟩
  case distinct =>
    intro id id' name' hc hc'
    dsimp only at hc hc'
    by_cases hn : id = r.sys.nextPortId <;> by_cases hn' : id' = r.sys.nextPortId
    · rw [hn, hn']
    · rw [hn, Function.update_self, Option.some_inj] at hc
      rw [Function.update_of_ne hn', ← hc] at hc'
      exact absurd hc' (hnew id')
    · rw [hn', Function.update_self, Option.some_inj] at hc'
      rw [Function.update_of_ne hn, ← hc'] at hc
      exact absurd hc (hnew id)
    · rw [Function.update_of_ne hn] at hc
      rw [Function.update_of_ne hn'] at hc'
      exact h.distinct id id' name' hc hc'

theorem Sound.closed (h : Sound r) (hi : i < maxPorts) (hused : (r.sys.ports i).used = true)
    (hports : s'.ports = Function.update r.sys.ports i .empty)
    (hnext : s'.nextPortId = r.sys.nextPortId) :
    Sound ⟨s', Function.update r.created (r.sys.ports i).id none⟩ := by
  -- A port in use is another one than port `i`, as it was before.
  have hsame : ∀ j, (s'.ports j).used = true → j ≠ i ∧ s'.ports j = r.sys.ports j := by
    intro j hu
    rcases ports_update hports j with ⟨-, heq⟩ | hold
    · rw [heq] at hu; cases hu
    · exact hold
  have hkeeps : ∀ id name', Function.update r.created (r.sys.ports i).id none id = some name' →
      id ≠ (r.sys.ports i).id ∧ r.created id = some name' := by
    intro id name' hc
    by_cases hn : id = (r.sys.ports i).id
    · rw [hn, Function.update_self] at hc; cases hc
    · rw [Function.update_of_ne hn] at hc
      exact ⟨hn, hc⟩
  constructor
  case below =>
    intro j hj hu
    dsimp only at hu ⊢
    obtain ⟨-, heq⟩ := hsame j hu
    rw [heq] at hu ⊢
    rw [hnext]
    exact h.below j hj hu
  case unique =>
    intro j hj k hk huj huk hids
    dsimp only at huj huk hids
    obtain ⟨-, hj'⟩ := hsame j huj
    obtain ⟨-, hk'⟩ := hsame k huk
    rw [hj'] at huj hids
    rw [hk'] at huk hids
    exact h.unique j hj k hk huj huk hids
  case spare =>
    intro j hj hu
    dsimp only at hu ⊢
    rcases ports_update hports j with ⟨-, heq⟩ | ⟨-, heq⟩
    · rw [heq]; rfl
    · rw [heq] at hu ⊢; exact h.spare j hj hu
  case named =>
    intro j hj hu
    dsimp only at hu ⊢
    obtain ⟨hne, heq⟩ := hsame j hu
    rw [heq] at hu ⊢
    have hids : (r.sys.ports j).id ≠ (r.sys.ports i).id := fun hids =>
      hne (h.unique j hj i hi hu hused hids)
    rw [Function.update_of_ne hids]
    exact h.named j hj hu
  case live =>
    intro id name' hc
    dsimp only at hc ⊢
    obtain ⟨hn, hc⟩ := hkeeps id name' hc
    obtain ⟨j, hj, hu, rfl⟩ := h.live id name' hc
    have hne : j ≠ i := by rintro rfl; exact hn rfl
    exact ⟨j, hj, by rw [hports, Function.update_of_ne hne]; exact ⟨hu, rfl⟩⟩
  case distinct =>
    intro id id' name' hc hc'
    exact h.distinct id id' name' (hkeeps id name' hc).2 (hkeeps id' name' hc').2

end Update

section Calls

variable {r : Registry} {name : List UInt8}

theorem proper_of_length {name : List UInt8} (hzero : 0 ∉ name)
    (hlen : ¬ (name.isEmpty || decide (nameLen < name.length)) = true) : Proper name := by
  simp only [Bool.or_eq_true, List.isEmpty_iff, decide_eq_true_eq, not_or, not_lt] at hlen
  exact ⟨hlen.1, hlen.2, hzero⟩

theorem Sound.not_created (h : Sound r)
    (hlen : (name.isEmpty || decide (nameLen < name.length)) = true) (id : Nat) :
    r.created id ≠ some name := by
  intro hc
  have hproper := h.proper hc
  rw [Bool.or_eq_true, List.isEmpty_iff, decide_eq_true_eq] at hlen
  rcases hlen with hnil | hlong
  · exact hproper.nonempty hnil
  · exact hproper.length_le.not_gt hlong

theorem step_create_refused {err : Nat} (h : r.sys.ipcCreate name = (.negSucc err, r.sys)) :
    r.step (.create name) = r := by
  unfold step
  dsimp only
  rw [h]

theorem step_create_opened {id : Nat} {s' : Sys} (h : r.sys.ipcCreate name = (.ofNat id, s')) :
    r.step (.create name) = ⟨s', Function.update r.created id (some name)⟩ := by
  unfold step
  dsimp only
  rw [h]

theorem Sound.create_refuses (h : Sound r) (hzero : 0 ∉ name) :
    (r.sys.ipcCreate name).1 = -eexist ↔ ∃ id, r.created id = some name := by
  unfold Sys.ipcCreate
  split
  next hlen =>
    exact ⟨fun hno => absurd hno (by decide : -einval ≠ -eexist),
      fun ⟨id, hc⟩ => absurd hc (h.not_created hlen id)⟩
  next hlen =>
    have hproper := proper_of_length hzero hlen
    unfold Sys.createLocked
    cases hidx : r.sys.portIdxByName name with
    | some i => exact ⟨fun _ => ⟨_, (h.portIdxByName_some hproper hidx).2.2⟩, fun _ => rfl⟩
    | none =>
      have hnew := h.portIdxByName_none hproper hidx
      refine ⟨fun hno => ?_, fun ⟨id, hc⟩ => absurd hc (hnew id)⟩
      rw [Option.isSome_none, if_neg Bool.false_ne_true] at hno
      cases hslot : (List.range maxPorts).find? fun i => !(r.sys.ports i).used with
      | none => rw [hslot] at hno; exact absurd hno (by decide : -enomem ≠ -eexist)
      | some i =>
        rw [hslot] at hno
        dsimp only at hno
        unfold eexist at hno
        omega

theorem Sound.create (h : Sound r) (hzero : 0 ∉ name) : Sound (r.step (.create name)) := by
  by_cases hlen : (name.isEmpty || decide (nameLen < name.length)) = true
  · have hres : r.sys.ipcCreate name = (-einval, r.sys) := if_pos hlen
    exact (step_create_refused hres).symm ▸ h
  have hproper := proper_of_length hzero hlen
  have hres : r.sys.ipcCreate name = r.sys.createLocked name := if_neg hlen
  unfold Sys.createLocked at hres
  cases hidx : r.sys.portIdxByName name with
  | some i =>
    rw [hidx, Option.isSome_some, if_pos rfl] at hres
    exact (step_create_refused hres).symm ▸ h
  | none =>
    rw [hidx, Option.isSome_none, if_neg Bool.false_ne_true] at hres
    have hnew := h.portIdxByName_none hproper hidx
    cases hslot : (List.range maxPorts).find? fun i => !(r.sys.ports i).used with
    | none =>
      rw [hslot] at hres
      exact (step_create_refused hres).symm ▸ h
    | some i =>
      have hi : i < maxPorts := List.mem_range.mp (List.mem_of_find?_eq_some hslot)
      have hfree : (r.sys.ports i).used = false := by simpa using List.find?_some hslot
      rw [hslot] at hres
      rw [step_create_opened hres]
      refine h.opened hproper hi hfree hnew rfl rfl rfl rfl ?_
      dsimp only
      rw [h.spare i hi hfree, append_drop_padName]

theorem Sound.close (h : Sound r) (port : Nat) : Sound (r.step (.close port)) := by
  unfold step Sys.closeLocked
  dsimp only
  cases hi : r.sys.portIdxById port with
  | none => exact h
  | some i =>
    obtain ⟨hlt, hused, -⟩ := Sys.portIdxById_spec hi
    have hid : (r.sys.ports i).id = port := by
      have hmatch := List.find?_some hi
      simp only [Bool.and_eq_true, decide_eq_true_eq] at hmatch
      exact hmatch.2
    obtain ⟨live, freed, heq⟩ := Sys.freeAll_eq (r.sys.ports i).queue r.sys
    dsimp only
    rw [heq, ← hid]
    exact h.closed hlt hused rfl rfl

theorem Sound.connect (h : Sound r) (hzero : 0 ∉ name) (id : Nat) :
    r.sys.ipcConnect name = id ↔ r.created id = some name := by
  unfold Sys.ipcConnect
  split
  next hlen =>
    refine ⟨fun hno => ?_, fun hc => absurd hc (h.not_created hlen id)⟩
    unfold einval at hno
    omega
  next hlen =>
    have hproper := proper_of_length hzero hlen
    cases hidx : r.sys.portIdxByName name with
    | some i =>
      obtain ⟨-, -, hcreated⟩ := h.portIdxByName_some hproper hidx
      dsimp only
      rw [Int.natCast_inj]
      exact ⟨fun heq => heq ▸ hcreated, fun hc => h.distinct _ _ name hcreated hc⟩
    | none =>
      refine ⟨fun hno => ?_, fun hc => absurd hc (h.portIdxByName_none hproper hidx id)⟩
      dsimp only at hno
      unfold esrch at hno
      omega

end Calls

/-- The name that a call is given has no zero byte. -/
def ZeroFree : NameCall → Prop
  | .create name => 0 ∉ name
  | .connect name => 0 ∉ name
  | .close _ => True

instance : DecidablePred ZeroFree := fun c => by
  cases c <;> unfold ZeroFree <;> infer_instance

theorem Sound.step {r : Registry} (h : Sound r) (c : NameCall) (hc : ZeroFree c) :
    Sound (r.step c) := by
  cases c with
  | create name => exact h.create hc
  | connect name => exact h
  | close port => exact h.close port

/-- In every run of calls whose names have no zero byte, `ipc_connect` answers with a port exactly
for the names of live ports, `ipc_create` refuses exactly these names, and live ports have
different names. -/
theorem names_exact (calls : List NameCall) (hcalls : ∀ c ∈ calls, ZeroFree c) :
    let r := calls.foldl step init
    (∀ name, 0 ∉ name → ∀ id : Nat, r.sys.ipcConnect name = id ↔ r.created id = some name) ∧
    (∀ name, 0 ∉ name →
      ((r.sys.ipcCreate name).1 = -eexist ↔ ∃ id, r.created id = some name)) ∧
    ∀ id id' name, r.created id = some name → r.created id' = some name → id = id' := by
  have hsound : Sound (calls.foldl step init) :=
    List.foldlRecOn (motive := Sound) calls step sound_init
      fun r hr c hc => hr.step c (hcalls c hc)
  exact ⟨fun _ hzero id => hsound.connect hzero id, fun _ hzero => hsound.create_refuses hzero,
    hsound.distinct⟩

theorem names_exact_reused : (∀ c ∈ [NameCall.create [97], .close 1, .create [97]], ZeroFree c) ∧
    let r := [NameCall.create [97], .close 1, .create [97]].foldl step init
    r.created 2 = some [97] ∧ r.sys.ipcConnect [97] = (2 : Nat) := by
  have hcalls : ∀ c ∈ [NameCall.create [97], .close 1, .create [97]], ZeroFree c := by decide
  have hcreated : ([NameCall.create [97], .close 1, .create [97]].foldl step init).created 2 =
      some [97] := by decide
  exact ⟨hcalls, hcreated, ((names_exact _ hcalls).1 [97] (by decide) 2).mpr hcreated⟩

/-- Port 1 is created by the name `a` with a zero after it. It then answers to `a`, which no live
port was created by, and `a` is refused. -/
theorem zero_hides_end :
    let r := step init (.create [97, 0])
    (∀ id, r.created id ≠ some [97]) ∧ r.sys.ipcConnect [97] = (1 : Nat) ∧
      (r.sys.ipcCreate [97]).1 = -eexist := by
  refine ⟨fun id => ?_, by decide, by decide⟩
  by_cases hid : id = 1
  · subst hid; decide
  · have hnone : (step init (.create [97, 0])).created id = none := Function.update_of_ne hid ..
    rw [hnone]
    exact (Option.some_ne_none _).symm

end Registry

end Rynex.Ipc
