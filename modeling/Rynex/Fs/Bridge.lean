import Rynex.Errno

/-! What the bridge of `userfs.rs` makes of the reply of the file system service, which it does not
trust. -/

namespace Rynex.Fs

open Rynex.Errno

def maxReq : Nat := 4096 - 32

def opRead : Nat := 1
def opWrite : Nat := 2
def opReaddir : Nat := 4
def opReadlink : Nat := 10
def opRename : Nat := 12

/-- The bytes of a number, lowest first. -/
def leBytes : Nat → Nat → List UInt8
  | 0, _ => []
  | k + 1, n => UInt8.ofNat n :: leBytes k (n / 256)

def ofLeBytes (bytes : List UInt8) : Nat := bytes.foldr (fun b n => b.toNat + 256 * n) 0

def i64OfLe (bytes : List UInt8) : Int := (BitVec.ofNat 64 (ofLeBytes (bytes.take 8))).toInt

def request (op ino offset len flags : Nat) (name payload : List UInt8) : List UInt8 :=
  leBytes 8 op ++ leBytes 8 ino ++ leBytes 8 offset ++ leBytes 8 len ++ leBytes 8 flags ++
    name ++ payload

/-- What comes of a call: the bytes of a reply, of which `ipc_reply` keeps as many as a message
holds, or an error. -/
abbrev Reply := Except Nat (List UInt8)

def Reply.kept : Reply → List UInt8
  | .ok bytes => bytes.take maxReq
  | .error _ => []

/-- `ipc_call_internal`: the length of the reply and the buffer of `do_call`, or an error. -/
def Reply.answer (reply : Reply) : Int × List UInt8 :=
  (match reply with
    | .ok _ => reply.kept.length
    | .error e => -(e : Int) - 1,
    reply.kept ++ List.replicate (maxReq - reply.kept.length) 0)

/-- `do_call`, with the registered port, which is 0 if there is none, and `ipc_call_internal`. -/
def doCall (ipcCall : Nat → List UInt8 → Int × List UInt8)
    (port op ino offset len flags : Nat) (name payload : List UInt8) :
    Except Int (Int × List UInt8) :=
  if port = 0 then .error (-enodev)
  else if maxReq < name.length + payload.length + 40 then .error (-einval)
  else
    let (n, out) := ipcCall port (request op ino offset len flags name payload)
    if n < 0 then .error n
    else if n < 8 then .error (-einval)
    else .ok (i64OfLe out, out)

/-- How an operation ends: an index out of bounds, an error, or a count with the bytes that the
caller gets. -/
inductive Outcome where
  | panic
  | err (msg : String)
  | ok (n : Nat) (bytes : List UInt8)
deriving DecidableEq, Repr

namespace Bridge

variable (port ino offset : Nat) (reply : Reply)

/-- The operations differ in what they do with a result that is not negative. -/
def call (op len : Nat) (name payload : List UInt8) (msg : String)
    (use : Nat → List UInt8 → Outcome) : Outcome :=
  match doCall (fun _ _ => reply.answer) port op ino offset len 0 name payload with
  | .ok (result, out) => if result < 0 then .err msg else use result.toNat out
  | .error _ => .err msg

/-- `&out[8..8 + n]`. -/
def slice (n : Nat) (out : List UInt8) : Outcome :=
  if 8 + n ≤ out.length then .ok n ((out.drop 8).take n) else .panic

/-- `read` into a buffer of `room` bytes. -/
def read (room : Nat) : Outcome :=
  call port ino offset reply opRead room [] [] "userfs read" fun n out =>
    if room < n then .err "userfs read" else slice n out

def write (buf : List UInt8) : Outcome :=
  call port ino offset reply opWrite buf.length [] buf "userfs write" fun n _ => .ok n []

/-- `readdir` into a buffer of any number of entries, which it leaves as they are. -/
def readdir : Outcome :=
  call port ino offset reply opReaddir 0 [] [] "userfs readdir" fun n _ => .ok n []

def readlink : Outcome :=
  call port ino 0 reply opReadlink 0 [] [] "userfs readlink" slice

/-- The length of the array in which `rename` puts both names. -/
def renamePayload : Nat := maxReq - 48

def rename (oldName : List UInt8) (newParent : Nat) (newName : List UInt8) : Outcome :=
  if renamePayload < oldName.length + 1 + newName.length then .panic
  else call port ino newParent reply opRename 0 (oldName ++ 0 :: newName) [] "userfs rename"
    fun _ _ => .ok 0 []

/-- No index is out of bounds, the count is not larger than the buffer, and the bytes are bytes of
the reply. -/
def Safe (room : Option Nat) : Outcome → Prop
  | .panic => False
  | .err _ => True
  | .ok n bytes => (∀ r, room = some r → n ≤ r) ∧ bytes <+: reply.kept.drop 8

/-- The result of a call that got through and did not fail. -/
def result (name payload : List UInt8) : Option Nat :=
  if port = 0 ∨ maxReq < name.length + payload.length + 40 ∨ reply.kept.length < 8 ∨
    i64OfLe reply.answer.2 < 0 then none
  else some (i64OfLe reply.answer.2).toNat

theorem call_eq (op len : Nat) (name payload : List UInt8) (msg : String)
    (use : Nat → List UInt8 → Outcome) :
    call port ino offset reply op len name payload msg use =
      match result port reply name payload with
      | some n => use n reply.answer.2
      | none => .err msg := by
  have hlen : reply.kept.length < 8 ↔ reply.answer.1 < 0 ∨ reply.answer.1 < 8 := by
    cases reply with
    | ok bytes => simp only [Reply.answer]; omega
    | error e => simp only [Reply.answer, Reply.kept, List.length_nil]; omega
  rw [call, doCall, result]
  simp only [hlen]
  by_cases hport : port = 0
  · simp [hport]
  by_cases hbig : maxReq < name.length + payload.length + 40
  · simp [hport, hbig]
  by_cases hneg : reply.answer.1 < 0
  · simp [hport, hbig, hneg]
  by_cases hshort : reply.answer.1 < 8
  · simp [hport, hbig, hneg, hshort]
  by_cases hres : i64OfLe reply.answer.2 < 0 <;> simp [hport, hbig, hneg, hshort, hres]

theorem length_kept : reply.kept.length ≤ maxReq := by
  cases reply with
  | ok bytes => exact List.length_take_le _ _
  | error e => exact Nat.zero_le _

/-- A slice of the buffer is a part of the reply exactly if it ends no later than the reply. -/
theorem safe_slice_iff {n : Nat} {room : Option Nat} (hroom : ∀ r, room = some r → n ≤ r)
    (hlen : 8 ≤ reply.kept.length) :
    Safe reply room (slice n reply.answer.2) ↔ n + 8 ≤ reply.kept.length := by
  have hkept := length_kept reply
  have hout : reply.answer.2.length = maxReq := by
    simp only [Reply.answer, List.length_append, List.length_replicate]
    omega
  rw [slice, hout]
  split_ifs with hin
  · have hcount : ((reply.answer.2.drop 8).take n).length = n := by
      rw [List.length_take, List.length_drop]
      omega
    constructor
    · rintro ⟨-, hprefix⟩
      have := hprefix.length_le
      rw [hcount, List.length_drop] at this
      omega
    · intro h
      refine ⟨hroom, ?_⟩
      rw [show reply.answer.2 = reply.kept ++ List.replicate (maxReq - reply.kept.length)
        0 from rfl,
        List.drop_append_of_le_length hlen, List.take_append_of_le_length
          (by rw [List.length_drop]; omega)]
      exact List.take_prefix _ _
  · exact ⟨False.elim, fun h => hin (by omega)⟩

theorem kept_of_result {name payload : List UInt8} {n : Nat}
    (h : result port reply name payload = some n) : 8 ≤ reply.kept.length := by
  unfold result at h
  split_ifs at h with hcond
  push Not at hcond
  exact hcond.2.2.1

end Bridge

open Bridge

/-- Exactly when the operations of the bridge are safe, for every reply: `read` and `readlink` if
the reply has as many bytes as its result says, `write` and `readdir` if the result is no larger
than the buffer, `rename` if both names fit into its array. -/
theorem bridge_safe_iff (port ino offset : Nat) (reply : Reply) :
    (∀ room, Safe reply (some room) (read port ino offset reply room) ↔
      ∀ n, result port reply [] [] = some n → n ≤ room → n + 8 ≤ reply.kept.length) ∧
    (∀ buf : List UInt8, Safe reply (some buf.length) (write port ino offset reply buf) ↔
      ∀ n, result port reply [] buf = some n → n ≤ buf.length) ∧
    (∀ room, Safe reply (some room) (readdir port ino offset reply) ↔
      ∀ n, result port reply [] [] = some n → n ≤ room) ∧
    (Safe reply none (readlink port ino reply) ↔
      ∀ n, result port reply [] [] = some n → n + 8 ≤ reply.kept.length) ∧
    ∀ newParent oldName newName,
      Safe reply none (rename port ino reply oldName newParent newName) ↔
        oldName.length + 1 + newName.length ≤ renamePayload := by
  have hcount (room : Nat) (name payload : List UInt8) (msg : String) (op len : Nat) :
      Safe reply (some room) (call port ino offset reply op len name payload msg fun n _ =>
        .ok n []) ↔
        ∀ n, result port reply name payload = some n → n ≤ room := by
    rw [call_eq]
    cases result port reply name payload with
    | none => simp [Safe]
    | some n => simp [Safe]
  refine ⟨fun room => ?_, fun buf => hcount _ _ _ _ _ _, fun room => hcount _ _ _ _ _ _, ?_, ?_⟩
  · unfold Bridge.read
    rw [call_eq]
    cases hres : result port reply [] [] with
    | none => simp [Safe]
    | some n =>
      simp only [Option.some.injEq, forall_eq']
      split_ifs with hroom
      · exact ⟨fun _ hle => absurd hle (by omega), fun _ => trivial⟩
      · rw [safe_slice_iff reply (by simpa using hroom) (kept_of_result port reply hres)]
        exact ⟨fun h _ => h, fun h => h (by omega)⟩
  · rw [readlink, call_eq]
    cases hres : result port reply [] [] with
    | none => simp [Safe]
    | some n =>
      simp only [Option.some.injEq, forall_eq']
      exact safe_slice_iff reply nofun (kept_of_result port reply hres)
  · intro newParent oldName newName
    rw [rename]
    split_ifs with hbig
    · exact ⟨False.elim, fun h => by omega⟩
    · rw [call_eq]
      refine ⟨fun _ => by omega, fun _ => ?_⟩
      cases result port reply (oldName ++ 0 :: newName) [] with
      | none => trivial
      | some n => exact ⟨nofun, List.nil_prefix⟩

/-- A reply of eight bytes that tells of 5000 bytes: `readlink` indexes out of bounds, and so does
`read` with a buffer for them, while `write` of one byte reports 5000. A reply that tells of one
byte and has none gives the caller of `read` a byte that was not sent. -/
theorem bridge_trusts_result :
    let long : Reply := .ok [0x88, 0x13, 0, 0, 0, 0, 0, 0]
    let short : Reply := .ok [1, 0, 0, 0, 0, 0, 0, 0]
    readlink 1 2 long = .panic ∧ read 1 2 0 long 5000 = .panic ∧
    write 1 2 0 long [7] = .ok 5000 [] ∧ read 1 2 0 short 1 = .ok 1 [0] ∧
    rename 1 2 long (List.replicate 2000 97) 3 (List.replicate 2016 98) = .panic := by
  decide +kernel

end Rynex.Fs
