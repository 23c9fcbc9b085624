import Rynex.Errno

/-! Pipes and descriptor tables: `sys_pipe`, `sys_dup2`, `sys_fcntl`, `sys_close`, the pipe
branches of `sys_read` and `sys_write`, and what `sys_fork`, `exit_task` and `kill_task_zombie` do
to descriptors. -/

namespace Rynex.Pipe

open Rynex.Errno

def maxTasks : Nat := 64
def maxInodes : Nat := 256
def maxFdsPerTask : Nat := 64
def pipeMax : Nat := 8
def pipeInodeBase : Nat := maxInodes - pipeMax * 2
def pipeBuf : Nat := 4096

structure PipeSlot where
  buf : Nat → UInt8
  rpos : Nat
  wpos : Nat
  nread : Nat
  nwrite : Nat
  used : Bool

def PipeSlot.empty : PipeSlot := ⟨fun _ => 0, 0, 0, 0, 0, false⟩

structure FileDesc where
  inodeIdx : Nat
  pos : Nat
  used : Bool
  flags : BitVec 32
deriving DecidableEq

def FileDesc.empty : FileDesc := ⟨0, 0, false, 0⟩

/-- The states of a task that matter here. A pid is in use unless its slot is empty. -/
inductive Life where
  | empty
  | live
  | zombie
deriving DecidableEq, Repr

structure Sys where
  pipes : Nat → PipeSlot
  tables : Nat → Nat → FileDesc
  tasks : Nat → Life

/-- `pipe_idx_of`: the pipe of a pseudo-inode. -/
def pipeIdxOf (inode : Nat) : Option Nat :=
  if pipeInodeBase ≤ inode ∧ inode < maxInodes then some ((inode - pipeInodeBase) / 2) else none

def pipeIsWriteEnd (inode : Nat) : Bool := inode % 2 = 1

/-- `u32::saturating_add(1)`. -/
def satSucc (n : Nat) : Nat := min (n + 1) (2 ^ 32 - 1)

def pipeIncRefs (pipes : Nat → PipeSlot) (inode : Nat) : Nat → PipeSlot :=
  match pipeIdxOf inode with
  | none => pipes
  | some p =>
    let slot := pipes p
    Function.update pipes p
      (if pipeIsWriteEnd inode then { slot with nwrite := satSucc slot.nwrite }
      else { slot with nread := satSucc slot.nread })

/-- One reference to an end less; the slot is free once both ends are closed. -/
def PipeSlot.release (slot : PipeSlot) (write : Bool) : PipeSlot :=
  let slot := if write then { slot with nwrite := slot.nwrite - 1 }
    else { slot with nread := slot.nread - 1 }
  if slot.nread = 0 ∧ slot.nwrite = 0 then { slot with used := false, rpos := 0, wpos := 0 }
  else slot

def pipeClose (pipes : Nat → PipeSlot) (inode : Nat) : Nat → PipeSlot :=
  match pipeIdxOf inode with
  | none => pipes
  | some p => Function.update pipes p ((pipes p).release (pipeIsWriteEnd inode))

namespace Sys

/-- No pipe is in use and no descriptor is open. -/
def boot (tasks : Nat → Life) : Sys where
  pipes := fun _ => .empty
  tables := fun _ _ => .empty
  tasks := tasks

def setFd (s : Sys) (t fd : Nat) (d : FileDesc) : Sys :=
  { s with tables := Function.update s.tables t (Function.update (s.tables t) fd d) }

def setTask (s : Sys) (t : Nat) (l : Life) : Sys :=
  { s with tasks := Function.update s.tasks t l }

/-- The lowest descriptor of task `t` from `start` on that is not open. -/
def freeFd (s : Sys) (t start : Nat) : Option Nat :=
  (List.range' start (maxFdsPerTask - start)).find? fun fd => !(s.tables t fd).used

def allocFd (s : Sys) (t inode : Nat) (flags : BitVec 32) : Option (Nat × Sys) :=
  (s.freeFd t 0).map fun fd => (fd, s.setFd t fd ⟨inode, 0, true, flags⟩)

def isOpen (s : Sys) (t fd : Nat) : Bool := fd < maxFdsPerTask && (s.tables t fd).used

def closeFd (s : Sys) (t fd : Nat) : Bool × Sys :=
  if s.isOpen t fd then
    let d := s.tables t fd
    (true, { s with pipes := pipeClose s.pipes d.inodeIdx }.setFd t fd { d with used := false })
  else (false, s)

def setPipe (s : Sys) (p : Nat) (slot : PipeSlot) : Sys :=
  { s with pipes := Function.update s.pipes p slot }

/-- `sys_pipe`. On success the two descriptors are returned too. -/
def sysPipe (s : Sys) (t : Nat) (null : Bool) : Int × List Nat × Sys :=
  if null then (-efault, [], s)
  else
    match (List.range pipeMax).find? fun p => !(s.pipes p).used with
    | none => (-emfile, [], s)
    | some p =>
      let rInode := pipeInodeBase + p * 2
      let wInode := rInode + 1
      let s := s.setPipe p { s.pipes p with
        rpos := 0, wpos := 0, nread := 1, nwrite := 1, used := true }
      match s.allocFd t rInode 0 with
      | none => (-emfile, [], s.setPipe p { s.pipes p with used := false })
      | some (r, s) =>
        match s.allocFd t wInode 0 with
        | none =>
          let s := (s.closeFd t r).2
          (-emfile, [], s.setPipe p { s.pipes p with used := false })
        | some (w, s) => (0, [r, w], s)

/-- The copy of a descriptor that `sys_dup2` and `F_DUPFD_CLOEXEC` make, with one more reference
to a pipe end. -/
def copyFd (s : Sys) (t oldfd newfd : Nat) : Sys :=
  let d := { s.tables t oldfd with pos := 0 }
  { s with pipes := pipeIncRefs s.pipes d.inodeIdx }.setFd t newfd d

/-- `sys_dup2`. `sys_dup` is this with both descriptors the same. -/
def sysDup2 (s : Sys) (t oldfd newfd : Nat) : Int × Sys :=
  if !s.isOpen t oldfd then (-ebadf, s)
  else if oldfd = newfd then (newfd, s)
  else if newfd < maxFdsPerTask then (newfd, s.copyFd t oldfd newfd)
  else (newfd, s)

def sysFcntl (s : Sys) (t fd : Nat) (cmd : Int) (arg : BitVec 64) : Int × Sys :=
  match cmd with
  | 0 => s.sysDup2 t fd fd
  | 1 => (0, s)
  | 2 => (0, s)
  | 3 => if s.isOpen t fd then ((s.tables t fd).flags.toInt, s) else (-ebadf, s)
  | 4 =>
    if s.isOpen t fd then
      let d := s.tables t fd
      (0, s.setFd t fd
        { d with flags := (d.flags &&& ~~~0x3FFF#32) ||| (arg.setWidth 32 &&& 0x3FFF#32) })
    else (-ebadf, s)
  | 5 => (0, s)
  | 6 => (0, s)
  | 7 => (0, s)
  | 1030 =>
    match s.freeFd t arg.toNat with
    | none => (-emfile, s)
    | some newfd => if s.isOpen t fd then (newfd, s.copyFd t fd newfd) else (-ebadf, s)
  | _ => (-einval, s)

/-- `sys_fork` as far as descriptors go: the child's table is filled before the kernel stack and
the page table are allocated, which may fail. -/
def sysFork (s : Sys) (t : Nat) (stack pml4 : Bool) : Int × Sys :=
  match (List.range' 1 (maxTasks - 1)).find? fun c => s.tasks c = .empty with
  | none => (-enomem, s)
  | some c =>
    let table := s.tables t
    let pipes := (List.range maxFdsPerTask).foldl
      (fun pipes fd => if (table fd).used then pipeIncRefs pipes (table fd).inodeIdx else pipes)
        s.pipes
    let s := { s with pipes := pipes, tables := Function.update s.tables c table }
    if !stack || !pml4 then (-enomem, s) else (c, s.setTask c .live)

/-- `exit_task` closes every descriptor. -/
def exitTask (s : Sys) (t : Nat) : Sys :=
  ((List.range maxFdsPerTask).foldl (fun s fd => (s.closeFd t fd).2) s).setTask t .zombie

/-- `kill_task_zombie`, which a signal ends in unless it is held, ignored or handled. -/
def killTaskZombie (s : Sys) (t : Nat) : Sys :=
  if t = 0 ∨ s.tasks t = .empty then s else s.setTask t .zombie

/-- `sys_waitpid` when it finds the zombie. -/
def reap (s : Sys) (t : Nat) : Sys :=
  if s.tasks t = .zombie then s.setTask t .empty else s

end Sys

/-- The calls of a task, with the answers of what they allocate. -/
inductive Call where
  | pipe (null : Bool)
  | dup (fd : Nat)
  | dup2 (oldfd newfd : Nat)
  | fcntl (fd : Nat) (cmd : Int) (arg : BitVec 64)
  | fork (stack pml4 : Bool)
  | close (fd : Nat)
  | exit

inductive Event where
  | call (t : Nat) (c : Call)
  | kill (t : Nat)
  | wait (t : Nat)

namespace Sys

def call (s : Sys) (t : Nat) : Call → Sys
  | .pipe null => (s.sysPipe t null).2.2
  | .dup fd => (s.sysDup2 t fd fd).2
  | .dup2 oldfd newfd => (s.sysDup2 t oldfd newfd).2
  | .fcntl fd cmd arg => (s.sysFcntl t fd cmd arg).2
  | .fork stack pml4 => (s.sysFork t stack pml4).2
  | .close fd => (s.closeFd t fd).2
  | .exit => s.exitTask t

/-- One event. Calls are made by tasks other than the idle task, with id 0. -/
def step (s : Sys) : Event → Sys
  | .call t c => if t = 0 ∨ maxTasks ≤ t ∨ s.tasks t = .empty then s else s.call t c
  | .kill t => if maxTasks ≤ t then s else s.killTaskZombie t
  | .wait t => if maxTasks ≤ t then s else s.reap t

end Sys

/-! ### Reading and writing -/

/-- How a read or a write on a descriptor ends. A descriptor of a file is handed to the VFS. -/
inductive Io where
  | ret (value : Int) (bytes : List UInt8)
  | blocks
  | file
deriving DecidableEq, Repr

/-- One byte of `sys_write`: it is dropped when the buffer is at its end. -/
def PipeSlot.writeByte (slot : PipeSlot) (c : UInt8) : PipeSlot :=
  if slot.wpos < pipeBuf then
    { slot with buf := Function.update slot.buf slot.wpos c, wpos := slot.wpos + 1 }
  else slot

def PipeSlot.content (slot : PipeSlot) : List UInt8 :=
  (List.range' slot.rpos (slot.wpos - slot.rpos)).map slot.buf

/-- The copy of `sys_read` of `count` bytes at most, and the reset of an emptied buffer. -/
def PipeSlot.readBytes (slot : PipeSlot) (count : Nat) : List UInt8 × PipeSlot :=
  let toRead := min count (slot.wpos - slot.rpos)
  let rpos := slot.rpos + toRead
  ((List.range' slot.rpos toRead).map slot.buf,
    if rpos = slot.wpos then { slot with rpos := 0, wpos := 0 } else { slot with rpos := rpos })

namespace Sys

/-- `sys_write`. `valid` is the answer of `user_range_valid`; a null buffer has no bytes. -/
def sysWrite (s : Sys) (t fd : Nat) (bytes : List UInt8) (valid : Bool) : Io × Sys :=
  if bytes.isEmpty then (.ret 0 [], s)
  else if !valid then (.ret (-efault) [], s)
  else if t = 0 || !s.isOpen t fd then (.ret (-ebadf) [], s)
  else
    let inode := (s.tables t fd).inodeIdx
    match pipeIdxOf inode with
    | none => (.file, s)
    | some p =>
      if pipeIsWriteEnd inode then
        (.ret bytes.length [], s.setPipe p (bytes.foldl PipeSlot.writeByte (s.pipes p)))
      else (.ret (-ebadf) [], s)

/-- `sys_read`, up to the point where it blocks; it then starts over when it is woken. -/
def sysRead (s : Sys) (t fd count : Nat) (valid : Bool) : Io × Sys :=
  if count = 0 then (.ret 0 [], s)
  else if !valid then (.ret (-efault) [], s)
  else if t = 0 || !s.isOpen t fd then (.ret (-ebadf) [], s)
  else
    let d := s.tables t fd
    match pipeIdxOf d.inodeIdx with
    | none => (.file, s)
    | some p =>
      if pipeIsWriteEnd d.inodeIdx then (.ret (-ebadf) [], s)
      else if (s.pipes p).rpos < (s.pipes p).wpos then
        let (bytes, slot) := (s.pipes p).readBytes count
        (.ret bytes.length bytes, s.setPipe p slot)
      else if d.flags &&& 0x800#32 ≠ 0 then (.ret (-eagain) [], s)
      else (.blocks, s)

end Sys

end Rynex.Pipe
