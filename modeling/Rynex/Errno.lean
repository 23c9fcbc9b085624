import Mathlib

/-! The error numbers of `task.rs` that the modelled calls return, negated. -/

namespace Rynex.Errno

def eperm : Int := 1
def esrch : Int := 3
def eintr : Int := 4
def ebadf : Int := 9
def echild : Int := 10
def eagain : Int := 11
def enomem : Int := 12
def efault : Int := 14
def eexist : Int := 17
def enodev : Int := 19
def einval : Int := 22
def emfile : Int := 24
def emsgsize : Int := 90
def etimedout : Int := 110

end Rynex.Errno
