import Mathlib.Data.BitVec

/-!
# Machine types and constants shared by the port and the core

The fixed-width types of `arch/cc.h` and the result codes of `lwip/err.h` that modelled functions
return. Unsigned 32-bit values are bit vectors, so that addition and subtraction wrap as in C and
`BitVec.toInt` is the cast to `s32_t`.
-/

namespace Lwip

/-- `u32_t`. -/
abbrev U32 := BitVec 32

/-- The result codes `err_t` of `lwip/err.h`. -/
inductive ErrT where
  | ok
  | mem
  | buf
  | timeout
  | rte
  | inprogress
  | val
  | wouldblock
  | use
  | isconn
  | abrt
  | rst
  | clsd
  | conn
  | arg
  | netif
  deriving DecidableEq, Repr

/-- `SYS_ARCH_TIMEOUT`, the return value of a wait that ended without its event. -/
def sysArchTimeout : U32 := 0xffffffff

end Lwip
