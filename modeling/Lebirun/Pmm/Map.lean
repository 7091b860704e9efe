import Mathlib

namespace Lebirun.Pmm
set_option autoImplicit true

abbrev pageSize : Nat := 4096

structure Region where
  base : Nat
  length : Nat
  deriving DecidableEq, Repr

def Region.limit (r : Region) : Nat := r.base + r.length

/-- What `init_mem_map` and `pfa_init` leave fixed: the usable and the reserved memory and the
ranges of frames the allocator treats in a way of their own. -/
structure MemMap where
  regions : List Region
  reserved : List (Nat × Nat)
  totalPagesManaged : Nat
  kernelReservedFrames : Nat
  coldLowStartFrame : Nat
  coldLowEndFrame : Nat
  kernelReclaimLo : Nat
  kernelReclaimHi : Nat

def MemMap.frameIsUsable (m : MemMap) (frame : Nat) : Bool :=
  m.regions.any fun r =>
    r.base ≤ frame * pageSize ∧ frame * pageSize + pageSize ≤ r.limit

def MemMap.frameIsReserved (m : MemMap) (frame : Nat) : Bool :=
  m.reserved.any fun r => r.1 ≤ frame * pageSize ∧ frame * pageSize < r.2

/-- The checks at the head of `pfa_free`. -/
def MemMap.freeable (m : MemMap) (frame : Nat) : Bool :=
  frame < m.totalPagesManaged ∧
    ¬(frame < m.kernelReservedFrames ∧
      (frame < m.coldLowStartFrame ∨ m.coldLowEndFrame ≤ frame) ∧
      (frame < m.kernelReclaimLo ∨ m.kernelReclaimHi ≤ frame)) ∧
    m.frameIsUsable frame ∧ ¬m.frameIsReserved frame

end Lebirun.Pmm
