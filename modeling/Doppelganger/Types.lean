import Mathlib.Data.Nat.Basic

/-! The types of `memory_hierarchy.h`: line addresses, the requests that go up and the
invalidations that go down the hierarchy, and the states of the MESI protocol. -/

namespace Doppelganger

/-- Addresses are plain 64-bit words. -/
abbrev Address := UInt64

/-- Requests from a lower to an upper level of the hierarchy. -/
inductive AccessType
  | GETS
  | GETX
  | PUTS
  | PUTX
deriving DecidableEq, Repr

/-- Requests from an upper to a lower level. -/
inductive InvType
  | INV
  | INVX
  | FWD
deriving DecidableEq, Repr

/-- Coherence states: invalid, shared and clean, exclusive and clean, exclusive and dirty. -/
inductive MESIState
  | I
  | S
  | E
  | M
deriving DecidableEq, Repr

/-- `isPow2` of `bithacks.h`. -/
def isPow2 (val : Nat) : Bool := val != 0 && (val &&& (val - 1)) == 0

theorem isPow2_pos {val : Nat} (h : isPow2 val = true) : 0 < val := by
  simp [isPow2] at h
  omega

end Doppelganger
