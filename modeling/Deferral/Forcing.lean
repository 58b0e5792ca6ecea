import Deferral.Store

/-!
# Forcing

What an operation needs to know about forcing the deferred values that it meets.
-/

namespace Deferral

/-- How the deferred values that an operation meets are forced. -/
structure Forcing where
  /-- Resolves a value at the depth of the operation. -/
  force : Value → Eval Value
  /-- Bounds the two loops that values alone do not bound: how many elements a sequence is followed
  for when all of it is asked for, and how deep one is shown that begins with a sequence, which
  begins with a sequence, and so on. -/
  patience : Nat

end Deferral
