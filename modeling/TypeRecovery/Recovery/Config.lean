/-!
# Configuration of type recovery
-/

namespace TypeRecovery

/-- What a round of type recovery does. -/
structure Config where
  /-- Rounds that may change committed types before recovery gives up. -/
  maxRounds : UInt32 := 7
  /-- Whether merge points are left out until the frame has had a heritage pass. -/
  requireHeritageForMerges : Bool := true
  /-- Whether all returned values get one type. -/
  propagateAcrossReturns : Bool := true
  /-- Whether types of pointers into the frame are copied onto the frame. -/
  propagateSpacebase : Bool := true
  deriving DecidableEq, Repr, Inhabited

end TypeRecovery
