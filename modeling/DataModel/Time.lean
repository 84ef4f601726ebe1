/-!
Times and durations in seconds. A sum is written with a decimal point as soon as one of its parts
is, even if it is whole.
-/
namespace DataModel

structure Time where
  seconds : Rat
  hasPoint : Bool
  deriving DecidableEq, Inhabited

namespace Time

def zero : Time := ⟨0, false⟩

def after (t delay : Time) : Time := ⟨t.seconds + delay.seconds, t.hasPoint || delay.hasPoint⟩

/-- The delay of calls, and the time between two scans. -/
def halfSecond : Time := ⟨1 / 2, true⟩

end Time
end DataModel
