/-! When the collector runs on its own. -/
namespace LazyHeap

structure Settings where
  /-- Candidates that have to be buffered before a round is due. -/
  threshold : Nat := 10000
  /-- Rounds start on their own. -/
  autoCollect : Bool := false
  /-- Room for memo entries in a new label. -/
  memoCapacity : Nat := 16
deriving DecidableEq

inductive SettingsError where
  | zeroThreshold
  | hugeMemo
  | installed
deriving DecidableEq

def SettingsError.message : SettingsError → String
  | .zeroThreshold => "collection threshold must be at least one candidate"
  | .hugeMemo => "memo capacity is unreasonably large"
  | .installed => "collector settings are already installed"

namespace Settings

def largestMemoCapacity : Nat := 0x1000000

/-- The defaults, with what is given put in their place. -/
def ofOptions (threshold : Option Nat) (autoCollect : Option Bool) (memoCapacity : Option Nat) :
    Settings :=
  let base : Settings := {}
  { threshold := threshold.getD base.threshold
    autoCollect := autoCollect.getD base.autoCollect
    memoCapacity := memoCapacity.getD base.memoCapacity }

def validate (s : Settings) : Except SettingsError Unit :=
  if s.threshold = 0 then .error .zeroThreshold
  else if largestMemoCapacity < s.memoCapacity then .error .hugeMemo
  else .ok ()

/-- A round is due once this many candidates are buffered. -/
def due (s : Settings) (candidates : Nat) : Bool := s.threshold ≤ candidates

end Settings

end LazyHeap
