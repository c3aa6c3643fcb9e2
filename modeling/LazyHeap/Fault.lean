import LazyHeap.Kind

/-! What stops a run for good: a count that broke, a pointer that lost its owner, or work that cannot end. -/
namespace LazyHeap

/-- The causes that end a run. The last two never say a word: such a run waits or works for ever. -/
inductive Fault where
  | sharedUnderflow (kind : Kind)
  | weakUnderflow (kind : Kind)
  | reachableUnderflow (kind : Kind)
  | retainedLast (kind : Kind)
  | destroyedTwice (kind : Kind)
  | ownerless
  | emptyHandle
  | memoLoop
  | selfWait
  | endless
deriving DecidableEq

def Fault.message : Fault → String
  | .sharedUnderflow k => "shared count underflow on " ++ k.name
  | .weakUnderflow k => "weak count underflow on " ++ k.name
  | .reachableUnderflow k => "reachable count underflow on " ++ k.name
  | .retainedLast k => "retained decrement released the last reference to " ++ k.name
  | .destroyedTwice k => k.name ++ " destroyed twice"
  | .ownerless => "resolved <ptr> after its last owner was gone"
  | .emptyHandle => "dereferenced an empty label handle"
  | .memoLoop => "memo chain from <ptr> does not terminate"
  | .selfWait => "waits for a lock it holds itself"
  | .endless => "work that does not end"

end LazyHeap
