/-! The kinds of things a heap holds, and the kinds of objects a pointer may be declared to point to. -/
namespace LazyHeap

/-- The shapes an object can have. They differ in their fields and in how they are recycled and finished. -/
inductive ObjectKind where
  | node
  | leaf
  | state
deriving DecidableEq

inductive Kind where
  | object (kind : ObjectKind)
  | label
deriving DecidableEq

inductive Pointee where
  | only (kind : ObjectKind)
  | any
deriving DecidableEq

def Kind.name : Kind → String
  | .object .node => "Node"
  | .object .leaf => "Leaf"
  | .object .state => "State"
  | .label => "Label"

def Pointee.admits : Pointee → ObjectKind → Bool
  | .any, _ => true
  | .only k, kind => k = kind

end LazyHeap
