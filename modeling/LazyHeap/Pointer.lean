import LazyHeap.Kind

/-!
Pointers. A pointer has a target and a handle to the label that resolves it; an owning pointer counts
as an owner of its target, a weak one does not, and both own their label.
-/
namespace LazyHeap

/-- Cells are numbered in the order in which they were allocated, and a number is never used again. -/
abbrev CellId := Nat

/-- The cell of the root label, which is there from the start and never goes away. -/
def rootCell : CellId := 0

/-- A handle to a label. Handles to the root are not counted, handles to any other label own one count. -/
inductive Handle where
  | empty
  | root
  | counted (label : CellId)
deriving DecidableEq

namespace Handle

def counted? : Handle → Option CellId
  | .counted c => some c
  | _ => none

/-- The cell of the label, the root's included. -/
def cell? : Handle → Option CellId
  | .empty => none
  | .root => some rootCell
  | .counted c => some c

end Handle

/-- An owning pointer: it owns one count of its target and its label handle. -/
structure Pointer where
  target : Option CellId
  label : Handle
deriving DecidableEq

/-- A weak pointer: it keeps its target readable, but not alive, and owns its label handle. -/
structure WeakPointer where
  target : Option CellId
  label : Handle
deriving DecidableEq

def Pointer.nil : Pointer := ⟨none, .root⟩

def WeakPointer.nil : WeakPointer := ⟨none, .root⟩

inductive Link where
  | owned (pointer : Pointer)
  | weak (pointer : WeakPointer)
  | label (handle : Handle)
deriving DecidableEq

end LazyHeap
