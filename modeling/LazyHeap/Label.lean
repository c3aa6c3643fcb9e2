import LazyHeap.Pointer

/-!
Labels. A label is a clone generation: its memo maps frozen objects to the copies that this
generation sees in their place. Entering a pair changes what is found for its source, and nothing else.
-/
namespace LazyHeap

/-- Pairs of a frozen object and its copy, in the order in which they were entered. The frozen object is
held weakly, the copy is owned. -/
structure Memo where
  entries : List (CellId × CellId)
deriving DecidableEq

namespace Memo

def empty : Memo := ⟨[]⟩

def get? (m : Memo) (source : CellId) : Option CellId :=
  (m.entries.find? (·.1 = source)).map (·.2)

def put (m : Memo) (source copy : CellId) : Memo := ⟨m.entries ++ [(source, copy)]⟩

def size (m : Memo) : Nat := m.entries.length

def copies (m : Memo) : List CellId := m.entries.map (·.2)

theorem get?_put_self {m : Memo} {source : CellId} (copy : CellId) (hm : m.get? source = none) :
    (m.put source copy).get? source = some copy := by
  have hf : m.entries.find? (·.1 = source) = none := Option.map_eq_none_iff.1 hm
  simp [get?, put, List.find?_append, hf]

theorem get?_put_of_ne (m : Memo) {source other : CellId} (copy : CellId) (hne : other ≠ source) :
    (m.put source copy).get? other = m.get? other := by
  simp [get?, put, List.find?_append, Ne.symm hne]

@[simp] theorem copies_put (m : Memo) (source copy : CellId) :
    (m.put source copy).copies = m.copies ++ [copy] := by
  simp [copies, put]

end Memo

structure Label where
  memo : Memo
  frozen : Bool
  /-- The memo gained entries since the label was made. -/
  written : Bool
  /-- The label that takes over once this one is frozen. -/
  forward : Handle
  /-- The memo is held for writing. -/
  locked : Bool
deriving DecidableEq

namespace Label

def ofMemo (memo : Memo) : Label :=
  { memo, frozen := false, written := 0 < memo.size, forward := .empty, locked := false }

def blank : Label := ofMemo .empty

def emptied (l : Label) : Label := { l with memo := .empty, forward := .empty }

end Label

end LazyHeap
