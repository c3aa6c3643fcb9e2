import LazyHeap.Reference

/-!
Chains of labels. A frozen label forwards to a successor, a fork of it that is made when it is first needed;
from then on the successor is the one through which objects change.
-/
namespace LazyHeap

def Memo.retain (m : Memo) : HeapM Unit :=
  m.entries.forM fun e => do
    retainWeak e.1
    LazyHeap.retain e.2

/-- A new label whose memo starts as this label's. Entries whose source has no owners any more are
dropped first: nobody can look them up. -/
def fork (c : CellId) : HeapM Handle := do
  let h ← get
  let (kept, dead) := (h.label c).memo.entries.partition fun e => (h.cell e.1).alive
  updateCell c (·.mapLabel fun l => { l with memo := ⟨kept⟩ })
  (Memo.mk kept).retain
  settle (Memo.mk dead).tasks
  newLabel (.ofMemo ⟨kept⟩)

/-- A new label with the same memo, whatever became of the sources. -/
def copyLabel (c : CellId) : HeapM Handle := do
  let memo := ((← get).label c).memo
  memo.retain
  newLabel (.ofMemo memo)

def initForward (c : CellId) (next : Handle) : HeapM Unit := do
  if ((← get).label c).forward = .empty then
    updateCell c (·.mapLabel fun l => { l with forward := next })
  else next.drop

namespace Handle

/-- Goes along a chain, from a handle that is given up to one that is taken, and makes a forward that is missing. -/
def forwardLoop : Nat → Handle → HeapM Handle
  | 0, _ => throw .endless
  | n + 1, current =>
    match current with
    | .empty => return .empty
    | .root => return .root
    | .counted c => do
      retain c
      if !((← get).label c).frozen then
        release c
        return .counted c
      if ((← get).label c).forward = .empty then initForward c (← fork c)
      let next ← ((← get).label c).forward.clone
      release c
      release c
      forwardLoop n next

/-- The label through which objects change now: the first of the chain that is not frozen. A forward that
is missing is made. The root and the empty handle stand for themselves. -/
def getForward (l : Handle) : HeapM Handle := do
  fixSettings
  let current ← l.clone
  forwardLoop ((← get).size + 2) current

def existingLoop : Nat → Handle → HeapM Handle
  | 0, _ => throw .endless
  | n + 1, current => do
    match current.cell? with
    | none => return current
    | some c =>
      let borrowed ← current.clone
      let l := (← get).label c
      if l.frozen && l.forward ≠ .empty then
        let next ← l.forward.clone
        borrowed.drop
        current.drop
        existingLoop n next
      else
        borrowed.drop
        return current

def existingForward (l : Handle) : HeapM Handle := do
  let current ← l.clone
  existingLoop ((← get).size + 2) current

end Handle

end LazyHeap
