import LazyHeap.Release

/-!
Taking and giving up references: counts, label handles, pointers and weak pointers. Whoever takes a
reference owns one count, and gives up exactly that count with `drop`.
-/
namespace LazyHeap

/-- The root label, and with it the settings, are fixed at first use. -/
def fixSettings : HeapM Unit := modify Heap.fixSettings

def readCell (c : CellId) : HeapM Cell := return (← get).cell c

def updateCell (c : CellId) (f : Cell → Cell) : HeapM Unit := modify (·.update c f)

def retain (c : CellId) : HeapM Unit := updateCell c fun x => { x with shared := x.shared + 1 }

def retainWeak (c : CellId) : HeapM Unit := updateCell c fun x => { x with weak := x.weak + 1 }

/-- Takes an owning count of a cell that is still alive, and says whether it did. -/
def retainIfAlive (c : CellId) : HeapM Bool := do
  if (← readCell c).alive then
    retain c
    return true
  else return false

def release (c : CellId) : HeapM Unit := settle [.release c]

def unpin (c : CellId) : HeapM Unit := settle [.unpin c]

/-- Gives up an owning count where another one is known to stay. Nothing becomes a candidate. -/
def releaseRetained (c : CellId) : HeapM Unit := do
  let x ← readCell c
  match x.shared with
  | n + 2 => updateCell c fun x => { x with shared := n + 1 }
  | _ => throw (.retainedLast x.kind)

/-- Puts a value into a new cell, of which the caller is the only owner. The cell holds its label weakly. -/
def allocate (body : Body) (label : Handle) : HeapM CellId := do
  if let some l := label.counted? then retainWeak l
  let c := (← get).size
  modify (·.push (Cell.fresh body label.counted?))
  return c

def newSerial : HeapM Nat := do
  let n := (← get).nextSerial
  modify fun h => { h with nextSerial := h.nextSerial + 1 }
  return n

namespace Handle

def clone (l : Handle) : HeapM Handle := do
  if let some c := l.counted? then retain c
  return l

def drop (l : Handle) : HeapM Unit := settle l.tasks

/-- Lets a handle name another label. The new count is taken before the old one is given up; if both are
the same, the label was never in danger. -/
def repoint (old new : Handle) : HeapM Handle := do
  let next ← new.clone
  if old = next then
    if let some c := old.counted? then releaseRetained c
  else old.drop
  return next

end Handle

def newLabel (l : Label) : HeapM Handle := do
  let c ← allocate (.label l) .root
  return .counted c

def spawn : HeapM Handle := do
  fixSettings
  newLabel .blank

/-- From here on, clones of pointers are bound to the label. -/
def enterScope (l : Handle) : HeapM Unit := do
  let own ← l.clone
  modify fun h => { h with scopes := own :: h.scopes }

def leaveScope : HeapM Unit := do
  match (← get).scopes with
  | [] => return
  | own :: rest =>
    modify fun h => { h with scopes := rest }
    own.drop

namespace Pointer

/-- The pointer to nothing. It carries the root label, so it fixes the settings. -/
def makeNil : HeapM Pointer := do
  fixSettings
  return .nil

def make (o : CellId) (l : Handle) : HeapM Pointer := do
  retain o
  return ⟨some o, ← l.clone⟩

def cloneInPlace (p : Pointer) : HeapM Pointer := do
  match p.target with
  | some o => make o p.label
  | none => return ⟨none, ← p.label.clone⟩

/-- A second pointer with the same target. Inside a scope it gets the scope's label, unless it is nil. -/
def clone (p : Pointer) : HeapM Pointer := do
  match p.target, (← get).scopes with
  | some o, scope :: _ =>
    let l ← scope.clone
    let q ← make o l
    l.drop
    return q
  | _, _ => p.cloneInPlace

def drop (p : Pointer) : HeapM Unit := settle p.tasks

/-- Puts `next`, of which the caller owns a count, in the place of the old target. -/
def adopt (old : Option CellId) (next : CellId) : HeapM Unit := do
  match old with
  | none => return
  | some o => if o = next then releaseRetained o else release o

def assign (p other : Pointer) : HeapM Pointer := do
  let label ← p.label.repoint other.label
  match other.target with
  | some o =>
    retain o
    adopt p.target o
  | none => if let some o := p.target then release o
  return ⟨other.target, label⟩

end Pointer

namespace WeakPointer

def makeNil : HeapM WeakPointer := do
  fixSettings
  return .nil

def make (target : Option CellId) (l : Handle) : HeapM WeakPointer := do
  if let some o := target then retainWeak o
  return ⟨target, ← l.clone⟩

def ofPointer (p : Pointer) : HeapM WeakPointer := make p.target p.label

/-- A second weak pointer with the same target. Inside a scope it gets the scope's label, unless it is
nil. -/
def clone (w : WeakPointer) : HeapM WeakPointer := do
  match w.target, (← get).scopes with
  | some _, scope :: _ =>
    let l ← scope.clone
    let v ← make w.target l
    l.drop
    return v
  | _, _ => make w.target w.label

def drop (w : WeakPointer) : HeapM Unit := settle w.tasks

def retarget (old new : Option CellId) : HeapM Unit := do
  if let some o := new then retainWeak o
  if let some o := old then unpin o

def assign (w : WeakPointer) (target : Option CellId) (l : Handle) : HeapM WeakPointer := do
  let label ← w.label.repoint l
  retarget w.target target
  return ⟨target, label⟩

end WeakPointer

def Link.clone : Link → HeapM Link
  | .owned p => return .owned (← p.clone)
  | .weak w => return .weak (← w.clone)
  | .label l => return .label (← l.clone)

def Link.drop (link : Link) : HeapM Unit := settle link.tasks

/-- A borrow is one more owning count of an object: it keeps the object, whatever happens to the pointer
through which it was found. -/
def borrow (o : CellId) : HeapM Unit := retain o

def endBorrow (o : CellId) : HeapM Unit := release o

/-! ### Fields -/

/-- Takes a field's lock and returns what the field holds. Whoever takes a lock twice waits for ever. -/
def lockField (c : CellId) (name : FieldName) : HeapM (List Link) := do
  match (← readCell c).object?.bind (·.field? name) with
  | none => return []
  | some field =>
    if field.locked then throw .selfWait
    updateCell c (·.mapObject (·.updateField name fun f => { f with locked := true }))
    return field.links

def setField (c : CellId) (name : FieldName) (links : List Link) : HeapM Unit :=
  updateCell c (·.mapObject (·.updateField name fun f => { f with links }))

def unlockField (c : CellId) (name : FieldName) : HeapM Unit :=
  updateCell c (·.mapObject (·.updateField name fun f => { f with locked := false }))

/-- Works on each link of a field under its lock. What the field holds is in hand meanwhile. -/
def visitField (c : CellId) (visit : Link → HeapM (Link × Option CellId)) (name : FieldName) :
    HeapM (List CellId) := do
  let links ← lockField c name
  setField c name []
  let visited ← links.mapM visit
  setField c name (visited.map (·.1))
  unlockField c name
  return visited.filterMap (·.2)

/-- Works on the fields of an object in order, and returns what the visits found. -/
def visitFields (c : CellId) (wanted : FieldName → Bool)
    (visit : Link → HeapM (Link × Option CellId)) : HeapM (List CellId) := do
  let names := ((← readCell c).object?.map fun o => o.fields.map (·.name)).getD []
  return (← (names.filter wanted).mapM (visitField c visit)).flatten

end LazyHeap
