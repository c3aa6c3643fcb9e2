import LazyHeap.Session.Basic

/-! What a session does with owning pointers: making, copying, casting, assigning and binding them. -/
namespace LazyHeap

def newObject (kind : ObjectKind) (value : Int) (l : Handle) : HeapM (Nat × Pointer) := do
  fixSettings
  let serial ← newSerial
  let object := match kind with
    | .node => Object.node serial value
    | .leaf => Object.leaf serial value
    | .state => Object.state serial value
  let o ← allocate (.object object) l
  return (serial, ⟨some o, ← l.clone⟩)

namespace Attempt

def needInt (args : Args) : Attempt Int := do
  match ← need "v" args.value with
  | .int v => return v
  | _ => throw (.missing "v")

/-- The label in which something is to be made, if the request names one. -/
def withinLabel (args : Args) : Attempt (Option Handle) := do
  match args.within with
  | none => return none
  | some name =>
    let l ← label name
    return some (← heap l.clone)

def new (args : Args) : Attempt Reply := do
  let v ← needInt args
  let within ← withinLabel args
  let kind ← cleaning (Handle.drop (within.getD .empty)) (objectKind args.type)
  let (serial, p) ← heap (newObject kind v (within.getD .root))
  heap (Handle.drop (within.getD .empty))
  keepSlot args ⟨.only kind, p⟩
  return .ofNat serial

/-- A node that is recycled for a label before it has a cell: its pointers are bound to the label. -/
def newRecycled (args : Args) : Attempt Reply := do
  let l ← label (← need "label" args.label)
  let own ← heap l.clone
  let (_, s) ← cleaning own.drop (slotA args)
  let p ← cleaning own.drop (nodePointer s)
  let v ← cleaning (do p.drop; own.drop) (needInt args)
  let serial ← heap newSerial
  let back ← heap (WeakPointer.ofPointer p)
  let (next, _) ← heap ((Link.owned p).rebind own)
  let (back, _) ← heap ((Link.weak back).rebind own)
  heap own.drop
  let object := ((Object.node serial v).updateField .next fun f => { f with links := [next] }).updateField
    .back fun f => { f with links := [back] }
  let o ← heap (allocate (.object object) .root)
  keepSlot args ⟨.only .node, ⟨some o, .root⟩⟩
  return .ofNat serial

def make (args : Args) : Attempt Reply := do
  match ← need "type" args.type with
  | "node" => return .flag false
  | "leaf" =>
    let (_, p) ← heap (newObject .leaf 0 .root)
    keepSlot args ⟨.only .leaf, p⟩
    return .flag true
  | _ => throw .badType

/-- A pointer of another type with the same target and label, if the target allows it. -/
def castTo (t : Pointee) (p : Pointer) : Attempt (Option Pointer) := do
  match p.target with
  | none => return none
  | some o =>
    match (← cell o).kind with
    | .object k => if t.admits k then return some (← heap p.cloneInPlace) else return none
    | .label => return none

def keepCast (args : Args) (t : Pointee) (p : Option Pointer) : Attempt Reply := do
  match p with
  | some p =>
    keepSlot args ⟨t, p⟩
    return .flag true
  | none => return .flag false

def cast (args : Args) : Attempt Reply := do
  let (_, s) ← slotA args
  let t ← pointee (← need "type" args.type)
  keepCast args t (← castTo t s.pointer)

def castOptional (args : Args) : Attempt Reply := do
  let s ← match args.a with
    | some name => do pure (some (← slot name))
    | none => pure none
  let t ← pointee (← need "type" args.type)
  match s with
  | some s => keepCast args t (← castTo t s.pointer)
  | none => return .flag false

/-- The two operands of an assignment, which must be different slots. -/
def assignees (args : Args) : Attempt (String × Slot × Slot) := do
  let dest ← need "to" args.dest
  let a ← need "a" args.a
  if dest = a then throw .sameSlot
  let target ← slot dest
  let source ← slot a
  return (dest, target, source)

def assign (args : Args) : Attempt Reply := do
  let (dest, target, source) ← assignees args
  if target.pointee ≠ source.pointee then throw .typeMismatch
  setSlot dest { target with pointer := ← heap (target.pointer.assign source.pointer) }
  return .nothing

/-- Assigns a pointer of any type. A target of the wrong type changes nothing, and nil always fits. -/
def assignFrom (args : Args) : Attempt Reply := do
  let (dest, target, source) ← assignees args
  match ← castTo target.pointee source.pointer with
  | some cast =>
    setSlot dest { target with pointer := ← heap (target.pointer.assign cast) }
    heap cast.drop
    return .flag true
  | none =>
    if source.pointer.target.isSome then return .flag false
    if let some o := target.pointer.target then heap (LazyHeap.release o)
    let l ← heap (target.pointer.label.repoint source.pointer.label)
    setSlot dest { target with pointer := ⟨none, l⟩ }
    return .flag true

def take (args : Args) : Attempt Reply := do
  let (name, s) ← slotA args
  setSlot name { s with pointer := ← heap Pointer.makeNil }
  keepSlot args s
  return .nothing

/-- Moves the pointer of one slot into another, whose old pointer goes to a third. -/
def replace (args : Args) : Attempt Reply := do
  let (name, s) ← slotA args
  let other ← need "with" args.swapWith
  let next ← slot other
  if other = name then throw .sameSlot
  if s.pointee ≠ next.pointee then throw .typeMismatch
  modify fun t => { t with slots := t.slots.erase other }
  setSlot name next
  keepSlot args s
  return .nothing

def bindTo (args : Args) : Attempt Reply := do
  let (_, s) ← slotA args
  match s.pointer.target with
  | none => throw .nil
  | some o =>
    let l ← label (← need "label" args.label)
    keepSlot args ⟨s.pointee, ← heap (Pointer.make o l)⟩
    return .nothing

/-- Resolves the stored target of a slot under a label, whatever the slot's own label is. -/
def mapThrough (args : Args) (act : Handle → CellId → HeapM (Option CellId)) :
    Attempt Reply := do
  let l ← label (← need "label" args.label)
  let own ← heap l.clone
  let (s, o) ← cleaning own.drop do
    let (_, s) ← slotA args
    match s.pointer.target with
    | some o => return (s, o)
    | none => throw .nil
  match ← heap (act own o) with
  | none =>
    heap own.drop
    return .nothing
  | some found =>
    let serial ← serialOf found
    match args.dest with
    | some name => storeSlot name ⟨s.pointee, ⟨some found, own⟩⟩
    | none => heap (Pointer.drop ⟨some found, own⟩)
    return .ofNat serial

def pointers (args : Args) : PointerOp → Attempt Reply
  | .new => new args
  | .newRecycled => newRecycled args
  | .make => make args
  | .nil => do
    let t ← pointee (args.type.getD "node")
    keepSlot args ⟨t, ← heap Pointer.makeNil⟩
    return .nothing
  | .clone => do
    let (_, s) ← slotA args
    keepSlot args { s with pointer := ← heap s.pointer.clone }
    return .nothing
  | .erase => do
    let (_, s) ← slotA args
    if s.pointee = .any then throw .badType
    keepSlot args ⟨.any, ← heap s.pointer.cloneInPlace⟩
    return .nothing
  | .cast => cast args
  | .castOptional => castOptional args
  | .drop => do
    let (name, s) ← slotA args
    modify fun t => { t with slots := t.slots.erase name }
    heap s.pointer.drop
    return .nothing
  | .assign => assign args
  | .assignFrom => assignFrom args
  | .take => take args
  | .replace => replace args
  | .query => do
    let (_, s) ← slotA args
    return .flag s.pointer.target.isSome
  | .isFrozen => do
    let (_, s) ← slotA args
    match s.pointer.target with
    | some o => return .flag (← cell o).frozen
    | none => return .flag false
  | .sameTarget => do
    let (_, s) ← slotA args
    let t ← slot (← need "b" args.b)
    return .flag (s.pointer.target = t.pointer.target)
  | .count => do
    let (_, s) ← slotA args
    match s.pointer.target with
    | some o => return .ofNat (← cell o).shared
    | none => return .ofNat 0
  | .bind => bindTo args
  | .mapGet => mapThrough args fun l o => return some (← mapGet l o)
  | .mapPull => mapThrough args mapPull
  | .mapCopy => mapThrough args fun l o => return some (← mapCopy l o)

end Attempt

end LazyHeap
