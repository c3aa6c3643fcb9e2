import LazyHeap.Session.Pointers

/-! What a session does through pointers: resolving them, and reading, linking and following fields. -/
namespace LazyHeap

/-- How a pointer is resolved: for change, for reading, or not at all. -/
inductive Mode where
  | pull
  | read
  | get
deriving DecidableEq

def Mode.ofName? : String → Option Mode
  | "pull" => some .pull
  | "read" => some .read
  | "get" => some .get
  | _ => none

def Pointer.resolveBy (p : Pointer) : Mode → HeapM (Pointer × Option CellId)
  | .pull => p.pull
  | .read => p.resolve
  | .get => return (p, p.target)

def FieldName.ofText? (s : String) : Option FieldName :=
  [FieldName.next, .alt, .kids, .any, .back, .ctx, .pin, .lazy].find? (·.text = s)

/-- What is to become of a field: a new value, one link more, or the last link less. -/
inductive FieldEdit where
  | assign (links : List Link)
  | append (link : Link)
  | dropLast

/-- What a field holds while it is edited. -/
def FieldEdit.stays : FieldEdit → List Link → List Link
  | .assign _, _ => []
  | .append link, links => links ++ [link]
  | .dropLast, links => links.dropLast

def FieldEdit.leaves : FieldEdit → List Link → List Link
  | .assign _, links => links
  | .append _, _ => []
  | .dropLast, links => links.getLast?.toList

def FieldEdit.result : FieldEdit → List Link → List Link
  | .assign new, _ => new
  | .append link, links => links ++ [link]
  | .dropLast, links => links.dropLast

/-- Edits a field under its lock; what leaves the field is dropped while the lock is held. -/
def editField (c : CellId) (name : FieldName) (edit : FieldEdit) : HeapM Unit := do
  let links ← lockField c name
  setField c name (edit.stays links)
  (edit.leaves links).forM Link.drop
  setField c name (edit.result links)
  unlockField c name

inductive Followed where
  | pointer (pointee : Pointee) (pointer : Pointer)
  | label (handle : Handle)
  | absent

/-- Resolves one link of a locked field and clones it. The borrow that resolving gives is ended at once. -/
def followLink (pointee : Pointee) (how : Mode) : Link → HeapM (Link × Followed)
  | .owned p => do
    let (p, o) ← p.resolveBy how
    if how ≠ .get then
      if let some o := o then
        borrow o
        endBorrow o
    return (.owned p, .pointer pointee (← p.clone))
  | .weak w => do
    match ← w.pull with
    | (w, some p) => return (.weak w, .pointer (.only .node) p)
    | (w, none) => return (.weak w, .absent)
  | .label l => return (.label l, .label (← l.clone))

def followAt (pointee : Pointee) (how : Mode) (links : List Link) (index : Nat) :
    HeapM (List Link × Followed) := do
  match links[index]? with
  | none => return (links, .absent)
  | some link =>
    let (link, found) ← followLink pointee how link
    return (links.set index link, found)

def followField (o : CellId) (field : FieldName) (how : Mode) (index : Nat) :
    HeapM Followed := do
  let links ← lockField o field
  setField o field []
  let (links, found) ← followAt (if field = .any then .any else .only .node) how links index
  setField o field links
  unlockField o field
  return found

namespace Attempt

def mode (word : Option String) (default : Mode) : Attempt Mode :=
  match word with
  | none => return default
  | some w =>
    match Mode.ofName? w with
    | some m => return m
    | none => throw .badMode

def resolveSlot (name : String) (s : Slot) (m : Mode) : Attempt (Option CellId) := do
  let (p, o) ← heap (s.pointer.resolveBy m)
  setSlot name { s with pointer := p }
  return o

def borrowSlot (name : String) (s : Slot) (m : Mode) : Attempt (Option CellId) := do
  let o ← resolveSlot name s m
  if let some o := o then heap (borrow o)
  return o

def resolveAndKeep (args : Args) (m : Mode) : Attempt Reply := do
  let (name, s) ← slotA args
  match ← borrowSlot name s m with
  | none => return .nothing
  | some o =>
    let serial ← serialOf o
    match args.keep with
    | some keep => storeBorrow keep o
    | none => heap (endBorrow o)
    return .ofNat serial

def valueOf (o : CellId) : Attempt Int :=
  return ((← cell o).object?.map (·.value)).getD 0

def releaseRef (args : Args) : Attempt Reply := do
  let name ← need "a" args.a
  let o ← borrowed name
  modify fun t => { t with borrows := t.borrows.erase name }
  heap (endBorrow o)
  return .nothing

def getValue (args : Args) : Attempt Reply := do
  let (name, s) ← slotA args
  let m ← mode args.mode .read
  match ← borrowSlot name s m with
  | none => return .nothing
  | some o =>
    let v ← valueOf o
    heap (endBorrow o)
    return .number v

def setValue (args : Args) : Attempt Reply := do
  let (name, s) ← slotA args
  let v ← needInt args
  let m ← mode args.mode .pull
  match ← borrowSlot name s m with
  | none => return .nothing
  | some o =>
    heap (updateCell o (·.mapObject fun x => { x with value := v }))
    let serial ← serialOf o
    heap (endBorrow o)
    return .ofNat serial

/-- A fresh link that fits into a field, and a pointer that is to be dropped last of all. -/
def linkFor (field : FieldName) (b : String) : Attempt (Link × Option Pointer) := do
  match field with
  | .ctx => do
    let l ← label b
    return (.label (← heap l.clone), none)
  | .any => do
    let s ← slot b
    let p ← match s.pointee with
      | .any => heap s.pointer.clone
      | .only _ => heap s.pointer.cloneInPlace
    return (.owned p, none)
  | .back => do
    let p ← nodePointer (← slot b)
    return (.weak (← heap (WeakPointer.ofPointer p)), some p)
  | _ => do
    let p ← nodePointer (← slot b)
    return (.owned p, none)

def hasField (o : CellId) (field : FieldName) : Attempt Bool :=
  return ((← cell o).object?.bind (·.field? field)).isSome

def fieldOf (args : Args) : Attempt (Option FieldName) :=
  return FieldName.ofText? (← need "f" args.field)

/-- Resolves a slot and edits a field of the object. A link that finds no place is dropped: after the borrow
has ended, but before that if it was wrapped up for an optional field. The pointer that came with it goes
last. -/
def edit (name : String) (s : Slot) (m : Mode) (field : Option FieldName)
    (link : Option Link) (late : Option Pointer) (how : FieldName → FieldEdit) : Attempt Reply := do
  let dropLink : HeapM Unit := link.forM Link.drop
  let dropLate : HeapM Unit := late.forM Pointer.drop
  match ← borrowSlot name s m with
  | none =>
    heap dropLink
    heap dropLate
    return .nothing
  | some o =>
    match field with
    | some f =>
      if ← hasField o f then
        heap (editField o f (how f))
        heap (endBorrow o)
        heap dropLate
        return .flag true
      else
        if f = .any then heap dropLink
        heap (endBorrow o)
        if f ≠ .any then heap dropLink
        heap dropLate
        throw .noField
    | none =>
      heap (endBorrow o)
      throw .noField

def link (args : Args) : Attempt Reply := do
  let (name, s) ← slotA args
  let field ← fieldOf args
  let b ← need "b" args.b
  let m ← mode args.mode .pull
  match field with
  | none => edit name s m none none none fun _ => .dropLast
  | some f =>
    let (new, late) ← linkFor f b
    edit name s m field (some new) late fun
      | .kids => .append new
      | _ => .assign [new]

def unlink (args : Args) : Attempt Reply := do
  let (name, s) ← slotA args
  let field ← fieldOf args
  let m ← mode args.mode .pull
  edit name s m field none none fun
    | .kids => .dropLast
    | .any => .assign []
    | .back => .assign [.weak .nil]
    | .ctx => .assign [.label .empty]
    | _ => .assign [.owned .nil]

def follow (args : Args) : Attempt Reply := do
  let (name, s) ← slotA args
  let field ← fieldOf args
  let m ← mode args.mode .pull
  let how ← mode args.how .pull
  match ← borrowSlot name s m with
  | none => return .nothing
  | some o =>
    let found ← cleaning (endBorrow o) do
      match field with
      | none => throw .noField
      | some f =>
        if !(← hasField o f) then throw .noField
        let index ← if f = .kids then need "i" args.index else pure 0
        heap (followField o f how index)
    heap (endBorrow o)
    match found with
    | .absent => return .flag false
    | .label l =>
      keepLabel args l
      return .flag true
    | .pointer t p =>
      let serial ← serialOf? p.target
      keepSlot args ⟨t, p⟩
      return .ofSerial serial

def objects (args : Args) : ObjectOp → Attempt Reply
  | .pull => resolveAndKeep args .pull
  | .read => resolveAndKeep args .read
  | .get => resolveAndKeep args .get
  | .releaseRef => releaseRef args
  | .refValue => do
    let o ← borrowed (← need "a" args.a)
    return .number (← valueOf o)
  | .value => getValue args
  | .setValue => setValue args
  | .link => link args
  | .unlink => unlink args
  | .follow => follow args
  | .rawPull => do
    let (name, s) ← slotA args
    return .ofSerial (← serialOf? (← resolveSlot name s .pull))
  | .rawResolve => do
    let (name, s) ← slotA args
    return .ofSerial (← serialOf? (← resolveSlot name s .read))
  | .freeze => do
    let (name, s) ← slotA args
    setSlot name { s with pointer := ← heap s.pointer.freeze }
    return .nothing
  | .finish => do
    let (name, s) ← slotA args
    setSlot name { s with pointer := ← heap s.pointer.finish }
    return .nothing
  | .deepClone => do
    let (name, s) ← slotA args
    let (p, q) ← heap s.pointer.deepClone
    setSlot name { s with pointer := p }
    keepSlot args { s with pointer := q }
    return .nothing

end Attempt

end LazyHeap
