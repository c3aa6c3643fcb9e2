import LazyHeap.DeepClone
import LazyHeap.Session.NameMap
import LazyHeap.Session.Reply

/-!
Sessions: a heap together with named pointers, weak pointers, label handles and borrows. Labels get numbers
when they are first shown. An operation may change the session and then decline; what it changed stays.
-/
namespace LazyHeap

structure Slot where
  pointee : Pointee
  pointer : Pointer

structure WeakSlot where
  pointee : Pointee
  pointer : WeakPointer

structure Session where
  heap : Heap
  slots : NameMap Slot
  weaks : NameMap WeakSlot
  labels : NameMap Handle
  borrows : NameMap CellId
  /-- The labels that have been shown, in the order of their numbers. -/
  shown : Array CellId

def Session.initial : Session := ⟨.initial, [], [], [], [], #[]⟩

abbrev SessionM := StateT Session (Except Fault)

/-- An operation of a session that may decline. -/
abbrev Attempt := ExceptT Refusal SessionM

def onHeap {α : Type} (act : HeapM α) : SessionM α := fun s =>
  match s with
  | ⟨heap, slots, weaks, labels, borrows, shown⟩ =>
    match act heap with
    | .error e => .error e
    | .ok (a, heap) => .ok (a, ⟨heap, slots, weaks, labels, borrows, shown⟩)

namespace Attempt

def heap {α : Type} (act : HeapM α) : Attempt α := (onHeap act : SessionM α)

def need {α : Type} (operand : String) : Option α → Attempt α
  | some a => return a
  | none => throw (.missing operand)

def cell (c : CellId) : Attempt Cell := heap (readCell c)

def serialOf (c : CellId) : Attempt Nat := return ((← cell c).object?.map (·.serial)).getD 0

def serialOf? : Option CellId → Attempt (Option Nat)
  | some c => return some (← serialOf c)
  | none => return none

/-- If `act` declines, drops what was made for it. -/
def cleaning {α : Type} (cleanup : HeapM Unit) (act : Attempt α) : Attempt α :=
  tryCatch act fun why => do
    heap cleanup
    throw why

/-! ### Looking up -/

def slot (name : String) : Attempt Slot := do
  match (← get).slots.get? name with
  | some s => return s
  | none => throw .noSlot

def weak (name : String) : Attempt WeakSlot := do
  match (← get).weaks.get? name with
  | some w => return w
  | none => throw .noWeak

def label (name : String) : Attempt Handle := do
  match (← get).labels.get? name with
  | some l => return l
  | none => throw .noLabel

def borrowed (name : String) : Attempt CellId := do
  match (← get).borrows.get? name with
  | some c => return c
  | none => throw .noRef

def slotA (args : Args) : Attempt (String × Slot) := do
  let name ← need "a" args.a
  return (name, ← slot name)

def weakA (args : Args) : Attempt (String × WeakSlot) := do
  let name ← need "a" args.a
  return (name, ← weak name)

def labelA (args : Args) : Attempt (String × Handle) := do
  let name ← need "a" args.a
  return (name, ← label name)

/-! ### Storing. The new value is in place before the old one is dropped. -/

def setSlot (name : String) (s : Slot) : Attempt Unit :=
  modify fun t => { t with slots := t.slots.insert name s }

def setWeak (name : String) (w : WeakSlot) : Attempt Unit :=
  modify fun t => { t with weaks := t.weaks.insert name w }

def setLabel (name : String) (l : Handle) : Attempt Unit :=
  modify fun t => { t with labels := t.labels.insert name l }

def storeSlot (name : String) (s : Slot) : Attempt Unit := do
  let old := (← get).slots.get? name
  setSlot name s
  if let some old := old then heap old.pointer.drop

def storeWeak (name : String) (w : WeakSlot) : Attempt Unit := do
  let old := (← get).weaks.get? name
  setWeak name w
  if let some old := old then heap old.pointer.drop

def storeLabel (name : String) (l : Handle) : Attempt Unit := do
  let old := (← get).labels.get? name
  setLabel name l
  if let some old := old then heap old.drop

def storeBorrow (name : String) (c : CellId) : Attempt Unit := do
  let old := (← get).borrows.get? name
  modify fun t => { t with borrows := t.borrows.insert name c }
  if let some old := old then heap (endBorrow old)

/-- Stores a slot where the request says; without a place it is dropped. -/
def keepSlot (args : Args) (s : Slot) : Attempt Unit := do
  match args.dest with
  | some name => storeSlot name s
  | none =>
    heap s.pointer.drop
    throw (.missing "to")

def keepWeak (args : Args) (w : WeakSlot) : Attempt Unit := do
  match args.dest with
  | some name => storeWeak name w
  | none =>
    heap w.pointer.drop
    throw (.missing "to")

def keepLabel (args : Args) (l : Handle) : Attempt Unit := do
  match args.dest with
  | some name => storeLabel name l
  | none =>
    heap l.drop
    throw (.missing "to")

def objectKind : Option String → Attempt ObjectKind
  | none => return .node
  | some "node" => return .node
  | some "leaf" => return .leaf
  | some _ => throw .badType

def pointee : String → Attempt Pointee
  | "node" => return .only .node
  | "leaf" => return .only .leaf
  | "any" => return .any
  | _ => throw .badType

/-- A pointer to the target as a node: another pointer of a node slot, or a cast of a slot for any object. -/
def nodePointer (s : Slot) : Attempt Pointer := do
  match s.pointee with
  | .only .node => heap s.pointer.clone
  | .any =>
    match s.pointer.target with
    | some o =>
      if (← cell o).kind = .object .node then heap s.pointer.cloneInPlace else throw .typeMismatch
    | none => throw .typeMismatch
  | .only _ => throw .typeMismatch

/-- What the operation answers, a refusal included. -/
def reply (act : Attempt Reply) : SessionM Reply := do
  match ← act.run with
  | .ok r => return r
  | .error why => return .refused why

end Attempt

end LazyHeap
