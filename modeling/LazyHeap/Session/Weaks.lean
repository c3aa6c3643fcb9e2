import LazyHeap.Session.Basic

/-! What a session does with weak pointers. -/
namespace LazyHeap
namespace Attempt

/-- A weak pointer assigned to another one, or to an owning pointer of the same type. -/
def assignWeak (args : Args) : Attempt Reply := do
  let dest ← need "to" args.dest
  let a ← need "a" args.a
  if dest = a then throw .sameSlot
  let w ← weak dest
  let source ← weak a
  if w.pointee ≠ source.pointee then throw .typeMismatch
  setWeak dest { w with
    pointer := ← heap (w.pointer.assign source.pointer.target source.pointer.label) }
  return .nothing

def assignTarget (args : Args) : Attempt Reply := do
  let dest ← need "to" args.dest
  let w ← weak dest
  let source ← slot (← need "a" args.a)
  if w.pointee ≠ source.pointee then throw .typeMismatch
  setWeak dest { w with
    pointer := ← heap (w.pointer.assign source.pointer.target source.pointer.label) }
  return .nothing

def pullWeak (args : Args) : Attempt Reply := do
  let (name, w) ← weakA args
  let (v, p) ← heap w.pointer.pull
  setWeak name { w with pointer := v }
  match p with
  | none => return .nothing
  | some p =>
    let serial ← serialOf? p.target
    match args.dest with
    | some dest => storeSlot dest ⟨w.pointee, p⟩
    | none => heap p.drop
    return .ofSerial serial

def weaks (args : Args) : WeakOp → Attempt Reply
  | .nil => do
    keepWeak args ⟨.only .node, ← heap WeakPointer.makeNil⟩
    return .nothing
  | .downgrade => do
    let (_, s) ← slotA args
    keepWeak args ⟨s.pointee, ← heap (WeakPointer.ofPointer s.pointer)⟩
    return .nothing
  | .pull => pullWeak args
  | .clone => do
    let (_, w) ← weakA args
    keepWeak args { w with pointer := ← heap w.pointer.clone }
    return .nothing
  | .query => do
    let (_, w) ← weakA args
    match w.pointer.target with
    | some o => return .flag (← cell o).alive
    | none => return .flag false
  | .assign => assignWeak args
  | .assignPointer => assignTarget args
  | .take => do
    let (name, w) ← weakA args
    setWeak name { w with pointer := ← heap WeakPointer.makeNil }
    keepWeak args w
    return .nothing
  | .drop => do
    let (name, w) ← weakA args
    modify fun t => { t with weaks := t.weaks.erase name }
    heap w.pointer.drop
    return .nothing

end Attempt

end LazyHeap
