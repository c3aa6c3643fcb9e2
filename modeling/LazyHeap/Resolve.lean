import LazyHeap.Forward

/-!
Resolution: which object a pointer stands for under its label. To change a frozen object a label first looks
for the copy that its memo has, then recycles that object if nobody else can see it, and copies it otherwise.
To read an object it only looks.
-/
namespace LazyHeap

namespace Heap

/-- Follows memo entries from an object for as long as it is frozen. Longer than the memo no chain can be
that ends. -/
def walk (h : Heap) (memo : Memo) : Nat → CellId → Except Fault CellId
  | n, c =>
    if (h.cell c).frozen then
      match memo.get? c, n with
      | none, _ => .ok c
      | some _, 0 => .error .memoLoop
      | some d, n + 1 => h.walk memo n d
    else .ok c

/-- What stands for an object in the memo of a label. -/
def standIn (h : Heap) (label o : CellId) : Except Fault CellId :=
  let memo := (h.label label).memo
  h.walk memo memo.size o

end Heap

def standIn (label o : CellId) : HeapM CellId := do
  match (← get).standIn label o with
  | .ok c => return c
  | .error e => throw e

/-- The copy of a field that a copied object gets: its links are cloned under the source's lock. -/
def copyField (source : CellId) (field : Field) : HeapM Field := do
  let links ← (← lockField source field.name).mapM Link.clone
  unlockField source field.name
  return ⟨field.name, false, links⟩

/-- The copy of a value: an object with the next serial and copied fields, or a label with the same memo. -/
def copyValue (source : CellId) : HeapM Body := do
  match (← readCell source).body with
  | .object o =>
    let serial ← newSerial
    modify (·.record (.copied o.serial serial))
    return .object { o with serial, fields := ← o.fields.mapM (copyField source) }
  | .label s =>
    s.memo.retain
    return .label (.ofMemo s.memo)

/-- Copies a value for a label, to which the pointers in the copy are bound. -/
def copyCell (source : CellId) (l : Handle) : HeapM CellId := do
  enterScope l
  let body ← copyValue source
  leaveScope
  allocate body l

/-- Copies an object for a label and enters the copy in the label's memo. An object that had a single owner
when it was frozen is not entered, since nobody can come back for it. If the memo has a copy already, the
new one is given up. The caller owns one count of the result. -/
def copyIntoMemo (l : Handle) (label o : CellId) : HeapM CellId := do
  let copy ← copyCell o l
  if (← readCell o).flags.frozenSole then return copy
  updateCell label (·.mapLabel fun s => { s with written := true })
  match ((← get).label label).memo.get? o with
  | some existing =>
    retain existing
    release copy
    return existing
  | none =>
    retainWeak o
    retain copy
    updateCell label (·.mapLabel fun s => { s with memo := s.memo.put o copy })
    return copy

def Link.rebind (l : Handle) : Link → HeapM (Link × Option CellId)
  | .owned p => do
    match p.target with
    | none => return (.owned p, none)
    | some _ => return (.owned { p with label := ← p.label.repoint l }, none)
  | .weak w => do
    match w.target with
    | none => return (.weak w, none)
    | some _ => return (.weak { w with label := ← w.label.repoint l }, none)
  | .label s => return (.label s, none)

/-- Binds the pointers of an object to a label; a kind that keeps its pointers is only noted. -/
def rebindAll (c : CellId) (l : Handle) : HeapM Unit := do
  match (← readCell c).body with
  | .label _ => return
  | .object o =>
    if o.kind.rebinds then
      let _ ← visitFields c (fun _ => true) (Link.rebind l)
    else modify (·.record (.recycled o.serial))

/-- Makes a frozen object the label's own without copying it: it thaws, belongs to the label, and its
pointers are bound to the label. -/
def recycle (c : CellId) (l : Handle) : HeapM Unit := do
  updateCell c Cell.thaw
  if let some new := l.counted? then retainWeak new
  let old := (← readCell c).owner
  updateCell c fun x => { x with owner := l.counted? }
  if let some old := old then unpin old
  rebindAll c l

def setMemoLock (label : CellId) (locked : Bool) : HeapM Unit :=
  updateCell label (·.mapLabel fun s => { s with locked })

/-- Resolves an object for change under a label. Under the root and the empty handle nothing is ever
copied. The caller holds the object and owns one count of the result. -/
def mapGet (l : Handle) (o : CellId) : HeapM CellId := do
  let borrowed ← l.clone
  match l with
  | .counted label =>
    if !(← readCell o).frozen then
      retain o
      borrowed.drop
      return o
    let seen ← standIn label o
    if !(← readCell seen).frozen then
      retain seen
      borrowed.drop
      return seen
    setMemoLock label true
    if (← readCell seen).unique then recycle seen l
    retain seen
    setMemoLock label false
    if !(← readCell seen).frozen then
      borrowed.drop
      return seen
    let copy ← copyIntoMemo l label seen
    release seen
    borrowed.drop
    return copy
  | _ =>
    retain o
    return o

/-- Resolves an object for reading under a label, if what it resolves to is still alive. The caller owns one
count of the result. -/
def mapPull (l : Handle) (o : CellId) : HeapM (Option CellId) := do
  match l with
  | .counted label =>
    let borrowed ← l.clone
    let seen ← standIn label o
    let alive ← retainIfAlive seen
    borrowed.drop
    return if alive then some seen else none
  | _ => return if ← retainIfAlive o then some o else none

/-- Copies an object for a label, whatever the memo says. -/
def mapCopy (l : Handle) (o : CellId) : HeapM CellId := do
  match l with
  | .counted label =>
    let borrowed ← l.clone
    let copy ← copyIntoMemo l label o
    borrowed.drop
    return copy
  | _ =>
    retain o
    return o

namespace Pointer

/-- Resolves the pointer for change: a frozen target gives way to what the label has for it. Returns the
pointer as it is now and its target. -/
def pull (p : Pointer) : HeapM (Pointer × Option CellId) := do
  match p.target with
  | none => return (p, none)
  | some o =>
    if !(← readCell o).frozen then return (p, some o)
    let l ← p.label.getForward
    let own ← if l = p.label then pure p.label else p.label.repoint l
    let resolved ← mapGet l o
    adopt o resolved
    l.drop
    return (⟨some resolved, own⟩, some resolved)

def resolve (p : Pointer) : HeapM (Pointer × Option CellId) := do
  match p.target with
  | none => return (p, none)
  | some o =>
    let l ← p.label.existingForward
    let own ← if l = p.label then pure p.label else p.label.repoint l
    match ← mapPull l o with
    | none => throw .ownerless
    | some resolved =>
      adopt o resolved
      l.drop
      return (⟨some resolved, own⟩, some resolved)

end Pointer

/-- Resolves the weak pointer for reading. Returns it as it is now, and an owning pointer to the object that
its label sees, if there still is one. -/
def WeakPointer.pull (w : WeakPointer) : HeapM (WeakPointer × Option Pointer) := do
  match w.target with
  | none => return (w, none)
  | some o =>
    if !(← readCell o).alive then return (w, none)
    let l ← w.label.existingForward
    let own ← if l = w.label then pure w.label else w.label.repoint l
    match ← mapPull l o with
    | none =>
      l.drop
      return (⟨some o, own⟩, none)
    | some resolved =>
      if resolved ≠ o then retarget (some o) (some resolved)
      return (⟨some resolved, own⟩, some ⟨some resolved, l⟩)

end LazyHeap
