import LazyHeap.Session.Naming

/-! What a session does with label handles. -/
namespace LazyHeap
namespace Attempt

/-- Runs `act` on the label while a count of it is held. An empty handle has no label. -/
def holding {α : Type} (l : Handle) (act : CellId → HeapM α) : Attempt α := heap do
  match l.cell? with
  | none => throw .emptyHandle
  | some c =>
    let own ← l.clone
    let a ← act c
    own.drop
    return a

def labelInfo (c : CellId) : HeapM Reply := do
  let s := (← get).label c
  return .list [.flag s.frozen, .ofNat s.memo.size]

def replaceLabel (args : Args) : Attempt Reply := do
  let dest ← need "to" args.dest
  let a ← need "a" args.a
  let old ← label dest
  let new ← label a
  if dest = a then
    let own ← heap new.clone
    setLabel dest (← heap (old.repoint own))
    heap own.drop
  else setLabel dest (← heap (old.repoint new))
  return .nothing

def initLabel (args : Args) : Attempt Reply := do
  let (_, l) ← labelA args
  let own ← heap l.clone
  let (dest, old) ← cleaning own.drop do
    let dest ← need "to" args.dest
    return (dest, ← label dest)
  if old = .empty then
    setLabel dest own
    return .flag true
  else
    heap own.drop
    return .flag false

/-- Follows the chain of a label. Without a place to store the end of it, its name is the answer. -/
def followChain (args : Args) (act : Handle → HeapM Handle) : Attempt Reply := do
  let (_, l) ← labelA args
  let found ← heap (act l)
  match args.dest with
  | some dest =>
    storeLabel dest found
    return .nothing
  | none =>
    let name ← (labelName found : SessionM String)
    heap found.drop
    return .text name

def holdLabel (args : Args) : Attempt Reply := do
  let (name, l) ← labelA args
  match l.cell? with
  | none => heap (throw .emptyHandle)
  | some c =>
    let own ← heap l.clone
    setLabel name .empty
    heap l.drop
    let r ← heap (labelInfo c)
    heap own.drop
    return r

def labels (args : Args) : LabelOp → Attempt Reply
  | .spawn => do
    keepLabel args (← heap LazyHeap.spawn)
    return .nothing
  | .root => do
    heap fixSettings
    keepLabel args .root
    return .nothing
  | .none => do
    keepLabel args .empty
    return .nothing
  | .ofSlot => do
    let (_, s) ← slotA args
    keepLabel args (← heap s.pointer.label.clone)
    return .nothing
  | .clone => do
    let (_, l) ← labelA args
    keepLabel args (← heap l.clone)
    return .nothing
  | .replace => replaceLabel args
  | .release => do
    let (name, l) ← labelA args
    setLabel name .empty
    heap l.drop
    return .nothing
  | .take => do
    let (name, l) ← labelA args
    setLabel name .empty
    keepLabel args l
    return .nothing
  | .init => initLabel args
  | .drop => do
    let (name, l) ← labelA args
    modify fun t => { t with labels := t.labels.erase name }
    heap l.drop
    return .nothing
  | .fork => do
    let (_, l) ← labelA args
    keepLabel args (← holding l LazyHeap.fork)
    return .nothing
  | .freeze => do
    let (_, l) ← labelA args
    holding l freezeLabel
    return .nothing
  | .copy => do
    let (_, l) ← labelA args
    keepLabel args (← holding l copyLabel)
    return .nothing
  | .getForward => followChain args Handle.getForward
  | .existingForward => followChain args Handle.existingForward
  | .same => do
    let (_, l) ← labelA args
    let m ← label (← need "b" args.b)
    return .flag (l = m)
  | .query => do
    let (_, l) ← labelA args
    return .flag (l ≠ .empty)
  | .isRoot => do
    let (_, l) ← labelA args
    heap fixSettings
    return .flag (l = .root)
  | .info => do
    let (_, l) ← labelA args
    if l = .empty then return .nothing
    holding l labelInfo
  | .hold => holdLabel args

end Attempt

end LazyHeap
