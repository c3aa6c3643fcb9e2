import LazyHeap.Session.Naming

/-! What a session does with the bookkeeping of one cell: showing it, changing it by hand, counting edges. -/
namespace LazyHeap

/-- How many edges of each sort a value has, and how many of its locks were held. -/
structure Census where
  owned : Nat := 0
  weak : Nat := 0
  label : Nat := 0
  memo : Nat := 0
  contended : Nat := 0

namespace Census

def addLink (n : Census) : Link → Census
  | .owned _ => { n with owned := n.owned + 1 }
  | .weak _ => { n with weak := n.weak + 1 }
  | .label _ => { n with label := n.label + 1 }

/-- The fields of an object; what is in a locked field stays unknown. -/
def ofFields (fields : List Field) : Census :=
  fields.foldl (fun n f =>
    if f.locked then { n with contended := n.contended + 1 } else f.links.foldl addLink n) {}

def ofLabel (l : Label) : Census :=
  if l.locked then { contended := 1 } else { memo := l.memo.size, label := 1 }

/-- The edges that a value reports; with `finishing`, only those that finishing it follows. -/
def ofBody (finishing : Bool) : Body → Census
  | .object o =>
    ofFields (if finishing then o.fields.filter fun f => o.kind.finishes f.name else o.fields)
  | .label l => ofLabel l

def counts (n : Census) : List Nat := [n.owned, n.weak, n.label, n.memo, n.contended]

end Census

namespace Attempt

/-- The cell that a request about bookkeeping means: the target of a weak pointer, a label, or the target of
a slot. -/
def subject (args : Args) : Attempt CellId := do
  let c ← match args.weak, args.label with
    | some name, _ => do pure (← weak name).pointer.target
    | none, some name => do pure (← label name).cell?
    | none, none => do pure (← slotA args).2.pointer.target
  match c with
  | some c => return c
  | none => throw .nil

def view (c : CellId) : Attempt Reply := do
  let x ← cell c
  -- the number by which a label is known holds it weakly
  let observed := ((← get).number? c).isSome
  return .header {
    type := x.kind.name
    shared := x.shared
    weak := x.weak
    reachable := x.reachable
    bits := x.flags.bits
    colour := x.flags.colour.name
    frozen := x.flags.frozen
    frozenSole := x.flags.frozenSole
    destroyed := x.flags.destroyed
    alive := x.alive
    unique := x.unique && !observed }

def counts (c : CellId) : Attempt Reply := do
  let x ← cell c
  return .list [.ofNat x.shared, .ofNat x.reachable, .text x.flags.letters]

def change (args : Args) : Attempt Reply := do
  let c ← subject args
  let update (f : Cell → Cell) : Attempt Reply := do
    heap (updateCell c f)
    counts c
  match ← need "do" args.change with
  | "inc_shared" =>
    heap (retain c)
    counts c
  | "dec_shared" =>
    heap (LazyHeap.release c)
    counts c
  | "dec_shared_retained" =>
    heap (releaseRetained c)
    counts c
  | "inc_weak" =>
    heap (retainWeak c)
    counts c
  | "dec_weak" =>
    if (← cell c).weak ≤ 1 then throw .refused
    heap (unpin c)
    counts c
  | "thaw" => update Cell.thaw
  | "black" => update (·.setColour .black)
  | "gray" => update (·.setColour .gray)
  | "white" => update (·.setColour .white)
  | "purple" => update (·.setColour .purple)
  | "reset_reach" => update fun x => { x with reachable := x.shared }
  | "inc_reach" => update fun x => { x with reachable := x.reachable + 1 }
  | "dec_reach" =>
    let x ← cell c
    if x.reachable = 0 then heap (throw (.reachableUnderflow x.kind))
    update fun x => { x with reachable := x.reachable - 1 }
  | "try_inc_shared" => return .flag (← heap (retainIfAlive c))
  | "freeze" =>
    let frozen := (← cell c).frozen
    heap (updateCell c Cell.freeze)
    return .flag !frozen
  | _ => throw .badDo

/-- The label that made the cell, if both are still there. -/
def owner (c : CellId) : Attempt Reply := do
  let x ← cell c
  if x.destroyed then return .nothing
  match x.owner with
  | none =>
    heap fixSettings
    return .text (← (labelName .root : SessionM String))
  | some l =>
    if ← heap (retainIfAlive l) then
      let name ← (labelName (.counted l) : SessionM String)
      heap (LazyHeap.release l)
      return .text name
    else return .nothing

def census (finishing tolerant : Bool) (c : CellId) : Attempt Reply := do
  let x ← cell c
  if x.destroyed then return .nothing
  if x.locked && !tolerant then heap (throw .selfWait)
  return .ofNats (Census.ofBody finishing x.body).counts

/-- What an operation on bookkeeping does. Under a lock a census never waits. -/
def headers (underLock : Bool) (args : Args) : HeaderOp → Attempt Reply
  | .view => do view (← subject args)
  | .change => change args
  | .owner => do owner (← subject args)
  | .census => do census false (underLock || args.tryLocks.getD false) (← subject args)
  | .censusFinish => do census true (args.tryLocks.getD false) (← subject args)
  | .censusPointer => do
    let _ ← slotA args
    return .ofNats (Census.counts { owned := 2 })

end Attempt

end LazyHeap
