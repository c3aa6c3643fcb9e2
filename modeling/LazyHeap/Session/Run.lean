import LazyHeap.CommandLine
import LazyHeap.Session.Collector
import LazyHeap.Session.Describe
import LazyHeap.Session.Graph
import LazyHeap.Session.Headers
import LazyHeap.Session.Labels
import LazyHeap.Session.Objects
import LazyHeap.Session.Weaks

/-! Running requests, one after the other and inside each other. -/
namespace LazyHeap
namespace Attempt

def views (args : Args) : ViewOp → Attempt Reply
  | .graph => return .graph (← (drawGraph : SessionM GraphView))
  | .debug => describe args
  | .castValue => castValue args
  | .program => return .program (CommandLine.run (← need "args" args.words))

def perform (underLock : Bool) (args : Args) : Op → Attempt Reply
  | .pointer op => pointers args op
  | .object op => objects args op
  | .weak op => weaks args op
  | .label op => labels args op
  | .header op => headers underLock args op
  | .collector op => collector args op
  | .view op => views args op

/-- Takes the lock of a field of the target of a slot, and borrows the object meanwhile. -/
def takeLock (args : Args) : Attempt (Option (CellId × FieldName)) := do
  let (_, s) ← slotA args
  let field := FieldName.ofText? (← need "f" args.field)
  match s.pointer.target with
  | none => return none
  | some o =>
    heap (borrow o)
    let name ← cleaning (endBorrow o) do
      match field with
      | none => throw .noField
      | some f =>
        if ((← cell o).object?.bind (·.field? f)).isNone then throw .noField
        return f
    let _ ← heap (lockField o name)
    return some (o, name)

def underLock (args : Args) (body : SessionM (List Reply)) : Attempt Reply := do
  match ← takeLock args with
  | none => return .nothing
  | some (o, name) =>
    let replies ← body
    heap (unlockField o name)
    heap (endBorrow o)
    return .list replies

/-- From here on, clones are bound to a label that has a name. -/
def takeScope (args : Args) : Attempt Unit := do
  let l ← label (← need "label" args.label)
  let own ← heap l.clone
  heap (enterScope own)
  heap own.drop

def inScope (args : Args) (body : SessionM (List Reply)) : Attempt Reply := do
  takeScope args
  let replies ← (body : SessionM _)
  heap leaveScope
  return .list replies

def times {α : Type} (act : SessionM α) : Nat → Option α → SessionM (Option α)
  | 0, last => return last
  | n + 1, _ => do times act n (some (← act))

def repeated (args : Args) (body : SessionM (List Reply)) : Attempt Reply := do
  let n ← need "n" args.times
  match ← (times body n none : SessionM (Option (List Reply))) with
  | some replies => return .list replies
  | none => return .nothing

def runCompound (args : Args) (body : SessionM (List Reply)) : Compound → Attempt Reply
  | .locked => underLock args body
  | .scope => inScope args body
  | .repeat => repeated args body

end Attempt

namespace Request

mutual

/-- Runs a request. While a field is locked, only some operations are allowed. -/
def run (underLock : Bool) : Request → SessionM Reply
  | .unnamed => return .refused .missingOp
  | .unknown => return .refused (if underLock then .locked else .unknownOp)
  | .plain op args =>
    if underLock && !op.runsLocked then return .refused .locked
    else Attempt.reply (Attempt.perform underLock args op)
  | .compound op args body =>
    if underLock then return .refused .locked
    else Attempt.reply (Attempt.runCompound args (runAll (op = .locked) body) op)

def runAll (underLock : Bool) : List Request → SessionM (List Reply)
  | [] => return []
  | r :: rs => do
    let x ← run underLock r
    return x :: (← runAll underLock rs)

end

end Request

end LazyHeap
