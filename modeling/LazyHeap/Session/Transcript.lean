import LazyHeap.Session.Run

/-!
Transcripts: the record of a whole session. Each request gives a step with its reply and with what changed;
after the last one everything that has a name is dropped, and rounds run until no candidate is left.
-/
namespace LazyHeap

structure Step where
  reply : Reply
  /-- Serials of copied objects, each with that of its copy. -/
  copies : List (Nat × Nat)
  /-- Serials of destroyed objects, in order. -/
  drops : List Nat
  recycled : List Nat
  candidates : Nat
  /-- The totals, if they changed. -/
  totals : Option Totals
  /-- The lines that changed; a name that is gone has no line any more. -/
  changes : List (String × Option String)

structure Farewell where
  drops : List Nat
  candidates : Nat
  rounds : List RoundOutcome
  freed : List Nat
  /-- How many serials were given out. -/
  made : Nat

structure Transcript where
  steps : List Step
  ending : Except Fault Farewell

namespace Event

def copy? : Event → Option (Nat × Nat)
  | .copied source copy => some (source, copy)
  | _ => none

def drop? : Event → Option Nat
  | .dropped serial => some serial
  | _ => none

def recycle? : Event → Option Nat
  | .recycled serial => some serial
  | _ => none

end Event

/-- What happened since the log was last taken, oldest first. -/
def takeLog : SessionM (List Event) := onHeap do
  let log := (← get).log
  modify fun h => { h with log := [] }
  return log.reverse

private def sortedDrops (events : List Event) : List Nat := (events.filterMap Event.drop?).mergeSort

/-- The names whose line is new or different, and those that are gone. -/
def lineChanges (before after : NameMap String) : List (String × Option String) :=
  (after.filter fun (name, line) => before.get? name ≠ some line).map (fun (name, line) =>
      (name, some line)) ++
    (before.filter fun (name, _) => (after.get? name).isNone).map fun (name, _) => (name, none)

/-- What was said about the session before: the lines and the totals. -/
structure Known where
  lines : NameMap String
  totals : Totals

def takeStep (known : Known) (r : Request) : SessionM (Step × Known) := do
  let reply ← r.run false
  let events ← takeLog
  let h := (← get).heap
  let lines ← allLines
  let step : Step := {
    reply
    copies := events.filterMap Event.copy?
    drops := sortedDrops events
    recycled := events.filterMap Event.recycle?
    candidates := h.candidates.size
    totals := if h.totals = known.totals then none else some h.totals
    changes := lineChanges known.lines lines }
  return (step, ⟨lines, h.totals⟩)

/-- Drops everything that has a name: borrows, slots, weak pointers, labels. -/
def dropAll : SessionM Unit := do
  let s ← get
  set { s with slots := [], weaks := [], labels := [], borrows := [] }
  onHeap do
    s.borrows.forM fun t => endBorrow t.2
    s.slots.forM fun t => t.2.pointer.drop
    s.weaks.forM fun t => t.2.pointer.drop
    s.labels.forM fun t => t.2.drop

/-- Collects for as long as there are candidates, but not more often than `n` times. -/
private def collectAll : Nat → HeapM (List RoundOutcome)
  | 0 => return []
  | n + 1 => do
    if (← get).candidates.isEmpty then return []
    let o ← collectCycles
    return o :: (← collectAll n)

def mostFinalRounds : Nat := 50

def farewell : SessionM Farewell := do
  dropAll
  let drops := sortedDrops (← takeLog)
  let candidates := (← get).heap.candidates.size
  let rounds ← onHeap (collectAll mostFinalRounds)
  let freed := sortedDrops (← takeLog)
  return ⟨drops, candidates, rounds, freed, (← get).heap.nextSerial - 1⟩

private def transcribe (s : Session) (known : Known) (steps : List Step) :
    List Request → Transcript
  | [] => ⟨steps.reverse, (farewell.run s).map (·.1)⟩
  | r :: rs =>
    match (takeStep known r).run s with
    | .error f => ⟨steps.reverse, .error f⟩
    | .ok ((step, known), s) => transcribe s known (step :: steps) rs

/-- The transcript of a new session that is asked these things. A fault ends it. -/
def Transcript.of (rs : List Request) : Transcript :=
  transcribe .initial ⟨[], ⟨0, 0, 0⟩⟩ [] rs

end LazyHeap
