import LazyHeap.DeepClone

/-!
A particle simulation. Each particle is a pointer to the newest state of its history; a step moves every
particle by a drawn amount and then replaces the population by lazy deep clones of drawn ancestors. The
draws are made first, so that the simulation is a function of them.
-/
namespace LazyHeap.Particles

/-- What one step draws: how far each particle moves, and whose clone each particle becomes. -/
structure StepDraws where
  deltas : List Int
  ancestors : List Nat
deriving DecidableEq

def largestMove : Nat := 3

/-- Where random numbers come from: a state for each seed, and draws of numbers up to a bound. -/
structure Generator where
  State : Type
  ofSeed : Nat → State
  upTo (n : Nat) : State → Fin (n + 1) × State

def Generator.many (g : Generator) (n : Nat) : Nat → g.State → List Nat × g.State
  | 0, s => ([], s)
  | count + 1, s =>
    let (x, s) := g.upTo n s
    let (xs, s) := g.many n count s
    (x.val :: xs, s)

def StepDraws.draw (g : Generator) (particles : Nat) (s : g.State) : StepDraws × g.State :=
  let (moves, s) := g.many (2 * largestMove) particles s
  let (ancestors, s) := g.many (particles - 1) particles s
  (⟨moves.map fun m => Int.ofNat m - Int.ofNat largestMove, ancestors⟩, s)

def drawSteps (g : Generator) (particles : Nat) : Nat → g.State → List StepDraws
  | 0, _ => []
  | n + 1, s =>
    let (d, s) := StepDraws.draw g particles s
    d :: drawSteps g particles n s

def readValue (p : Pointer) : HeapM (Pointer × Option Int) := do
  match ← p.resolve with
  | (p, none) => return (p, none)
  | (p, some o) =>
    borrow o
    let v := (← readCell o).object?.map (·.value)
    endBorrow o
    return (p, v)

/-- Gives a new state, to which there is a pointer, an edge to itself. -/
def addEcho (o : CellId) (p : Pointer) : HeapM Unit := do
  borrow o
  let echo ← p.clone
  let old ← lockField o .echo
  setField o .echo []
  old.forM Link.drop
  setField o .echo [.owned echo]
  unlockField o .echo
  endBorrow o

/-- Puts a new state, moved by `delta`, in front of a particle's history. With `cycles`, the state gets an
edge to itself. -/
def propagate (cycles : Bool) (p : Pointer) (delta : Int) : HeapM Pointer := do
  let (p, v) ← readValue p
  let serial ← newSerial
  let prev ← p.clone
  let state := (Object.state serial (v.getD 0 + delta)).updateField .prev fun f =>
    { f with links := [.owned prev] }
  let o ← allocate (.object state) p.label
  let next : Pointer := ⟨some o, ← p.label.clone⟩
  if cycles then addEcho o next
  let p ← p.assign next
  next.drop
  return p

def propagateAll (cycles : Bool) (population : List Pointer) (deltas : List Int) :
    HeapM (List Pointer) :=
  (population.zip deltas).mapM fun (p, d) => propagate cycles p d

/-- Clones the drawn ancestors, one after the other. Cloning brings the ancestor's own pointer up to date.
Returns the old population and the clones. -/
def cloneAncestors (population : List Pointer) : List Nat → HeapM (List Pointer × List Pointer)
  | [] => return (population, [])
  | a :: rest => do
    let (p, clone) ← ((population[a]?).getD .nil).deepClone
    let (population, clones) ← cloneAncestors (population.set a p) rest
    return (population, clone :: clones)

def step (cycles : Bool) (population : List Pointer) (d : StepDraws) : HeapM (List Pointer) := do
  let population ← propagateAll cycles population d.deltas
  let (old, clones) ← cloneAncestors population d.ancestors
  old.forM Pointer.drop
  return clones

/-- A pointer to the state before, taken under the lock of the field that leads there. -/
def clonePrevious (o : CellId) : HeapM Pointer := do
  let links ← lockField o .prev
  let prev ← match links with
    | [.owned p] => p.clone
    | _ => Pointer.makeNil
  unlockField o .prev
  return prev

def historyLoop : Nat → Nat → Pointer → HeapM Nat
  | 0, length, current => do
    match ← current.resolve with
    | (current, none) =>
      current.drop
      return length
    | (_, some _) => throw .endless
  | n + 1, length, current => do
    match ← current.resolve with
    | (current, none) =>
      current.drop
      return length
    | (current, some o) =>
      borrow o
      let prev ← clonePrevious o
      current.drop
      endBorrow o
      historyLoop n (length + 1) prev

/-- How many states a particle's history has. No history is longer than there are cells. -/
def historyLength (p : Pointer) : HeapM Nat := do
  historyLoop (← get).size 0 (← p.clone)

def newParticle : HeapM Pointer := do
  fixSettings
  let o ← allocate (.object (Object.state (← newSerial) 0)) .root
  return ⟨some o, .root⟩

structure Summary where
  values : List Int
  longest : Nat
  lastRound : RoundOutcome
  totals : Totals
deriving DecidableEq

/-- Runs the simulation: `particles` particles, one step for each element of `draws`. At the end all copies
are completed, the population is dropped, and a round collects what is left. -/
def simulate (cycles : Bool) (particles : Nat) (draws : List StepDraws) : HeapM Summary := do
  let start ← (List.replicate particles ()).mapM fun _ => newParticle
  let population ← draws.foldlM (step cycles) start
  let population ← population.mapM Pointer.finish
  let valued ← population.mapM readValue
  let population := valued.map (·.1)
  let lengths ← population.mapM historyLength
  population.forM Pointer.drop
  let round ← collectCycles
  return ⟨valued.filterMap (·.2), lengths.foldl max 0, round, (← get).totals⟩

def Summary.statistics (s : Summary) : String :=
  "last round: " ++ toString s.lastRound.candidates ++ " candidates, " ++
    toString s.lastRound.roots ++ " roots, " ++ toString s.lastRound.collected ++ " collected\n" ++
  "totals: " ++ toString s.totals.rounds ++ " rounds, " ++ toString s.totals.candidates ++
    " candidates, " ++ toString s.totals.collected ++ " collected\n"

def Summary.render (s : Summary) : String :=
  "final values: [" ++ ", ".intercalate (s.values.map toString) ++ "]\n" ++
  "longest history: " ++ toString s.longest ++ "\n" ++ s.statistics

end LazyHeap.Particles
