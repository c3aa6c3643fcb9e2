import LazyHeap.Particles
import LazyHeap.Session.Reply

/-!
The particle simulation as a program. It is asked for a plan and given its draws; what a plan draws from a generator depends on
the seed and on the numbers of particles and steps alone.
-/
namespace LazyHeap

/-- What the program is asked for, with its defaults. -/
structure Plan where
  particles : Nat := 32
  steps : Nat := 16
  seed : Nat := 0x5eed
  threshold : Option Nat := none
  autoCollect : Bool := false
  cycles : Bool := false
deriving DecidableEq

namespace Plan

def population (p : Plan) : Nat := max p.particles 1

def settings (p : Plan) : Settings := .ofOptions p.threshold (some p.autoCollect) none

def draws (g : Particles.Generator) (p : Plan) : List Particles.StepDraws :=
  Particles.drawSteps g p.population p.steps (g.ofSeed p.seed)

def run (p : Plan) (draws : List Particles.StepDraws) : ProgramResult :=
  match p.settings.validate with
  | .error e => ⟨1, "", "invalid collector settings: " ++ e.message⟩
  | .ok () =>
    let heap := { Heap.initial with settings := some p.settings }
    match (Particles.simulate p.cycles p.population draws).run heap with
    | .ok (s, _) => ⟨0, s.render, ""⟩
    | .error f => ⟨134, "", "cowgraph: fatal: " ++ f.message⟩

end Plan
end LazyHeap
