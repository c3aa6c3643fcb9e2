import LazyHeap.Heap.Total

/-!
Pending work. Giving up a reference can destroy a cell, which gives up what the cell owned, and so on; each
such reference is one task. A task weighs more than all it can lead to, given what it takes from the heap.
-/
namespace LazyHeap

inductive Task where
  /-- Give up one owning count. -/
  | release (cell : CellId)
  /-- Give up one weak count. -/
  | unpin (cell : CellId)
  /-- Destroy a cell that a round has claimed. -/
  | perish (cell : CellId)
  /-- Let go of the label that made the cell. -/
  | disown (cell : CellId)
  /-- End the round that is under way. -/
  | closeRound (outcome : RoundOutcome)
deriving DecidableEq

def Handle.tasks (l : Handle) : List Task := l.counted?.toList.map .release

/-- A pointer gives up its target first, then its label. -/
def Pointer.tasks (p : Pointer) : List Task := p.target.toList.map .release ++ p.label.tasks

def WeakPointer.tasks (w : WeakPointer) : List Task := w.target.toList.map .unpin ++ w.label.tasks

def Link.tasks : Link → List Task
  | .owned p => p.tasks
  | .weak w => w.tasks
  | .label l => l.tasks

/-- The entries of a memo: each gives up its copy, then its source. -/
def Memo.tasks (m : Memo) : List Task := m.entries.flatMap fun e => [.release e.2, .unpin e.1]

/-- What a value gives up when it is destroyed, in order. -/
def Body.tasks : Body → List Task
  | .object o => o.links.flatMap Link.tasks
  | .label l => l.memo.tasks ++ l.forward.tasks

def Body.emptied : Body → Body
  | .object o => .object o.emptied
  | .label l => .label l.emptied

namespace Task

def weight : Task → Nat
  | .release _ => 3
  | .unpin _ => 1
  | .perish _ => 1
  | .disown _ => 2
  | .closeRound _ => 1

def weights : List Task → Nat
  | [] => 0
  | t :: ts => t.weight + weights ts

@[simp] theorem weights_nil : weights [] = 0 := rfl

@[simp] theorem weights_cons (t : Task) (ts : List Task) :
    weights (t :: ts) = t.weight + weights ts := rfl

@[simp] theorem weights_append (ts us : List Task) :
    weights (ts ++ us) = weights ts + weights us := by
  induction ts with
  | nil => simp
  | cons t ts ih => simp [ih, Nat.add_assoc]

theorem weights_map (f : CellId → Task) (k : Nat) (hf : ∀ c, (f c).weight = k) (cs : List CellId) :
    weights (cs.map f) = k * cs.length := by
  induction cs with
  | nil => simp
  | cons c cs ih => simp [hf, ih, Nat.mul_add, Nat.add_comm]

end Task

/-- The weight of all that destroying the cell, and claiming it in a round, can still bring. -/
def Cell.load (x : Cell) : Nat :=
  (if x.flags.destroyed then 0 else Task.weights x.body.tasks + 3) +
    (if x.flags.collected then 0 else 2)

/-- The weight of the work that the heap can still turn into tasks. -/
def Heap.load (h : Heap) : Nat := h.total Cell.load + h.candidates.size

theorem Heap.load_update_eq (h : Heap) (c : CellId) (g : Cell → Cell)
    (hg : (g (h.cell c)).load = (h.cell c).load) : (h.update c g).load = h.load := by
  simp only [load, candidates_update, h.total_update_eq Cell.load g c hg]

end LazyHeap
