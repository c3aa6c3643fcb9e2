import LazyHeap.Resolve

/-! Whole graphs: freezing one, cloning one lazily, and completing the copies of one. -/
namespace LazyHeap

/-- Brings a link up to date and returns its target. Only owning links are followed. -/
def Link.resolve : Link → HeapM (Link × Option CellId)
  | .owned p => do
    let (p, o) ← p.resolve
    return (.owned p, o)
  | link => return (link, none)

def Link.pull : Link → HeapM (Link × Option CellId)
  | .owned p => do
    let (p, o) ← p.pull
    return (.owned p, o)
  | link => return (link, none)

/-- Freezes a cell, brings its links up to date, and returns what they lead to. -/
def freezeCell (c : CellId) : HeapM (List CellId) := do
  updateCell c Cell.freeze
  match (← readCell c).body with
  | .object _ => visitFields c (fun _ => true) Link.resolve
  | .label l => return l.memo.copies

/-- What is left of a stack once the cells on top that are frozen, or gone, are taken off. -/
def Heap.unfrozenOf (h : Heap) (stack : List CellId) : List CellId :=
  stack.dropWhile fun c => (h.cell c).destroyed || (h.cell c).frozen

/-- Freezes what the stack leads to. Each round of the loop freezes one cell. -/
def freezeLoop : Nat → List CellId → HeapM Unit
  | 0, stack => do
    if (← get).unfrozenOf stack ≠ [] then throw .endless
  | n + 1, stack => do
    match (← get).unfrozenOf stack with
    | [] => return
    | c :: rest => do
      let found ← freezeCell c
      freezeLoop n (found.reverse ++ rest)

/-- Freezes everything that is reached from a cell along owning pointers. There are no more cells to freeze
than there are cells. -/
def freezeGraph (root : CellId) : HeapM Unit := do
  freezeLoop (← get).size [root]

def freezeLabel (c : CellId) : HeapM Unit := do
  let l := (← get).label c
  if l.frozen then return
  updateCell c (·.mapLabel fun l => { l with frozen := true })
  if !l.written then return
  l.memo.copies.forM retain
  l.memo.copies.forM fun v => do
    freezeGraph v
    release v

/-- Completes the copies of what the stack leads to. Each round of the loop looks into one object that has
not been seen. -/
def finishLoop : Nat → List CellId → List CellId → HeapM Unit
  | 0, seen, stack => do
    if stack.dropWhile seen.contains ≠ [] then throw .endless
  | n + 1, seen, stack => do
    match stack.dropWhile seen.contains with
    | [] => return
    | c :: rest => do
      let wanted := ((← readCell c).object?.map fun o => o.kind.finishes).getD fun _ => true
      let found ← visitFields c wanted Link.pull
      finishLoop n (c :: seen) (found.reverse ++ rest)

/-- More objects than a traversal of this heap can come upon: each is found along a path, and a path that
does not go round takes each link at most once. -/
def Heap.paths (h : Heap) : Nat :=
  1 <<< (2 * h.total (fun x => x.edges.length) + 2 * h.size + 2)

namespace Pointer

def freeze (p : Pointer) : HeapM Pointer := do
  let (p, o) ← p.resolve
  if let some o := o then freezeGraph o
  return p

/-- Clones the graph lazily. It is frozen and shared; the clone sees it through a fork of this pointer's
label, and objects are copied when one side wants to change them. The root never freezes, so from there
this side moves to a label of its own. -/
def deepClone (p : Pointer) : HeapM (Pointer × Pointer) := do
  match ← p.resolve with
  | (p, none) => return (p, ← makeNil)
  | (p, some o) =>
    freezeGraph o
    match p.label with
    | .counted c =>
      let borrowed ← p.label.clone
      freezeLabel c
      let l ← fork c
      borrowed.drop
      let clone ← make o l
      l.drop
      return (p, clone)
    | _ =>
      let mine ← spawn
      let own ← p.label.repoint mine
      mine.drop
      let l ← spawn
      let clone ← make o l
      l.drop
      return (⟨p.target, own⟩, clone)

/-- Resolves every pointer of the graph for change, so that no copy is outstanding. -/
def finish (p : Pointer) : HeapM Pointer := do
  let (p, o) ← p.pull
  if let some o := o then finishLoop (← get).paths [] [o]
  return p

end Pointer

end LazyHeap
