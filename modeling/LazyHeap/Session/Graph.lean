import LazyHeap.Session.Naming

/-! A picture of everything that a session can reach. Drawing it changes no count. -/
namespace LazyHeap

/-- The owning edges that can be seen: what a locked field holds cannot. -/
def Cell.visibleEdges (x : Cell) : List CellId :=
  match x.body with
  | .object o => (o.fields.filter (!·.locked)).flatMap fun f => f.links.flatMap Cell.linkEdges
  | .label _ => x.edges

namespace Heap

def gatherLoop (h : Heap) : Nat → Array Bool → List CellId → List CellId → List CellId
  | fuel, seen, found, stack =>
    match stack.dropWhile fun c => seen.getD c true, fuel with
    | c :: rest, n + 1 =>
      gatherLoop h n (seen.setIfInBounds c true) (c :: found) ((h.cell c).visibleEdges ++ rest)
    | _, _ => found

def gather (h : Heap) (starts : List CellId) : List CellId :=
  gatherLoop h h.size (Array.replicate h.size false) [] starts

end Heap

namespace Session

/-- Where the picture starts: what slots and borrows hold, and the labels that weak pointers and handles
hold. -/
def starts (s : Session) : List CellId :=
  s.slots.flatMap (fun t => Cell.linkEdges (.owned t.2.pointer)) ++
    s.weaks.flatMap (fun w => Cell.linkEdges (.weak w.2.pointer)) ++
    s.labels.flatMap (fun l => Cell.linkEdges (.label l.2)) ++
    s.borrows.map (·.2)

end Session

/-- A field as it is drawn; nothing is drawn for a field that says nothing. -/
def fieldView (f : Field) : SessionM (Option FieldView) := do
  if f.locked then return some (.one "locked")
  match f.name, f.links with
  | .kids, links =>
    let lines ← links.filterMapM fun
      | .owned p => return some (← linkLine p.target p.label false)
      | _ => return none
    return if lines.isEmpty then none else some (.many lines)
  | .any, [.owned p] => return some (.one (← linkLine p.target p.label false))
  | _, [.owned p] =>
    if p = .nil then return none
    return some (.one (← linkLine p.target p.label false))
  | _, [.weak w] =>
    if w.target = none then return none
    return some (.one (← linkLine w.target w.label true))
  | _, [.label l] =>
    if l = .empty then return none
    return some (.one (← labelName l))
  | _, _ => return none

def nodeView (x : Cell) (o : Object) : SessionM NodeView := do
  let fields ← if x.destroyed then pure [] else
    o.fields.filterMapM fun f => return (← fieldView f).map fun v => (f.name, v)
  return {
    serial := o.serial
    value := if x.destroyed then none else some o.value
    counts := [x.shared, x.weak, x.reachable]
    flags := x.flags.letters
    fields }

def labelView (c : CellId) : SessionM LabelView := do
  let line ← labelLine (.counted c)
  let h := (← get).heap
  let l := h.label c
  let copies := l.memo.copies.filterMap fun v => (h.cell v).object?.map (·.serial)
  return ⟨line, copies.mergeSort, ← labelName l.forward⟩

/-- Draws the labels in the order of their numbers. Drawing one can give a number to its forward. -/
def labelViews (reached : List CellId) : Nat → Nat → SessionM (List LabelView)
  | 0, _ => return []
  | fuel + 1, n => do
    match (← get).shown[n]? with
    | none => return []
    | some c =>
      if reached.contains c then
        let view ← labelView c
        return view :: (← labelViews reached fuel (n + 1))
      else labelViews reached fuel (n + 1)

/-- The picture: objects in the order of their serials, then labels in the order of their numbers. -/
def drawGraph : SessionM GraphView := do
  let s ← get
  if !s.labels.isEmpty then onHeap fixSettings
  let reached := s.heap.gather s.starts
  let objects := reached.filterMap fun c =>
    let x := s.heap.cell c
    x.object?.map fun o => (x, o)
  let nodes ← (objects.mergeSort fun a b => a.2.serial ≤ b.2.serial).mapM fun (x, o) => nodeView x o
  let labels ← labelViews reached s.heap.size 0
  return ⟨nodes, labels⟩

end LazyHeap
