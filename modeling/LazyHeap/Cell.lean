import LazyHeap.Flags
import LazyHeap.Label
import LazyHeap.Object

/-! Cells: the bookkeeping of one allocation and the object or label in it. -/
namespace LazyHeap

inductive Body where
  | object (object : Object)
  | label (label : Label)
deriving DecidableEq

structure Cell where
  /-- Owning references to the cell. -/
  shared : Nat
  /-- Weak references, and one more for as long as the value is there. -/
  weak : Nat
  /-- The count on which a round works. -/
  reachable : Nat
  flags : Flags
  /-- The label that made the cell, held weakly; none stands for the root. -/
  owner : Option CellId
  body : Body
deriving DecidableEq

namespace Cell

/-- What is read where no cell is. -/
def void : Cell := ⟨0, 0, 0, { destroyed := true }, none, .label .blank⟩

/-- A new allocation: one owner, who made it, and one weak count for the value itself. -/
def fresh (body : Body) (owner : Option CellId) : Cell := ⟨1, 1, 0, {}, owner, body⟩

def kind (x : Cell) : Kind :=
  match x.body with
  | .object o => .object o.kind
  | .label _ => .label

def object? (x : Cell) : Option Object :=
  match x.body with
  | .object o => some o
  | .label _ => none

def label? (x : Cell) : Option Label :=
  match x.body with
  | .object _ => none
  | .label l => some l

def frozen (x : Cell) : Bool := x.flags.frozen

def destroyed (x : Cell) : Bool := x.flags.destroyed

def alive (x : Cell) : Bool := 0 < x.shared && !x.flags.destroyed

/-- One owner and no weak observer. The candidate buffer's hold on the cell is not an observer. -/
def unique (x : Cell) : Bool :=
  x.shared = 1 && x.weak = (if x.flags.buffered then 2 else 1)

def locked (x : Cell) : Bool :=
  match x.body with
  | .object o => o.locked
  | .label l => l.locked

/-- The cells on which a link owns a count, target first. The root's label is never among them. -/
def linkEdges : Link → List CellId
  | .owned p => p.target.toList ++ p.label.counted?.toList
  | .weak w => w.label.counted?.toList
  | .label h => h.counted?.toList

/-- The owning edges that leave the value, one for each count it owns. -/
def edges (x : Cell) : List CellId :=
  match x.body with
  | .object o => o.links.flatMap linkEdges
  | .label l => l.memo.copies ++ l.forward.counted?.toList

/-! ### Changes of one part -/

def setColour (x : Cell) (colour : Colour) : Cell := { x with flags.colour := colour }

def setBuffered (x : Cell) (buffered : Bool) : Cell := { x with flags.buffered := buffered }

/-- Freezes the cell, and notes whether it has exactly one owner now. A frozen cell stays as it is. -/
def freeze (x : Cell) : Cell :=
  if x.frozen then x else { x with flags.freezing := if x.shared = 1 then .sole else .shared }

def thaw (x : Cell) : Cell := { x with flags.freezing := .thawed }

def mapObject (x : Cell) (f : Object → Object) : Cell :=
  match x.body with
  | .object o => { x with body := .object (f o) }
  | .label _ => x

def mapLabel (x : Cell) (f : Label → Label) : Cell :=
  match x.body with
  | .object _ => x
  | .label l => { x with body := .label (f l) }

end Cell

end LazyHeap
