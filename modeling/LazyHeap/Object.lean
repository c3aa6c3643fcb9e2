import LazyHeap.Pointer

/-! Objects: a serial number, a value, and fields behind locks. -/
namespace LazyHeap

inductive FieldName where
  | next
  | alt
  | kids
  | any
  | back
  | ctx
  | pin
  | lazy
  | prev
  | echo
deriving DecidableEq

def FieldName.text : FieldName → String
  | .next => "next"
  | .alt => "alt"
  | .kids => "kids"
  | .any => "any"
  | .back => "back"
  | .ctx => "ctx"
  | .pin => "pin"
  | .lazy => "lazy"
  | .prev => "prev"
  | .echo => "echo"

/-- A field holds a list of links: one for a plain pointer, at most one for an optional pointer, any
number for a list. It has a lock, and while the lock is held nobody else may look inside. -/
structure Field where
  name : FieldName
  locked : Bool
  links : List Link
deriving DecidableEq

structure Object where
  kind : ObjectKind
  serial : Nat
  value : Int
  fields : List Field
deriving DecidableEq

namespace Object

private def nilField (name : FieldName) : Field := ⟨name, false, [.owned .nil]⟩

/-- A fresh node: nil pointers, no children, an empty label handle. -/
def node (serial : Nat) (value : Int) : Object :=
  ⟨.node, serial, value,
    [nilField .next, nilField .alt, ⟨.kids, false, []⟩, ⟨.any, false, []⟩,
     ⟨.back, false, [.weak .nil]⟩, ⟨.ctx, false, [.label .empty]⟩]⟩

def leaf (serial : Nat) (value : Int) : Object :=
  ⟨.leaf, serial, value, [nilField .pin, nilField .lazy]⟩

def state (serial : Nat) (value : Int) : Object :=
  ⟨.state, serial, value, [nilField .prev, nilField .echo]⟩

def field? (o : Object) (name : FieldName) : Option Field :=
  o.fields.find? (·.name = name)

def updateField (o : Object) (name : FieldName) (f : Field → Field) : Object :=
  { o with fields := o.fields.map fun field => if field.name = name then f field else field }

def links (o : Object) : List Link := o.fields.flatMap (·.links)

def locked (o : Object) : Bool := o.fields.any (·.locked)

def emptied (o : Object) : Object :=
  { o with fields := o.fields.map fun field => { field with links := [] } }

end Object

/-- Whether recycling rebinds the fields to the new label. A leaf keeps its labels. -/
def ObjectKind.rebinds : ObjectKind → Bool
  | .leaf => false
  | _ => true

/-- Whether finishing an object follows the field. A leaf leaves its lazy pointer alone. -/
def ObjectKind.finishes : ObjectKind → FieldName → Bool
  | .leaf, name => name = .pin
  | _, _ => true

end LazyHeap
