/-! The state flags of a cell: whether it is frozen, and what the collector knows about it. -/
namespace LazyHeap

/-- Trial-deletion colour of a cell: live or not yet seen, seen by the mark phase, found to be garbage,
or a possible root of a garbage cycle. -/
inductive Colour where
  | black
  | gray
  | white
  | purple
deriving DecidableEq

/-- A frozen object remembers whether it had exactly one owner when it was frozen. -/
inductive Freezing where
  | thawed
  | shared
  | sole
deriving DecidableEq

structure Flags where
  freezing : Freezing := .thawed
  /-- The cell sits in the candidate buffer. -/
  buffered : Bool := false
  colour : Colour := .black
  /-- A round has claimed the cell: counts into it no longer matter. -/
  collected : Bool := false
  /-- The value is gone. -/
  destroyed : Bool := false
deriving DecidableEq

namespace Flags

def frozen (f : Flags) : Bool := f.freezing ≠ .thawed

def frozenSole (f : Flags) : Bool := f.freezing = .sole

/-- The set flags, in the order of their bits: letter, bit and long name. -/
def table (f : Flags) : List (Bool × Char × Nat × String) :=
  [(f.frozen, 'F', 1, "FROZEN"),
   (f.frozenSole, 'U', 2, "FROZEN_UNIQUE"),
   (f.buffered, 'B', 4, "BUFFERED"),
   (f.colour = .gray, 'G', 8, "GRAY"),
   (f.colour = .white, 'W', 16, "WHITE"),
   (f.colour = .purple, 'P', 32, "PURPLE"),
   (f.collected, 'C', 64, "COLLECTED"),
   (f.destroyed, 'D', 128, "DESTROYED")]

/-- One letter for each set flag, a dash if none is set. -/
def letters (f : Flags) : String :=
  let set := f.table.filterMap fun row => if row.1 then some row.2.1 else none
  if set.isEmpty then "-" else String.ofList set

def bits (f : Flags) : Nat :=
  f.table.foldr (fun row n => (if row.1 then row.2.2.1 else 0) + n) 0

def names (f : Flags) : List String :=
  f.table.filterMap fun row => if row.1 then some row.2.2.2 else none

end Flags

def Colour.name : Colour → String
  | .black => "black"
  | .gray => "gray"
  | .white => "white"
  | .purple => "purple"

end LazyHeap
