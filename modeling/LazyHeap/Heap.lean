import LazyHeap.Cell
import LazyHeap.Fault
import LazyHeap.Settings

/-!
The heap: cells, the collector's candidates and totals, and the settings. Each operation on cells has a
lemma that says what it does to `cell` and to `size`.
-/
namespace LazyHeap

/-- What happened to the values, newest first in the log of a heap. -/
inductive Event where
  | copied (source copy : Nat)
  | dropped (serial : Nat)
  | recycled (serial : Nat)
deriving DecidableEq

/-- What one round did. Roots are the candidates that were still possible roots when it began. -/
structure RoundOutcome where
  candidates : Nat
  roots : Nat
  collected : Nat
deriving DecidableEq

structure Totals where
  rounds : Nat
  candidates : Nat
  collected : Nat
deriving DecidableEq

def Totals.add (t : Totals) (o : RoundOutcome) : Totals :=
  ⟨t.rounds + 1, t.candidates + o.candidates, t.collected + o.collected⟩

structure Heap where
  cells : Array Cell
  /-- Possible roots of garbage cycles, in the order in which they were buffered. -/
  candidates : Array CellId
  totals : Totals
  /-- The settings, once they are fixed. -/
  settings : Option Settings
  /-- The labels that clones are bound to, innermost first. -/
  scopes : List Handle
  /-- A round is under way. -/
  inRound : Bool
  /-- The serial number of the next object. -/
  nextSerial : Nat
  log : List Event
deriving DecidableEq

namespace Heap

def initial : Heap where
  cells := #[Cell.fresh (.label .blank) none]
  candidates := #[]
  totals := ⟨0, 0, 0⟩
  settings := none
  scopes := []
  inRound := false
  nextSerial := 1
  log := []

def size (h : Heap) : Nat := h.cells.size

def cell (h : Heap) (c : CellId) : Cell := (h.cells[c]?).getD .void

def update (h : Heap) (c : CellId) (f : Cell → Cell) : Heap :=
  { h with cells := h.cells.modify c f }

def push (h : Heap) (x : Cell) : Heap := { h with cells := h.cells.push x }

def record (h : Heap) (e : Event) : Heap := { h with log := e :: h.log }

def settingsInForce (h : Heap) : Settings := h.settings.getD {}

/-- Fixes the settings: from now on they cannot change. -/
def fixSettings (h : Heap) : Heap := { h with settings := some h.settingsInForce }

def label (h : Heap) (c : CellId) : Label := (h.cell c).label?.getD .blank

@[simp] theorem size_update (h : Heap) (c : CellId) (f : Cell → Cell) :
    (h.update c f).size = h.size := by
  simp [size, update]

@[simp] theorem candidates_update (h : Heap) (c : CellId) (f : Cell → Cell) :
    (h.update c f).candidates = h.candidates := rfl

theorem cell_update_self (h : Heap) {c : CellId} (f : Cell → Cell) (hc : c < h.size) :
    (h.update c f).cell c = f (h.cell c) := by
  have hc' : c < h.cells.size := hc
  simp [cell, update, Array.getElem_modify, hc']

theorem cell_update_ne (h : Heap) {c d : CellId} (f : Cell → Cell) (hne : d ≠ c) :
    (h.update c f).cell d = h.cell d := by
  simp [cell, update, Array.getElem?_modify, Ne.symm hne]

theorem cell_of_size_le (h : Heap) {c : CellId} (hc : h.size ≤ c) : h.cell c = .void := by
  have hc' : h.cells.size ≤ c := hc
  simp [cell, hc']

@[simp] theorem size_push (h : Heap) (x : Cell) : (h.push x).size = h.size + 1 := by
  simp [size, push]

theorem cell_push_self (h : Heap) (x : Cell) : (h.push x).cell h.size = x := by
  simp [cell, push, size]

theorem cell_push_of_lt (h : Heap) (x : Cell) {c : CellId} (hc : c < h.size) :
    (h.push x).cell c = h.cell c := by
  have hc' : c < h.cells.size := hc
  simp [cell, push, hc', Array.getElem?_push, Nat.ne_of_lt hc']

end Heap

/-- Computations that change the heap, and that a fault ends. -/
abbrev HeapM := StateT Heap (Except Fault)

end LazyHeap
