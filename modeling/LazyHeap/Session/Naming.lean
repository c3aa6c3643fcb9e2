import LazyHeap.Session.Basic

/-!
How a session shows what it holds. A label is shown by its number, and gets one when it is first shown; a
pointer is shown by its target, the target's counts and flags, and its label.
-/
namespace LazyHeap
namespace Session

/-- The number of a label, counted from one, if it has been shown. -/
def number? (s : Session) (label : CellId) : Option Nat :=
  (s.shown.toList.findIdx? (· = label)).map (· + 1)

private def words (ws : List String) : String := " ".intercalate ws

private def bit (b : Bool) : String := if b then "1" else "0"

end Session

open Session in
/-- The name of a label: the root and the empty handle have names of their own. -/
def labelName : Handle → SessionM String
  | .empty => return "none"
  | .root => return "root"
  | .counted c => do
    let s ← get
    match s.number? c with
    | some n => return "L" ++ toString n
    | none =>
      set { s with shown := s.shown.push c }
      return "L" ++ toString (s.shown.size + 1)

def shownCell (c : CellId) : SessionM Cell := return (← get).heap.cell c

private def serialText (x : Cell) : String :=
  toString ((x.object?.map (·.serial)).getD 0)

open Session in
def pointerLine (p : Pointer) : SessionM String := do
  match p.target with
  | none => return words ["nil", ← labelName p.label]
  | some o =>
    let x ← shownCell o
    return words [serialText x, toString x.shared, toString x.weak, x.flags.letters,
      ← labelName p.label]

open Session in
def weakLine (w : WeakPointer) : SessionM String := do
  match w.target with
  | none => return words ["nil", ← labelName w.label]
  | some o =>
    let x ← shownCell o
    return words [serialText x, bit x.alive, x.flags.letters, ← labelName w.label]

open Session in
def labelLine (l : Handle) : SessionM String := do
  let name ← labelName l
  let label : CellId → SessionM Label := fun c => return (← get).heap.label c
  match l with
  | .empty => return name
  | .root =>
    let s ← label rootCell
    return words [name, bit s.frozen, toString s.memo.size]
  | .counted c =>
    let x ← shownCell c
    let s ← label c
    return words [name, toString x.shared, toString x.weak, x.flags.letters, bit s.frozen,
      toString s.memo.size]

open Session in
def borrowLine (o : CellId) : SessionM String := do
  let x ← shownCell o
  return words [serialText x, toString x.shared, toString x.weak, x.flags.letters]

open Session in
def linkLine (target : Option CellId) (l : Handle) (weak : Bool) : SessionM String := do
  match target with
  | none => return words ["nil", ← labelName l]
  | some o =>
    let x ← shownCell o
    let name ← labelName l
    return words (if weak then [serialText x, bit x.alive, name] else [serialText x, name])

/-- The lines of everything that has a name. Labels get their numbers in this order: slots, weak pointers,
labels, borrows. -/
def allLines : SessionM (NameMap String) := do
  let s ← get
  let slots ← s.slots.mapM fun (name, t) => return (name, ← pointerLine t.pointer)
  let weaks ← s.weaks.mapM fun (name, w) => return ("~" ++ name, ← weakLine w.pointer)
  let labels ← s.labels.mapM fun (name, l) => return ("@" ++ name, ← labelLine l)
  let borrows ← s.borrows.mapM fun (name, o) => return ("&" ++ name, ← borrowLine o)
  return (slots ++ weaks ++ labels ++ borrows).foldl (fun m e => m.insert e.1 e.2) []

end LazyHeap
