import LazyHeap.Session.Basic

/-! Descriptions of pointers, labels and bookkeeping for people, and casts of plain values. -/
namespace LazyHeap

/-- A description: a name, and parts with their names in braces. -/
private def described (name : String) (parts : List (String × String)) : String :=
  name ++ " \x7b " ++ ", ".intercalate (parts.map fun p => p.1 ++ ": " ++ p.2) ++ " \x7d"

private def boolText (b : Bool) : String := if b then "true" else "false"

private def address : String := "<ptr>"

private def optional : Option String → String
  | some s => "Some(" ++ s ++ ")"
  | none => "None"

def Handle.describe : Handle → String
  | .empty => "LabelPtr(none)"
  | .root => "LabelPtr(root)"
  | .counted _ => "LabelPtr(" ++ address ++ ")"

/-- The flags by their long names; without any, a number that is shown like an address. -/
def Flags.describe (f : Flags) : String :=
  let names := f.names
  "HeaderFlags(" ++ (if names.isEmpty then address else " | ".intercalate names) ++ ")"

def Cell.describe (x : Cell) : String :=
  described "Header" [("type", "\"" ++ x.kind.name ++ "\""), ("shared", toString x.shared),
    ("weak", toString x.weak), ("flags", x.flags.describe)]

def Label.describe (l : Label) : String :=
  described "Label" [("frozen", boolText l.frozen), ("memo", toString l.memo.size),
    ("forward", l.forward.describe)]

def Settings.describe (s : Settings) : String :=
  described "CollectorSettings" [("threshold", toString s.threshold),
    ("auto_collect", boolText s.autoCollect), ("memo_capacity", toString s.memoCapacity)]

def RoundOutcome.describe (o : RoundOutcome) : String :=
  described "CollectionStats" [("candidates", toString o.candidates), ("roots", toString o.roots),
    ("collected", toString o.collected)]

namespace Datum

/-- A value as one that is held in a type of this name; integers wrap to the width of the type. -/
def holdAs (v : Datum) (type : String) : Except Refusal Datum :=
  match type, v with
  | "i64", .int n => .ok (.int n)
  | "i32", .int n => .ok (.int (n.bmod 0x100000000))
  | "u8", .int n => .ok (.int (n % 256))
  | "bool", .bool b => .ok (.bool b)
  | "string", .text s => .ok (.text s)
  | "ints", .ints ns => .ok (.ints ns)
  | "unit", _ => .ok .unit
  | "i64", _ | "i32", _ | "u8", _ | "bool", _ | "string", _ | "ints", _ => .error (.missing "v")
  | _, _ => .error .badType

def typeNames : List String := ["i64", "i32", "u8", "bool", "string", "ints", "unit"]

end Datum

namespace Attempt

/-- A plain value is cast only to the type in which it is held. -/
def castValue (args : Args) : Attempt Reply := do
  let source ← need "from" args.source
  match (args.value.getD .unit).holdAs source with
  | .error why => throw why
  | .ok v =>
    if args.value.isNone && source ≠ "unit" then throw (.missing "v")
    let type ← need "type" args.type
    if !Datum.typeNames.contains type then throw .badType
    return if type = source then .datum v else .nothing

def describe (args : Args) : Attempt Reply := do
  let text ← match ← need "kind" args.kind with
    | "slot" => do
      let (_, s) ← slotA args
      pure (described "Shared" [("object", address), ("label", s.pointer.label.describe)])
    | "raw" => do
      let (_, s) ← slotA args
      pure (described "RawShared" [("object", address), ("label", s.pointer.label.describe)])
    | "header" => do
      let (_, s) ← slotA args
      match s.pointer.target with
      | some o => pure (optional (some (← cell o).describe))
      | none => pure (optional none)
    | "weak" => do
      let (_, w) ← weakA args
      let alive ← match w.pointer.target with
        | some o => pure (← cell o).alive
        | none => pure false
      pure (described "Weak" [("object", address), ("alive", boolText alive)])
    | "raw_weak" => do
      let (_, w) ← weakA args
      pure (described "RawWeak" [("object", address), ("label", w.pointer.label.describe)])
    | "label" => do
      let (_, l) ← labelA args
      heap fixSettings
      pure l.describe
    | "label_ref" => do
      let (_, l) ← labelA args
      match l.cell? with
      | none => pure (optional none)
      | some c =>
        let own ← heap l.clone
        let text := ((← get).heap.label c).describe
        heap own.drop
        pure (optional (some text))
    | "ref" => do
      let _ ← borrowed (← need "a" args.a)
      pure ("Ref(" ++ address ++ ")")
    | "settings" =>
      pure (Settings.ofOptions args.threshold args.autoCollect args.memoCapacity).describe
    | "stats" => pure (RoundOutcome.describe ⟨0, 0, 0⟩)
    | _ => throw .badKind
  return .text text

end Attempt

end LazyHeap
