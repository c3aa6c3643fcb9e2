import LazyHeap.Object
import LazyHeap.Session.Request
import LazyHeap.Settings

/-! Replies: what a session says in answer to a request. -/
namespace LazyHeap

structure HeaderView where
  type : String
  shared : Nat
  weak : Nat
  reachable : Nat
  bits : Nat
  colour : String
  frozen : Bool
  frozenSole : Bool
  destroyed : Bool
  alive : Bool
  unique : Bool

/-- One field of an object, as it is shown: a line, or a line for each link. -/
inductive FieldView where
  | one (line : String)
  | many (lines : List String)

structure NodeView where
  serial : Nat
  value : Option Int
  counts : List Nat
  flags : String
  fields : List (FieldName × FieldView)

structure LabelView where
  line : String
  /-- The serials of the copies in the memo, in order. -/
  copies : List Nat
  forward : String

structure GraphView where
  nodes : List NodeView
  labels : List LabelView

/-- What a program left behind: exit code, standard output, first line of standard error. -/
structure ProgramResult where
  code : Nat
  out : String
  err : String
deriving DecidableEq

inductive Reply where
  | nothing
  | flag (value : Bool)
  | number (value : Int)
  | text (value : String)
  | datum (value : Datum)
  | list (items : List Reply)
  | header (view : HeaderView)
  | graph (view : GraphView)
  | settings (value : Settings)
  | settingsError (why : SettingsError)
  | program (result : ProgramResult)
  | refused (why : Refusal)

namespace Reply

def ofNat (n : Nat) : Reply := .number n

def ofSerial : Option Nat → Reply
  | some n => .number n
  | none => .nothing

def ofNats (ns : List Nat) : Reply := .list (ns.map ofNat)

end Reply

end LazyHeap
