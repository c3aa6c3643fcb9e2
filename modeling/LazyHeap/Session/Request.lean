import LazyHeap.Kind

/-!
Requests: what a session can be asked to do, and why it may decline. A request names an operation and gives
its operands; an operand that is missing is found out when it is needed.
-/
namespace LazyHeap

/-- A plain value, for the operations that deal in such values. -/
inductive Datum where
  | unit
  | bool (value : Bool)
  | int (value : Int)
  | text (value : String)
  | ints (values : List Int)
deriving DecidableEq

inductive Refusal where
  | missing (operand : String)
  | noSlot
  | noWeak
  | noLabel
  | noRef
  | nil
  | badType
  | badMode
  | badKind
  | badDo
  | typeMismatch
  | noField
  | sameSlot
  | refused
  | locked
  | unknownOp
  | missingOp
deriving DecidableEq

def Refusal.message : Refusal → String
  | .missing operand => "missing " ++ operand
  | .noSlot => "no slot"
  | .noWeak => "no weak"
  | .noLabel => "no label"
  | .noRef => "no ref"
  | .nil => "nil"
  | .badType => "bad type"
  | .badMode => "bad mode"
  | .badKind => "bad kind"
  | .badDo => "bad do"
  | .typeMismatch => "type mismatch"
  | .noField => "no field"
  | .sameSlot => "same slot"
  | .refused => "refused"
  | .locked => "locked"
  | .unknownOp => "unknown op"
  | .missingOp => "missing op"

inductive PointerOp where
  | new
  | newRecycled
  | make
  | nil
  | clone
  | erase
  | cast
  | castOptional
  | drop
  | assign
  | assignFrom
  | take
  | replace
  | query
  | isFrozen
  | sameTarget
  | count
  | bind
  | mapGet
  | mapPull
  | mapCopy
deriving DecidableEq

/-- Operations that resolve pointers, and those that reach into objects. -/
inductive ObjectOp where
  | pull
  | read
  | get
  | releaseRef
  | refValue
  | value
  | setValue
  | link
  | unlink
  | follow
  | rawPull
  | rawResolve
  | freeze
  | finish
  | deepClone
deriving DecidableEq

inductive WeakOp where
  | nil
  | downgrade
  | pull
  | clone
  | query
  | assign
  | assignPointer
  | take
  | drop
deriving DecidableEq

inductive LabelOp where
  | spawn
  | root
  | none
  | ofSlot
  | clone
  | replace
  | release
  | take
  | init
  | drop
  | fork
  | freeze
  | copy
  | getForward
  | existingForward
  | same
  | query
  | isRoot
  | info
  | hold
deriving DecidableEq

inductive HeaderOp where
  | view
  | change
  | owner
  | census
  | censusFinish
  | censusPointer
deriving DecidableEq

inductive CollectorOp where
  | collect
  | collectIfDue
  | candidates
  | totals
  | due
  | settingsFrom
  | configure
  | settings
deriving DecidableEq

/-- Operations that only look, and those that need no heap. -/
inductive ViewOp where
  | graph
  | debug
  | castValue
  | program
deriving DecidableEq

inductive Op where
  | pointer (op : PointerOp)
  | object (op : ObjectOp)
  | weak (op : WeakOp)
  | label (op : LabelOp)
  | header (op : HeaderOp)
  | collector (op : CollectorOp)
  | view (op : ViewOp)
deriving DecidableEq

inductive Compound where
  | locked
  | scope
  | repeat
deriving DecidableEq

def Op.table : List (String × Op) :=
  [("new", .pointer .new), ("new_recycled", .pointer .newRecycled), ("make", .pointer .make),
   ("nil", .pointer .nil), ("clone", .pointer .clone), ("erase", .pointer .erase),
   ("cast", .pointer .cast), ("cast_optional", .pointer .castOptional), ("drop", .pointer .drop),
   ("assign", .pointer .assign), ("assign_from", .pointer .assignFrom), ("take", .pointer .take),
   ("replace", .pointer .replace), ("query", .pointer .query), ("is_frozen", .pointer .isFrozen),
   ("ptr_eq", .pointer .sameTarget), ("count", .pointer .count), ("bind", .pointer .bind),
   ("map_get", .pointer .mapGet), ("map_pull", .pointer .mapPull), ("map_copy", .pointer .mapCopy),
   ("pull", .object .pull), ("read", .object .read), ("get", .object .get),
   ("release_ref", .object .releaseRef), ("ref_val", .object .refValue), ("val", .object .value),
   ("set", .object .setValue), ("link", .object .link), ("unlink", .object .unlink),
   ("follow", .object .follow), ("raw_pull", .object .rawPull),
   ("raw_resolve", .object .rawResolve), ("freeze", .object .freeze), ("finish", .object .finish),
   ("deep_clone", .object .deepClone),
   ("weak_nil", .weak .nil), ("downgrade", .weak .downgrade), ("weak_from", .weak .downgrade),
   ("weak_pull", .weak .pull), ("weak_clone", .weak .clone), ("weak_query", .weak .query),
   ("weak_assign", .weak .assign), ("weak_assign_shared", .weak .assignPointer),
   ("weak_take", .weak .take), ("drop_weak", .weak .drop),
   ("spawn", .label .spawn), ("root", .label .root), ("none", .label .none),
   ("label_of", .label .ofSlot), ("label_clone", .label .clone), ("label_replace", .label .replace),
   ("label_release", .label .release), ("label_take", .label .take), ("label_init", .label .init),
   ("drop_label", .label .drop), ("fork", .label .fork), ("label_freeze", .label .freeze),
   ("label_copy", .label .copy), ("get_forward", .label .getForward),
   ("pull_forward", .label .existingForward), ("label_eq", .label .same),
   ("label_query", .label .query), ("is_root", .label .isRoot), ("label_info", .label .info),
   ("label_hold", .label .hold),
   ("hdr", .header .view), ("raw", .header .change), ("owner", .header .owner),
   ("census", .header .census), ("census_finish", .header .censusFinish),
   ("census_ptr", .header .censusPointer),
   ("collect", .collector .collect), ("maybe_collect", .collector .collectIfDue),
   ("candidates", .collector .candidates), ("stats", .collector .totals),
   ("collection_due", .collector .due), ("settings_from", .collector .settingsFrom),
   ("configure", .collector .configure), ("settings", .collector .settings),
   ("graph", .view .graph), ("debug", .view .debug), ("cast_value", .view .castValue),
   ("cli", .view .program)]

def Compound.table : List (String × Compound) :=
  [("locked", .locked), ("scope", .scope), ("repeat", .repeat)]

/-- The operands of a request. Those that are absent, or not of the right sort, are none. -/
structure Args where
  a : Option String
  b : Option String
  dest : Option String
  swapWith : Option String
  type : Option String
  field : Option String
  mode : Option String
  how : Option String
  keep : Option String
  within : Option String
  label : Option String
  weak : Option String
  change : Option String
  kind : Option String
  source : Option String
  value : Option Datum
  index : Option Nat
  times : Option Nat
  tryLocks : Option Bool
  threshold : Option Nat
  autoCollect : Option Bool
  memoCapacity : Option Nat
  words : Option (List String)

inductive Request where
  | plain (op : Op) (args : Args)
  | compound (op : Compound) (args : Args) (body : List Request)
  | unknown
  | unnamed

instance : Inhabited Request := ⟨.unnamed⟩

def Request.ofName (name : Option String) (args : Args) (body : List Request) : Request :=
  match name with
  | none => .unnamed
  | some name =>
    match Op.table.lookup name, Compound.table.lookup name with
    | some op, _ => .plain op args
    | none, some op => .compound op args body
    | none, none => .unknown

/-- What may run while a field is locked: requests that neither resolve nor reach into objects. -/
def Op.runsLocked : Op → Bool
  | .pointer op => op ∈ [.new, .nil, .clone, .drop, .query, .count, .take, .assign]
  | .object op => op = .releaseRef
  | .weak op => op ∈ [.downgrade, .query, .drop]
  | .label op => op ∈ [.spawn, .drop]
  | .header op => op ∈ [.view, .census, .change]
  | .collector op => op ∈ [.collect, .collectIfDue, .candidates, .totals]
  | .view op => op = .graph

end LazyHeap
