import LazyHeap.Plan
import LazyHeap.Random

/-!
The command line of the particle simulation: how its arguments become a plan, and what is wrong with those that are not
understood.
-/
namespace LazyHeap.CommandLine

inductive NumberOption where
  | particles
  | steps
  | seed
  | threshold
deriving DecidableEq

inductive Switch where
  | autoCollect
  | cycles
  | help
  | version
deriving DecidableEq

def NumberOption.name : NumberOption → String
  | .particles => "particles"
  | .steps => "steps"
  | .seed => "seed"
  | .threshold => "threshold"

def NumberOption.usage (o : NumberOption) : String :=
  "--" ++ o.name ++ " <" ++ o.name.toUpper ++ ">"

def Switch.name : Switch → String
  | .autoCollect => "auto-collect"
  | .cycles => "cycles"
  | .help => "help"
  | .version => "version"

def NumberOption.all : List NumberOption := [.particles, .steps, .seed, .threshold]

def Switch.all : List Switch := [.autoCollect, .cycles, .help, .version]

inductive NumberError where
  | empty
  | invalidDigit
  | tooLarge
deriving DecidableEq

def NumberError.message : NumberError → String
  | .empty => "cannot parse integer from empty string"
  | .invalidDigit => "invalid digit found in string"
  | .tooLarge => "number too large to fit in target type"

/-- Reads digits from left to right; the first thing that is wrong is what is reported. -/
def readDigits (acc : Nat) : List Char → Except NumberError Nat
  | [] => .ok acc
  | c :: cs =>
    if c.isDigit then
      let n := acc * 10 + (c.toNat - '0'.toNat)
      if n < Random.wideBound then readDigits n cs else .error .tooLarge
    else .error .invalidDigit

/-- Reads a number of 64 bits. A plus sign may stand before the digits. -/
def readNumber (s : String) : Except NumberError Nat :=
  match s.toList with
  | [] => .error .empty
  | ['+'] => .error .invalidDigit
  | '+' :: cs => readDigits 0 cs
  | cs => readDigits 0 cs

inductive UsageError where
  | unexpected (argument : String)
  | unexpectedValue (switch : Switch) (value : String)
  | valueMissing (option : NumberOption)
  | repeatedOption (option : NumberOption)
  | repeatedSwitch (switch : Switch)
  | invalidValue (option : NumberOption) (value : String) (why : NumberError)
deriving DecidableEq

def UsageError.message : UsageError → String
  | .unexpected a => "error: unexpected argument '" ++ a ++ "' found"
  | .unexpectedValue s v =>
    "error: unexpected value '" ++ v ++ "' for '--" ++ s.name ++ "' found; no more were expected"
  | .valueMissing o => "error: a value is required for '" ++ o.usage ++ "' but none was supplied"
  | .repeatedOption o => "error: the argument '" ++ o.usage ++ "' cannot be used multiple times"
  | .repeatedSwitch s => "error: the argument '--" ++ s.name ++ "' cannot be used multiple times"
  | .invalidValue o v why =>
    "error: invalid value '" ++ v ++ "' for '" ++ o.usage ++ "': " ++ why.message

structure Options where
  numbers : List (NumberOption × Nat) := []
  switches : List Switch := []

/-- Why reading the arguments stops early. -/
inductive Stop where
  | usage (why : UsageError)
  | help
  | version
deriving DecidableEq

namespace Options

def number? (o : Options) (n : NumberOption) : Option Nat := o.numbers.lookup n

def setNumber (o : Options) (n : NumberOption) (text : String) : Except Stop Options :=
  if (o.number? n).isSome then .error (.usage (.repeatedOption n))
  else match readNumber text with
    | .ok v => .ok { o with numbers := (n, v) :: o.numbers }
    | .error why => .error (.usage (.invalidValue n text why))

def setSwitch (o : Options) (s : Switch) : Except Stop Options :=
  match s with
  | .help => .error .help
  | .version => .error .version
  | s =>
    if o.switches.contains s then .error (.usage (.repeatedSwitch s))
    else .ok { o with switches := s :: o.switches }

/-- The switch that a cluster of letters begins with. Both of them end the reading. -/
private def shortSwitch? : List Char → Option Switch
  | 'h' :: _ => some .help
  | 'V' :: _ => some .version
  | _ => none

private inductive Word where
  | escape
  | long (name : String) (value : Option String)
  | short (letters : List Char)
  | plain

private def classify (word : String) : Word :=
  match word.toList with
  | ['-', '-'] => .escape
  | '-' :: '-' :: cs =>
    let name := cs.takeWhile (· ≠ '=')
    let rest := cs.dropWhile (· ≠ '=')
    .long (String.ofList name) (if rest.isEmpty then none else some (String.ofList (rest.drop 1)))
  | '-' :: c :: cs => .short (c :: cs)
  | _ => .plain

/-- An option whose value is still to be looked at: its text has not come yet, or has. -/
structure Pending where
  option : NumberOption
  text : Option String

/-- Looks at the value that is pending. An option without a text lacks its value. -/
private def settle (o : Options) : Option Pending → Except Stop Options
  | none => .ok o
  | some ⟨n, none⟩ => .error (.usage (.valueMissing n))
  | some ⟨n, some text⟩ => o.setNumber n text

/-- Reads the arguments from left to right. A value is looked at when the next option that is known begins, or
at the end; an argument that is not understood is reported before that. After an escape nothing is an option
any more. -/
def read (o : Options) (pending : Option Pending) (escaped : Bool) :
    List String → Except Stop Options
  | [] => o.settle pending
  | word :: rest => do
    if escaped then throw (.usage (.unexpected word))
    match classify word with
    | .escape => o.read pending true rest
    | .long name value =>
      match NumberOption.all.find? (·.name = name), Switch.all.find? (·.name = name), value with
      | some n, _, none => (← o.settle pending).read (some ⟨n, none⟩) false rest
      | some n, _, some v => (← (← o.settle pending).setNumber n v).read none false rest
      | none, some s, none => (← (← o.settle pending).setSwitch s).read none false rest
      | none, some s, some v => throw (.usage (.unexpectedValue s v))
      | none, none, _ => throw (.usage (.unexpected ("--" ++ name)))
    | .short letters =>
      match shortSwitch? letters with
      | some s => (← (← o.settle pending).setSwitch s).read none false rest
      | none => throw (.usage (.unexpected ("-" ++ String.ofList (letters.take 1))))
    | .plain =>
      match pending with
      | some ⟨n, none⟩ => o.read (some ⟨n, some word⟩) false rest
      | _ => throw (.usage (.unexpected word))

end Options

/-- What is asked for; what was not said is as always. -/
def Options.plan (o : Options) : Plan :=
  let base : Plan := {}
  { particles := (o.number? .particles).getD base.particles
    steps := (o.number? .steps).getD base.steps
    seed := (o.number? .seed).getD base.seed
    threshold := o.number? .threshold
    autoCollect := o.switches.contains .autoCollect
    cycles := o.switches.contains .cycles }

def generator : Particles.Generator where
  State := Random.Stream
  ofSeed seed := .ofSeed seed.toUInt64
  upTo := Random.Stream.upTo

def versionText : String := "cowgraph 0.1.0\n"

def helpText : String := "Usage: cowgraph [OPTIONS]\n"

def run (args : List String) : ProgramResult :=
  match Options.read {} none false args with
  | .ok o => o.plan.run (o.plan.draws generator)
  | .error .version => ⟨0, versionText, ""⟩
  | .error .help => ⟨0, helpText, ""⟩
  | .error (.usage why) => ⟨2, "", why.message⟩

end LazyHeap.CommandLine
