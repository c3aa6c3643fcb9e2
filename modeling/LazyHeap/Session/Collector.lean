import LazyHeap.Session.Basic

/-! What a session does with the collector and its settings. -/
namespace LazyHeap

/-- Installs settings. They can be installed once, and only before they are fixed by use. -/
def installSettings (s : Settings) : HeapM (Except SettingsError Unit) := do
  match s.validate with
  | .error e => return .error e
  | .ok () =>
    let h ← get
    match h.settings with
    | some _ => return .error .installed
    | none =>
      set { h with settings := some s }
      return .ok ()

namespace Attempt

def givenSettings (args : Args) : Settings :=
  .ofOptions args.threshold args.autoCollect args.memoCapacity

def outcomeReply (o : RoundOutcome) : Reply :=
  .ofNats [o.candidates, o.roots, o.collected]

def verdict : Except SettingsError Unit → Reply
  | .ok () => .text "ok"
  | .error e => .settingsError e

def collector (args : Args) : CollectorOp → Attempt Reply
  | .collect => return outcomeReply (← heap collectCycles)
  | .collectIfDue => do
    match ← heap collectIfDue with
    | some o => return outcomeReply o
    | none => return .nothing
  | .candidates => return .ofNat (← get).heap.candidates.size
  | .totals => do
    let t := (← get).heap.totals
    return .ofNats [t.rounds, t.candidates, t.collected]
  | .due => do
    let n ← need "n" args.times
    return .flag ((givenSettings args).due n)
  | .settingsFrom => do
    let s := givenSettings args
    return .list [.settings s, verdict s.validate]
  | .configure => return verdict (← heap (installSettings (givenSettings args)))
  | .settings => do
    heap fixSettings
    return .settings (← get).heap.settingsInForce

end Attempt

end LazyHeap
