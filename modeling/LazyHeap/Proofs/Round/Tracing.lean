import LazyHeap.Round.Basic

/-!
What a traversal traces. A pass traces the cells on its stack that it neither passes over nor shuts: it takes their
locks and visits their edges. A visit may begin another traversal, which traces cells as well.
-/
namespace LazyHeap

/-- What a visit of a pass to a cell traces by itself, given the heap in which it takes place. -/
abbrev Inner := Heap → CellId → CellId → Prop

namespace Pass

/-- A traversal passes over a cell: it has no value, or it is shut. -/
def Skips (s : Survey) (c : CellId) : Prop := ((s.heap.cell c).destroyed || s.shut.contains c) = true

/-- The cells that a traversal traces until its stack is empty. A tolerant one traces no cell that is locked; any other
one takes the locks of the cell on top whether somebody holds them or not. -/
inductive Traces (p : Pass) (inner : Inner) (tolerant : Bool) : Survey → List CellId → CellId → Prop where
  | top {s : Survey} {c : CellId} {rest : List CellId} : ¬ Skips s c →
    (tolerant = true → (s.heap.cell c).locked = false) → Traces p inner tolerant s (c :: rest) c
  | skip {s : Survey} {c x : CellId} {rest : List CellId} : Skips s c → Traces p inner tolerant s rest x →
    Traces p inner tolerant s (c :: rest) x
  | shut {s : Survey} {c x : CellId} {rest : List CellId} : ¬ Skips s c → (s.heap.cell c).locked = true →
    tolerant = true → Traces p inner tolerant { s with shut := c :: s.shut } rest x → Traces p inner tolerant s (c :: rest) x
  | inner {s : Survey} {c d x : CellId} {rest pre post found : List CellId} {h : Heap} : ¬ Skips s c →
    (s.heap.cell c).locked = false → (s.heap.cell c).edges = pre ++ d :: post →
    p.visitAll s.heap [] pre = .ok (h, found) → inner h d x → Traces p inner tolerant s (c :: rest) x
  | later {s : Survey} {c x : CellId} {rest found : List CellId} {h : Heap} : ¬ Skips s c →
    (s.heap.cell c).locked = false → p.visitAll s.heap [] (s.heap.cell c).edges = .ok (h, found) →
    Traces p inner tolerant { s with heap := h, trail := found ++ s.trail } (found ++ rest) x →
    Traces p inner tolerant s (c :: rest) x

/-- The cells that are traced while some cells are entered in turn. -/
inductive TracesAll (p : Pass) (inner : Inner) : Survey → List CellId → CellId → Prop where
  | inner {s : Survey} {c x : CellId} {cs : List CellId} : inner s.heap c x → TracesAll p inner s (c :: cs) x
  | here {s : Survey} {c x : CellId} {cs found : List CellId} {h : Heap} : p.visitAll s.heap [] [c] = .ok (h, found) →
    Traces p inner false { s with heap := h, trail := found ++ s.trail } found x → TracesAll p inner s (c :: cs) x
  | later {s s' : Survey} {c x : CellId} {cs : List CellId} : p.enter s c = .ok s' → TracesAll p inner s' cs x →
    TracesAll p inner s (c :: cs) x

end Pass

def Inner.none : Inner := fun _ _ _ => False

/-- A scanned edge to a gray cell that is live traces all that is reached from there. -/
def Inner.scan (shut : List CellId) : Inner := fun h c x =>
  (h.cell c).flags.colour = .gray ∧ (0 < (h.cell c).reachable || shut.contains c) = true ∧
    reachPass.Traces .none false ⟨h.update c (·.setColour .black), shut, []⟩ [c] x

/-- The cells that are traced to the end while some candidates are marked from. -/
inductive MarkTraces : Survey → List CellId → CellId → Prop where
  | here {s : Survey} {c x : CellId} {cs : List CellId} : (s.heap.cell c).possibleRoot = true →
    markPass.Traces .none true { s with heap := s.heap.update c Cell.beginMark } [c] x → MarkTraces s (c :: cs) x
  | later {s s' : Survey} {c x : CellId} {cs : List CellId} : (s.heap.cell c).possibleRoot = true →
    markPass.run true { s with heap := s.heap.update c Cell.beginMark } [c] = .ok s' → MarkTraces s' cs x →
    MarkTraces s (c :: cs) x
  | skip {s : Survey} {c x : CellId} {cs : List CellId} : (s.heap.cell c).possibleRoot = false → MarkTraces s cs x →
    MarkTraces s (c :: cs) x

/-! ### In what order, and how often -/

namespace Pass

variable (p : Pass) (top : CellId → List CellId) (note : Heap → CellId → List CellId)

def logAll (h : Heap) : List CellId → List CellId
  | [] => []
  | c :: cs => note h c ++ match p.visit h c with
    | .error _ => []
    | .ok (h', _) => logAll h' cs

/-- What is noted of a traversal that waits for locks: of each cell when it is traced, and then of the visits to its
edges. -/
def log (s : Survey) (stack : List CellId) : List CellId :=
  match stack with
  | [] => []
  | c :: rest =>
    if (s.heap.cell c).destroyed || s.shut.contains c then log s rest
    else if (s.heap.cell c).locked then []
    else top c ++ (p.logAll note s.heap (s.heap.cell c).edges ++
      match _found : p.visitAll s.heap [] (s.heap.cell c).edges with
      | .error _ => []
      | .ok (h, found) => log { s with heap := h, trail := found ++ s.trail } (found ++ rest))
termination_by 2 * s.heap.count p.pending + stack.length
decreasing_by
  all_goals simp only [List.length_cons, List.length_append]
  · omega
  · have := p.visitAll_pending_le _found
    omega

def logEnter (s : Survey) (c : CellId) : List CellId :=
  p.logAll note s.heap [c] ++ match p.visitAll s.heap [] [c] with
    | .error _ => []
    | .ok (h, found) => p.log top note { s with heap := h, trail := found ++ s.trail } found

def logEach (s : Survey) : List CellId → List CellId
  | [] => []
  | c :: cs => p.logEnter top note s c ++ match p.enter s c with
    | .error _ => []
    | .ok s' => logEach s' cs

variable {p top note} {s : Survey} {c : CellId} {rest found : List CellId} {h : Heap}

theorem log_skip (hskip : ((s.heap.cell c).destroyed || s.shut.contains c) = true) :
    p.log top note s (c :: rest) = p.log top note s rest := by
  rw [log, if_pos hskip]

theorem log_step (hskip : ((s.heap.cell c).destroyed || s.shut.contains c) = false) (hl : (s.heap.cell c).locked = false)
    (hv : p.visitAll s.heap [] (s.heap.cell c).edges = .ok (h, found)) :
    p.log top note s (c :: rest) = top c ++ (p.logAll note s.heap (s.heap.cell c).edges ++
      p.log top note { s with heap := h, trail := found ++ s.trail } (found ++ rest)) := by
  rw [log, if_neg (by rw [hskip]; decide), if_neg (by rw [hl]; decide)]
  congr 2
  split
  · next hv' =>
    rw [hv] at hv'
    cases hv'
  · next hv' =>
    rw [hv] at hv'
    cases hv'
    rfl

theorem logAll_nil {cs : List CellId} : p.logAll (fun _ _ => []) h cs = [] := by
  induction cs generalizing h with
  | nil => rfl
  | cons c cs ih =>
    simp only [logAll, List.nil_append]
    split
    · rfl
    · exact ih

end Pass

def reached (s : Survey) (stack : List CellId) : List CellId := reachPass.log ([·]) (fun _ _ => []) s stack

def reachedBy (shut : List CellId) (h : Heap) (c : CellId) : List CellId :=
  if (h.cell c).flags.colour = .gray ∧ (0 < (h.cell c).reachable || shut.contains c) = true then
    reached ⟨h.update c (·.setColour .black), shut, []⟩ [c]
  else []

def reachLog (s : Survey) (roots : List CellId) : List CellId :=
  (scanPass s.shut).logEach (fun _ => []) (reachedBy s.shut) s roots

namespace Heap

/-- The heap in which a round marks. -/
def rounding (h : Heap) : Heap := { h with candidates := #[], inRound := true }

/-- The cells that a round traces to the end while it marks. -/
def TracedFirst (h : Heap) (x : CellId) : Prop := MarkTraces ⟨h.rounding, [], []⟩ h.candidates.toList x

/-- The cells that a round traces after it has marked: while it scans, with all that is reached then, and while it
collects. -/
inductive TracedLater (h : Heap) : CellId → Prop where
  | scan {s : Survey} {roots : List CellId} {x : CellId} :
    markCandidates ⟨h.rounding, [], []⟩ [] h.candidates.toList = .ok (s, roots) →
    (scanPass s.shut).TracesAll (.scan s.shut) s roots x → TracedLater h x
  | collect {s s' : Survey} {roots : List CellId} {x : CellId} :
    markCandidates ⟨h.rounding, [], []⟩ [] h.candidates.toList = .ok (s, roots) →
    (scanPass s.shut).enterAll s roots = .ok s' →
    collectPass.TracesAll .none
      { s' with heap := h.candidates.toList.foldl (fun h c => h.update c Cell.unbuffer) s'.heap, trail := [] } roots x →
    TracedLater h x

end Heap

end LazyHeap
