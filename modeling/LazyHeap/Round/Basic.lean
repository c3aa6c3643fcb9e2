import LazyHeap.Round.Phases
import LazyHeap.Task

/-!
A round of the collector. It marks from the candidates that are still possible roots, tells live cells from
garbage, claims the garbage, and leaves the destruction of what it claimed as tasks.
-/
namespace LazyHeap

def Cell.possibleRoot (x : Cell) : Bool := x.flags.colour = .purple && x.alive

def Cell.beginMark (x : Cell) : Cell := { x.setColour .gray with reachable := x.shared }

/-- Marks from each possible root among the candidates; `roots` are those found so far, newest first. -/
def markCandidates (s : Survey) (roots : List CellId) :
    List CellId → Except Fault (Survey × List CellId)
  | [] => .ok (s, roots.reverse)
  | c :: cs =>
    let x := s.heap.cell c
    if x.possibleRoot then
      let h := s.heap.update c Cell.beginMark
      match markPass.run true { s with heap := h } [c] with
      | .error e => .error e
      | .ok s' => markCandidates s' (c :: roots) cs
    else markCandidates s roots cs

/-- A candidate leaves the buffer, and is no possible root any more. -/
def Cell.unbuffer (x : Cell) : Cell :=
  let x := x.setBuffered false
  if x.flags.colour = .purple then x.setColour .black else x

/-- Takes all candidates, finds the garbage among what they lead to, and claims it. The tasks destroy what
was claimed, in the order in which it was claimed; until then each claimed cell, and each candidate, is
held weakly. -/
def Heap.openRound (h : Heap) : Except Fault (Heap × List Task × RoundOutcome) := do
  let candidates := h.candidates.toList
  let h := { h with candidates := #[], inRound := true }
  let (s, roots) ← markCandidates ⟨h, [], []⟩ [] candidates
  let s ← (scanPass s.shut).enterAll s roots
  let h := candidates.foldl (fun h c => h.update c Cell.unbuffer) s.heap
  let s ← collectPass.enterAll { s with heap := h, trail := [] } roots
  let whites := s.trail.reverse
  let h := whites.foldl (fun h c => h.update c fun x => { x with weak := x.weak + 1 }) s.heap
  let outcome := ⟨candidates.length, roots.length, whites.length⟩
  return (h, whites.map .perish ++ whites.map .unpin ++ candidates.map .unpin ++
    [.closeRound outcome], outcome)

/-! ### A round makes no work out of nothing -/

private theorem markVisit_load {h : Heap} {c : CellId} {h' : Heap} {b : Bool}
    (hv : markVisit h c = .ok (h', b)) : h'.load = h.load := by
  simp only [markVisit] at hv
  split at hv
  · cases hv
  · simp only [Except.ok.injEq, Prod.mk.injEq] at hv
    obtain ⟨rfl, rfl⟩ := hv
    exact h.load_update_eq c _ rfl

private theorem reachVisit_load {h : Heap} {c : CellId} {h' : Heap} {b : Bool}
    (hv : reachVisit h c = .ok (h', b)) : h'.load = h.load := by
  simp only [reachVisit, Except.ok.injEq, Prod.mk.injEq] at hv
  obtain ⟨rfl, rfl⟩ := hv
  exact h.load_update_eq c _ rfl

private theorem run_load_le (p : Pass) (k : Nat)
    (step : ∀ {h c h' b}, p.visit h c = .ok (h', b) → h'.load + k * b.toNat ≤ h.load)
    {tolerant : Bool} {s s' : Survey} {stack : List CellId}
    (hr : p.run tolerant s stack = .ok s') :
    s'.heap.load + k * s'.trail.length ≤ s.heap.load + k * s.trail.length :=
  p.run_le Heap.load k step hr

private theorem scanVisit_load {shut : List CellId} {h : Heap} {c : CellId} {h' : Heap} {b : Bool}
    (hv : scanVisit shut h c = .ok (h', b)) : h'.load ≤ h.load := by
  simp only [scanVisit] at hv
  split at hv
  · cases hv
    exact Nat.le_refl _
  · split at hv
    · split at hv
      · cases hv
      · next s hr =>
        cases hv
        have hr := run_load_le reachPass 0
          (fun hv => by have := reachVisit_load hv; omega) hr
        have hb := h.load_update_eq c (·.setColour .black) rfl
        simp only [Nat.zero_mul, Nat.add_zero] at hr
        omega
    · cases hv
      exact Nat.le_of_eq (h.load_update_eq c _ rfl)

private theorem markCandidates_load {cs roots : List CellId} {s s' : Survey} {rs : List CellId}
    (hm : markCandidates s roots cs = .ok (s', rs)) : s'.heap.load ≤ s.heap.load := by
  induction cs generalizing s roots with
  | nil =>
    cases hm
    exact Nat.le_refl _
  | cons c cs ih =>
    simp only [markCandidates] at hm
    split at hm
    · split at hm
      · cases hm
      · next s₁ hr =>
        have hr := run_load_le markPass 0 (fun hv => by have := markVisit_load hv; omega) hr
        have hb := s.heap.load_update_eq c Cell.beginMark rfl
        have := ih hm
        simp only [Nat.zero_mul, Nat.add_zero] at hr
        omega
    · exact ih hm

private theorem foldl_update_load (g : Cell → Cell) (hg : ∀ x, (g x).load = x.load)
    (cs : List CellId) (h : Heap) : (cs.foldl (fun h c => h.update c g) h).load = h.load := by
  induction cs generalizing h with
  | nil => rfl
  | cons c cs ih => rw [List.foldl_cons, ih, h.load_update_eq c g (hg _)]

private theorem unbuffer_load (x : Cell) : x.unbuffer.load = x.load := by
  simp only [Cell.unbuffer]
  split <;> rfl

private theorem collectVisit_load {h : Heap} {c : CellId} {h' : Heap} {b : Bool}
    (hv : collectVisit h c = .ok (h', b)) : h'.load + 2 * b.toNat ≤ h.load := by
  simp only [collectVisit] at hv
  split at hv
  · next hw =>
    simp only [Bool.and_eq_true, decide_eq_true_eq, Bool.not_eq_true'] at hw
    have hc : c < h.size := Nat.lt_of_not_le fun hle => by
      simp [h.cell_of_size_le hle, Cell.void] at hw
    cases hv
    have := h.total_update Cell.load
      (fun x => { x.setColour .black with flags.collected := true }) hc
    simp [Heap.load, Cell.load, Cell.setColour, hw.2] at this ⊢
    omega
  · cases hv
    simp

theorem Heap.openRound_load {h h' : Heap} {ts : List Task} {o : RoundOutcome}
    (hr : h.openRound = .ok (h', ts, o)) : h'.load + Task.weights ts ≤ h.load + 1 := by
  simp only [openRound, bind, Except.bind] at hr
  split at hr
  · cases hr
  · next sr hm =>
    obtain ⟨s, roots⟩ := sr
    split at hr
    · cases hr
    · next s₁ hs =>
      split at hr
      · cases hr
      · next s₂ hc =>
        cases hr
        have hm : s.heap.load ≤ ({ h with candidates := #[], inRound := true } : Heap).load :=
          markCandidates_load hm
        have hs := (scanPass s.shut).enterAll_le Heap.load 0
          (fun hv => by have := scanVisit_load hv; omega) hs
        have hc := collectPass.enterAll_le Heap.load 2 collectVisit_load hc
        simp only [foldl_update_load _ unbuffer_load, Nat.zero_mul, List.length_nil] at hc hs
        rw [foldl_update_load (fun x => { x with weak := x.weak + 1 }) (fun _ => rfl)]
        simp only [Task.weights_append, Task.weights_cons, Task.weights_nil, Task.weight,
          Task.weights_map .perish 1 fun _ => rfl, Task.weights_map .unpin 1 fun _ => rfl,
          List.length_reverse]
        have hl : ({ h with candidates := #[], inRound := true } : Heap).load +
            h.candidates.size = h.load := by simp [Heap.load, Heap.total]
        simp only [Array.length_toList]
        omega

end LazyHeap
