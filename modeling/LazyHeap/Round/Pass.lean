import LazyHeap.Heap.Total

/-!
Traversals of the graph of owning edges. A pass says what happens at an edge; following it ends because
every cell that is put on the stack is one the pass will not put there again.
-/
namespace LazyHeap

/-- What a traversal does at an edge to a cell: it changes the heap and tells whether the cell is to be
looked into. `pending` marks the cells that may still be looked into. -/
structure Pass where
  visit : Heap → CellId → Except Fault (Heap × Bool)
  pending : Cell → Bool
  visit_le : ∀ {h c h' b}, visit h c = .ok (h', b) →
    h'.count pending + b.toNat ≤ h.count pending

/-- Where a traversal stands: the heap, the cells it must not look into, and the cells that were put on
its stack, newest first. -/
structure Survey where
  heap : Heap
  shut : List CellId
  trail : List CellId

namespace Pass

/-- Visits the targets of edges in order and collects those to be looked into, newest first. -/
def visitAll (p : Pass) (h : Heap) (found : List CellId) :
    List CellId → Except Fault (Heap × List CellId)
  | [] => .ok (h, found)
  | c :: cs =>
    match p.visit h c with
    | .error e => .error e
    | .ok (h', true) => p.visitAll h' (c :: found) cs
    | .ok (h', false) => p.visitAll h' found cs

theorem visitAll_le (p : Pass) (f : Heap → Nat) (k : Nat)
    (step : ∀ {h c h' b}, p.visit h c = .ok (h', b) → f h' + k * b.toNat ≤ f h)
    {cs : List CellId} {h h' : Heap} {found found' : List CellId}
    (hv : p.visitAll h found cs = .ok (h', found')) :
    f h' + k * found'.length ≤ f h + k * found.length := by
  induction cs generalizing h found with
  | nil =>
    simp only [visitAll, Except.ok.injEq, Prod.mk.injEq] at hv
    obtain ⟨rfl, rfl⟩ := hv
    exact Nat.le_refl _
  | cons c cs ih =>
    simp only [visitAll] at hv
    split at hv
    · cases hv
    · next hc =>
      have := step hc
      have := ih hv
      simp only [Bool.toNat_true, List.length_cons, Nat.mul_add, Nat.mul_one] at *
      omega
    · next hc =>
      have := step hc
      have := ih hv
      simp only [Bool.toNat_false, Nat.mul_zero] at *
      omega

theorem visitAll_pending_le (p : Pass) {cs : List CellId} {h h' : Heap} {found : List CellId}
    (hv : p.visitAll h [] cs = .ok (h', found)) :
    h'.count p.pending + found.length ≤ h.count p.pending := by
  have := p.visitAll_le (fun h => h.count p.pending) 1
    (fun hv => by have := p.visit_le hv; omega) hv
  simp only [List.length_nil] at this
  omega

/-- Looks into the cells on the stack until it is empty. Cells without a value are passed over, and so
are those that are shut. A cell whose lock is held is added to the shut ones if the pass is `tolerant`;
any other pass would wait for that lock. -/
def run (p : Pass) (tolerant : Bool) (s : Survey) (stack : List CellId) : Except Fault Survey :=
  match stack with
  | [] => .ok s
  | c :: rest =>
    if (s.heap.cell c).destroyed || s.shut.contains c then p.run tolerant s rest
    else if (s.heap.cell c).locked then
      if tolerant then p.run tolerant { s with shut := c :: s.shut } rest else .error .selfWait
    else
      match _found : p.visitAll s.heap [] (s.heap.cell c).edges with
      | .error e => .error e
      | .ok (h, found) =>
        p.run tolerant { s with heap := h, trail := found ++ s.trail } (found ++ rest)
termination_by 2 * s.heap.count p.pending + stack.length
decreasing_by
  all_goals simp only [List.length_cons, List.length_append]
  · omega
  · omega
  · have := p.visitAll_pending_le _found
    omega

theorem run_le (p : Pass) (f : Heap → Nat) (k : Nat)
    (step : ∀ {h c h' b}, p.visit h c = .ok (h', b) → f h' + k * b.toNat ≤ f h)
    {tolerant : Bool} {s s' : Survey} {stack : List CellId}
    (hr : p.run tolerant s stack = .ok s') :
    f s'.heap + k * s'.trail.length ≤ f s.heap + k * s.trail.length := by
  fun_induction p.run tolerant s stack with
  | case1 s =>
    cases hr
    exact Nat.le_refl _
  | case2 s c rest _ ih => exact ih hr
  | case3 s c rest _ _ _ ih => exact ih hr
  | case4 => cases hr
  | case5 => cases hr
  | case6 s c rest _ _ h found hv ih =>
    have := ih hr
    have := p.visitAll_le f k step hv
    simp only [List.length_append, List.length_nil, Nat.mul_add] at *
    omega

/-- Visits one cell from outside and looks into what that leads to. -/
def enter (p : Pass) (s : Survey) (c : CellId) : Except Fault Survey :=
  match p.visitAll s.heap [] [c] with
  | .error e => .error e
  | .ok (h, found) => p.run false { s with heap := h, trail := found ++ s.trail } found

theorem enter_le (p : Pass) (f : Heap → Nat) (k : Nat)
    (step : ∀ {h c h' b}, p.visit h c = .ok (h', b) → f h' + k * b.toNat ≤ f h)
    {s s' : Survey} {c : CellId} (he : p.enter s c = .ok s') :
    f s'.heap + k * s'.trail.length ≤ f s.heap + k * s.trail.length := by
  simp only [enter] at he
  split at he
  · cases he
  · next hv =>
    have := p.visitAll_le f k step hv
    have := p.run_le f k step he
    simp only [List.length_append, List.length_nil, Nat.mul_add] at *
    omega

def enterAll (p : Pass) (s : Survey) : List CellId → Except Fault Survey
  | [] => .ok s
  | c :: cs =>
    match p.enter s c with
    | .error e => .error e
    | .ok s' => p.enterAll s' cs

theorem enterAll_le (p : Pass) (f : Heap → Nat) (k : Nat)
    (step : ∀ {h c h' b}, p.visit h c = .ok (h', b) → f h' + k * b.toNat ≤ f h)
    {cs : List CellId} {s s' : Survey} (he : p.enterAll s cs = .ok s') :
    f s'.heap + k * s'.trail.length ≤ f s.heap + k * s.trail.length := by
  induction cs generalizing s with
  | nil =>
    cases he
    exact Nat.le_refl _
  | cons c cs ih =>
    simp only [enterAll] at he
    split at he
    · cases he
    · next hc => exact Nat.le_trans (ih he) (p.enter_le f k step hc)

end Pass

end LazyHeap
