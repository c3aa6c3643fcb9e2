import LazyHeap.Round.Pass

/-!
The passes of a round. Marking counts the edges inside the subgraph of the candidates, reaching counts them
back from what is owned from outside, scanning tells the two apart, and collecting claims what is left.
-/
namespace LazyHeap

/-- At a marked edge the target turns gray, starting from its shared count, and one count is taken off:
the edge comes from inside. -/
def markVisit (h : Heap) (c : CellId) : Except Fault (Heap × Bool) :=
  let x := h.cell c
  let seen : Bool := x.flags.colour = .gray
  match (if seen then x.reachable else x.shared) with
  | 0 => .error (.reachableUnderflow x.kind)
  | n + 1 => .ok (h.update c fun x => { x.setColour .gray with reachable := n }, !seen)

/-- At a reached edge the count is put back, and the target is live. -/
def reachVisit (h : Heap) (c : CellId) : Except Fault (Heap × Bool) :=
  let seen : Bool := (h.cell c).flags.colour = .black
  .ok (h.update c fun x => { x.setColour .black with reachable := x.reachable + 1 }, !seen)

/-- At a collected edge a white target is claimed. -/
def collectVisit (h : Heap) (c : CellId) : Except Fault (Heap × Bool) :=
  let x := h.cell c
  if x.flags.colour = .white && !x.flags.collected then
    .ok (h.update c fun x => { x.setColour .black with flags.collected := true }, true)
  else .ok (h, false)

private theorem lt_size_of_cell_ne {h : Heap} {c : CellId} (hne : h.cell c ≠ .void) : c < h.size := by
  refine Nat.lt_of_not_le fun hle => hne (h.cell_of_size_le hle)

private theorem count_update (h : Heap) (p : Cell → Bool) (g : Cell → Cell) {c : CellId}
    (hc : c < h.size) :
    (h.update c g).count p + (p (h.cell c)).toNat = h.count p + (p (g (h.cell c))).toNat :=
  h.total_update (fun x => (p x).toNat) g hc

def markPass : Pass where
  visit := markVisit
  pending x := x.flags.colour ≠ .gray
  visit_le {h c h' b} hv := by
    simp only [markVisit] at hv
    split at hv
    · cases hv
    · next n hn =>
      have hc : c < h.size := lt_size_of_cell_ne fun he => by simp [he, Cell.void] at hn
      simp only [Except.ok.injEq, Prod.mk.injEq] at hv
      obtain ⟨rfl, rfl⟩ := hv
      have := count_update h (fun x => x.flags.colour ≠ .gray)
        (fun x => { x.setColour .gray with reachable := n }) hc
      simp [Cell.setColour] at this ⊢
      omega

def reachPass : Pass where
  visit := reachVisit
  pending x := x.flags.colour ≠ .black
  visit_le {h c h' b} hv := by
    simp only [reachVisit, Except.ok.injEq, Prod.mk.injEq] at hv
    obtain ⟨rfl, rfl⟩ := hv
    by_cases hc : c < h.size
    · have := count_update h (fun x => x.flags.colour ≠ .black)
        (fun x => { x.setColour .black with reachable := x.reachable + 1 }) hc
      simp [Cell.setColour] at this ⊢
      omega
    · rw [h.update_of_size_le _ (Nat.not_lt.1 hc), h.cell_of_size_le (Nat.not_lt.1 hc)]
      simp [Cell.void]

def collectPass : Pass where
  visit := collectVisit
  pending x := x.flags.colour = .white && !x.flags.collected
  visit_le {h c h' b} hv := by
    simp only [collectVisit] at hv
    split at hv
    · next hw =>
      have hc : c < h.size := lt_size_of_cell_ne fun he => by simp [he, Cell.void] at hw
      simp only [Except.ok.injEq, Prod.mk.injEq] at hv
      obtain ⟨rfl, rfl⟩ := hv
      have := count_update h (fun x => x.flags.colour = .white && !x.flags.collected)
        (fun x => { x.setColour .black with flags.collected := true }) hc
      rw [hw] at this
      simp [Cell.setColour] at this ⊢
      omega
    · simp only [Except.ok.injEq, Prod.mk.injEq] at hv
      obtain ⟨rfl, rfl⟩ := hv
      simp

/-- At a scanned edge a gray target that is owned from outside, or that is shut, is live, and with it all
it leads to. Any other gray target turns white and is looked into. -/
def scanVisit (shut : List CellId) (h : Heap) (c : CellId) : Except Fault (Heap × Bool) :=
  let x := h.cell c
  if x.flags.colour ≠ .gray then .ok (h, false)
  else if 0 < x.reachable || shut.contains c then
    match reachPass.run false ⟨h.update c (·.setColour .black), shut, []⟩ [c] with
    | .error e => .error e
    | .ok s => .ok (s.heap, false)
  else .ok (h.update c (·.setColour .white), true)

private theorem reachVisit_gray_le {h : Heap} {c : CellId} {h' : Heap} {b : Bool}
    (hv : reachVisit h c = .ok (h', b)) :
    h'.count (fun x => x.flags.colour = .gray) + 0 * b.toNat ≤
      h.count (fun x => x.flags.colour = .gray) := by
  simp only [reachVisit, Except.ok.injEq, Prod.mk.injEq] at hv
  obtain ⟨rfl, rfl⟩ := hv
  simp only [Nat.zero_mul, Nat.add_zero]
  exact h.total_update_le (fun x => (decide (x.flags.colour = .gray)).toNat) _ c
    (by simp [Cell.setColour])

def scanPass (shut : List CellId) : Pass where
  visit := scanVisit shut
  pending x := x.flags.colour = .gray
  visit_le {h c h' b} hv := by
    simp only [scanVisit] at hv
    split at hv
    · simp only [Except.ok.injEq, Prod.mk.injEq] at hv
      obtain ⟨rfl, rfl⟩ := hv
      simp
    · next hg =>
      have hg : (h.cell c).flags.colour = .gray := Decidable.not_not.1 hg
      split at hv
      · split at hv
        · cases hv
        · next s hr =>
          simp only [Except.ok.injEq, Prod.mk.injEq] at hv
          obtain ⟨rfl, rfl⟩ := hv
          have hblack := h.total_update_le (fun x => (decide (x.flags.colour = .gray)).toNat)
            (·.setColour .black) c (by simp [Cell.setColour])
          have := reachPass.run_le (fun h => h.count fun x => x.flags.colour = .gray) 0
            reachVisit_gray_le hr
          simp only [Heap.count] at *
          simp only [Nat.zero_mul, Bool.toNat_false] at *
          omega
      · have hc : c < h.size := lt_size_of_cell_ne fun he => by simp [he, Cell.void] at hg
        simp only [Except.ok.injEq, Prod.mk.injEq] at hv
        obtain ⟨rfl, rfl⟩ := hv
        have := count_update h (fun x => x.flags.colour = .gray) (·.setColour .white) hc
        simp [Cell.setColour, hg] at this ⊢
        omega

end LazyHeap
