import LazyHeap.Heap

/-!
Sums over the cells of a heap. They measure how much work a traversal or a destruction can still cause:
changing one cell changes the sum by that cell's share.
-/
namespace LazyHeap

def sumOver (f : Cell → Nat) : List Cell → Nat
  | [] => 0
  | x :: xs => f x + sumOver f xs

private theorem sumOver_modify (f : Cell → Nat) (g : Cell → Cell) :
    ∀ (xs : List Cell) (c : Nat) (hc : c < xs.length),
      sumOver f (xs.modify c g) + f xs[c] = sumOver f xs + f (g xs[c])
  | x :: xs, 0, _ => by
    simp only [List.modify_zero_cons, sumOver, List.getElem_cons_zero]
    omega
  | x :: xs, c + 1, hc => by
    have ih := sumOver_modify f g xs c (by simpa using hc)
    simp only [List.modify_succ_cons, sumOver, List.getElem_cons_succ]
    omega

namespace Heap

def total (h : Heap) (f : Cell → Nat) : Nat := sumOver f h.cells.toList

def count (h : Heap) (p : Cell → Bool) : Nat := h.total fun x => (p x).toNat

theorem update_of_size_le (h : Heap) {c : CellId} (g : Cell → Cell) (hc : h.size ≤ c) :
    h.update c g = h := by
  have hc' : h.cells.size ≤ c := hc
  have : h.cells.modify c g = h.cells := by
    apply Array.ext (by simp)
    intro i hi _
    have : i < h.cells.size := by simpa using hi
    simp [Array.getElem_modify, Nat.ne_of_gt (Nat.lt_of_lt_of_le this hc')]
  simp [update, this]

theorem total_update (h : Heap) (f : Cell → Nat) (g : Cell → Cell) {c : CellId} (hc : c < h.size) :
    (h.update c g).total f + f (h.cell c) = h.total f + f (g (h.cell c)) := by
  have hc' : c < h.cells.size := hc
  have := sumOver_modify f g h.cells.toList c (by simpa using hc')
  simpa [total, update, cell, hc'] using this

theorem total_update_le (h : Heap) (f : Cell → Nat) (g : Cell → Cell) (c : CellId)
    (hle : f (g (h.cell c)) ≤ f (h.cell c)) : (h.update c g).total f ≤ h.total f := by
  by_cases hc : c < h.size
  · have := h.total_update f g hc
    omega
  · exact Nat.le_of_eq (by rw [update_of_size_le h g (Nat.not_lt.1 hc)])

theorem total_update_eq (h : Heap) (f : Cell → Nat) (g : Cell → Cell) (c : CellId)
    (heq : f (g (h.cell c)) = f (h.cell c)) : (h.update c g).total f = h.total f := by
  by_cases hc : c < h.size
  · have := h.total_update f g hc
    omega
  · rw [update_of_size_le h g (Nat.not_lt.1 hc)]

end Heap

end LazyHeap
