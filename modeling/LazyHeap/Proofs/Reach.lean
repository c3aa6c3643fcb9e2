import LazyHeap.Proofs.Dues

/-!
Reachability along owning edges. A cell that is reached stays reached when there are more sources, and when the
heap keeps the edges on the way to it.
-/
namespace LazyHeap

/-- The cells that are reached along owning edges from some sources. -/
inductive Heap.Reach (h : Heap) (source : CellId → Prop) : CellId → Prop where
  | source {c : CellId} : source c → Reach h source c
  | edge {x c : CellId} : Reach h source x → c ∈ (h.cell x).edges → Reach h source c

namespace Heap

variable {h h' : Heap} {source source' : CellId → Prop}

theorem Reach.mono {c : CellId} (hr : h.Reach source c)
    (hsource : ∀ c, source c → h'.Reach source' c)
    (hedge : ∀ x c, h.Reach source x → c ∈ (h.cell x).edges → h'.Reach source' x →
      h'.Reach source' c) : h'.Reach source' c := by
  induction hr with
  | source hc => exact hsource _ hc
  | edge hx hc ih => exact hedge _ _ hx hc ih

theorem Reach.subset {c : CellId} (hr : h.Reach source c) (hsub : ∀ c, source c → source' c) :
    h.Reach source' c :=
  hr.mono (fun _ hc => .source (hsub _ hc)) fun _ _ _ hc hx => .edge hx hc

/-- The cells on which somebody outside of the heap owns a count: the root, what the handles in scope name, and
what references in hand lead to. -/
def Held (h : Heap) (hold : List Task) (c : CellId) : Prop :=
  .release c ∈ hold ∨ .release c ∈ h.standing

end Heap

end LazyHeap
