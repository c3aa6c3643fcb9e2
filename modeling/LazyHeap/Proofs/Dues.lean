import LazyHeap.Release
import Mathlib.Data.List.Perm.Subperm
import Mathlib.Algebra.BigOperators.Group.List.Basic
import Mathlib.Algebra.Order.BigOperators.Group.List
import Mathlib.Algebra.Order.Ring.Nat
import Mathlib.Data.List.Count

/-!
What the cells of a heap owe. A cell's dues are the references it holds, each as the task that gives it up; the
dues of a heap are counted over all its cells. The owning edges of a cell are the releases among its dues.
-/
namespace LazyHeap

/-- A reference: an owning count or a weak one. -/
def Task.isReference : Task → Bool
  | .release _ => true
  | .unpin _ => true
  | _ => false

/-- The references that a cell holds: what its value owns or observes, and the label that made it. -/
def Cell.dues (x : Cell) : List Task := x.body.tasks ++ x.owner.toList.map .unpin

/-- References that stand for themselves: the root's own, and those of the handles in scope. -/
def Heap.standing (h : Heap) : List Task := .release rootCell :: h.scopes.flatMap Handle.tasks

/-- How often a task is among the dues of the cells. -/
def Heap.due (h : Heap) (t : Task) : Nat := h.total fun x => x.dues.count t

private theorem count_map_release (cs : List CellId) (c : CellId) :
    (cs.map Task.release).count (.release c) = cs.count c :=
  List.count_map_of_injective cs _ (fun _ _ h => Task.release.inj h) c

private theorem count_map_unpin (cs : List CellId) (c : CellId) :
    (cs.map Task.unpin).count (.release c) = 0 :=
  List.count_eq_zero.2 fun h => by obtain ⟨_, _, he⟩ := List.mem_map.1 h; cases he

theorem Link.count_tasks (l : Link) (c : CellId) :
    l.tasks.count (.release c) = (Cell.linkEdges l).count c := by
  cases l with
  | owned p =>
    simp only [tasks, Pointer.tasks, Handle.tasks, Cell.linkEdges, List.count_append,
      count_map_release]
  | weak w =>
    simp only [tasks, WeakPointer.tasks, Handle.tasks, Cell.linkEdges, List.count_append,
      count_map_release, count_map_unpin, Nat.zero_add]
  | label s => simp only [tasks, Handle.tasks, Cell.linkEdges, count_map_release]

private theorem count_links (ls : List Link) (c : CellId) :
    (ls.flatMap Link.tasks).count (.release c) = (ls.flatMap Cell.linkEdges).count c := by
  induction ls with
  | nil => rfl
  | cons l ls ih => simp only [List.flatMap_cons, List.count_append, Link.count_tasks, ih]

private theorem count_memo (es : List (CellId × CellId)) (c : CellId) :
    (es.flatMap fun e => [Task.release e.2, .unpin e.1]).count (.release c) =
      (es.map (·.2)).count c := by
  induction es with
  | nil => rfl
  | cons e es ih => simp [List.flatMap_cons, List.count_cons, ih]

theorem Cell.count_tasks (x : Cell) (c : CellId) :
    x.body.tasks.count (.release c) = x.edges.count c := by
  cases hb : x.body with
  | object o => simp only [Body.tasks, Cell.edges, hb, count_links, Object.links]
  | label l =>
    simp only [Body.tasks, Cell.edges, hb, List.count_append, Memo.tasks, Memo.copies, count_memo,
      Handle.tasks, count_map_release]

theorem Cell.count_dues_release (x : Cell) (c : CellId) :
    x.dues.count (.release c) = x.edges.count c := by
  simp only [dues, List.count_append, count_tasks, count_map_unpin, Nat.add_zero]

theorem Cell.isReference_of_mem_dues {x : Cell} {t : Task} (ht : t ∈ x.dues) :
    t.isReference = true := by
  have hmap : ∀ {f : CellId → Task} {cs : List CellId}, (∀ c, (f c).isReference = true) →
      t ∈ cs.map f → t.isReference = true := fun hf ht => by
    obtain ⟨c, -, rfl⟩ := List.mem_map.1 ht
    exact hf c
  have hlink : ∀ l : Link, t ∈ l.tasks → t.isReference = true := fun l ht => by
    cases l with
    | owned p =>
      exact (List.mem_append.1 ht).elim (hmap fun _ => rfl) (hmap fun _ => rfl)
    | weak w =>
      exact (List.mem_append.1 ht).elim (hmap fun _ => rfl) (hmap fun _ => rfl)
    | label s => exact hmap (fun _ => rfl) ht
  rcases List.mem_append.1 ht with ht | ht
  · cases hb : x.body with
    | object o =>
      rw [hb] at ht
      obtain ⟨l, -, hl⟩ := List.mem_flatMap.1 ht
      exact hlink l hl
    | label l =>
      rw [hb] at ht
      rcases List.mem_append.1 ht with ht | ht
      · obtain ⟨e, -, he⟩ := List.mem_flatMap.1 ht
        rcases List.mem_cons.1 he with rfl | he
        · rfl
        · rw [List.mem_singleton.1 he]
          rfl
      · exact hmap (fun _ => rfl) ht
  · exact hmap (fun _ => rfl) ht

theorem Cell.count_dues_perish (x : Cell) (c : CellId) : x.dues.count (.perish c) = 0 :=
  List.count_eq_zero.2 fun h => nomatch isReference_of_mem_dues h

theorem Cell.release_mem_tasks {x : Cell} {c : CellId} : .release c ∈ x.body.tasks ↔ c ∈ x.edges := by
  rw [← List.count_pos_iff, count_tasks, List.count_pos_iff]

@[simp] theorem Cell.edges_void : Cell.void.edges = [] := rfl

@[simp] theorem Cell.dues_void : Cell.void.dues = [] := rfl

/-! ### Sums over cells -/

theorem sumOver_eq (f : Cell → Nat) (xs : List Cell) : sumOver f xs = (xs.map f).sum := by
  induction xs with
  | nil => rfl
  | cons x xs ih => simp [sumOver, ih]

namespace Heap

theorem total_eq_range (h : Heap) (f : Cell → Nat) :
    h.total f = ((List.range h.size).map fun c => f (h.cell c)).sum := by
  rw [total, sumOver_eq]
  congr 1
  apply List.ext_getElem
  · simp [size]
  · intro i hi _
    have hi : i < h.cells.size := by simpa using hi
    simp [cell, hi]

theorem total_push (h : Heap) (x : Cell) (f : Cell → Nat) : (h.push x).total f = h.total f + f x := by
  simp [total, push, sumOver_eq]

theorem lt_size_of_cell_ne {h : Heap} {c : CellId} (hne : h.cell c ≠ .void) : c < h.size :=
  Nat.lt_of_not_le fun hle => hne (h.cell_of_size_le hle)

theorem update_congr (h : Heap) (c : CellId) {f g : Cell → Cell} (hfg : f (h.cell c) = g (h.cell c)) :
    h.update c f = h.update c g := by
  have : h.cells.modify c f = h.cells.modify c g := by
    apply Array.ext (by simp)
    intro i hi _
    have hi : i < h.cells.size := by simpa using hi
    by_cases hc : c = i
    · subst hc
      simpa [Array.getElem_modify, cell, hi] using hfg
    · simp [Array.getElem_modify, hc]
  simp only [update, this]

theorem sum_le_total (h : Heap) (f : Cell → Nat) (hf : f .void = 0) {cs : List CellId}
    (hn : cs.Nodup) : (cs.map fun c => f (h.cell c)).sum ≤ h.total f := by
  rw [total_eq_range]
  have hs : ((cs.filter (· < h.size)).map fun c => f (h.cell c)).sum =
      (cs.map fun c => f (h.cell c)).sum := by
    clear hn
    induction cs with
    | nil => rfl
    | cons c cs ih =>
      by_cases hc : c < h.size
      · simp [hc, ih]
      · simp [hc, ih, h.cell_of_size_le (Nat.not_lt.1 hc), hf]
  rw [← hs]
  have hsub : (cs.filter (· < h.size)).Subperm (List.range h.size) :=
    List.subperm_of_subset (hn.filter _) fun c hc => by
      simpa using (List.mem_filter.1 hc).2
  obtain ⟨l, hp, hl⟩ := hsub
  rw [← (hp.map fun c => f (h.cell c)).sum_eq]
  exact (hl.map _).sum_le_sum fun _ _ => Nat.zero_le _

theorem total_eq_sum (h : Heap) (f : Cell → Nat) (hf : f .void = 0) {cs : List CellId}
    (hn : cs.Nodup) (hall : ∀ c, f (h.cell c) ≠ 0 → c ∈ cs) :
    h.total f = (cs.map fun c => f (h.cell c)).sum := by
  refine Nat.le_antisymm ?_ (h.sum_le_total f hf hn)
  rw [total_eq_range]
  have hs : (((List.range h.size).filter fun c => f (h.cell c) ≠ 0).map fun c => f (h.cell c)).sum =
      ((List.range h.size).map fun c => f (h.cell c)).sum := by
    generalize List.range h.size = ds
    induction ds with
    | nil => rfl
    | cons d ds ih =>
      by_cases hd : f (h.cell d) = 0
      · simp only [ne_eq, decide_not] at ih
        simp [hd, ih]
      · simp only [ne_eq, decide_not] at ih
        simp [hd, ih]
  rw [← hs]
  have hsub : ((List.range h.size).filter fun c => f (h.cell c) ≠ 0).Subperm cs :=
    List.subperm_of_subset (List.nodup_range.filter _) fun c hc =>
      hall c (by simpa using (List.mem_filter.1 hc).2)
  obtain ⟨l, hp, hl⟩ := hsub
  rw [← (hp.map fun c => f (h.cell c)).sum_eq]
  exact (hl.map _).sum_le_sum fun _ _ => Nat.zero_le _

theorem le_total (h : Heap) (f : Cell → Nat) (hf : f .void = 0) (c : CellId) :
    f (h.cell c) ≤ h.total f := by
  simpa using h.sum_le_total f hf (show [c].Nodup by simp)

theorem total_eq_zero {h : Heap} {f : Cell → Nat} (hall : ∀ c, f (h.cell c) = 0) : h.total f = 0 := by
  rw [total_eq_range]
  simp [hall]

theorem exists_of_total_pos {h : Heap} {f : Cell → Nat} (hpos : 0 < h.total f) :
    ∃ c, 0 < f (h.cell c) := by
  refine Classical.by_contradiction fun hn => ?_
  have := total_eq_zero (h := h) (f := f) fun c => by
    have := not_exists.1 hn c
    omega
  omega

/-- The owning edges into a cell, from all cells. -/
def inward (h : Heap) (c : CellId) : Nat := h.total fun x => x.edges.count c

theorem due_release (h : Heap) (c : CellId) : h.due (.release c) = h.inward c := by
  simp only [due, inward, Cell.count_dues_release]

theorem count_edges_le_inward (h : Heap) {cs : List CellId} (hn : cs.Nodup) (c : CellId) :
    (cs.flatMap fun x => (h.cell x).edges).count c ≤ h.inward c := by
  have := h.sum_le_total (fun x => x.edges.count c) rfl hn
  rw [List.count_flatMap]
  exact this

theorem inward_eq_count (h : Heap) {cs : List CellId} (hn : cs.Nodup) {c : CellId}
    (hall : ∀ x, c ∈ (h.cell x).edges → x ∈ cs) :
    h.inward c = (cs.flatMap fun x => (h.cell x).edges).count c := by
  rw [List.count_flatMap]
  exact h.total_eq_sum (fun x => x.edges.count c) rfl hn fun x hx =>
    hall x (List.count_pos_iff.1 (Nat.pos_of_ne_zero hx))

theorem inward_pos {h : Heap} {x c : CellId} (he : c ∈ (h.cell x).edges) : 0 < h.inward c :=
  Nat.lt_of_lt_of_le (List.count_pos_iff.2 he) (h.le_total (fun x => x.edges.count c) rfl x)

theorem exists_edge_of_inward_pos {h : Heap} {c : CellId} (hpos : 0 < h.inward c) :
    ∃ x, c ∈ (h.cell x).edges :=
  (exists_of_total_pos hpos).imp fun _ => List.count_pos_iff.1

theorem due_update (h : Heap) (t : Task) (g : Cell → Cell) {c : CellId} (hc : c < h.size) :
    (h.update c g).due t + (h.cell c).dues.count t = h.due t + (g (h.cell c)).dues.count t :=
  h.total_update (fun x => x.dues.count t) g hc

theorem due_push (h : Heap) (t : Task) (x : Cell) : (h.push x).due t = h.due t + x.dues.count t :=
  h.total_push x _

end Heap

end LazyHeap
