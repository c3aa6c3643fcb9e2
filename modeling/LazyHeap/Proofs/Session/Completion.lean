import LazyHeap.Proofs.Completing
import LazyHeap.Proofs.Session.Laws

/-!
Finishing is total. If nobody puts links into frozen objects or takes links out of them, then finishing a pointer comes to
an end, for as long as the pointers that it comes upon have labels under which objects are copied; what the pointer leads
to is not frozen then, and finishing it once more changes nothing.
-/
namespace LazyHeap

variable {h : Heap} {c o : CellId}

theorem Heap.Complete.thawed_of_leadsTo {W : CellId → Prop} (hW : h.Complete W) (ho : W o) (hc : h.LeadsTo o c) :
    (h.cell c).frozen = false := by
  suffices W c from hW.thawed c this
  induction hc with
  | refl => exact ho
  | step _ hb ht ih => exact hW.onward _ _ _ ih hb ht

namespace Situation

variable {x : Situation} {name : String} {t : Slot}

/-- In every run in which no link is put into a frozen object or taken out of one: finishing a pointer that has a name, in
a heap without leaves, never waits for a lock and comes to an end, if the pointers that it comes upon are nil or have labels
other than the root. Then all that the pointer leads to is not frozen, and finishing it again changes nothing at all. -/
theorem finishes_of_runs (hrun : Runs (fun s args op => op.Permitted { closed := true, lenient := true } s args) initial x)
    (hx : x.locked = false) (hleaf : x.session.heap.Leafless) (ht : x.session.slots.get? name = some t)
    (hlabel : t.pointer.Labelled)
    (hlabels : ∀ c k o, t.pointer.Finishes x.session.heap c k → (k.cell c).body = .object o → o.Labelled) :
    ∃ q k, t.pointer.finish x.session.heap = .ok (q, k) ∧ q.target.isSome = t.pointer.target.isSome ∧
      (∀ o, q.target = some o → ∀ c, k.LeadsTo o c → (k.cell c).frozen = false) ∧ q.finish k = .ok (q, k) := by
  have ha : x.At (.initial false false true true) := at_of_runs (fun _ _ _ => id) hrun
  obtain ⟨frame, -, hsafe, hfits⟩ := ha.inHand hx ht
  have hh : Holding (.sparing fun _ => False) { closed := true, lenient := true } [] frame x.session.heap t.pointer.tasks :=
    hsafe.holding (.refl _)
  let K : Pointer → Nat → List CellId → List CellId → Heap → Prop := fun _ n seen stack k => ∀ d k', Heap.Looks n seen stack k d k' →
    t.pointer.Finishes x.session.heap d k'
  obtain ⟨q, k, hq, hk, -, -, -, -, hsome, ⟨W, hW, htarget⟩, -⟩ := (Pointer.finish_completes (K := K) hh hfits
    (Setting.initial false false true true).settled (Setting.initial false false true true).unsteady (fun _ => id) rfl hleaf
    hlabel (fun q o k hpull _ _ _ _ d k' hd => ⟨q, o, k, hpull, hd⟩) fun q k₀ n seen stack rest k c o _ _ hK htop hb =>
      ⟨hlabels c k o (hK c k (.here htop)) hb, fun found k' hvisit d k'' hd => hK d k'' (.later htop hvisit hd)⟩).exists_ok
  exact ⟨q, k, hq, hsome, fun o ho c hc => hW.thawed_of_leadsTo (htarget o ho) hc, hW.finish_same hk htarget⟩

/-- A pair of nodes and a clone of it. -/
def clonedPair : List (Op × Args) :=
  frozenPair.dropLast ++ [(.object .deepClone, { Args.blank with a := some "q", dest := some "d" })]

theorem finishes_of_clonedPair : ∃ x t d q k o, initial.after clonedPair = some x ∧ x.session.slots.get? "d" = some t ∧
    t.pointer.target = some d ∧ (x.session.heap.cell d).frozen = true ∧
    t.pointer.finish x.session.heap = .ok (q, k) ∧ q.target = some o ∧
    (∀ c, k.LeadsTo o c → (k.cell c).frozen = false) ∧ q.finish k = .ok (q, k) := by
  obtain ⟨x, hx, h⟩ : ∃ x, initial.after clonedPair = some x ∧ (x.locked, decide x.session.heap.Leafless,
      (x.session.slots.get? "d").map fun t => (t.pointer.target.map fun o => (x.session.heap.cell o).frozen,
        decide t.pointer.Labelled,
        decide (∀ c k, t.pointer.Finishes x.session.heap c k → ∀ o ∈ (k.cell c).object?, o.Labelled))) =
      (false, true, some (some true, true, true)) := Option.map_eq_some_iff.1 (by cbv)
  simp only [Prod.mk.injEq, Option.map_eq_some_iff, decide_eq_true_eq] at h
  obtain ⟨hlocked, hleaf, t, ht, ⟨d, htarget, hfrozen⟩, hlabel, hlabels⟩ := h
  have hrun : Runs (fun s args op => op.Permitted { closed := true, lenient := true } s args) initial x :=
    runs_of_after rfl hx fun s p hp => by
      simp only [clonedPair, frozenPair, List.dropLast, List.cons_append, List.nil_append, List.mem_cons, List.not_mem_nil,
        or_false] at hp
      rcases hp with rfl | rfl | rfl | rfl
      · trivial
      · trivial
      · trivial
      · exact Attempt.unfrozen_of_not_minds (by simp [Rules.Minds, ObjectOp.edits])
  obtain ⟨q, k, hq, hsome, hthawed, hagain⟩ := finishes_of_runs hrun hlocked hleaf ht hlabel fun c k o hf hb =>
    hlabels c k hf o (by rw [Cell.object?, hb]; rfl)
  rw [htarget] at hsome
  obtain ⟨o, ho⟩ := Option.isSome_iff_exists.1 hsome
  exact ⟨x, t, d, q, k, o, hx, ht, htarget, hfrozen, hq, ho, hthawed o ho, hagain⟩

end Situation

end LazyHeap
