import LazyHeap.Proofs.Session.Laws

/-!
Looking an object up for change without copying it. A frozen object that nobody else can see becomes the label's own as it
stands. That makes no difference to anybody: whoever could tell is the one who looks, and what he gets is what a copy would
have been.
-/
namespace LazyHeap

variable {m m' : Moment} {a c d x : CellId} {s : Label} {b : Object} {sealed : CellId → Prop}

/-! ### Objects that nobody else can see -/

/-- An object has a single owner: a reference in hand or else an entry in the memo of a label. No other label has it as a
copy, no object leads to it, and neither a memo nor a weak pointer observes it. -/
structure Moment.Lone (m : Moment) (label x : CellId) : Prop where
  claims : m.claims (.release x) = 1
  held : .release x ∈ m.held → m.held.count (.release x) = 1 ∧ ∀ d, x ∉ (m.heap.cell d).edges
  copy : .release x ∉ m.held → ∃ s, (m.heap.cell label).body = .label s ∧ s.memo.copies.count x = 1 ∧
    ∀ d, x ∈ (m.heap.cell d).edges → d = label
  label : ∀ d s, (m.heap.cell d).body = .label s → (∀ e ∈ s.memo.entries, e.1 ≠ x) ∧ (d ≠ label → x ∉ s.memo.copies)
  object : ∀ d b, (m.heap.cell d).body = .object b → ¬ b.LeadsTo x ∧ ∀ w, .weak w ∈ b.links → w.target ≠ some x
  unpinned : .unpin x ∉ m.held

/-- What has one owner and no observer is seen through that owner only. -/
theorem Sound.lone (hs : Sound sealed m) (hu : (m.heap.cell x).unique = true)
    (hcol : (m.heap.cell x).flags.collected = false)
    (hown : .release x ∈ m.held ∨ ∃ s, (m.heap.cell c).body = .label s ∧ x ∈ s.memo.copies) : m.Lone c x := by
  obtain ⟨hclaims, hpins⟩ := hs.claims_of_unique hu hcol
  have hone : (m.heap.cell x).shared ≤ 1 := Nat.le_of_eq ((hs.shared x hcol).trans hclaims)
  obtain ⟨hsame, hnone⟩ := hs.lone_of_unique hone hcol
  have hunobserved : ∀ d, .unpin x ∉ (m.heap.cell d).dues := fun d hd => by
    have := Sound.claims_pos_of_due (m := m) hd
    omega
  -- an edge into the object comes from the label, unless a reference is in hand
  have hedge : ∀ d, x ∈ (m.heap.cell d).edges → d = c ∧ ∃ s, (m.heap.cell c).body = .label s ∧ x ∈ s.memo.copies :=
    fun d hd => by
      obtain hheld | ⟨s, hs, hx⟩ := hown
      · exact absurd hd (hnone (.inl hheld) d)
      · exact ⟨hsame d c hd (Heap.mem_edges_of_copy hs hx), s, hs, hx⟩
  refine ⟨hclaims, fun hm => ⟨?_, hnone (.inl hm)⟩, fun hm => ?_, fun d s hs => ⟨fun e he heq => ?_, fun hd hx => ?_⟩,
    fun d b hb => ⟨fun hx => ?_, fun w hw hx => ?_⟩, fun hm => ?_⟩
  · have := List.count_pos_iff.2 hm
    simp only [Moment.claims] at hclaims
    omega
  · obtain ⟨s, hs, hx⟩ := hown.resolve_left hm
    refine ⟨s, hs, ?_, fun d hd => (hedge d hd).1⟩
    have hle : (m.heap.cell c).edges.count x ≤ m.heap.inward x := m.heap.le_total (fun y => y.edges.count x) rfl c
    rw [Cell.edges, hs, List.count_append, ← Heap.due_release] at hle
    have := List.count_pos_iff.2 hx
    simp only [Moment.claims] at hclaims
    omega
  · exact hunobserved d (heq ▸ Heap.mem_dues_of_key hs he)
  · exact hd (hedge d (Heap.mem_edges_of_copy hs hx)).1
  · obtain ⟨rfl, s, hs, -⟩ := hedge d (Heap.mem_edges_of_leadsTo hb hx)
    rw [hb] at hs
    cases hs
  · refine hunobserved d ?_
    rw [Cell.dues, hb]
    refine List.mem_append_left _ (List.mem_flatMap.2 ⟨_, hw, ?_⟩)
    simp [Link.tasks, WeakPointer.tasks, hx]
  · have := List.count_pos_iff.2 hm
    simp only [Moment.claims] at hpins
    omega

/-! ### Objects that become a label's own -/

/-- At a moment a label looks an object up for change and comes to one that is frozen, which it makes its own. What is
looked up and the label are held, and so are the objects whose fields are locked. -/
inductive Moment.Recycles (label a x : CellId) : Moment → Moment → Prop where
  | mk {h h' : Heap} {locks : List Lock} {ins frame : List Task} :
    (∀ y ∈ locks, Heap.Via (fun _ => False) h frame y.1) → FieldLocks locks → h.IsObject a → .release a ∈ ins →
    (Handle.counted label).Fits (fun _ => False) h → .release label ∈ ins ++ frame →
    mapGet (.counted label) a h = .ok (x, h') → (h.cell x).frozen = true →
    Recycles label a x ⟨h, locks, [], ins ++ frame⟩ ⟨h', locks, [], .release x :: (ins ++ frame)⟩

namespace Moment.Recycles

/-- Only what has one owner becomes a label's own: what is looked up, or a copy in the memo of the label. Nothing but the
object changes. -/
theorem recycled (hr : m.Recycles c a x m') (hs : Safe {} m) : ∃ s b, (m.heap.cell c).body = .label s ∧
    (m.heap.cell x).body = .object b ∧ .release a ∈ m.held ∧ (x = a ∨ x ∈ s.memo.copies) ∧ m.heap.Live x ∧
    (m.heap.cell x).unique = true ∧ b.locked = false ∧ m.heap.Recycled m'.heap (.counted c) b x m.held ∧
    (m'.heap.cell x).owner = some c ∧ m.heap.Leaves (· ≠ x) m'.heap := by
  obtain @⟨h, h', locks, ins, frame, hlocks, hmemo, ha, hins, hl, hlabel, hrun, hfrozen⟩ := hr
  have hh : Holding (.sparing fun _ => False) {} locks frame h ins := ⟨hs, hlocks⟩
  have hget := mapGet_spec (E := fun e => e = .selfWait) hh hmemo ha hins hl (fun t ht => List.mem_singleton.1 ht ▸ hlabel)
    (fun _ _ => id) (fun _ _ _ => False.elim) (fun _ _ h => h.elim False.elim False.elim) nofun fun _ _ _ _ _ _ => rfl
  rw [hrun] at hget
  obtain ⟨hgot, hown, -, -⟩ := hget
  obtain ⟨hu, howner⟩ := hown c rfl hfrozen
  cases hgot with
  | found _ hf _ =>
    rw [hf c rfl] at hfrozen
    cases hfrozen
  | copied _ _ _ _ _ hcopied _ _ _ =>
    rw [hcopied.new, Heap.cell_of_size_le _ (Nat.le_refl _)] at hfrozen
    cases hfrozen
  | @recycled label _ s b he hb hst _ hx hrec hleaves =>
    cases he
    have hcopy : x = a ∨ x ∈ s.memo.copies := hst.mem
    have hlive : h.Live x := hcopy.elim (fun he => he.symm ▸ hh.live (List.mem_append_left _ hins)) fun hm =>
      hs.live_of_edge (hh.live hlabel) (Heap.mem_edges_of_copy hb hm)
    have hone : (h.cell x).shared ≤ 1 := by
      simp only [Cell.unique, Bool.and_eq_true, decide_eq_true_eq] at hu
      exact Nat.le_of_eq hu.1
    refine ⟨s, b, hb, hx, List.mem_append_left _ hins, hcopy, hlive, hu, ?_, hrec, howner, hleaves⟩
    -- whoever has locked a field of the object is another owner
    have hnot : ¬ h.Via (fun _ => False) frame x := not_via_of_lone hs.toSound rfl hone hlive.collected
      (hcopy.imp (fun he => by rwa [he]) fun hm => ⟨hb, hm, id⟩)
    rw [← Bool.not_eq_true]
    intro hlocked
    obtain ⟨f, hf, hlocked⟩ := List.any_eq_true.1 hlocked
    refine hnot (hlocks (x, some f.name) ((hs.locks x _).1 ?_))
    simp only [hx, Body.locks]
    exact List.mem_map.2 ⟨f, List.mem_filter.2 ⟨hf, hlocked⟩, rfl⟩

end Moment.Recycles

namespace Situation

variable {y : Situation}

/-- A frozen node under a new label. -/
def frozenNode : List (Op × Args) :=
  [(.label .spawn, { Args.blank with dest := some "l" }),
    (.pointer .new, { Args.blank with dest := some "p", value := some (.int 3), within := some "l" }),
    (.object .freeze, { Args.blank with a := some "p" })]

end Situation

end LazyHeap
