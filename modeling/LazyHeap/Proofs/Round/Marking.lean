import LazyHeap.Proofs.Dues
import LazyHeap.Proofs.Round.Tracing

/-!
The mark phase. While it runs, the heap differs from the one it started with in nothing but colours and
reachable counts, and the reachable count of a marked cell is its shared count less the edges that lead to it
from the cells that were looked into. It does not fail as long as no cell has more edges than owners.
-/
namespace LazyHeap

/-- A cell without the marks of a round: its colour, and the count on which a round works. -/
def Cell.unmarked (x : Cell) : Cell := { x with reachable := 0, flags.colour := .black }

/-- The edges that leave some cells. -/
def Heap.out (h : Heap) (cs : List CellId) : List CellId := cs.flatMap fun x => (h.cell x).edges

/-- Cells that can be marked: none has more owning edges than owners, a destroyed one has no owner, one that
was claimed is destroyed, and none has the colours of a round. -/
structure Heap.Ready (h : Heap) : Prop where
  inward_le : ∀ c, h.inward c ≤ (h.cell c).shared
  shared_dead : ∀ c, (h.cell c).destroyed = true → (h.cell c).shared = 0
  collected : ∀ c, (h.cell c).flags.collected = true → (h.cell c).destroyed = true
  colour : ∀ c, (h.cell c).flags.colour ≠ .gray ∧ (h.cell c).flags.colour ≠ .white

/-- The cells to which a traversal comes from some roots, if it does not look into locked cells. -/
inductive Heap.Found (h : Heap) (roots : List CellId) : CellId → Prop where
  | root {c : CellId} : c ∈ roots → Found h roots c
  | edge {x c : CellId} : Found h roots x → (h.cell x).locked = false → c ∈ (h.cell x).edges →
    Found h roots c

theorem Heap.Found.mono {h : Heap} {roots roots' : List CellId} {c : CellId} (hf : h.Found roots c)
    (hsub : roots ⊆ roots') : h.Found roots' c := by
  induction hf with
  | root hc => exact .root (hsub hc)
  | edge _ hl he ih => exact .edge ih hl he

namespace Heap.Ready

variable {h : Heap}

theorem alive_of_edge (hr : h.Ready) {x c : CellId} (he : c ∈ (h.cell x).edges) :
    (h.cell c).alive = true := by
  have hpos : 0 < (h.cell c).shared := Nat.lt_of_lt_of_le (inward_pos he) (hr.inward_le c)
  have hd : (h.cell c).destroyed = false := by
    cases hd : (h.cell c).destroyed with
    | false => rfl
    | true =>
      have := hr.shared_dead c hd
      omega
  have hd : (h.cell c).flags.destroyed = false := hd
  simp [Cell.alive, hpos, hd]

theorem alive_of_found (hr : h.Ready) {roots : List CellId}
    (hroots : ∀ c ∈ roots, (h.cell c).alive = true) {c : CellId} (hf : h.Found roots c) :
    (h.cell c).alive = true := by
  cases hf with
  | root hc => exact hroots c hc
  | edge _ _ he => exact hr.alive_of_edge he

theorem rounding (hr : h.Ready) : h.rounding.Ready := ⟨hr.inward_le, hr.shared_dead, hr.collected, hr.colour⟩

end Heap.Ready

theorem Cell.destroyed_of_alive {x : Cell} (ha : x.alive = true) : x.destroyed = false := by
  simp only [alive, Bool.and_eq_true, Bool.not_eq_true'] at ha
  exact ha.2

/-- A heap that differs from another in nothing but marks. -/
structure Heap.Marks (h s : Heap) : Prop where
  cell : ∀ c, (s.cell c).unmarked = (h.cell c).unmarked
  size : s.size = h.size
  rest : s = { h with cells := s.cells }

namespace Heap.Marks

variable {h s s' : Heap}

protected theorem refl (h : Heap) : h.Marks h := ⟨fun _ => rfl, rfl, rfl⟩

protected theorem trans (h₁ : h.Marks s) (h₂ : s.Marks s') : h.Marks s' where
  cell c := (h₂.cell c).trans (h₁.cell c)
  size := h₂.size.trans h₁.size
  rest := by
    have h₁ := h₁.rest
    have h₂ := h₂.rest
    rw [h₂, h₁]

private theorem congr {α : Type} (hm : h.Marks s) (f : Cell → α) (hf : ∀ x, f x.unmarked = f x)
    (c : CellId) : f (s.cell c) = f (h.cell c) := by
  rw [← hf (s.cell c), hm.cell c, hf]

theorem edges (hm : h.Marks s) (c : CellId) : (s.cell c).edges = (h.cell c).edges :=
  hm.congr Cell.edges (fun _ => rfl) c

theorem shared (hm : h.Marks s) (c : CellId) : (s.cell c).shared = (h.cell c).shared :=
  hm.congr Cell.shared (fun _ => rfl) c

theorem destroyed (hm : h.Marks s) (c : CellId) : (s.cell c).destroyed = (h.cell c).destroyed :=
  hm.congr Cell.destroyed (fun _ => rfl) c

theorem locked (hm : h.Marks s) (c : CellId) : (s.cell c).locked = (h.cell c).locked :=
  hm.congr Cell.locked (fun _ => rfl) c

theorem alive (hm : h.Marks s) (c : CellId) : (s.cell c).alive = (h.cell c).alive :=
  hm.congr Cell.alive (fun _ => rfl) c

theorem update (h : Heap) (c : CellId) {g : Cell → Cell} (hg : ∀ x, (g x).unmarked = x.unmarked) :
    h.Marks (h.update c g) where
  cell d := by
    by_cases hd : d = c
    · subst hd
      by_cases hs : d < h.size
      · rw [h.cell_update_self g hs, hg]
      · rw [h.update_of_size_le g (Nat.not_lt.1 hs)]
    · rw [h.cell_update_ne g hd]
  size := h.size_update c g
  rest := rfl

end Heap.Marks

/-- A heap in the midst of marking: the gray cells are those listed, and each has been counted down by the
edges that were counted. -/
structure Marking (h s : Heap) (listed counted : List CellId) : Prop where
  marks : h.Marks s
  gray : ∀ c, (s.cell c).flags.colour = .gray ↔ c ∈ listed
  nodup : listed.Nodup
  within : ∀ c ∈ counted, c ∈ listed
  count : ∀ c ∈ listed, (s.cell c).reachable + counted.count c = (h.cell c).shared
  others : ∀ c ∉ listed, s.cell c = h.cell c

namespace Marking

variable {h s : Heap} {listed listed' counted counted' : List CellId}

theorem start (hr : h.Ready) : Marking h h [] [] where
  marks := .refl h
  gray c := by
    simp [(hr.colour c).1]
  nodup := List.nodup_nil
  within _ hc := hc
  count _ hc := nomatch hc
  others _ _ := rfl

theorem congr (hm : Marking h s listed counted) (hl : listed.Perm listed')
    (hc : counted.Perm counted') : Marking h s listed' counted' where
  marks := hm.marks
  gray c := (hm.gray c).trans hl.mem_iff
  nodup := hl.nodup_iff.1 hm.nodup
  within c hc' := hl.mem_iff.1 (hm.within c (hc.mem_iff.2 hc'))
  count c hl' := by rw [← hc.count_eq]; exact hm.count c (hl.mem_iff.2 hl')
  others c hc' := hm.others c fun hl' => hc' (hl.mem_iff.1 hl')

private theorem paint (hm : Marking h s listed counted) {c : CellId} {n : Nat} (hc : c < h.size)
    (hl : ∀ d, d ∈ listed' ↔ d = c ∨ d ∈ listed) (hnodup : listed'.Nodup)
    (hcount : ∀ d, d ≠ c → counted'.count d = counted.count d)
    (hn : n + counted'.count c = (h.cell c).shared) :
    Marking h (s.update c fun x => { x.setColour .gray with reachable := n }) listed' counted' := by
  have hself := s.cell_update_self (fun x => { x.setColour .gray with reachable := n })
    (hm.marks.size ▸ hc)
  have hne : ∀ d, d ≠ c → (s.update c fun x => { x.setColour .gray with reachable := n }).cell d =
      s.cell d := fun d hd => s.cell_update_ne _ hd
  exact {
    marks := hm.marks.trans (.update s c fun _ => rfl)
    gray := fun d => by
      by_cases hd : d = c
      · subst hd
        rw [hself, hl]
        simp [Cell.setColour]
      · simp [hne d hd, hm.gray, hl, hd]
    nodup := hnodup
    within := fun d hd => (hl d).2 <| by
      by_cases hdc : d = c
      · exact .inl hdc
      · rw [← List.count_pos_iff, hcount d hdc, List.count_pos_iff] at hd
        exact .inr (hm.within d hd)
    count := fun d hd => by
      by_cases hdc : d = c
      · subst hdc
        rw [hself]
        exact hn
      · rw [hne d hdc, hcount d hdc]
        exact hm.count d (((hl d).1 hd).resolve_left hdc)
    others := fun d hd => by
      rw [hl, not_or] at hd
      rw [hne d hd.1]
      exact hm.others d hd.2 }

theorem begin (hm : Marking h s listed counted) {c : CellId} (hc : c < h.size) (hl : c ∉ listed) :
    Marking h (s.update c Cell.beginMark) (c :: listed) counted := by
  have hfun : s.update c Cell.beginMark =
      s.update c fun x => { x.setColour .gray with reachable := (h.cell c).shared } :=
    s.update_congr c (by rw [← hm.marks.shared c]; rfl)
  rw [hfun]
  refine hm.paint hc (fun d => List.mem_cons) (List.nodup_cons.2 ⟨hl, hm.nodup⟩) (fun _ _ => rfl) ?_
  rw [List.count_eq_zero.2 fun h => hl (hm.within c h), Nat.add_zero]

/-- Marking an edge cannot fail while fewer edges were counted than the target has owners. -/
theorem visit (hm : Marking h s listed counted) {c : CellId}
    (hlt : counted.count c < (h.cell c).shared) :
    ∃ s' b, markVisit s c = .ok (s', b) ∧ (b = true ↔ c ∉ listed) ∧
      Marking h s' (if b then c :: listed else listed) (c :: counted) := by
  have hc : c < h.size := Heap.lt_size_of_cell_ne fun he => by simp [he, Cell.void] at hlt
  have hother : ∀ d, d ≠ c → (c :: counted).count d = counted.count d := fun d hd =>
    List.count_cons_of_ne (Ne.symm hd)
  by_cases hl : c ∈ listed
  · have hcount := hm.count c hl
    obtain ⟨n, hn⟩ : ∃ n, (s.cell c).reachable = n + 1 := ⟨(s.cell c).reachable - 1, by omega⟩
    refine ⟨_, false, ?_, by simp [hl], hm.paint (n := n) hc (fun d => ?_) hm.nodup hother ?_⟩
    · simp [markVisit, (hm.gray c).2 hl, hn]
    · exact ⟨.inr, fun hd => hd.elim (fun he => he ▸ hl) id⟩
    · rw [List.count_cons_self]
      omega
  · have hcount : counted.count c = 0 := List.count_eq_zero.2 fun h => hl (hm.within c h)
    have hshared := hm.marks.shared c
    obtain ⟨n, hn⟩ : ∃ n, (s.cell c).shared = n + 1 := ⟨(s.cell c).shared - 1, by omega⟩
    refine ⟨_, true, ?_, by simp [hl], hm.paint (n := n) hc (fun d => List.mem_cons)
      (List.nodup_cons.2 ⟨hl, hm.nodup⟩) hother ?_⟩
    · simp [markVisit, mt (hm.gray c).1 hl, hn]
    · rw [List.count_cons_self]
      omega

theorem visitAll (hm : Marking h s listed counted) (found : List CellId) {cs : List CellId}
    (hle : ∀ c ∈ cs, (cs ++ counted).count c ≤ (h.cell c).shared) :
    ∃ s' new, markPass.visitAll s found cs = .ok (s', new ++ found) ∧
      Marking h s' (new ++ listed) (cs ++ counted) ∧ new ⊆ cs := by
  induction cs generalizing s listed counted found with
  | nil => exact ⟨s, [], rfl, hm, List.Subset.refl _⟩
  | cons c cs ih =>
    have hlt : counted.count c < (h.cell c).shared := by
      have := hle c List.mem_cons_self
      rw [List.cons_append, List.count_cons_self, List.count_append] at this
      omega
    have hperm : (cs ++ c :: counted).Perm (c :: cs ++ counted) := List.perm_middle
    have hle' : ∀ d ∈ cs, (cs ++ c :: counted).count d ≤ (h.cell d).shared := fun d hd => by
      rw [hperm.count_eq]
      exact hle d (List.mem_cons_of_mem _ hd)
    obtain ⟨s', b, hv, -, hm'⟩ := hm.visit hlt
    have hv : markPass.visit s c = .ok (s', b) := hv
    cases b with
    | true =>
      obtain ⟨s'', new, ha, hm'', hsub⟩ := ih hm' (c :: found) hle'
      refine ⟨s'', new ++ [c], ?_, ?_, ?_⟩
      · simp only [Pass.visitAll, hv, ha, List.append_assoc, List.singleton_append]
      · exact hm''.congr (by simp) hperm
      · exact List.append_subset.2 ⟨fun d hd => List.mem_cons_of_mem _ (hsub hd), by simp⟩
    | false =>
      obtain ⟨s'', new, ha, hm'', hsub⟩ := ih hm' found hle'
      refine ⟨s'', new, ?_, ?_, fun d hd => List.mem_cons_of_mem _ (hsub hd)⟩
      · simp only [Pass.visitAll, hv, ha]
      · exact hm''.congr (.refl _) hperm

end Marking

/-- Where a mark phase stands: the listed cells are on the stack, shut, or traced, the roots lead to all of
them, the shut ones are locked and the traced ones are not. -/
structure Marked (h s : Heap) (roots stack shut traced : List CellId) : Prop where
  marking : Marking h s (stack ++ shut ++ traced) (h.out traced)
  found : ∀ c ∈ stack ++ shut ++ traced, h.Found roots c
  locked : ∀ c ∈ shut, (h.cell c).locked = true
  unlocked : ∀ c ∈ traced, (h.cell c).locked = false
  alive : ∀ c ∈ roots, (h.cell c).alive = true
  listed : ∀ c ∈ roots, c ∈ stack ++ shut ++ traced

namespace Marked

variable {h s : Heap} {roots stack shut traced : List CellId}

theorem start (hr : h.Ready) : Marked h h [] [] [] [] := ⟨.start hr, by simp, by simp, by simp, by simp, by simp⟩

theorem out_cons (h : Heap) (c : CellId) (cs : List CellId) :
    h.out (c :: cs) = (h.cell c).edges ++ h.out cs := List.flatMap_cons

private theorem close {c : CellId} (hm : Marked h s roots (c :: stack) shut traced)
    (hl : (h.cell c).locked = true) : Marked h s roots stack (c :: shut) traced := by
  have hperm : (c :: stack ++ shut ++ traced).Perm (stack ++ c :: shut ++ traced) := by
    simp only [List.append_assoc, List.cons_append]
    exact List.perm_middle.symm
  exact {
    marking := hm.marking.congr hperm (.refl _)
    found := fun d hd => hm.found d (hperm.mem_iff.2 hd)
    locked := fun d hd => (List.mem_cons.1 hd).elim (fun he => he ▸ hl) (hm.locked d)
    unlocked := hm.unlocked
    alive := hm.alive
    listed := fun d hd => hperm.mem_iff.1 (hm.listed d hd) }

private theorem trace (hr : h.Ready) {c : CellId} (hm : Marked h s roots (c :: stack) shut traced)
    (hl : (h.cell c).locked = false) :
    ∃ s' new, markPass.visitAll s [] (h.cell c).edges = .ok (s', new) ∧
      Marked h s' roots (new ++ stack) shut (c :: traced) := by
  have hnodup : (c :: traced).Nodup := by
    have := hm.marking.nodup
    simp only [List.append_assoc, List.cons_append, List.nodup_cons, List.mem_append] at this
    rw [List.nodup_cons]
    exact ⟨fun hc => this.1 (.inr (.inr hc)),
      (List.nodup_append.1 (List.nodup_append.1 this.2).2.1).2.1⟩
  have hle : ∀ d ∈ (h.cell c).edges,
      ((h.cell c).edges ++ h.out traced).count d ≤ (h.cell d).shared := fun d _ => by
    rw [← out_cons]
    exact Nat.le_trans (h.count_edges_le_inward hnodup d) (hr.inward_le d)
  obtain ⟨s', new, hv, hm', hsub⟩ := hm.marking.visitAll [] hle
  have hperm : (new ++ (c :: stack ++ shut ++ traced)).Perm
      (new ++ stack ++ shut ++ c :: traced) := by
    simp only [List.append_assoc, List.cons_append]
    refine List.Perm.append_left new ?_
    rw [← List.append_assoc, ← List.append_assoc stack]
    exact List.perm_middle.symm
  refine ⟨s', new, by simpa using hv, ?_⟩
  exact {
    marking := out_cons h c traced ▸ hm'.congr hperm (.refl _)
    found := fun d hd => by
      rcases List.mem_append.1 (hperm.mem_iff.2 hd) with hd | hd
      · exact .edge (hm.found c (by simp)) hl (hsub hd)
      · exact hm.found d hd
    locked := hm.locked
    unlocked := fun d hd => (List.mem_cons.1 hd).elim (fun he => he ▸ hl) (hm.unlocked d)
    alive := hm.alive
    listed := fun d hd =>
      hperm.mem_iff.1 (List.mem_append_right _ (hm.listed d hd)) }

/-- Following the stack to its end traces what is traced then, unless it was traced before. -/
theorem run (hr : h.Ready) {s : Survey} {stack traced : List CellId}
    (hm : Marked h s.heap roots stack s.shut traced) :
    ∃ s' traced', markPass.run true s stack = .ok s' ∧
      Marked h s'.heap roots [] s'.shut traced' ∧
      ∀ x ∈ traced', x ∈ traced ∨ markPass.Traces .none true s stack x := by
  -- the cell on top is alive, and on the stack it is neither shut nor traced
  have htop : ∀ {s : Survey} {c : CellId} {rest traced : List CellId},
      Marked h s.heap roots (c :: rest) s.shut traced →
        (s.heap.cell c).destroyed = false ∧ s.shut.contains c = false := by
    intro s c rest traced hm
    constructor
    · rw [hm.marking.marks.destroyed]
      exact Cell.destroyed_of_alive (hr.alive_of_found hm.alive (hm.found c (by simp)))
    · have := hm.marking.nodup
      simp only [List.append_assoc, List.cons_append, List.nodup_cons, List.mem_append] at this
      simpa using fun hc => this.1 (.inr (.inl hc))
  fun_induction markPass.run true s stack generalizing traced with
  | case1 s => exact ⟨s, traced, rfl, hm, fun _ => .inl⟩
  | case2 s c rest hskip ih =>
    simp only [htop hm, Bool.or_self, Bool.false_eq_true] at hskip
  | case3 s c rest hskip hl ht ih =>
    obtain ⟨s', traced', hrun, hm', htraced⟩ := ih (hm.close (hm.marking.marks.locked c ▸ hl))
    exact ⟨s', traced', hrun, hm', fun x hx => (htraced x hx).imp_right (.shut hskip hl ht)⟩
  | case4 s c rest _ hl ht => exact absurd rfl ht
  | case5 s c rest _ hl e hv =>
    obtain ⟨s', new, hv', _⟩ := hm.trace hr (hm.marking.marks.locked c ▸ Bool.not_eq_true _ ▸ hl)
    rw [hm.marking.marks.edges, hv'] at hv
    cases hv
  | case6 s c rest hskip hl s' new hv ih =>
    have hl : (s.heap.cell c).locked = false := Bool.not_eq_true _ ▸ hl
    obtain ⟨s'', new', hv', hm'⟩ := hm.trace hr (hm.marking.marks.locked c ▸ hl)
    rw [hm.marking.marks.edges, hv'] at hv
    cases hv
    obtain ⟨s₁, traced₁, hrun, hm₁, htraced⟩ := ih hm'
    refine ⟨s₁, traced₁, hrun, hm₁, fun x hx => ?_⟩
    rcases htraced x hx with hx | hx
    · rcases List.mem_cons.1 hx with rfl | hx
      · exact .inr (.top hskip fun _ => hl)
      · exact .inl hx
    · exact .inr (.later hskip hl (hm.marking.marks.edges c ▸ hv') hx)

theorem mem_of_found (hm : Marked h s roots [] shut traced) {c : CellId} (hf : h.Found roots c) :
    c ∈ shut ++ traced := by
  induction hf with
  | root hc => exact hm.listed _ hc
  | @edge x c _ hl he ih =>
    rcases List.mem_append.1 ih with hx | hx
    · rw [hm.locked x hx] at hl
      cases hl
    · exact hm.marking.within c (List.mem_flatMap.2 ⟨x, hx, he⟩)

theorem mem_iff_found (hm : Marked h s roots [] shut traced) {c : CellId} :
    c ∈ shut ++ traced ↔ h.Found roots c :=
  ⟨hm.found c, hm.mem_of_found⟩

end Marked

/-- Marking from the candidates succeeds, and comes to each of them that is a possible root. Whatever is traced at its
end it has traced. -/
theorem markCandidates_spec {h : Heap} (hr : h.Ready) {s : Survey} {roots traced : List CellId}
    (cs : List CellId) (hm : Marked h s.heap roots [] s.shut traced) :
    ∃ s' roots' traced', markCandidates s roots cs = .ok (s', roots') ∧
      Marked h s'.heap roots' [] s'.shut traced' ∧ roots ⊆ roots' ∧
      (∀ c ∈ cs, (h.cell c).possibleRoot = true → h.Found roots' c) ∧
      ∀ x ∈ traced', x ∈ traced ∨ MarkTraces s cs x := by
  induction cs generalizing s roots traced with
  | nil =>
    refine ⟨s, roots.reverse, traced, rfl, ?_, List.subset_reverse.2 (List.Subset.refl _), by simp, fun _ => .inl⟩
    have hmem : ∀ {c}, c ∈ roots ↔ c ∈ roots.reverse := List.mem_reverse.symm
    exact { hm with
      found := fun c hc => (hm.found c hc).mono fun _ => hmem.1
      alive := fun c hc => hm.alive c (hmem.2 hc)
      listed := fun c hc => hm.listed c (hmem.2 hc) }
  | cons c cs ih =>
    by_cases hp : (s.heap.cell c).possibleRoot = true
    · -- a root that is purple was not listed before
      have hp' := hp
      simp only [Cell.possibleRoot, Bool.and_eq_true, decide_eq_true_eq] at hp'
      have hl : c ∉ [] ++ s.shut ++ traced := fun hl => by
        simp [(hm.marking.gray c).2 hl] at hp'
      have ha : (h.cell c).alive = true := hm.marking.marks.alive c ▸ hp'.2
      have hc : c < h.size := Heap.lt_size_of_cell_ne fun he => by
        simp [he, Cell.void, Cell.alive] at ha
      have hm₁ : Marked h (s.heap.update c Cell.beginMark) (c :: roots) [c] s.shut traced := {
        marking := hm.marking.begin hc hl
        found := fun d hd => (List.mem_cons.1 hd).elim (fun he => he ▸ .root List.mem_cons_self)
          fun hd => (hm.found d hd).mono (List.subset_cons_self _ _)
        locked := hm.locked
        unlocked := hm.unlocked
        alive := fun d hd => (List.mem_cons.1 hd).elim (fun he => he ▸ ha) (hm.alive d)
        listed := fun d hd => (List.mem_cons.1 hd).elim (fun he => he ▸ List.mem_cons_self)
          fun hd => List.mem_cons_of_mem _ (hm.listed d hd) }
      obtain ⟨s₁, traced₁, hrun, hm₁, htraced₁⟩ :=
        Marked.run hr (s := { s with heap := s.heap.update c Cell.beginMark }) hm₁
      obtain ⟨s', roots', traced', hcs, hm', hsub, hall, htraced⟩ := ih hm₁
      refine ⟨s', roots', traced', ?_, hm', fun d hd => hsub (List.mem_cons_of_mem _ hd),
        fun d hd hd' => ?_, fun x hx => ?_⟩
      · simp only [markCandidates, hp, if_true, hrun, hcs]
      · rcases List.mem_cons.1 hd with rfl | hd
        · exact .root (hsub List.mem_cons_self)
        · exact hall d hd hd'
      · rcases htraced x hx with hx | hx
        · exact (htraced₁ x hx).imp_right (.here hp)
        · exact .inr (.later hp hrun hx)
    · obtain ⟨s', roots', traced', hcs, hm', hsub, hall, htraced⟩ := ih hm
      refine ⟨s', roots', traced', ?_, hm', hsub, fun d hd hd' => ?_, fun x hx => ?_⟩
      · simp only [markCandidates, hp, Bool.false_eq_true, if_false, hcs]
      · rcases List.mem_cons.1 hd with rfl | hd
        · by_cases hl : d ∈ [] ++ s.shut ++ traced
          · exact (hm.found d hl).mono hsub
          · exact absurd (hm.marking.others d hl ▸ hd') hp
        · exact hall d hd hd'
      · exact (htraced x hx).imp_right (.skip (Bool.not_eq_true _ ▸ hp))

end LazyHeap
