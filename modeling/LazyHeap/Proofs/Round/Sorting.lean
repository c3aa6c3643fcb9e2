import LazyHeap.Proofs.Round.Marking

/-!
The scan phase, and the reaching that starts within it. Edges that were counted off are counted back from the
cells found to be live, each of them once. What stays white is exactly what is not spared: marked cells to
which nothing leads from an owner outside of the heap, from a locked cell, or from a cell that was not marked.
-/
namespace LazyHeap

/-- The cells that a round must leave alone, given the roots of its marking. -/
inductive Heap.Spared (h : Heap) (roots : List CellId) : CellId → Prop where
  | external {c : CellId} : h.inward c < (h.cell c).shared → Spared h roots c
  | locked {c : CellId} : (h.cell c).locked = true → Spared h roots c
  | unmarked {x c : CellId} : ¬ h.Found roots x → c ∈ (h.cell x).edges → Spared h roots c
  | edge {x c : CellId} : Spared h roots x → c ∈ (h.cell x).edges → Spared h roots c

def Heap.colour (h : Heap) (c : CellId) : Colour := (h.cell c).flags.colour

theorem Heap.colour_update_self (h : Heap) {c : CellId} (g : Cell → Cell) (hc : c < h.size) :
    (h.update c g).colour c = (g (h.cell c)).flags.colour := by
  rw [colour, h.cell_update_self g hc]

theorem Heap.colour_update_ne (h : Heap) {c d : CellId} (g : Cell → Cell) (hne : d ≠ c) :
    (h.update c g).colour d = h.colour d := by
  rw [colour, h.cell_update_ne g hne, colour]

/-- A heap in the midst of sorting live cells from garbage. The black cells are those listed, and the edges
given were counted back; all other marked cells are gray, or white with no count left. -/
structure Sorting (h s : Heap) (roots shut traced black given : List CellId) : Prop where
  marks : h.Marks s
  others : ∀ c ∉ shut ++ traced, s.cell c = h.cell c
  listed : ∀ c ∈ black, c ∈ shut ++ traced ∧ s.colour c = .black ∧ h.Spared roots c
  rest : ∀ c ∈ shut ++ traced, c ∉ black →
    s.colour c = .gray ∨ (s.colour c = .white ∧ c ∈ traced ∧ (s.cell c).reachable = 0)
  nodup : black.Nodup
  count : ∀ c ∈ shut ++ traced,
    (s.cell c).reachable + (h.out traced).count c = (h.cell c).shared + given.count c
  closed : ∀ c ∈ given, c ∈ black

namespace Sorting

variable {h s : Heap} {roots shut traced black black' given given' : List CellId} {c : CellId}

theorem congr (hs : Sorting h s roots shut traced black given) (hb : black.Perm black')
    (hg : given.Perm given') : Sorting h s roots shut traced black' given' where
  marks := hs.marks
  others := hs.others
  listed c hc := hs.listed c (hb.mem_iff.2 hc)
  rest c hc hn := hs.rest c hc fun h => hn (hb.mem_iff.1 h)
  nodup := hb.nodup_iff.1 hs.nodup
  count c hc := hg.count_eq c ▸ hs.count c hc
  closed c hc := hb.mem_iff.1 (hs.closed c (hg.mem_iff.2 hc))

theorem colour_black_iff (hs : Sorting h s roots shut traced black given)
    (hc : c ∈ shut ++ traced) : s.colour c = .black ↔ c ∈ black := by
  refine ⟨fun h => Classical.by_contradiction fun hn => ?_, fun h => (hs.listed c h).2.1⟩
  rcases hs.rest c hc hn with h' | h'
  · rw [h] at h'
    cases h'
  · rw [h] at h'
    cases h'.1

private theorem blacken (hs : Sorting h s roots shut traced black given) {n : Nat}
    (hc : c ∈ shut ++ traced) (hsp : h.Spared roots c) (hsize : c < h.size)
    (hb : ∀ d, d ∈ black' ↔ d = c ∨ d ∈ black) (hnodup : black'.Nodup)
    (hg : ∀ d, d ≠ c → given'.count d = given.count d)
    (hn : n + (h.out traced).count c = (h.cell c).shared + given'.count c) :
    Sorting h (s.update c fun x => { x.setColour .black with reachable := n }) roots shut traced
      black' given' := by
  have hself := s.cell_update_self (fun x => { x.setColour .black with reachable := n })
    (hs.marks.size ▸ hsize)
  have hne : ∀ d, d ≠ c →
      (s.update c fun x => { x.setColour .black with reachable := n }).cell d = s.cell d :=
    fun d hd => s.cell_update_ne _ hd
  have hblack : (s.update c fun x => { x.setColour .black with reachable := n }).colour c = .black :=
    s.colour_update_self _ (hs.marks.size ▸ hsize)
  have hcol : ∀ d, d ≠ c →
      (s.update c fun x => { x.setColour .black with reachable := n }).colour d = s.colour d :=
    fun d hd => s.colour_update_ne _ hd
  exact {
    marks := hs.marks.trans (.update s c fun _ => rfl)
    others := fun d hd => by
      rw [hne d fun he => hd (he ▸ hc)]
      exact hs.others d hd
    listed := fun d hd => by
      by_cases hdc : d = c
      · subst hdc
        exact ⟨hc, hblack, hsp⟩
      · rw [hcol d hdc]
        exact hs.listed d (((hb d).1 hd).resolve_left hdc)
    rest := fun d hd hn => by
      rw [hb, not_or] at hn
      rw [hcol d hn.1, hne d hn.1]
      exact hs.rest d hd hn.2
    nodup := hnodup
    count := fun d hd => by
      by_cases hdc : d = c
      · subst hdc
        rw [hself]
        exact hn
      · rw [hne d hdc, hg d hdc]
        exact hs.count d hd
    closed := fun d hd => (hb d).2 <| by
      by_cases hdc : d = c
      · exact .inl hdc
      · rw [← List.count_pos_iff, hg d hdc, List.count_pos_iff] at hd
        exact .inr (hs.closed d hd) }

private theorem whiten (hs : Sorting h s roots shut traced black given) (hc : c ∈ traced)
    (hgray : s.colour c = .gray) (hzero : (s.cell c).reachable = 0) (hsize : c < h.size) :
    Sorting h (s.update c (·.setColour .white)) roots shut traced black given := by
  have hself := s.cell_update_self (·.setColour .white) (hs.marks.size ▸ hsize)
  have hcol : ∀ d, d ≠ c → (s.update c (·.setColour .white)).colour d = s.colour d :=
    fun d hd => s.colour_update_ne _ hd
  have hreach : ∀ d, ((s.update c (·.setColour .white)).cell d).reachable = (s.cell d).reachable := by
    intro d
    by_cases hdc : d = c
    · subst hdc
      rw [hself]
      rfl
    · rw [s.cell_update_ne _ hdc]
  exact {
    marks := hs.marks.trans (.update s c fun _ => rfl)
    others := fun d hd => by
      have hdc : d ≠ c := fun he => hd (he ▸ List.mem_append_right _ hc)
      rw [s.cell_update_ne _ hdc]
      exact hs.others d hd
    listed := fun d hd => by
      have hb := hs.listed d hd
      rw [hcol d fun he => by rw [he, hgray] at hb; cases hb.2.1]
      exact hb
    rest := fun d hd hn => by
      rw [hreach]
      by_cases hdc : d = c
      · subst hdc
        exact .inr ⟨s.colour_update_self _ (hs.marks.size ▸ hsize), hc, hzero⟩
      · rw [hcol d hdc]
        exact hs.rest d hd hn
    nodup := hs.nodup
    count := fun d hd => by rw [hreach]; exact hs.count d hd
    closed := hs.closed }

end Sorting

/-- Colours change to black only. -/
def Heap.Blackens (s s' : Heap) : Prop := ∀ c, s'.colour c = s.colour c ∨ s'.colour c = .black

namespace Heap.Blackens

variable {s s' s'' : Heap}

protected theorem refl (s : Heap) : s.Blackens s := fun _ => .inl rfl

protected theorem trans (h₁ : s.Blackens s') (h₂ : s'.Blackens s'') : s.Blackens s'' := fun c =>
  (h₂ c).elim (fun h => h ▸ h₁ c) .inr

theorem update (s : Heap) (c : CellId) {g : Cell → Cell} (hg : ∀ x, (g x).flags.colour = .black) :
    s.Blackens (s.update c g) := fun d => by
  by_cases hd : d = c
  · subst hd
    by_cases hs : d < s.size
    · exact .inr (by rw [colour_update_self s g hs, hg])
    · exact .inl (by rw [s.update_of_size_le g (Nat.not_lt.1 hs)])
  · exact .inl (colour_update_ne s g hd)

theorem gray (hb : s.Blackens s') {c : CellId} (hc : s'.colour c = .gray) : s.colour c = .gray :=
  (hb c).elim (fun h => h ▸ hc) fun h => by rw [h] at hc; cases hc

theorem white (hb : s.Blackens s') {c : CellId} (hc : s'.colour c = .white) : s.colour c = .white :=
  (hb c).elim (fun h => h ▸ hc) fun h => by rw [h] at hc; cases hc

theorem black (hb : s.Blackens s') {c : CellId} (hc : s.colour c = .black) : s'.colour c = .black :=
  (hb c).elim (fun h => h ▸ hc) id

end Heap.Blackens

/-! ### Reaching -/

namespace Sorting

variable {h s : Heap} {roots shut traced black given : List CellId} {c : CellId}

theorem reachVisit (hs : Sorting h s roots shut traced black given) (hc : c ∈ shut ++ traced)
    (hsp : h.Spared roots c) (hsize : c < h.size) :
    ∃ s' b, LazyHeap.reachVisit s c = .ok (s', b) ∧ s.Blackens s' ∧ (b = true ↔ c ∉ black) ∧
      Sorting h s' roots shut traced (if b then c :: black else black) (c :: given) := by
  have hcount := hs.count c hc
  have hfun : (s.update c fun x => { x.setColour .black with reachable := x.reachable + 1 }) =
      s.update c fun x => { x.setColour .black with reachable := (s.cell c).reachable + 1 } :=
    s.update_congr c rfl
  have hother : ∀ d, d ≠ c → (c :: given).count d = given.count d := fun d hd =>
    List.count_cons_of_ne (Ne.symm hd)
  have hn : (s.cell c).reachable + 1 + (h.out traced).count c =
      (h.cell c).shared + (c :: given).count c := by
    rw [List.count_cons_self]
    omega
  refine ⟨_, !decide (s.colour c = .black), rfl, .update s c fun _ => rfl, ?_, ?_⟩
  · simp [hs.colour_black_iff hc]
  · rw [hfun]
    by_cases hb : c ∈ black
    · rw [if_neg (by simp [(hs.colour_black_iff hc).2 hb])]
      exact hs.blacken hc hsp hsize
        (fun d => ⟨.inr, fun hd => hd.elim (fun he => he ▸ hb) id⟩) hs.nodup hother hn
    · rw [if_pos (by simp [mt (hs.colour_black_iff hc).1 hb])]
      exact hs.blacken hc hsp hsize (fun d => List.mem_cons)
        (List.nodup_cons.2 ⟨hb, hs.nodup⟩) hother hn

theorem reachAll (hs : Sorting h s roots shut traced black given) (found : List CellId)
    {cs : List CellId}
    (hcs : ∀ c ∈ cs, c ∈ shut ++ traced ∧ h.Spared roots c ∧ c < h.size) :
    ∃ s' new, reachPass.visitAll s found cs = .ok (s', new ++ found) ∧ s.Blackens s' ∧
      Sorting h s' roots shut traced (new ++ black) (cs ++ given) := by
  induction cs generalizing s black given found with
  | nil => exact ⟨s, [], rfl, .refl s, hs⟩
  | cons c cs ih =>
    have hperm : (cs ++ c :: given).Perm (c :: cs ++ given) := List.perm_middle
    obtain ⟨hc, hsp, hsize⟩ := hcs c List.mem_cons_self
    obtain ⟨s', b, hv, hbl, -, hs'⟩ := hs.reachVisit hc hsp hsize
    have hv : reachPass.visit s c = .ok (s', b) := hv
    have hcs' := fun d hd => hcs d (List.mem_cons_of_mem _ hd)
    cases b with
    | true =>
      obtain ⟨s'', new, ha, hbl', hs''⟩ := ih hs' (c :: found) hcs'
      refine ⟨s'', new ++ [c], ?_, hbl.trans hbl', hs''.congr (by simp) hperm⟩
      simp only [Pass.visitAll, hv, ha, List.append_assoc, List.singleton_append]
    | false =>
      obtain ⟨s'', new, ha, hbl', hs''⟩ := ih hs' found hcs'
      refine ⟨s'', new, ?_, hbl.trans hbl', hs''.congr (.refl _) hperm⟩
      simp only [Pass.visitAll, hv, ha]

end Sorting

/-- Where the reaching stands: the black cells are on its stack, dark because they are shut, or lit: their
edges have been counted back. -/
structure Reaching (h s : Heap) (roots shut traced stack dark lit : List CellId) : Prop where
  sorting : Sorting h s roots shut traced (stack ++ dark ++ lit) (h.out lit)
  dark_shut : ∀ c ∈ dark, c ∈ shut
  lit_traced : ∀ c ∈ lit, c ∈ traced

/-- What the sorting knows of the marking that went before. -/
structure Graph (h : Heap) (roots shut traced : List CellId) : Prop where
  ready : h.Ready
  found : ∀ c, c ∈ shut ++ traced ↔ h.Found roots c
  alive : ∀ c ∈ shut ++ traced, (h.cell c).alive = true
  locked : ∀ c ∈ shut, (h.cell c).locked = true
  unlocked : ∀ c ∈ traced, (h.cell c).locked = false
  nodup : (shut ++ traced).Nodup

namespace Graph

variable {h : Heap} {roots shut traced : List CellId}

theorem lt_size (hg : Graph h roots shut traced) {c : CellId} (hc : c ∈ shut ++ traced) :
    c < h.size := Heap.lt_size_of_cell_ne fun he => by
  have := hg.alive c hc
  simp [he, Cell.void, Cell.alive] at this

theorem edge (hg : Graph h roots shut traced) {x c : CellId} (hx : x ∈ traced)
    (he : c ∈ (h.cell x).edges) : c ∈ shut ++ traced :=
  (hg.found c).2 (.edge ((hg.found x).1 (List.mem_append_right _ hx)) (hg.unlocked x hx) he)

theorem not_shut (hg : Graph h roots shut traced) {c : CellId} (hc : c ∈ traced) : c ∉ shut :=
  fun hs => (List.nodup_append.1 hg.nodup).2.2 c hs c hc rfl

theorem nodup_traced (hg : Graph h roots shut traced) : traced.Nodup :=
  (List.nodup_append.1 hg.nodup).2.1

theorem spared_of_count_lt (hg : Graph h roots shut traced) {c : CellId}
    (hlt : (h.out traced).count c < (h.cell c).shared) : h.Spared roots c := by
  by_cases hext : h.inward c < (h.cell c).shared
  · exact .external hext
  · -- some edge was not counted: it leaves a locked cell, or one that is not marked
    obtain ⟨x, hx, hn⟩ : ∃ x, c ∈ (h.cell x).edges ∧ x ∉ traced := by
      refine Classical.by_contradiction fun hall => ?_
      have heq : h.inward c = (h.out traced).count c := h.inward_eq_count hg.nodup_traced
        fun x hx => Classical.by_contradiction fun hn => hall ⟨x, hx, hn⟩
      omega
    by_cases hs : x ∈ shut
    · exact .edge (.locked (hg.locked x hs)) hx
    · refine .unmarked (fun hf => ?_) hx
      exact (List.mem_append.1 ((hg.found x).2 hf)).elim hs hn

end Graph

namespace Reaching

variable {h : Heap} {roots shut traced dark lit stack : List CellId}

theorem top (hg : Graph h roots shut traced) {s : Heap} {c : CellId}
    (hr : Reaching h s roots shut traced (c :: stack) dark lit) :
    (s.cell c).destroyed = false ∧ (c ∈ shut ∨ (c ∈ traced ∧ (s.cell c).locked = false)) := by
  have hc := (hr.sorting.listed c (by simp)).1
  refine ⟨?_, (List.mem_append.1 hc).imp_right fun ht => ⟨ht, ?_⟩⟩
  · rw [hr.sorting.marks.destroyed]
    exact Cell.destroyed_of_alive (hg.alive c hc)
  · rw [hr.sorting.marks.locked]
    exact hg.unlocked c ht

theorem darken {s : Heap} {c : CellId} (hr : Reaching h s roots shut traced (c :: stack) dark lit) (hs : c ∈ shut) :
    Reaching h s roots shut traced stack (c :: dark) lit := by
  have hperm : (c :: stack ++ dark ++ lit).Perm (stack ++ c :: dark ++ lit) := by
    simp only [List.append_assoc, List.cons_append]
    exact List.perm_middle.symm
  exact {
    sorting := hr.sorting.congr hperm (.refl _)
    dark_shut := fun d hd => (List.mem_cons.1 hd).elim (fun he => he ▸ hs) (hr.dark_shut d)
    lit_traced := hr.lit_traced }

theorem light (hg : Graph h roots shut traced) {s : Heap} {c : CellId}
    (hr : Reaching h s roots shut traced (c :: stack) dark lit) (ht : c ∈ traced) :
    ∃ s' new, reachPass.visitAll s [] (h.cell c).edges = .ok (s', new) ∧ s.Blackens s' ∧
      Reaching h s' roots shut traced (new ++ stack) dark (c :: lit) := by
  have hsp := (hr.sorting.listed c (by simp)).2.2
  obtain ⟨s', new, hv, hb, hs⟩ := hr.sorting.reachAll [] fun d hd =>
    have hd' := hg.edge ht hd
    ⟨hd', hsp.edge hd, hg.lt_size hd'⟩
  refine ⟨s', new, by simpa using hv, hb, ?_, hr.dark_shut, fun d hd =>
    (List.mem_cons.1 hd).elim (fun he => he ▸ ht) (hr.lit_traced d)⟩
  refine Marked.out_cons h c lit ▸ hs.congr ?_ (.refl _)
  simp only [List.append_assoc, List.cons_append]
  refine List.Perm.append_left new ?_
  rw [← List.append_assoc, ← List.append_assoc]
  exact List.perm_middle.symm

/-- Reaching comes to its end, and what was black stays so. The cells that are lit then are those that it traced. -/
theorem run (hg : Graph h roots shut traced) {s : Survey} (hshut : s.shut = shut)
    (hr : Reaching h s.heap roots shut traced stack dark lit) :
    ∃ s' dark', reachPass.run false s stack = .ok s' ∧ s.heap.Blackens s'.heap ∧
      Reaching h s'.heap roots shut traced [] dark' ((reached s stack).reverse ++ lit) := by
  unfold reached
  fun_induction reachPass.run false s stack generalizing dark lit with
  | case1 s => exact ⟨s, dark, rfl, .refl _, by simpa [Pass.log] using hr⟩
  | case2 s c rest hskip ih =>
    -- only a shut cell is passed over
    obtain ⟨hd, -⟩ := hr.top hg
    rw [Pass.log_skip hskip]
    exact ih hshut (hr.darken (by simpa [hd, hshut] using hskip))
  | case3 s c rest _ hl ht => cases ht
  | case4 s c rest hskip hl ht =>
    obtain ⟨hd, hc⟩ := hr.top hg
    simp only [hd, hshut, Bool.false_or, List.contains_eq_mem, decide_eq_true_eq] at hskip
    rw [(hc.resolve_left hskip).2] at hl
    cases hl
  | case5 s c rest hskip hl e hv =>
    obtain ⟨hd, hc⟩ := hr.top hg
    simp only [hd, hshut, Bool.false_or, List.contains_eq_mem, decide_eq_true_eq] at hskip
    obtain ⟨s', new, hv', -⟩ := hr.light hg (hc.resolve_left hskip).1
    rw [hr.sorting.marks.edges, hv'] at hv
    cases hv
  | case6 s c rest hskip hl s' new hv ih =>
    obtain ⟨hd, hc⟩ := hr.top hg
    simp only [hd, hshut, Bool.false_or, List.contains_eq_mem, decide_eq_true_eq] at hskip
    obtain ⟨s'', new', hv', hb, hr'⟩ := hr.light hg (hc.resolve_left hskip).1
    rw [hr.sorting.marks.edges, hv'] at hv
    cases hv
    obtain ⟨s₁, dark₁, hrun, hb₁, hr₁⟩ := ih hshut hr'
    refine ⟨s₁, dark₁, hrun, hb.trans hb₁, ?_⟩
    rw [Pass.log_step (by simp [hd, hshut, hskip]) (Bool.not_eq_true _ ▸ hl) (hr.sorting.marks.edges c ▸ hv'), Pass.logAll_nil]
    simpa using hr₁

end Reaching

/-! ### Scanning -/

/-- Between reaches: no edge of a white cell leads to a gray one, but for the cells that are still open. -/
structure Scanning (h s : Heap) (roots shut traced dark lit opened : List CellId) : Prop where
  reaching : Reaching h s roots shut traced [] dark lit
  white : ∀ c, s.colour c = .white → c ∈ opened ∨ ∀ d ∈ (h.cell c).edges, s.colour d ≠ .gray
  open_traced : ∀ c ∈ opened, c ∈ traced

/-- No cell turns gray. -/
def Heap.Clears (s s' : Heap) : Prop := ∀ c, s'.colour c = .gray → s.colour c = .gray

protected theorem Heap.Clears.trans {s s' s'' : Heap} (h₁ : s.Clears s') (h₂ : s'.Clears s'') :
    s.Clears s'' := fun c hc => h₁ c (h₂ c hc)

namespace Scanning

variable {h s : Heap} {roots shut traced dark lit opened : List CellId} {c : CellId}

private theorem blacken (hs : Scanning h s roots shut traced dark lit opened) {s' : Heap}
    {dark' lit' : List CellId} (hb : s.Blackens s')
    (hr : Reaching h s' roots shut traced [] dark' lit') :
    Scanning h s' roots shut traced dark' lit' opened where
  reaching := hr
  white c hc := (hs.white c (hb.white hc)).imp_right fun hall d hd hg => hall d hd (hb.gray hg)
  open_traced := hs.open_traced

private theorem not_listed (hs : Scanning h s roots shut traced dark lit opened) (hgray : s.colour c = .gray) :
    c ∉ [] ++ dark ++ lit := fun hb => by
  have := (hs.reaching.sorting.listed c hb).2.1
  rw [hgray] at this
  cases this

theorem live (hg : Graph h roots shut traced) (hs : Scanning h s roots shut traced dark lit opened)
    (hc : c ∈ shut ++ traced) (hgray : s.colour c = .gray) (hlive : 0 < (s.cell c).reachable ∨ c ∈ shut) :
    Reaching h (s.update c (·.setColour .black)) roots shut traced [c] dark lit := by
  have hlit := hs.not_listed hgray
  have hcount := hs.reaching.sorting.count c hc
  have hzero : (h.out lit).count c = 0 :=
    List.count_eq_zero.2 fun ho => hlit (hs.reaching.sorting.closed c ho)
  have hsp : h.Spared roots c := by
    rcases hlive with hlive | hlive
    · exact hg.spared_of_count_lt (by omega)
    · exact .locked (hg.locked c hlive)
  refine ⟨?_, hs.reaching.dark_shut, hs.reaching.lit_traced⟩
  have hfun : s.update c (·.setColour .black) =
      s.update c fun x => { x.setColour .black with reachable := (s.cell c).reachable } :=
    s.update_congr c rfl
  rw [hfun]
  exact hs.reaching.sorting.blacken hc hsp (hg.lt_size hc) (fun d => by simp)
    (by simpa using ⟨by simpa using hlit, hs.reaching.sorting.nodup⟩) (fun _ _ => rfl) hcount

/-- What scanning makes of one edge: its target is gray no more. -/
theorem visit (hg : Graph h roots shut traced)
    (hs : Scanning h s roots shut traced dark lit opened) (hc : c ∈ shut ++ traced) :
    ∃ s' b dark', scanVisit shut s c = .ok (s', b) ∧ s.Clears s' ∧ s'.colour c ≠ .gray ∧
      Scanning h s' roots shut traced dark' ((reachedBy shut s c).reverse ++ lit) (if b then c :: opened else opened) := by
  have hsize := hg.lt_size hc
  by_cases hgray : s.colour c = .gray
  · have hgray' : (s.cell c).flags.colour = .gray := hgray
    by_cases hlive : 0 < (s.cell c).reachable ∨ c ∈ shut
    · -- the cell is live, and with it all it leads to
      have hblack := hs.live hg hc hgray hlive
      obtain ⟨s', dark', hrun, hb, hr⟩ := Reaching.run hg
        (s := ⟨s.update c (·.setColour .black), shut, []⟩) rfl hblack
      have hnote : reachedBy shut s c = reached ⟨s.update c (·.setColour .black), shut, []⟩ [c] :=
        if_pos ⟨hgray', by simpa using hlive⟩
      have hb₀ : s.Blackens (s.update c (·.setColour .black)) := .update s c fun _ => rfl
      have hself : (s.update c (·.setColour .black)).colour c = .black :=
        s.colour_update_self _ (hs.reaching.sorting.marks.size ▸ hsize)
      refine ⟨s'.heap, false, dark', ?_, fun d => (hb₀.trans hb).gray, fun hg' => ?_,
        hs.blacken (hb₀.trans hb) (hnote ▸ hr)⟩
      · simp only [scanVisit, hgray', ne_eq, not_true_eq_false, if_false, Bool.or_eq_true,
          decide_eq_true_eq, List.contains_eq_mem, hlive, if_true, hrun]
      · rw [hb.black hself] at hg'
        cases hg'
    · -- no count is left, so for now the cell is white
      rw [not_or, Nat.pos_iff_ne_zero, not_not] at hlive
      have ht : c ∈ traced := (List.mem_append.1 hc).resolve_left hlive.2
      have hs' := hs.reaching.sorting.whiten ht hgray hlive.1 hsize
      have hself : (s.update c (·.setColour .white)).colour c = .white :=
        s.colour_update_self _ (hs.reaching.sorting.marks.size ▸ hsize)
      have hclear : s.Clears (s.update c (·.setColour .white)) := fun d hd => by
        by_cases hdc : d = c
        · exact hdc ▸ hgray
        · rwa [s.colour_update_ne _ hdc] at hd
      have hnote : reachedBy shut s c = [] := if_neg fun h => by simp [hlive.1, hlive.2] at h
      refine ⟨_, true, dark, ?_, hclear, by simp [hself], ?_⟩
      · simp only [scanVisit, hgray', ne_eq, not_true_eq_false, if_false, Bool.or_eq_true,
          decide_eq_true_eq, List.contains_eq_mem, Nat.pos_iff_ne_zero, hlive, or_self]
      · exact {
          reaching := by
            rw [hnote]
            exact ⟨hs', hs.reaching.dark_shut, hs.reaching.lit_traced⟩
          white := fun d hd => by
            by_cases hdc : d = c
            · exact .inl (hdc ▸ List.mem_cons_self)
            · rw [s.colour_update_ne _ hdc] at hd
              exact (hs.white d hd).imp (List.mem_cons_of_mem _) fun hall e he hge =>
                hall e he (hclear e hge)
          open_traced := fun d hd =>
            (List.mem_cons.1 hd).elim (fun he => he ▸ ht) (hs.open_traced d) }
  · have hnote : reachedBy shut s c = [] := if_neg fun h => hgray h.1
    refine ⟨s, false, dark, ?_, fun _ => id, hgray, hnote ▸ hs⟩
    have : (s.cell c).flags.colour ≠ .gray := hgray
    simp only [scanVisit, ne_eq, this, not_false_eq_true, if_true]

theorem visitAll (hg : Graph h roots shut traced)
    (hs : Scanning h s roots shut traced dark lit opened) (found : List CellId) {cs : List CellId}
    (hcs : ∀ c ∈ cs, c ∈ shut ++ traced) :
    ∃ s' new dark', (scanPass shut).visitAll s found cs = .ok (s', new ++ found) ∧
      s.Clears s' ∧ (∀ c ∈ cs, s'.colour c ≠ .gray) ∧
      Scanning h s' roots shut traced dark' (((scanPass shut).logAll (reachedBy shut) s cs).reverse ++ lit) (new ++ opened) := by
  induction cs generalizing s dark lit opened found with
  | nil => exact ⟨s, [], dark, rfl, fun _ => id, by simp, hs⟩
  | cons c cs ih =>
    obtain ⟨s₁, b, dark₁, hv, hcl, hc, hs₁⟩ := hs.visit hg (hcs c List.mem_cons_self)
    have hv : (scanPass shut).visit s c = .ok (s₁, b) := hv
    have hnote : (scanPass shut).logAll (reachedBy shut) s (c :: cs) =
        reachedBy shut s c ++ (scanPass shut).logAll (reachedBy shut) s₁ cs := by
      simp only [Pass.logAll, hv]
    rw [hnote]
    have hcs := fun d hd => hcs d (List.mem_cons_of_mem _ hd)
    cases b with
    | true =>
      obtain ⟨s', new, dark', ha, hcl', hall, hs'⟩ := ih hs₁ (c :: found) hcs
      refine ⟨s', new ++ [c], dark', ?_, hcl.trans hcl', fun d hd => ?_, by simpa using hs'⟩
      · simp only [Pass.visitAll, hv, ha, List.append_assoc, List.singleton_append]
      · exact (List.mem_cons.1 hd).elim (fun he => he ▸ fun h => hc (hcl' c h)) (hall d)
    | false =>
      obtain ⟨s', new, dark', ha, hcl', hall, hs'⟩ := ih hs₁ found hcs
      refine ⟨s', new, dark', ?_, hcl.trans hcl', fun d hd => ?_, by simpa using hs'⟩
      · simp only [Pass.visitAll, hv, ha]
      · exact (List.mem_cons.1 hd).elim (fun he => he ▸ fun h => hc (hcl' c h)) (hall d)

theorem top (hg : Graph h roots shut traced) {s : Survey} {stack : List CellId} (hshut : s.shut = shut)
    (hs : Scanning h s.heap roots shut traced dark lit (c :: stack)) :
    c ∈ traced ∧ (s.heap.cell c).destroyed = false ∧ s.shut.contains c = false ∧ (s.heap.cell c).locked = false := by
  have ht := hs.open_traced c List.mem_cons_self
  have hm := hs.reaching.sorting.marks
  refine ⟨ht, ?_, by simpa [hshut] using hg.not_shut ht, ?_⟩
  · rw [hm.destroyed]
    exact Cell.destroyed_of_alive (hg.alive c (List.mem_append_right _ ht))
  · rw [hm.locked]
    exact hg.unlocked c ht

/-- When the edges of the cell on top are scanned, that cell is open no more, but what is found there is. -/
theorem step (hg : Graph h roots shut traced) {s : Survey} {stack : List CellId} (hshut : s.shut = shut)
    (hs : Scanning h s.heap roots shut traced dark lit (c :: stack)) :
    ∃ s' new dark', (scanPass shut).visitAll s.heap [] (s.heap.cell c).edges = .ok (s', new) ∧
      s.heap.Clears s' ∧ Scanning h s' roots shut traced dark'
        (((scanPass shut).logAll (reachedBy shut) s.heap (s.heap.cell c).edges).reverse ++ lit) (new ++ stack) := by
  rw [hs.reaching.sorting.marks.edges]
  obtain ⟨s', new, dark', hv, hcl, hall, hs'⟩ := hs.visitAll hg [] fun d => hg.edge (hs.top hg hshut).1
  have hmid : ∀ d, d ∈ new ++ c :: stack ↔ d = c ∨ d ∈ new ++ stack := fun d => by simp; tauto
  refine ⟨s', new, dark', ?_, hcl, hs'.reaching, fun d hd => ?_, fun d hd => hs'.open_traced d ((hmid d).2 (.inr hd))⟩
  · rw [hv, List.append_nil]
  · exact (hs'.white d hd).elim (fun ho => ((hmid d).1 ho).elim (fun he => he ▸ .inr hall) .inl) .inr

theorem run (hg : Graph h roots shut traced) {s : Survey} {stack : List CellId}
    (hshut : s.shut = shut) (hs : Scanning h s.heap roots shut traced dark lit stack) :
    ∃ s' dark', (scanPass shut).run false s stack = .ok s' ∧ s.heap.Clears s'.heap ∧
      s'.shut = shut ∧ Scanning h s'.heap roots shut traced dark'
        (((scanPass shut).log (fun _ => []) (reachedBy shut) s stack).reverse ++ lit) [] := by
  fun_induction (scanPass shut).run false s stack generalizing dark lit with
  | case1 s => exact ⟨s, dark, rfl, fun _ => id, hshut, by simpa [Pass.log] using hs⟩
  | case2 s c rest hskip ih =>
    simp only [hs.top hg hshut, Bool.or_self, Bool.false_eq_true] at hskip
  | case3 s c rest _ hl ht => cases ht
  | case4 s c rest _ hl ht =>
    rw [(hs.top hg hshut).2.2.2] at hl
    cases hl
  | case5 s c rest _ _ e hv =>
    obtain ⟨s', new, _, hv', -⟩ := hs.step hg hshut
    rw [hv'] at hv
    cases hv
  | case6 s c rest _ _ s₁ new hv ih =>
    obtain ⟨s₁', new', dark₁, hv', hcl, hs₁⟩ := hs.step hg hshut
    rw [hv'] at hv
    cases hv
    obtain ⟨s', dark', hrun, hcl', hshut', hs'⟩ := ih hshut hs₁
    refine ⟨s', dark', hrun, hcl.trans hcl', hshut', ?_⟩
    obtain ⟨-, hd, hn, hl⟩ := hs.top hg hshut
    rw [Pass.log_step (by rw [hd, hn]; rfl) hl hv']
    simpa using hs'

theorem enter (hg : Graph h roots shut traced) {s : Survey} (hshut : s.shut = shut)
    (hs : Scanning h s.heap roots shut traced dark lit []) (hc : c ∈ shut ++ traced) :
    ∃ s' dark', (scanPass shut).enter s c = .ok s' ∧ s.heap.Clears s'.heap ∧ s'.shut = shut ∧
      s'.heap.colour c ≠ .gray ∧ Scanning h s'.heap roots shut traced dark'
        (((scanPass shut).logEnter (fun _ => []) (reachedBy shut) s c).reverse ++ lit) [] := by
  have hcs : ∀ d ∈ [c], d ∈ shut ++ traced := fun d hd => List.mem_singleton.1 hd ▸ hc
  obtain ⟨s₁, new, dark₁, hv, hcl₁, hcol, hs₁⟩ := hs.visitAll hg [] hcs
  rw [List.append_nil] at hv hs₁
  obtain ⟨s₂, dark₂, hrun, hcl₂, hshut₂, hs₂⟩ :=
    Scanning.run hg (s := { s with heap := s₁, trail := new ++ s.trail }) hshut hs₁
  refine ⟨s₂, dark₂, ?_, hcl₁.trans hcl₂, hshut₂, fun hg' => hcol c List.mem_cons_self (hcl₂ c hg'), ?_⟩
  · simp only [Pass.enter, hv, hrun]
  · simpa only [Pass.logEnter, hv, List.reverse_append, List.append_assoc] using hs₂

theorem enterAll (hg : Graph h roots shut traced) {s : Survey} {cs : List CellId}
    (hshut : s.shut = shut) (hs : Scanning h s.heap roots shut traced dark lit [])
    (hcs : ∀ c ∈ cs, c ∈ shut ++ traced) :
    ∃ s' dark', (scanPass shut).enterAll s cs = .ok s' ∧ s.heap.Clears s'.heap ∧
      s'.shut = shut ∧ (∀ c ∈ cs, s'.heap.colour c ≠ .gray) ∧
      Scanning h s'.heap roots shut traced dark'
        (((scanPass shut).logEach (fun _ => []) (reachedBy shut) s cs).reverse ++ lit) [] := by
  induction cs generalizing s dark lit with
  | nil => exact ⟨s, dark, rfl, fun _ => id, hshut, by simp, hs⟩
  | cons c cs ih =>
    obtain ⟨s₂, dark₂, he, hcl₂, hshut₂, hc, hs₂⟩ := hs.enter hg hshut (hcs c List.mem_cons_self)
    obtain ⟨s', dark', ha, hcl', hshut', hall, hs'⟩ :=
      ih hshut₂ hs₂ fun d hd => hcs d (List.mem_cons_of_mem _ hd)
    have hs' : Scanning h s'.heap roots shut traced dark'
        (((scanPass shut).logEach (fun _ => []) (reachedBy shut) s (c :: cs)).reverse ++ lit) [] := by
      simpa only [Pass.logEach, he, List.reverse_append, List.append_assoc] using hs'
    refine ⟨s', dark', ?_, hcl₂.trans hcl', hshut', fun d hd => ?_, hs'⟩
    · simp only [Pass.enterAll, he, ha]
    · rcases List.mem_cons.1 hd with rfl | hd
      · exact fun hg' => hc (hcl' d hg')
      · exact hall d hd

theorem not_gray (hg : Graph h roots shut traced)
    (hs : Scanning h s roots shut traced dark lit []) (hroots : ∀ c ∈ roots, s.colour c ≠ .gray)
    {c : CellId} (hf : h.Found roots c) : s.colour c ≠ .gray := by
  induction hf with
  | root hc => exact hroots _ hc
  | @edge x c hx hl he ih =>
    have hx := (hg.found x).2 hx
    have ht : x ∈ traced := (List.mem_append.1 hx).resolve_left fun hsh => by
      rw [hg.locked x hsh] at hl
      cases hl
    by_cases hb : x ∈ [] ++ dark ++ lit
    · have hlit : x ∈ lit := (List.mem_append.1 (by simpa using hb)).resolve_left fun hd =>
        hg.not_shut ht (hs.reaching.dark_shut x hd)
      have hc := hs.reaching.sorting.closed c (List.mem_flatMap.2 ⟨x, hlit, he⟩)
      rw [(hs.reaching.sorting.listed c hc).2.1]
      exact fun h => by cases h
    · have hw := ((hs.reaching.sorting.rest x hx hb).resolve_left ih).1
      exact ((hs.white x hw).resolve_left List.not_mem_nil) c he

private theorem black_of_spared (hg : Graph h roots shut traced)
    (hs : Scanning h s roots shut traced dark lit []) (hroots : ∀ c ∈ roots, s.colour c ≠ .gray)
    {c : CellId} (hsp : h.Spared roots c) (hc : c ∈ shut ++ traced) : c ∈ dark ++ lit := by
  refine Classical.by_contradiction fun hb => ?_
  have hsort := hs.reaching.sorting
  -- a cell that is not black is white, and all its owners are edges of traced cells
  have key : ∀ {c}, c ∈ shut ++ traced → c ∉ dark ++ lit →
      c ∈ traced ∧ (h.cell c).shared ≤ (h.out traced).count c := by
    intro c hc hb
    have hw := (hsort.rest c hc (by simpa using hb)).resolve_left
      (hs.not_gray hg hroots ((hg.found c).1 hc))
    have := hsort.count c hc
    exact ⟨hw.2.1, by omega⟩
  have hout : ∀ {x c}, c ∈ shut ++ traced → c ∉ dark ++ lit → c ∈ (h.cell x).edges → x ∈ traced := by
    intro x c hc hb he
    refine Classical.by_contradiction fun hx => ?_
    have h₁ := h.count_edges_le_inward (List.nodup_cons.2 ⟨hx, hg.nodup_traced⟩) c
    have h₂ := hg.ready.inward_le c
    have h₃ := (key hc hb).2
    have h₄ : 0 < (h.cell x).edges.count c := List.count_pos_iff.2 he
    rw [List.flatMap_cons, List.count_append] at h₁
    rw [Heap.out] at h₃
    omega
  induction hsp with
  | @external c hext =>
    have h₁ := h.count_edges_le_inward hg.nodup_traced c
    have h₂ := (key hc hb).2
    rw [Heap.out] at h₂
    omega
  | @locked c hl =>
    rw [hg.unlocked c (key hc hb).1] at hl
    cases hl
  | @unmarked x c hx he =>
    exact hx ((hg.found x).1 (List.mem_append_right _ (hout hc hb he)))
  | @edge x c _ he ih =>
    have hx := hout hc hb he
    by_cases hxb : x ∈ dark ++ lit
    · have hlit : x ∈ lit := (List.mem_append.1 hxb).resolve_left fun hd =>
        hg.not_shut hx (hs.reaching.dark_shut x hd)
      exact hb (by simpa using hsort.closed c (List.mem_flatMap.2 ⟨x, hlit, he⟩))
    · exact ih (List.mem_append_right _ hx) hxb

end Scanning

/-- A heap in which live cells are told from garbage: of the marked cells, those that are spared are black,
the others are white and not locked. -/
structure Sorted (h s : Heap) (roots : List CellId) : Prop where
  marks : h.Marks s
  others : ∀ c, ¬ h.Found roots c → s.cell c = h.cell c
  spared : ∀ c, h.Found roots c → h.Spared roots c → s.colour c = .black
  white : ∀ c, h.Found roots c → ¬ h.Spared roots c → s.colour c = .white

namespace Marked

variable {h s : Heap} {roots shut traced : List CellId}

theorem graph (hr : h.Ready) (hm : Marked h s roots [] shut traced) : Graph h roots shut traced where
  ready := hr
  found _ := hm.mem_iff_found
  alive _ hc := hr.alive_of_found hm.alive (hm.mem_iff_found.1 hc)
  locked := hm.locked
  unlocked := hm.unlocked
  nodup := hm.marking.nodup

theorem scanning (hr : h.Ready) (hm : Marked h s roots [] shut traced) : Scanning h s roots shut traced [] [] [] where
  reaching := {
    sorting := {
      marks := hm.marking.marks
      others := hm.marking.others
      listed := fun c hc => nomatch hc
      rest := fun c hc _ => .inl ((hm.marking.gray c).2 hc)
      nodup := List.nodup_nil
      count := hm.marking.count
      closed := fun c hc => nomatch hc }
    dark_shut := fun c hc => nomatch hc
    lit_traced := fun c hc => nomatch hc }
  white c hc := by
    by_cases hl : c ∈ shut ++ traced
    · rw [Heap.colour, (hm.marking.gray c).2 hl] at hc
      cases hc
    · rw [Heap.colour, hm.marking.others c hl] at hc
      exact absurd hc (hr.colour c).2
  open_traced c hc := nomatch hc

end Marked

/-- The scan of what was marked succeeds. The cells that are lit at its end are those that it reached. -/
theorem Marked.scan {h : Heap} {roots traced : List CellId} (hr : h.Ready) {s : Survey}
    (hm : Marked h s.heap roots [] s.shut traced) :
    ∃ s' dark, (scanPass s.shut).enterAll s roots = .ok s' ∧ s'.shut = s.shut ∧
      (∀ c ∈ roots, s'.heap.colour c ≠ .gray) ∧
      Scanning h s'.heap roots s.shut traced dark (reachLog s roots).reverse [] := by
  obtain ⟨s', dark, ha, -, hshut, hroots, hs'⟩ :=
    (hm.scanning hr).enterAll (hm.graph hr) rfl fun c hc => hm.mem_of_found (.root hc)
  exact ⟨s', dark, ha, hshut, hroots, by simpa [reachLog] using hs'⟩

/-- The scan of what was marked succeeds and tells live cells from garbage. -/
theorem scan_spec {h : Heap} {roots traced : List CellId} (hr : h.Ready) {s : Survey}
    (hm : Marked h s.heap roots [] s.shut traced) :
    ∃ s', (scanPass s.shut).enterAll s roots = .ok s' ∧ s'.shut = s.shut ∧
      Sorted h s'.heap roots := by
  have hg := hm.graph hr
  obtain ⟨s', dark, ha, hshut, hroots, hs'⟩ := hm.scan hr
  have hsort := hs'.reaching.sorting
  refine ⟨s', ha, hshut, hsort.marks, fun c hc => hsort.others c fun h => hc (hm.found c h),
    fun c hc hsp => ?_, fun c hc hsp => ?_⟩
  · have hb := hs'.black_of_spared hg hroots hsp (hm.mem_of_found hc)
    exact (hsort.listed c (by simpa using hb)).2.1
  · have hb : c ∉ [] ++ dark ++ (reachLog s roots).reverse := fun hb => hsp (hsort.listed c hb).2.2
    exact ((hsort.rest c (hm.mem_of_found hc) hb).resolve_left
      (hs'.not_gray hg hroots hc)).1

end LazyHeap
