import LazyHeap.Proofs.Round.Sorting

/-!
The collect phase, and the round as a whole. What is white is claimed, each cell once, and every white cell is
come upon. So a round claims exactly the marked cells that are not spared; it leaves all others as they were,
but for marks and the candidate buffer.
-/
namespace LazyHeap

theorem Heap.cell_foldl_update (g : Cell → Cell) {cs : List CellId} (hn : cs.Nodup) {h : Heap}
    (hlt : ∀ c ∈ cs, c < h.size) (c : CellId) :
    (cs.foldl (fun h c => h.update c g) h).cell c = if c ∈ cs then g (h.cell c) else h.cell c := by
  induction cs generalizing h with
  | nil => rfl
  | cons d cs ih =>
    have hn := List.nodup_cons.1 hn
    rw [List.foldl_cons, ih hn.2 fun e he => by simpa using hlt e (List.mem_cons_of_mem _ he)]
    by_cases hc : c = d
    · subst hc
      rw [if_neg hn.1, h.cell_update_self g (hlt c List.mem_cons_self), if_pos List.mem_cons_self]
    · rw [h.cell_update_ne g hc]
      simp only [List.mem_cons, hc, false_or]

theorem Heap.foldl_update (g : Cell → Cell) (cs : List CellId) (h : Heap) :
    (cs.foldl (fun h c => h.update c g) h).size = h.size ∧
      cs.foldl (fun h c => h.update c g) h =
        { h with cells := (cs.foldl (fun h c => h.update c g) h).cells } := by
  induction cs generalizing h with
  | nil => exact ⟨rfl, rfl⟩
  | cons d cs ih =>
    obtain ⟨hs, he⟩ := ih (h.update d g)
    exact ⟨hs.trans (h.size_update d g), he⟩

private theorem rest_trans {h s s' : Heap} (h₁ : s = { h with cells := s.cells })
    (h₂ : s' = { s with cells := s'.cells }) : s' = { h with cells := s'.cells } := by
  rw [h₂, h₁]

def Cell.claim (x : Cell) : Cell := { x.setColour .black with flags.collected := true }

/-- A heap in the midst of claiming: the claimed cells were white, and nothing else has changed. -/
structure Claiming (h s : Heap) (claimed : List CellId) : Prop where
  cell : ∀ c, s.cell c = if c ∈ claimed then (h.cell c).claim else h.cell c
  size : s.size = h.size
  rest : s = { h with cells := s.cells }
  nodup : claimed.Nodup
  white : ∀ c ∈ claimed, h.colour c = .white

/-- White cells can be claimed and looked into. -/
def Heap.Claimable (h : Heap) (shut : List CellId) : Prop :=
  ∀ c, h.colour c = .white → (h.cell c).alive = true ∧ (h.cell c).flags.collected = false ∧
    (h.cell c).locked = false ∧ c ∉ shut

namespace Claiming

variable {h s : Heap} {claimed shut : List CellId} {c : CellId}

theorem start (h : Heap) : Claiming h h [] := ⟨fun _ => rfl, rfl, rfl, List.nodup_nil, fun _ hc => nomatch hc⟩

theorem edges (hs : Claiming h s claimed) (c : CellId) : (s.cell c).edges = (h.cell c).edges := by
  rw [hs.cell c]
  split <;> rfl

theorem visit (hs : Claiming h s claimed) (hw : h.Claimable shut) (c : CellId) :
    ∃ s' b, collectVisit s c = .ok (s', b) ∧
      Claiming h s' (if b then c :: claimed else claimed) ∧
      (b = true → h.colour c = .white) ∧
      (h.colour c = .white → c ∈ if b then c :: claimed else claimed) := by
  by_cases hc : c ∈ claimed
  · refine ⟨s, false, ?_, hs, by simp, fun _ => hc⟩
    simp [collectVisit, hs.cell c, hc, Cell.claim]
  · have hcell : s.cell c = h.cell c := by rw [hs.cell c, if_neg hc]
    by_cases hwhite : h.colour c = .white
    · obtain ⟨ha, hcol, -⟩ := hw c hwhite
      have hsize : c < s.size := hs.size ▸ Heap.lt_size_of_cell_ne fun he => by
        simp [he, Cell.void, Cell.alive] at ha
      have hwhite' : (h.cell c).flags.colour = .white := hwhite
      refine ⟨s.update c Cell.claim, true, ?_, ?_, fun _ => hwhite, fun _ => List.mem_cons_self⟩
      · simp only [collectVisit, hcell, hwhite', hcol]
        rfl
      · exact {
          cell := fun d => by
            by_cases hd : d = c
            · subst hd
              rw [s.cell_update_self _ hsize, hcell, if_pos rfl, if_pos List.mem_cons_self]
            · rw [s.cell_update_ne _ hd, hs.cell d]
              simp [hd]
          size := (s.size_update c _).trans hs.size
          rest := by
            have := hs.rest
            rw [this]
            rfl
          nodup := List.nodup_cons.2 ⟨hc, hs.nodup⟩
          white := fun d hd => (List.mem_cons.1 hd).elim (fun he => he ▸ hwhite) (hs.white d) }
    · refine ⟨s, false, ?_, hs, by simp, fun h => absurd h hwhite⟩
      have : (h.cell c).flags.colour ≠ .white := hwhite
      simp [collectVisit, hcell, this]

theorem visitAll (hs : Claiming h s claimed) (hw : h.Claimable shut) (found : List CellId)
    (cs : List CellId) :
    ∃ s' new, collectPass.visitAll s found cs = .ok (s', new ++ found) ∧
      Claiming h s' (new ++ claimed) ∧ ∀ c ∈ cs, h.colour c = .white → c ∈ new ++ claimed := by
  induction cs generalizing s claimed found with
  | nil => exact ⟨s, [], rfl, hs, by simp⟩
  | cons c cs ih =>
    obtain ⟨s₁, b, hv, hs₁, -, hc⟩ := hs.visit hw c
    have hv : collectPass.visit s c = .ok (s₁, b) := hv
    cases b with
    | true =>
      obtain ⟨s', new, ha, hs', hall⟩ := ih hs₁ (c :: found)
      refine ⟨s', new ++ [c], ?_, by simpa using hs', fun d hd hdw => ?_⟩
      · simp only [Pass.visitAll, hv, ha, List.append_assoc, List.singleton_append]
      · rcases List.mem_cons.1 hd with rfl | hd
        · simp
        · simpa using hall d hd hdw
    | false =>
      obtain ⟨s', new, ha, hs', hall⟩ := ih hs₁ found
      refine ⟨s', new, ?_, hs', fun d hd hdw => ?_⟩
      · simp only [Pass.visitAll, hv, ha]
      · rcases List.mem_cons.1 hd with rfl | hd
        · exact List.mem_append_right _ (hc hdw)
        · exact hall d hd hdw

theorem run {s : Survey} {stack : List CellId} (hw : h.Claimable s.shut)
    (hs : Claiming h s.heap s.trail) (hstack : stack ⊆ s.trail)
    (hopen : ∀ x ∈ s.trail, x ∈ stack ∨
      ∀ d ∈ (h.cell x).edges, h.colour d = .white → d ∈ s.trail) :
    ∃ s', collectPass.run false s stack = .ok s' ∧ s'.shut = s.shut ∧
      Claiming h s'.heap s'.trail ∧ s.trail ⊆ s'.trail ∧
      ∀ x ∈ s'.trail, ∀ d ∈ (h.cell x).edges, h.colour d = .white → d ∈ s'.trail := by
  -- what was claimed can be looked into
  have htop : ∀ {s : Survey} {c : CellId}, h.Claimable s.shut → Claiming h s.heap s.trail →
      c ∈ s.trail → (s.heap.cell c).destroyed = false ∧ s.shut.contains c = false ∧
        (s.heap.cell c).locked = false := by
    intro s c hw hs hc
    obtain ⟨ha, -, hl, hsh⟩ := hw c (hs.white c hc)
    rw [hs.cell c, if_pos hc]
    exact ⟨Cell.destroyed_of_alive ha, by simpa using hsh, hl⟩
  fun_induction collectPass.run false s stack with
  | case1 s =>
    exact ⟨s, rfl, rfl, hs, List.Subset.refl _, fun x hx => (hopen x hx).resolve_left List.not_mem_nil⟩
  | case2 s c rest hskip ih =>
    simp only [htop hw hs (hstack List.mem_cons_self), Bool.or_self, Bool.false_eq_true] at hskip
  | case3 s c rest _ hl ht => cases ht
  | case4 s c rest _ hl ht =>
    rw [(htop hw hs (hstack List.mem_cons_self)).2.2] at hl
    cases hl
  | case5 s c rest _ _ e hv =>
    obtain ⟨s', new, hv', -⟩ := hs.visitAll hw [] (s.heap.cell c).edges
    rw [hv'] at hv
    cases hv
  | case6 s c rest _ _ s₁ new hv ih =>
    obtain ⟨s₁', new', hv', hs₁, hall⟩ := hs.visitAll hw [] (s.heap.cell c).edges
    rw [hv', List.append_nil] at hv
    cases hv
    rw [hs.edges] at hall
    obtain ⟨s', hrun, hsh, hs', hsub, hclosed⟩ := ih hw hs₁
      (List.append_subset.2 ⟨List.subset_append_left _ _, fun d hd =>
        List.mem_append_right _ (hstack (List.mem_cons_of_mem _ hd))⟩)
      fun x hx => by
        rcases List.mem_append.1 hx with hx | hx
        · exact .inl (List.mem_append_left _ hx)
        · rcases hopen x hx with hx | hx
          · rcases List.mem_cons.1 hx with rfl | hx
            · exact .inr hall
            · exact .inl (List.mem_append_right _ hx)
          · exact .inr fun d hd hdw => List.mem_append_right _ (hx d hd hdw)
    exact ⟨s', hrun, hsh, hs', fun d hd => hsub (List.mem_append_right _ hd), hclosed⟩

theorem enter {s : Survey} (c : CellId) (hw : h.Claimable s.shut) (hs : Claiming h s.heap s.trail)
    (hopen : ∀ x ∈ s.trail, ∀ d ∈ (h.cell x).edges, h.colour d = .white → d ∈ s.trail) :
    ∃ s', collectPass.enter s c = .ok s' ∧ s'.shut = s.shut ∧ Claiming h s'.heap s'.trail ∧ s.trail ⊆ s'.trail ∧
      (h.colour c = .white → c ∈ s'.trail) ∧
      ∀ x ∈ s'.trail, ∀ d ∈ (h.cell x).edges, h.colour d = .white → d ∈ s'.trail := by
  obtain ⟨s₁, new, hv, hs₁, hall⟩ := hs.visitAll hw [] [c]
  rw [List.append_nil] at hv
  have hnew : new ⊆ new ++ s.trail := List.subset_append_left _ _
  obtain ⟨s₂, hrun, hsh, hs₂, hsub₂, hclosed⟩ :=
    run (s := { s with heap := s₁, trail := new ++ s.trail }) hw hs₁ hnew fun x hx =>
      (List.mem_append.1 hx).imp_right fun hx d hd hdw => List.mem_append_right _ (hopen x hx d hd hdw)
  refine ⟨s₂, ?_, hsh, hs₂, fun d hd => hsub₂ (List.mem_append_right _ hd),
    fun hdw => hsub₂ (hall c List.mem_cons_self hdw), hclosed⟩
  simp only [Pass.enter, hv, hrun]

theorem enterAll {s : Survey} (cs : List CellId) (hw : h.Claimable s.shut)
    (hs : Claiming h s.heap s.trail)
    (hopen : ∀ x ∈ s.trail, ∀ d ∈ (h.cell x).edges, h.colour d = .white → d ∈ s.trail) :
    ∃ s', collectPass.enterAll s cs = .ok s' ∧ Claiming h s'.heap s'.trail ∧ s.trail ⊆ s'.trail ∧
      (∀ c ∈ cs, h.colour c = .white → c ∈ s'.trail) ∧
      ∀ x ∈ s'.trail, ∀ d ∈ (h.cell x).edges, h.colour d = .white → d ∈ s'.trail := by
  induction cs generalizing s with
  | nil => exact ⟨s, rfl, hs, List.Subset.refl _, by simp, hopen⟩
  | cons c cs ih =>
    obtain ⟨s₂, he, hsh, hs₂, hsub₂, hc, hclosed⟩ := hs.enter c hw hopen
    obtain ⟨s', ha, hs', hsub', hroots, hclosed'⟩ := ih (hsh ▸ hw) hs₂ hclosed
    refine ⟨s', ?_, hs', fun d hd => hsub' (hsub₂ hd), fun d hd hdw => ?_, hclosed'⟩
    · simp only [Pass.enterAll, he, ha]
    · rcases List.mem_cons.1 hd with rfl | hd
      · exact hsub' (hc hdw)
      · exact hroots d hd hdw

end Claiming

/-! ### The round as a whole -/

/-- A heap in which a round can start: the candidates are the buffered cells, and only they are purple. -/
structure Heap.Buffered (h : Heap) : Prop where
  colour : ∀ c, (h.cell c).flags.colour = if (h.cell c).flags.buffered then .purple else .black
  candidates : ∀ c, c ∈ h.candidates.toList ↔ (h.cell c).flags.buffered = true
  nodup : h.candidates.toList.Nodup

/-- What a round makes of a cell before it destroys anything, but for the marks it leaves. -/
def Cell.opened (white : Bool) (x : Cell) : Cell :=
  { x with
    weak := x.weak + white.toNat
    flags.buffered := false
    flags.collected := x.flags.collected || white }

/-- A round that has claimed its garbage, the marked cells that are not spared. -/
structure Heap.Opened (h h' : Heap) (roots whites : List CellId) : Prop where
  found : ∀ c ∈ h.candidates.toList, (h.cell c).possibleRoot = true → h.Found roots c
  alive : ∀ c, h.Found roots c → (h.cell c).alive = true
  nodup : whites.Nodup
  mem_whites : ∀ c, c ∈ whites ↔ h.Found roots c ∧ ¬ h.Spared roots c
  cell : ∀ c, (h'.cell c).unmarked = ((h.cell c).opened (c ∈ whites)).unmarked
  colour : ∀ c, h'.colour c = .black
  size : h'.size = h.size
  rest : h' = { h with cells := h'.cells, candidates := #[], inRound := true }

theorem Cell.unbuffer_eq (x : Cell) :
    x.unbuffer = { x with
      flags.buffered := false
      flags.colour := if x.flags.colour = .purple then .black else x.flags.colour } := by
  simp only [unbuffer, setBuffered, setColour]
  split <;> simp_all

theorem Cell.colour_unbuffer (x : Cell) : x.unbuffer.flags.colour = .white ↔ x.flags.colour = .white := by
  rw [unbuffer_eq]
  by_cases h : x.flags.colour = .purple <;> simp [h]

private theorem found_congr {h h' : Heap} (hc : h'.cells = h.cells) {roots : List CellId} {c : CellId}
    (hf : h.Found roots c) : h'.Found roots c := by
  have hcell : ∀ d, h'.cell d = h.cell d := fun d => by simp only [Heap.cell, hc]
  induction hf with
  | root hr => exact .root hr
  | edge _ hl he ih => exact .edge ih (hcell _ ▸ hl) (hcell _ ▸ he)

private theorem spared_congr {h h' : Heap} (hc : h'.cells = h.cells) {roots : List CellId} {c : CellId}
    (hs : h.Spared roots c) : h'.Spared roots c := by
  have hcell : ∀ d, h'.cell d = h.cell d := fun d => by simp only [Heap.cell, hc]
  have hin : ∀ d, h'.inward d = h.inward d := fun d => by simp only [Heap.inward, Heap.total, hc]
  induction hs with
  | external hx => exact .external (hin _ ▸ hcell _ ▸ hx)
  | locked hl => exact .locked (hcell _ ▸ hl)
  | unmarked hx he => exact .unmarked (fun hf => hx (found_congr hc.symm hf)) (hcell _ ▸ he)
  | edge _ he ih => exact .edge ih (hcell _ ▸ he)

private def Cell.unheld (x : Cell) : Cell := { x.unmarked with flags.buffered := false }

private def Cell.pinned (x : Cell) : Cell := { x with weak := x.weak + 1 }

private theorem Cell.opened_true {x y : Cell} (hx : x.unmarked = y.unheld) :
    x.claim.pinned.unmarked = (y.opened true).unmarked := by
  have : x.claim.pinned.unmarked =
      { x.unmarked with weak := x.unmarked.weak + 1, flags.collected := true } := rfl
  rw [this, hx]
  simp [unheld, unmarked, opened]

private theorem Cell.opened_false {x y : Cell} (hx : x.unmarked = y.unheld) :
    x.unmarked = (y.opened false).unmarked := by
  rw [hx]
  simp [unheld, unmarked, opened]

/-- A heap in which the garbage that was told from live cells can be claimed: only it is white, and nothing is buffered
any more. -/
structure Unbuffered (h s : Heap) (roots : List CellId) : Prop where
  cell : ∀ c, (s.cell c).unmarked = (h.cell c).unheld
  white : ∀ c, s.colour c = .white ↔ h.Found roots c ∧ ¬ h.Spared roots c

theorem Sorted.unbuffer {h s : Heap} {roots cs : List CellId} (hr : h.Ready) (hsort : Sorted h s roots) (hn : cs.Nodup)
    (hcs : ∀ c, c ∈ cs ↔ (h.cell c).flags.buffered = true) :
    Unbuffered h (cs.foldl (fun h c => h.update c Cell.unbuffer) s) roots := by
  have hlt : ∀ c ∈ cs, c < s.size := fun c hc => by
    rw [hsort.marks.size]
    exact Heap.lt_size_of_cell_ne fun he => by
      have := (hcs c).1 hc
      simp [he, Cell.void] at this
  have hcell := Heap.cell_foldl_update Cell.unbuffer hn hlt
  constructor
  · intro c
    have hm : (s.cell c).unmarked = (h.cell c).unmarked := hsort.marks.cell c
    rw [Cell.unheld, ← hm, hcell]
    split
    · rw [Cell.unbuffer_eq]
      rfl
    · next hc =>
      have hnb : (h.cell c).flags.buffered = false := by
        rw [← Bool.not_eq_true]
        exact mt (hcs c).2 hc
      have hnb : (s.cell c).flags.buffered = false := (congrArg (fun x => x.flags.buffered) hm :).trans hnb
      simp only [Cell.unmarked, ← hnb]
  · intro c
    have h₁ : (cs.foldl (fun h c => h.update c Cell.unbuffer) s).colour c = .white ↔ s.colour c = .white := by
      rw [Heap.colour, hcell]
      split
      · exact Cell.colour_unbuffer _
      · rfl
    rw [h₁]
    constructor
    · intro hw
      by_cases hf : h.Found roots c
      · refine ⟨hf, fun hs => ?_⟩
        rw [hsort.spared c hf hs] at hw
        cases hw
      · rw [Heap.colour, hsort.others c hf] at hw
        exact absurd hw (hr.colour c).2
    · rintro ⟨hf, hs⟩
      exact hsort.white c hf hs

namespace Unbuffered

variable {h s : Heap} {roots shut : List CellId}

theorem claimable (hu : Unbuffered h s roots) (hr : h.Ready) (halive : ∀ c, h.Found roots c → (h.cell c).alive = true)
    (hshut : ∀ c ∈ shut, (h.cell c).locked = true) : s.Claimable shut := fun c hw => by
  obtain ⟨hf, hns⟩ := (hu.white c).1 hw
  have ha := halive c hf
  have hcol : (h.cell c).flags.collected = false := by
    simpa using mt (hr.collected c) (by rw [Cell.destroyed_of_alive ha]; exact Bool.false_ne_true)
  have hl : (h.cell c).locked = false := by
    rw [← Bool.not_eq_true]
    exact fun hl => hns (.locked hl)
  exact ⟨(congrArg Cell.alive (hu.cell c) :).trans ha,
    (congrArg (fun x => x.flags.collected) (hu.cell c) :).trans hcol,
    (congrArg Cell.locked (hu.cell c) :).trans hl, fun hs => hns (.locked (hshut c hs))⟩

end Unbuffered

private theorem claim_all {h s : Heap} {roots shut : List CellId} (hr : h.Ready)
    (halive : ∀ c, h.Found roots c → (h.cell c).alive = true)
    (hshut : ∀ c ∈ shut, (h.cell c).locked = true) (hu : Unbuffered h s roots) :
    ∃ s', collectPass.enterAll ⟨s, shut, []⟩ roots = .ok s' ∧ Claiming s s'.heap s'.trail ∧
      ∀ c, c ∈ s'.trail ↔ h.Found roots c ∧ ¬ h.Spared roots c := by
  have hclaim := hu.claimable hr halive hshut
  have hwhite := hu.white
  have hedges : ∀ c, (s.cell c).edges = (h.cell c).edges := fun c =>
    (congrArg Cell.edges (hu.cell c) :)
  obtain ⟨s', hcollect, hs', -, hroots, hclosed⟩ := Claiming.enterAll
    (s := ⟨s, shut, []⟩) roots hclaim (.start s) fun _ hc => nomatch hc
  refine ⟨s', hcollect, hs', fun c => ⟨fun hc => (hwhite c).1 (hs'.white c hc), ?_⟩⟩
  rintro ⟨hf, hns⟩
  -- an edge from a spared cell would spare its target
  revert hns
  induction hf with
  | root hc => exact fun hns => hroots _ hc ((hwhite _).2 ⟨.root hc, hns⟩)
  | edge hx hl he ih =>
    intro hns
    have hx' := ih fun hs => hns (.edge hs he)
    exact hclosed _ hx' _ (hedges _ ▸ he) ((hwhite _).2 ⟨.edge hx hl he, hns⟩)

/-- A round can be opened, and claims exactly the marked cells that are not spared. -/
theorem Heap.openRound_spec {h : Heap} (hr : h.Ready) (hb : h.Buffered) :
    ∃ h' roots whites, h.Opened h' roots whites ∧
      h.openRound = .ok (h', whites.map .perish ++ whites.map .unpin ++
        h.candidates.toList.map .unpin ++
          [.closeRound ⟨h.candidates.toList.length, roots.length, whites.length⟩],
        ⟨h.candidates.toList.length, roots.length, whites.length⟩) := by
  let h₀ : Heap := h.rounding
  have hcells : h₀.cells = h.cells := rfl
  have hr₀ : h₀.Ready := hr.rounding
  obtain ⟨s₁, roots, traced, hmark, hm, -, hcand, -⟩ :=
    markCandidates_spec hr₀ (s := ⟨h₀, [], []⟩) h.candidates.toList (.start hr₀)
  obtain ⟨s₂, hscan, hshut, hsort⟩ := scan_spec hr₀ hm
  have halive : ∀ c, h₀.Found roots c → (h₀.cell c).alive = true := fun c hc =>
    hr₀.alive_of_found hm.alive hc
  -- the buffer is given up between the scan and the claims
  let h₃ : Heap := h.candidates.toList.foldl (fun h c => h.update c Cell.unbuffer) s₂.heap
  have hlt : ∀ c ∈ h.candidates.toList, c < s₂.heap.size := fun c hc => by
    rw [hsort.marks.size]
    exact lt_size_of_cell_ne fun he => by
      have he : h.cell c = .void := he
      have := (hb.candidates c).1 hc
      simp [he, Cell.void] at this
  have hcell₃ : ∀ c, h₃.cell c =
      if c ∈ h.candidates.toList then (s₂.heap.cell c).unbuffer else s₂.heap.cell c :=
    cell_foldl_update Cell.unbuffer hb.nodup hlt
  obtain ⟨hsize₃, hrest₃⟩ := foldl_update Cell.unbuffer h.candidates.toList s₂.heap
  have hu : Unbuffered h₀ h₃ roots := hsort.unbuffer hr₀ hb.nodup hb.candidates
  have hunheld := hu.cell
  obtain ⟨s₄, hcollect, hs₄, hmem⟩ := claim_all hr₀ halive
    (fun c hc => hm.locked c (hshut ▸ hc : c ∈ s₁.shut)) hu
  have hnodup : s₄.trail.reverse.Nodup := (List.reverse_perm _).nodup_iff.2 hs₄.nodup
  have hlt₄ : ∀ c ∈ s₄.trail.reverse, c < s₄.heap.size := fun c hc => by
    rw [hs₄.size, hsize₃, hsort.marks.size]
    exact lt_size_of_cell_ne fun he => by
      have := halive c ((hmem c).1 (List.mem_reverse.1 hc)).1
      simp [he, Cell.void, Cell.alive] at this
  have hcell₅ := cell_foldl_update Cell.pinned hnodup hlt₄
  obtain ⟨hsize₅, hrest₅⟩ := foldl_update Cell.pinned s₄.trail.reverse s₄.heap
  let h₅ : Heap := s₄.trail.reverse.foldl (fun h c => h.update c Cell.pinned) s₄.heap
  refine ⟨h₅, roots, s₄.trail.reverse, ⟨fun c hc hp => ?_, fun c hc => ?_, hnodup, fun c => ?_,
    fun c => ?_, fun c => ?_, ?_, ?_⟩, ?_⟩
  · exact found_congr hcells.symm (hcand c hc hp)
  · exact halive c (found_congr hcells hc)
  · rw [List.mem_reverse, hmem]
    exact ⟨fun hc => ⟨found_congr hcells.symm hc.1, fun h => hc.2 (spared_congr hcells h)⟩,
      fun hc => ⟨found_congr hcells hc.1, fun h => hc.2 (spared_congr hcells.symm h)⟩⟩
  · rw [show h₅.cell c = _ from hcell₅ c, hs₄.cell]
    by_cases hw : c ∈ s₄.trail
    · simp only [List.mem_reverse, hw, if_true, decide_true]
      exact Cell.opened_true (hunheld c)
    · simp only [List.mem_reverse, hw, if_false, decide_false]
      exact Cell.opened_false (hunheld c)
  · rw [colour, show h₅.cell c = _ from hcell₅ c, hs₄.cell]
    by_cases hw : c ∈ s₄.trail
    · simp only [List.mem_reverse, hw, if_true]
      rfl
    · simp only [List.mem_reverse, hw, if_false]
      rw [hmem, not_and_not_right] at hw
      rw [hcell₃]
      by_cases hf : h₀.Found roots c
      · have hblack := hsort.spared c hf (hw hf)
        rw [colour] at hblack
        split
        · simp [Cell.unbuffer_eq, hblack]
        · exact hblack
      · rw [hsort.others c hf]
        have hcol := hb.colour c
        split
        · next hc =>
          rw [(hb.candidates c).1 hc] at hcol
          simp [Cell.unbuffer_eq, show (h₀.cell c).flags.colour = .purple from hcol]
        · next hc =>
          rw [hb.candidates c] at hc
          rwa [if_neg hc] at hcol
  · exact hsize₅.trans (hs₄.size.trans (hsize₃.trans hsort.marks.size))
  · exact rest_trans (rest_trans (rest_trans hsort.marks.rest hrest₃) hs₄.rest) hrest₅
  · simp only [openRound, bind, Except.bind, pure, Except.pure]
    rw [show markCandidates ⟨{ h with candidates := #[], inRound := true }, [], []⟩ [] h.candidates.toList = _ from hmark]
    simp only [hscan]
    rw [show collectPass.enterAll _ roots = _ from hcollect]
    rfl

end LazyHeap
