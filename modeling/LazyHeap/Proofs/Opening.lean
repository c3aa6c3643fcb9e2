import LazyHeap.Proofs.Moment

/-!
Opening a round keeps a moment sound. Whatever is neither claimed nor reached from elsewhere was never among the
candidates' descendants, and the candidates' garbage is claimed as a whole.
-/
namespace LazyHeap

theorem Orderly.count_perish {ts : List Task} (ho : Orderly false ts) (c : CellId) :
    ts.count (.perish c) = 0 := by
  induction ts with
  | nil => rfl
  | cons t ts ih =>
    cases t with
    | perish d => cases ho.1
    | closeRound o => cases ho.1
    | release d => simpa using ih ho
    | unpin d => simpa using ih ho
    | disown d => simpa using ih ho

theorem Orderly.prepend {b : Bool} {ts new : List Task} (ho : Orderly b ts)
    (hn : ∀ t ∈ new, (∃ c, t = .disown c) ∨ t.isReference = true) : Orderly b (new ++ ts) := by
  induction new with
  | nil => exact ho
  | cons t new ih =>
    have ih := ih fun t ht => hn t (List.mem_cons_of_mem _ ht)
    have ht := hn t List.mem_cons_self
    cases t with
    | release d => exact ih
    | unpin d => exact ih
    | disown d => exact ih
    | perish d =>
      rcases ht with ⟨_, h⟩ | h <;> cases h
    | closeRound o =>
      rcases ht with ⟨_, h⟩ | h <;> cases h

theorem Orderly.opening {ts : List Task} (ho : Orderly false ts) (whites cs : List CellId)
    (o : RoundOutcome) : Orderly true
      (whites.map .perish ++ whites.map .unpin ++ cs.map .unpin ++ [.closeRound o] ++ ts) := by
  have hpin : ∀ ds : List CellId, ∀ t ∈ ds.map Task.unpin,
      (∃ c, t = .disown c) ∨ t.isReference = true := fun ds t ht => by
    obtain ⟨d, -, rfl⟩ := List.mem_map.1 ht
    exact .inr rfl
  have hperish : ∀ (ds : List CellId) (us : List Task), Orderly true us → Orderly true (ds.map .perish ++ us) := by
    intro ds us hu
    induction ds with
    | nil => exact hu
    | cons d ds ih => exact ⟨rfl, ih⟩
  have hclose : Orderly true ([.closeRound o] ++ ts) := ⟨rfl, ho⟩
  have h₁ := (hclose.prepend (hpin cs)).prepend (hpin whites)
  simpa only [List.append_assoc] using hperish whites _ h₁

variable {sealed : CellId → Prop} {h h' : Heap} {locks : List Lock} {ts held : List Task}

namespace Sound

theorem destroyed_of_collected (hs : Sound sealed ⟨h, locks, ts, held⟩) (hround : h.inRound = false)
    {c : CellId} (hcol : (h.cell c).flags.collected = true) : (h.cell c).destroyed = true := by
  have := hs.perish c
  have ho : Orderly h.inRound ts := hs.orderly
  rw [hround] at ho
  simp only [ho.count_perish c, hcol] at this
  simpa using this

theorem ready (hs : Sound sealed ⟨h, locks, ts, held⟩) (hround : h.inRound = false) : h.Ready where
  inward_le c := by
    rw [← Heap.due_release]
    by_cases hcol : (h.cell c).flags.collected = true
    · -- no edge leads to a cell that was claimed, since its source would be destroyed
      have hnone : h.due (.release c) = 0 := by
        refine Nat.eq_zero_of_not_pos fun hpos => ?_
        rw [Heap.due_release] at hpos
        obtain ⟨x, hx⟩ := Heap.exists_edge_of_inward_pos hpos
        have hxd := hs.destroyed_of_collected hround ((hs.collected c hcol).2 x hx)
        have he : (h.cell x).edges = [] := hs.destroyed_edges hxd
        rw [he] at hx
        cases hx
      omega
    · have := hs.shared c (by simpa using hcol)
      simp only [Moment.claims] at this
      omega
  shared_dead c hd := (hs.dead c hd).1
  collected c hcol := hs.destroyed_of_collected hround hcol
  colour c := by
    rw [hs.buffered.colour c]
    split <;> simp

/-- A round can be opened at every moment at which none is under way. -/
theorem openRound (hs : Sound sealed ⟨h, locks, ts, held⟩) (hround : h.inRound = false) :
    ∃ h' roots whites, h.Opened h' roots whites ∧
      h.openRound = .ok (h', whites.map .perish ++ whites.map .unpin ++
        h.candidates.toList.map .unpin ++
          [.closeRound ⟨h.candidates.toList.length, roots.length, whites.length⟩],
        ⟨h.candidates.toList.length, roots.length, whites.length⟩) :=
  Heap.openRound_spec (hs.ready hround) hs.buffered

section Opened

variable {roots whites : List CellId} {o : RoundOutcome}

private theorem opened_body (ho : h.Opened h' roots whites) (c : CellId) :
    (h'.cell c).body = (h.cell c).body ∧ (h'.cell c).owner = (h.cell c).owner ∧
      (h'.cell c).shared = (h.cell c).shared ∧ (h'.cell c).destroyed = (h.cell c).destroyed ∧
      (h'.cell c).weak = (h.cell c).weak + (decide (c ∈ whites)).toNat ∧
      (h'.cell c).flags.buffered = false ∧
      (h'.cell c).flags.collected = ((h.cell c).flags.collected || decide (c ∈ whites)) :=
  have hc := ho.cell c
  ⟨(congrArg Cell.body hc :), (congrArg Cell.owner hc :), (congrArg Cell.shared hc :),
    (congrArg Cell.destroyed hc :), (congrArg Cell.weak hc :),
    (congrArg (fun x => x.flags.buffered) hc :), (congrArg (fun x => x.flags.collected) hc :)⟩

theorem white_owners (hs : Sound sealed ⟨h, locks, ts, held⟩) (hround : h.inRound = false)
    (ho : h.Opened h' roots whites) {c : CellId} (hc : c ∈ whites) :
    ¬ h.Held held c ∧ ts.count (.release c) = 0 ∧ ∀ x, c ∈ (h.cell x).edges → x ∈ whites := by
  obtain ⟨hf, hns⟩ := (ho.mem_whites c).1 hc
  have hle : (h.cell c).shared ≤ h.inward c := Nat.le_of_not_lt fun hlt => hns (.external hlt)
  have hcol : (h.cell c).flags.collected = false := by
    rw [← Bool.not_eq_true]
    intro hcol
    have := hs.destroyed_of_collected hround hcol
    rw [Cell.destroyed_of_alive (ho.alive c hf)] at this
    cases this
  have hshared := hs.shared c hcol
  simp only [Moment.claims, Heap.due_release] at hshared
  refine ⟨fun hh => ?_, by omega, fun x hx => ?_⟩
  · rcases hh with hh | hh
    · have := List.count_pos_iff.2 hh
      omega
    · have := List.count_pos_iff.2 hh
      omega
  · refine (ho.mem_whites x).2 ⟨?_, fun hsx => hns (.edge hsx hx)⟩
    exact Classical.by_contradiction fun hxf => hns (.unmarked hxf hx)

/-- What is spared by a round is reached from what is held or pending, or from a locked cell. -/
private theorem reach_of_spared (hs : Sound sealed ⟨h, locks, ts, held⟩) (hround : h.inRound = false)
    (ho : h.Opened h' roots whites) {source : CellId → Prop}
    (hheld : ∀ c, h.Held held c → source c) (hpend : ∀ c, .release c ∈ ts → source c)
    (hlock : ∀ c k, (c, k) ∈ locks → source c) {c : CellId} :
    (h.Spared roots c → (h.cell c).destroyed = false → h.Reach source c) ∧
      ((h.cell c).destroyed = false → ¬ h.Found roots c → h.Reach source c) := by
  have hperish : ∀ d, .perish d ∉ ts := fun d hd => by
    have := Orderly.count_perish (hround ▸ (show Orderly h.inRound ts from hs.orderly)) d
    exact List.count_eq_zero.1 this hd
  have hcol : ∀ {d}, (h.cell d).destroyed = false → (h.cell d).flags.collected = false := fun hd => by
    rw [← Bool.not_eq_true]
    intro hcol
    rw [hs.destroyed_of_collected hround hcol] at hd
    cases hd
  have hsrc : ∀ {x d}, d ∈ (h.cell x).edges → (h.cell x).destroyed = false := fun {x d} he => by
    rw [← Bool.not_eq_true]
    intro hx
    have hnil : (h.cell x).edges = [] := hs.destroyed_edges hx
    rw [hnil] at he
    cases he
  have hlocked : ∀ {d}, (h.cell d).locked = true → source d := fun {d} hd => by
    obtain ⟨k, hk⟩ := (Cell.locked_iff _).1 hd
    exact hlock d k ((hs.locks d k).1 hk)
  -- a cell that was not found is on no way from a candidate, unless a source comes first
  have key : ∀ d, h.Reach (Moment.mk h locks ts held).Source d → (h.cell d).destroyed = false →
      h.Reach source d ∨ h.Found roots d := by
    intro d hr
    induction hr with
    | @source d hd =>
      intro hdd
      rcases hd with hd | hd | hd | hd | ⟨k, hd⟩
      · exact .inl (.source (hheld d hd))
      · exact .inl (.source (hpend d hd))
      · exact absurd hd (hperish d)
      · right
        have hlive := hs.live d hdd (hcol hdd)
        have hb := (hs.buffered.candidates d).1 hd
        have hpurple := hs.buffered.colour d
        rw [hb] at hpurple
        have hdd' : (h.cell d).flags.destroyed = false := hdd
        have hpurple : (h.cell d).flags.colour = .purple := hpurple
        have hlive : 0 < (h.cell d).shared := hlive
        exact ho.found d hd (by simp [Cell.possibleRoot, Cell.alive, hpurple, hlive, hdd'])
      · exact .inl (.source (hlock d k hd))
    | @edge x d hx he ih =>
      intro hdd
      rcases ih (hsrc he) with h₁ | h₁
      · exact .inl (.edge h₁ he)
      · by_cases hl : (h.cell x).locked = true
        · exact .inl (.edge (.source (hlocked hl)) he)
        · exact .inr (.edge h₁ (by simpa using hl) he)
  have hnf : ∀ d, (h.cell d).destroyed = false → ¬ h.Found roots d → h.Reach source d :=
    fun d hd hf => (key d (hs.covered d hd (hcol hd)) hd).resolve_right hf
  refine ⟨fun hsp => ?_, hnf c⟩
  induction hsp with
  | @external d hlt =>
    intro hd
    have := hs.shared d (hcol hd)
    simp only [Moment.claims, Heap.due_release] at this
    by_cases h₁ : .release d ∈ ts
    · exact .source (hpend d h₁)
    by_cases h₂ : .release d ∈ h.standing
    · exact .source (hheld d (.inr h₂))
    by_cases h₃ : .release d ∈ held
    · exact .source (hheld d (.inl h₃))
    have h₁ := List.count_eq_zero.2 h₁
    have h₂ := List.count_eq_zero.2 h₂
    have h₃ := List.count_eq_zero.2 h₃
    omega
  | locked hl => exact fun _ => .source (hlocked hl)
  | unmarked hx he => exact fun _ => .edge (hnf _ (hsrc he) hx) he
  | edge _ he ih => exact fun _ => .edge (ih (hsrc he)) he

/-- What a round neither claims nor finds destroyed is reached without the candidates. -/
theorem reach_of_not_white (hs : Sound sealed ⟨h, locks, ts, held⟩) (hround : h.inRound = false)
    (ho : h.Opened h' roots whites) (source : CellId → Prop)
    (hheld : ∀ c, h.Held held c → source c) (hpend : ∀ c, .release c ∈ ts → source c)
    (hlock : ∀ c k, (c, k) ∈ locks → source c) {c : CellId} (hd : (h.cell c).destroyed = false)
    (hw : c ∉ whites) : h.Reach source c := by
  obtain ⟨hsp, hnf⟩ := @reach_of_spared sealed h h' locks ts held roots whites hs hround ho
    source hheld hpend hlock c
  by_cases hf : h.Found roots c
  · refine hsp (Classical.by_contradiction fun hns => hw ((ho.mem_whites c).2 ⟨hf, hns⟩)) hd
  · exact hnf hd hf

/-- Opening a round keeps a moment sound. -/
theorem opened (hs : Sound sealed ⟨h, locks, ts, held⟩) (hround : h.inRound = false)
    (ho : h.Opened h' roots whites) :
    Sound sealed ⟨h', locks, whites.map .perish ++ whites.map .unpin ++ h.candidates.toList.map .unpin ++
      [.closeRound o] ++ ts, held⟩ := by
  have hb := opened_body ho
  have hscopes : h'.scopes = h.scopes := by rw [ho.rest]
  have hcand : h'.candidates = #[] := by rw [ho.rest]
  have hinround : h'.inRound = true := by rw [ho.rest]
  have hscope : h'.standing = h.standing := by simp only [Heap.standing, hscopes]
  have hdue : ∀ t, h'.due t = h.due t := fun t => by
    simp only [Heap.due, Heap.total_eq_range, ho.size, Cell.dues, (hb _).1, (hb _).2.1]
  have hgrows : h.Grows h' := {
    size := Nat.le_of_eq ho.size.symm
    object := fun c hc => by rwa [Heap.IsObject, (hb c).1]
    label := fun c hc => ⟨ho.size.symm ▸ hc.1, by rw [(hb c).1]; exact hc.2⟩ }
  have hedges : ∀ c, (h'.cell c).edges = (h.cell c).edges := fun c => by
    simp only [Cell.edges, (hb c).1]
  have hcount : ∀ (f : CellId → Task) (cs : List CellId) (t : Task), (∀ d, f d ≠ t) →
      (cs.map f).count t = 0 := fun f cs t hf =>
    List.count_eq_zero.2 fun h => by
      obtain ⟨d, -, hd⟩ := List.mem_map.1 h
      exact hf d hd
  have hinj : ∀ (f : CellId → Task) (cs : List CellId) (c : CellId), Function.Injective f →
      (cs.map f).count (f c) = cs.count c := fun f cs c hf => List.count_map_of_injective cs f hf c
  have hclose : ∀ t, (∀ o, t ≠ .closeRound o) → [Task.closeRound o].count t = 0 := fun t ht =>
    List.count_eq_zero.2 fun h => ht o (List.mem_singleton.1 h)
  have hwalive : ∀ c ∈ whites, (h.cell c).destroyed = false := fun c hc =>
    Cell.destroyed_of_alive (ho.alive c ((ho.mem_whites c).1 hc).1)
  have hwhite : ∀ c, whites.count c = (decide (c ∈ whites)).toNat := fun c => by
    by_cases hc : c ∈ whites <;> simp [ho.nodup.count, hc]
  have hcol : ∀ c, (h'.cell c).flags.collected = true ↔
      (h.cell c).flags.collected = true ∨ c ∈ whites := fun c => by
    rw [(hb c).2.2.2.2.2.2]
    simp
  exact {
    shared := fun c hcd => by
      have hcd : (h.cell c).flags.collected = false := by
        rw [← Bool.not_eq_true] at hcd ⊢
        exact fun h => hcd ((hcol c).2 (.inl h))
      have := hs.shared c hcd
      simp only [Moment.claims, hdue, hscope, List.count_append, (hb c).2.2.1] at this ⊢
      rw [hcount _ _ _ (by simp), hcount _ _ _ (by simp), hcount _ _ _ (by simp), hclose _ (by simp)]
      omega
    weak := fun c => by
      have := hs.weak c
      simp only [Moment.claims, hdue, hscope, List.count_append, (hb c).2.2.2.2.1,
        (hb c).2.2.2.1, hcand] at this ⊢
      rw [hcount .perish _ _ (by simp), hinj .unpin _ _ fun _ _ h => Task.unpin.inj h,
        hinj .unpin _ _ fun _ _ h => Task.unpin.inj h, hclose _ (by simp), hwhite]
      simp only [List.count_nil]
      omega
    dead := fun c hd => by
      have hd : (h'.cell c).destroyed = true := hd
      rw [(hb c).2.2.2.1] at hd
      simp only [(hb c).1, (hb c).2.2.1]
      exact hs.dead c hd
    live := fun c hd hcd => by
      have hd : (h'.cell c).destroyed = false := hd
      rw [(hb c).2.2.2.1] at hd
      have hcd : (h.cell c).flags.collected = false := by
        rw [← Bool.not_eq_true] at hcd ⊢
        exact fun h => hcd ((hcol c).2 (.inl h))
      simp only [(hb c).2.2.1]
      exact hs.live c hd hcd
    collected := fun c hcd => by
      simp only [Heap.Held, hscope, hedges]
      rcases (hcol c).1 hcd with hcd | hcw
      · obtain ⟨hh, he⟩ := hs.collected c hcd
        exact ⟨hh, fun x hx => (hcol x).2 (.inl (he x hx))⟩
      · obtain ⟨hh, -, he⟩ := hs.white_owners hround ho hcw
        exact ⟨hh, fun x hx => (hcol x).2 (.inr (he x hx))⟩
    perish := fun c => by
      have hz := Orderly.count_perish (hround ▸ (show Orderly h.inRound ts from hs.orderly)) c
      have hcd := hs.destroyed_of_collected hround (c := c)
      simp only [List.count_append, (hb c).2.2.2.1, (hb c).2.2.2.2.2.2]
      rw [hinj .perish _ _ fun _ _ h => Task.perish.inj h, hcount _ _ _ (by simp),
        hcount _ _ _ (by simp), hclose _ (by simp), hz, hwhite]
      by_cases hcw : c ∈ whites
      · simp [hcw, hwalive c hcw]
      · cases hcc : (h.cell c).flags.collected with
        | false => simp [hcw]
        | true => simp [hcw, hcd hcc]
    buffered := {
      colour := fun c => by
        simp only [(hb c).2.2.2.2.2.1]
        exact ho.colour c
      candidates := fun c => by
        simp only [hcand, (hb c).2.2.2.2.2.1]
        simp
      nodup := by
        simp only [hcand]
        exact List.nodup_nil }
    orderly := by
      simp only [hinround]
      exact Orderly.opening (hround ▸ (show Orderly h.inRound ts from hs.orderly)) _ _ _
    held := hs.held
    fits := fun c => by
      simp only [(hb c).1]
      exact (hs.fits c).grows hgrows
    scopes := fun l hl => (hs.scopes l (hscopes ▸ hl)).grows hgrows
    locks := fun c k => by
      simp only [(hb c).1]
      exact hs.locks c k
    root := by
      obtain ⟨h₁, h₂⟩ := hs.root
      refine ⟨?_, hgrows.label _ h₂⟩
      simp only [Moment.claims, hdue, hscope, List.count_append] at h₁ ⊢
      rw [hcount _ _ _ (by simp), hcount _ _ _ (by simp), hcount _ _ _ (by simp), hclose _ (by simp)]
      omega
    covered := fun c hd hcd => by
      have hd : (h'.cell c).destroyed = false := hd
      rw [(hb c).2.2.2.1] at hd
      have hcw : c ∉ whites := fun hcw => by
        have hcd : (h'.cell c).flags.collected = false := hcd
        rw [(hcol c).2 (.inr hcw)] at hcd
        cases hcd
      have hr := hs.reach_of_not_white hround ho
        (fun d => h.Held held d ∨ .release d ∈ ts ∨ ∃ k, (d, k) ∈ locks) (fun _ => .inl)
        (fun _ h => .inr (.inl h)) (fun _ _ h => .inr (.inr ⟨_, h⟩)) hd hcw
      refine hr.mono (fun d hd => .source ?_) fun x d _ he hx => .edge hx ((hedges x).symm ▸ he)
      rcases hd with hd | hd | hd
      · exact .inl (hd.imp_right fun h => hscope.symm ▸ h)
      · exact .inr (.inl (List.mem_append_right _ hd))
      · exact .inr (.inr (.inr (.inr hd))) }

end Opened

end Sound

end LazyHeap
