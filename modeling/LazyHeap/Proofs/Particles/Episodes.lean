import LazyHeap.Proofs.Particles.Finishing

/-!
Episodes of a simulation. Until the particles are finished nothing in the heap is a copy: states are added, frozen and given up,
and labels get no entries. An episode is a stretch of operations that goes on with the chronicle of such a heap; the pasts of what
was there before it stay as they were.
-/
namespace LazyHeap

variable {rules : Rules} {frame hold ins mid outs rest : List Task} {h k k' : Heap} {c : CellId} {b : Object} {l : Handle}
variable {p : Pointer} {S : CellId → Prop} {annals annals' annals'' : CellId → List Int} {vs : List Int} {w : Option CellId}

/-! ### Heaps without copies -/

/-- Nothing in the heap is a copy, so no label has an entry; every object that is there has a past, and no scope is open. -/
structure Heap.Uncopied (annals : CellId → List Int) (h : Heap) : Prop where
  chronicle : h.Chronicle false annals fun _ => False
  past : ∀ c, h.IsObject c → (h.cell c).destroyed = false → annals c ≠ []
  memo : ∀ c s, (h.cell c).body = .label s → (h.cell c).destroyed = false → s.memo.entries = []
  scopes : h.scopes = []

namespace Heap.Uncopied

theorem tells (hu : h.Uncopied annals) (hb : (h.cell c).body = .object b) (hd : (h.cell c).destroyed = false) :
    b.Tells annals (annals c) :=
  (hu.chronicle.tells c b hb hd id (hu.past c ⟨b, hb⟩ hd)).1

theorem leafless (hu : h.Uncopied annals) : h.Leafless := fun c b hb hd => by
  rw [(hu.tells hb hd).kind]
  decide

theorem of_leaves (hu : h.Uncopied annals) (hv : h.Leaves S k) (hscopes : k.scopes = h.scopes)
    (hobject : ∀ d b, ¬ S d ∨ h.size ≤ d → (k.cell d).body = .object b → b.Tells annals (annals d) ∧ annals d ≠ [])
    (hlabel : ∀ d s, ¬ S d ∨ h.size ≤ d → (k.cell d).body = .label s → s.memo.entries = []) : k.Uncopied annals where
  chronicle := by
    refine hu.chronicle.of_leaves hv (fun d b hd hb _ _ _ => ⟨(hobject d b hd hb).1, fun hr => (by cases hr)⟩) ?_
    intro d s hd hb _ e he
    rw [hlabel d s hd hb] at he
    cases he
  past d := by
    rintro ⟨b, hb⟩ hdd
    by_cases hS : ¬ S d ∨ h.size ≤ d
    · exact (hobject d b hS hb).2
    · obtain ⟨hS, hlt⟩ := not_or.1 hS
      obtain ⟨x, hx, hdx, -⟩ := hv.object_back (not_not.1 hS) (Nat.not_le.1 hlt) hb hdd
      exact hu.past d ⟨x, hx⟩ hdx
  memo d s hb hdd := by
    by_cases hS : ¬ S d ∨ h.size ≤ d
    · exact hlabel d s hS hb
    · obtain ⟨hS, hlt⟩ := not_or.1 hS
      obtain ⟨t, ht, hdt, hs⟩ := hv.label_back (not_not.1 hS) (Nat.not_le.1 hlt) hb hdd
      exact hs.memo ▸ hu.memo d t ht hdt
  scopes := hscopes.trans hu.scopes

theorem kept (hu : h.Uncopied annals) (hk : h.Kept hold k) : k.Uncopied annals := by
  have hvoid : ∀ {d}, ¬ True ∨ h.size ≤ d → k.size ≤ d := fun hd => hk.size ▸ hd.resolve_left fun hn => hn trivial
  refine hu.of_leaves (hk.leaves (S := fun _ => True)) hk.scopes (fun d b hd hb => ?_) fun d s hd hb => ?_
  · exact absurd ⟨b, hb⟩ (Chronicle.of_void (hvoid hd)).1
  · exact (Chronicle.of_void (hvoid hd)).2 s hb

theorem branched (hu : h.Uncopied annals) (hb : h.Branched k l) (hscopes : k.scopes = h.scopes) : k.Uncopied annals := by
  have hblank : ∀ {d}, ¬ l ≠ .counted d ∨ h.size ≤ d → ∃ s, (k.cell d).body = .label s ∧ s.memo.entries = [] := fun hd =>
    hb.blank _ (hd.imp_left not_not.1)
  refine hu.of_leaves hb.leaves hscopes (fun d b hd hbd => ?_) fun d s hd hbd => ?_ <;> obtain ⟨t, ht, hm⟩ := hblank hd <;>
    cases ht.symm.trans hbd
  exact hm

/-- A new state gets a past that nobody had. -/
theorem adds (hu : h.Uncopied annals) (hs : Sound S ⟨h, [], [], hold⟩) (ha : h.Adds k (.fresh (.object b) w))
    (hscopes : k.scopes = h.scopes) (ht : b.Tells annals vs) (hleads : ∀ t, b.LeadsTo t → t < h.size) (hvs : vs ≠ [])
    (hshort : vs.length ≤ h.size) : k.Uncopied (Function.update annals h.size vs) := by
  have hold : ∀ c < h.size, Function.update annals h.size vs c = annals c := fun c hc =>
    Function.update_of_ne (Nat.ne_of_lt hc) _ _
  have hnew : Function.update annals h.size vs h.size = vs := Function.update_self _ _ _
  have hu' : h.Uncopied (Function.update annals h.size vs) := by
    refine ⟨hu.chronicle.extend hs hold fun c => ?_, fun c hc hd => hold c hc.lt_size ▸ hu.past c hc hd, hu.memo, hu.scopes⟩
    by_cases hc : c = h.size
    · rw [hc, hnew]
      exact hshort
    · rw [Function.update_of_ne hc]
      exact hu.chronicle.short c
  have hcase : ∀ {d}, ¬ True ∨ h.size ≤ d → d = h.size ∨ k.size ≤ d := fun hd =>
    (Nat.eq_or_lt_of_le (hd.resolve_left fun hn => hn trivial)).imp Eq.symm fun hd => ha.size ▸ hd
  refine hu'.of_leaves (ha.leaves (S := fun _ => True)) hscopes (fun d x hd hx => ?_) fun d s hd hb => ?_
  · rcases hcase hd with rfl | hd
    · rw [ha.new] at hx
      cases hx
      rw [hnew]
      exact ⟨ht.congr fun t hlead => hold t (hleads t hlead), hvs⟩
    · exact absurd ⟨x, hx⟩ (Chronicle.of_void hd).1
  · rcases hcase hd with rfl | hd
    · rw [ha.new] at hb
      cases hb
    · exact (Chronicle.of_void hd).2 s hb

/-- One state was changed, and its past is the same. -/
theorem rewritten {o : CellId} (hu : h.Uncopied annals) (hv : h.Leaves (· ≠ o) k) (hsize : k.size = h.size)
    (hscopes : k.scopes = h.scopes) (hb : (k.cell o).body = .object b) (ht : b.Tells annals (annals o)) (hpast : annals o ≠ []) :
    k.Uncopied annals := by
  have hcase : ∀ {d}, ¬ d ≠ o ∨ h.size ≤ d → d = o ∨ k.size ≤ d := fun hd => hd.imp not_not.1 fun hd => hsize ▸ hd
  refine hu.of_leaves hv hscopes (fun d x hd hx => ?_) fun d s hd hs => ?_
  · rcases hcase hd with rfl | hd
    · cases hb.symm.trans hx
      exact ⟨ht, hpast⟩
    · exact absurd ⟨x, hx⟩ (Chronicle.of_void hd).1
  · rcases hcase hd with rfl | hd
    · cases hb.symm.trans hs
    · exact (Chronicle.of_void hd).2 s hs

theorem of_cells (hu : h.Uncopied annals) (hcells : k.cells = h.cells) (hscopes : k.scopes = h.scopes) :
    k.Uncopied annals := by
  have hcell : ∀ c, k.cell c = h.cell c := fun c => by simp only [Heap.cell, hcells]
  constructor
  · exact ⟨fun c => hcell c ▸ hu.chronicle.tells c, fun c => hcell c ▸ hu.chronicle.copies c, hu.chronicle.short⟩
  · intro c hc
    rw [Heap.IsObject, hcell] at hc
    exact hcell c ▸ hu.past c hc
  · exact fun c => hcell c ▸ hu.memo c
  · exact hscopes.trans hu.scopes

theorem bound (hu : h.Uncopied annals) (p : Pointer) : p.bound h.scopes = p := by
  rw [hu.scopes]
  obtain ⟨_ | t, l⟩ := p <;> rfl

end Heap.Uncopied

/-- The pointer leads to a state with this past. -/
structure Pointer.Recalls (sealed : CellId → Prop) (annals : CellId → List Int) (h : Heap) (vs : List Int) (p : Pointer) :
    Prop where
  fits : p.Fits sealed h
  past : p.past annals = vs
  nonempty : vs ≠ []

namespace Pointer.Recalls

variable {sealed : CellId → Prop}

theorem later (hr : p.Recalls sealed annals h vs) (hg : h.Grows k) (ha : ∀ c < h.size, annals' c = annals c) :
    p.Recalls sealed annals' k vs where
  fits := hr.fits.grows hg
  past := (Pointer.past_congr fun t ht => ha t (hr.fits.target t ht).lt_size).trans hr.past
  nonempty := hr.nonempty

theorem exists_target (hr : p.Recalls sealed annals h vs) : ∃ o, p.target = some o ∧ annals o = vs := by
  obtain ⟨o, ho⟩ := Pointer.exists_target (hr.past.trans_ne hr.nonempty)
  refine ⟨o, ho, ?_⟩
  rw [← hr.past, Pointer.past, ho]
  rfl

end Pointer.Recalls

theorem Pointer.mem_tasks {o : CellId} (ho : p.target = some o) : .release o ∈ p.tasks := by
  simp [Pointer.tasks, ho]

/-! ### Episodes -/

/-- A stretch of operations that goes on with the chronicle of a heap without copies. -/
structure Episode (rules : Rules) (frame : List Task) (h : Heap) (annals : CellId → List Int) (k : Heap)
    (annals' : CellId → List Int) (outs : List Task) : Prop where
  safe : Safe rules ⟨k, [], [], outs ++ frame⟩
  lends : h.Lends frame k
  old : ∀ c < h.size, annals' c = annals c
  uncopied : k.Uncopied annals'

namespace Episode

protected theorem refl (hs : Safe rules ⟨h, [], [], ins ++ frame⟩) (hu : h.Uncopied annals) :
    Episode rules frame h annals h annals ins := ⟨hs, .refl frame h, fun _ _ => rfl, hu⟩

protected theorem trans (h₁ : Episode rules frame h annals k annals' mid) (h₂ : Episode rules frame k annals' k' annals'' outs) :
    Episode rules frame h annals k' annals'' outs where
  safe := h₂.safe
  lends := h₁.lends.trans h₂.lends
  old c hc := (h₂.old c (Nat.lt_of_lt_of_le hc h₁.lends.grows.size)).trans (h₁.old c hc)
  uncopied := h₂.uncopied

theorem widen (he : Episode rules (rest ++ frame) h annals k annals' outs) :
    Episode rules frame h annals k annals' (outs ++ rest) where
  safe := by
    rw [List.append_assoc]
    exact he.safe
  lends := he.lends.subset fun t => List.mem_append_right _
  old := he.old
  uncopied := he.uncopied

theorem perm (he : Episode rules frame h annals k annals' mid) (hp : mid.Perm outs) :
    Episode rules frame h annals k annals' outs :=
  { he with safe := (he.safe.step (.arrange (hp.append_right _))).1 }

theorem focus (he : Episode rules frame h annals k annals' mid) (hp : mid.Perm (outs ++ rest)) :
    Safe rules ⟨k, [], [], outs ++ (rest ++ frame)⟩ := by
  rw [← List.append_assoc]
  exact (he.perm hp).safe

theorem next (he : Episode rules (rest ++ frame) h annals k annals' outs) : Safe rules ⟨k, [], [], rest ++ (outs ++ frame)⟩ :=
  he.widen.focus List.perm_append_comm

theorem cons (h₁ : Episode rules (rest ++ frame) h annals k annals' mid)
    (h₂ : Episode rules (mid ++ frame) k annals' k' annals'' outs) :
    Episode rules frame h annals k' annals'' (mid ++ outs) :=
  (h₁.widen.trans h₂.widen).perm List.perm_append_comm

theorem of_run (hs : Safe rules ⟨h, [], [], ins ++ frame⟩) (hu : h.Uncopied annals) (hr : Run .calm rules [] frame h ins k outs) :
    Episode rules frame h annals k annals outs :=
  have hk : h.Kept frame k := hr.keeps
  ⟨(hs.steps hr.steps).1, .of_keeps hr.keeps, fun _ _ => rfl, hu.kept hk⟩

theorem recalls (he : Episode rules frame h annals k annals' outs) (hp : p.Recalls rules.sealed annals h vs) :
    p.Recalls rules.sealed annals' k vs := hp.later he.lends.grows he.old

end Episode

end LazyHeap
