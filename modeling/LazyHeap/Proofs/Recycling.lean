import LazyHeap.Proofs.Copying
import LazyHeap.Proofs.Lasting
import LazyHeap.Proofs.Visiting

/-!
Recycling objects. A frozen object that nobody else can see becomes a label's own: it thaws, belongs to the
label, and its links are bound to the label. Everything that is held without the object stays as it is.
-/
namespace LazyHeap

variable {manner : Manner} {kept : CellId → Prop} {rules : Rules} {locks : List Lock}
variable {frame ins outs : List Task} {h h' : Heap} {c o : CellId} {x : Object} {f : Field} {l : Handle}
variable {name : FieldName} {E : Fault → Prop}

/-! ### Binding links -/

theorem Link.rebind_spec {link : Link} (hh : Holding .calm rules locks frame h link.tasks)
    (hl : l.Usable rules.sealed h) :
    Ends E (link.rebind l h) fun y h' => y = (link.bound [l], none) ∧
      Run .calm rules locks frame h link.tasks h' (link.bound [l]).tasks := by
  unfold Link.rebind
  cases link with
  | owned p =>
    obtain ⟨target, s⟩ := p
    cases target with
    | none => exact ⟨rfl, .refl _ _ _ _⟩
    | some o =>
      simp only
      have hswap : (Link.owned ⟨some o, s⟩).tasks.Perm (s.tasks ++ [.release o]) :=
        (List.perm_append_singleton _ _).symm
      refine .bind (Handle.repoint_spec (hh.focus hswap) hl) fun s' h' ⟨hs, hr⟩ => ?_
      subst hs
      exact ⟨rfl, (Run.andThen (.refl _ _ _ _) hswap hr).perm (.refl _) (List.perm_append_singleton _ _)⟩
  | weak w =>
    obtain ⟨target, s⟩ := w
    cases target with
    | none => exact ⟨rfl, .refl _ _ _ _⟩
    | some o =>
      simp only
      have hswap : (Link.weak ⟨some o, s⟩).tasks.Perm (s.tasks ++ [.unpin o]) :=
        (List.perm_append_singleton _ _).symm
      refine .bind (Handle.repoint_spec (hh.focus hswap) hl) fun s' h' ⟨hs, hr⟩ => ?_
      subst hs
      exact ⟨rfl, (Run.andThen (.refl _ _ _ _) hswap hr).perm (.refl _) (List.perm_append_singleton _ _)⟩
  | label s => exact ⟨rfl, .refl _ _ _ _⟩

theorem bindFields_spec (hh : Holding .calm rules locks frame h []) (hb : (h.cell c).body = .object x)
    (hc : h.Reach (h.Held frame) c) (hopen : h.Editable rules c)
    (hlocks : ∀ y ∈ locks, (h.without c).Reach ((h.without c).Held frame) y.1) (hl : l.Fits rules.sealed h)
    (hsub : ∀ t ∈ l.tasks, t ∈ frame) (hwait : x.locked = true → E .selfWait) :
    Ends E (visitFields c (fun _ => true) (Link.rebind l) h) fun _ h' =>
      Steps rules ⟨h, locks, [], frame⟩ ⟨h', locks, [], frame⟩ ∧ (h.without c).Kept frame (h'.without c) ∧
      h.Grows h' ∧ (h'.cell c).core = { h.cell c with body := .object (x.bound [l]) }.core := by
  refine (visitLinks_spec (R := fun link y => y = (link.bound [l], none)) (I := fun _ _ _ => True) hh hb hc hopen
    hlocks hwait trivial (fun _ _ _ _ _ => trivial) fun f link rest past found k _ _ _ _ _ hlink hg hh' => ?_).imp
      fun _ h' ⟨new, _, hnew, hcore, _, hg, hsteps, hkeeps⟩ => ⟨hsteps, hkeeps, hg, hcore.trans ?_⟩
  · refine (Link.rebind_spec hh' (hh'.usable (hl.grows hg) fun t ht => List.mem_append_right _
      (List.mem_append_right _ (hsub t ht)))).imp fun y k' ⟨hy, hr⟩ => ?_
    subst hy
    exact ⟨hr, (hlink.grows hr.keeps.grows).bound ((hl.grows hg).grows hr.keeps.grows), rfl, trivial⟩
  · have hall : x.relink ((x.fields.map fun f : Field => f.name).filter fun _ => true) new = x.bound [l] := by
      rw [Object.relink_map (Link.bound [l]) fun f hf _ => (hnew f hf rfl).2.imp fun _ _ hy => by rw [hy]]
      simp only [List.filter_true, Object.bound]
      congr 1
      exact List.map_congr_left fun f hf => if_pos (List.mem_map_of_mem hf)
    rw [hall]

/-! ### Recycling -/

theorem Cell.thaw_body (x : Cell) : x.thaw.body = x.body := rfl

/-- A cell changes hands: its new label holds it weakly, and its old label is let go. -/
private theorem own_spec {label : CellId} (hh : Holding .calm rules locks frame h [.unpin label])
    (hb : (h.cell c).body = .object x) (hc : h.Reach (h.Held frame) c) (hroot : label ≠ rootCell)
    (hsteady : ¬ rules.steady c) :
    Run .calm rules locks frame h [.unpin label] (h.update c fun x => { x with owner := some label })
      ((h.cell c).owner.toList.map .unpin) := by
  have hfits := hh.safe.fits c
  rw [show (Moment.heap _).cell c = h.cell c from rfl] at hfits
  have heq : h.update c (fun x => { x with owner := some label }) =
      h.update c fun x => { x with body := (h.cell c).body, owner := some label } := h.update_congr c rfl
  have hstep : Advance rules ⟨h, locks, [], [.unpin label] ++ frame⟩ ⟨h.update c fun x =>
      { x with body := (h.cell c).body, owner := some label }, locks, [],
        (h.cell c).owner.toList.map .unpin ++ frame⟩ := by
    refine .rewrite ⟨hc, ?_, hfits, fun _ _ => id, fun d hd => .inr ⟨⟨x, hb⟩, Option.some.inj hd ▸ hroot⟩,
      fun hst => absurd hst hsteady, ?_, hh.safe.locks c, fun _ _ _ => Iff.rfl⟩
    · rw [hb]
      exact ⟨rfl, rfl, fun _ _ _ => rfl, fun _ => ⟨rfl, rfl⟩⟩
    · simp only [Cell.dues, List.append_assoc]
      exact List.perm_append_comm.append_left _
  have hk : h.Kept frame (h.update c fun x => { x with owner := some label }) := h.kept_update frame c fun _ => rfl
  rw [heq] at hk ⊢
  exact .of_step hstep hk

theorem recycle_spec {label : CellId} (hh : Holding .calm rules locks frame h [])
    (hb : (h.cell c).body = .object x) (hu : (h.cell c).unique = true) (hc : h.Reach (h.Held frame) c)
    (hloose : h.Loose rules frame c) (hfixed : ¬ rules.fixed c) (hsteady : ¬ rules.steady c)
    (hlocks : ∀ y ∈ locks, (h.without c).Reach ((h.without c).Held frame) y.1)
    (hl : (Handle.counted label).Fits rules.sealed h) (hlabel : .release label ∈ frame)
    (hwait : x.locked = true → E .selfWait) :
    Ends E (recycle c (.counted label) h) fun _ h' =>
      Steps rules ⟨h, locks, [], frame⟩ ⟨h', locks, [], frame⟩ ∧
      ((h.update c Cell.thaw).without c).Kept frame (h'.without c) ∧ h.Grows h' ∧
      (h'.cell c).owner = some label ∧
      (h'.cell c).core =
        { (h.cell c).thaw with
          body := .object (if x.kind.rebinds then x.bound [.counted label] else x) }.core := by
  unfold recycle
  refine .updateCell_bind ?_
  let k := h.update c Cell.thaw
  have hlt : c < h.size := Heap.IsObject.lt_size ⟨x, hb⟩
  have hself : k.cell c = (h.cell c).thaw := h.cell_update_self _ hlt
  have hthaw : Advance rules ⟨h, locks, [], frame⟩ ⟨k, locks, [], frame⟩ := .thaw hfixed hu hloose
  have hhk : Holding .calm rules locks frame k [] :=
    ⟨(hh.safe.step hthaw).1, fun y hy => Heap.reach_update Cell.thaw_body (hh.within y hy)⟩
  have hck : k.Reach (k.Held frame) c := Heap.reach_update Cell.thaw_body hc
  have hbk : (k.cell c).body = .object x := by rw [hself, Cell.thaw_body, hb]
  have hgk : h.Grows k := h.grows_update_of_body c Cell.thaw_body
  have hlk := hl.grows hgk
  simp only [Handle.counted?]
  refine .bind (retainWeak_spec hhk (hhk.weak_of_mem (.inr hlabel))) ?_
  rintro - k₁ ⟨hr₁, -⟩
  refine .readCell_bind (.updateCell_bind ?_)
  have hh₁ := hhk.run hr₁
  have hk₁ : k.Kept frame k₁ := hr₁.keeps
  have hr₂ := hr₁.trans (own_spec hh₁ ((hk₁.body hck).trans hbk) (hk₁.reach hck) (hl label rfl).1.1 hsteady)
  have hown₂ : ((k₁.update c fun x => { x with owner := some label }).cell c).owner = some label := by
    rw [k₁.cell_update_self _ (by rw [hk₁.size, Heap.size_update]; exact hlt)]
  generalize hold : (k₁.cell c).owner = old at hr₂
  generalize k₁.update c (fun x => { x with owner := some label }) = k₂ at hr₂ hown₂
  -- what the cell's owner is from here on, it stays
  have hstays : ∀ {k₃ k₄ : Heap} {ins : List Task}, Run .calm rules locks frame k [] k₃ ins →
      Steps { rules with fixed := rules.fixed, steady := (· = c) } ⟨k₃, locks, [], ins ++ frame⟩ ⟨k₄, locks, [], frame⟩ →
      (k₄.cell c).destroyed = false → (k₃.cell c).owner = some label → (k₄.cell c).owner = some label :=
    fun {k₃ k₄ ins} hr₃ hsteps hd hown =>
      ((Course.of_same hsteps).maker ((hhk.run hr₃).leaving rules.fixed (· = c)).safe.toFirm rfl rfl
        (by rw [show Heap.size _ = k.size from Heap.Kept.size hr₃.keeps, Heap.size_update]; exact hlt) hd).trans hown
  -- from here on all depends on what is held alone
  have hfinal : ∀ {k₃ : Heap}, Run .calm rules locks frame k [] k₃ [] → (k₃.cell c).owner = some label →
      Ends E (rebindAll c (.counted label) k₃) fun _ h' =>
      Steps rules ⟨h, locks, [], frame⟩ ⟨h', locks, [], frame⟩ ∧
      (k.without c).Kept frame (h'.without c) ∧ h.Grows h' ∧ (h'.cell c).owner = some label ∧
      (h'.cell c).core = { (h.cell c).thaw with
        body := .object (if x.kind.rebinds then x.bound [.counted label] else x) }.core := by
    intro k₃ hr₃ hown₃
    have hk₃ : k.Kept frame k₃ := hr₃.keeps
    have hcore := hk₃.cell c hck
    rw [hself] at hcore
    have hb₃ := (hk₃.body hck).trans hbk
    unfold rebindAll
    refine .readCell_bind ?_
    rw [hb₃]
    have hh₃ := hhk.run hr₃
    have hwithout : (k.without c).Kept frame (k₃.without c) := by
      have hkeeps₃ : k.Keeps .calm frame k₃ := hk₃
      refine hkeeps₃.apart (fun _ => id) (.refl k c) rfl (.refl k₃ c) rfl hk₃.grows ?_
      rw [Heap.cell_without_self, Heap.cell_without_self]
      exact (congrArg (fun y : Cell => { y with body := y.body.emptied }) (hk₃.cell c hck) :)
    have hlocks₃ : ∀ y ∈ locks, (k₃.without c).Reach ((k₃.without c).Held frame) y.1 := fun y hy => by
      refine hwithout.reach ((hlocks y hy).mono (fun _ => .source) fun d e _ he hd => .edge hd ?_)
      by_cases hdc : d = c
      · subst hdc
        rw [Heap.edges_without_self] at he
        cases he
      · rw [Heap.cell_without_ne _ hdc] at he ⊢
        rwa [h.cell_update_ne _ hdc]
    have hsteps := (Relation.ReflTransGen.single hthaw).trans hr₃.steps
    simp only
    cases hre : x.kind.rebinds with
    | true =>
      simp only [if_true]
      have hopen : k₃.Editable rules c := ⟨hfixed, fun _ hf => by
        rw [Cell.frozen_of_core hcore] at hf
        cases hf⟩
      have hsub : ∀ t ∈ (Handle.counted label).tasks, t ∈ frame := fun t ht => List.mem_singleton.1 ht ▸ hlabel
      refine .bind ((bindFields_spec hh₃ hb₃ (hk₃.reach hck) hopen hlocks₃ (hlk.grows hk₃.grows) hsub hwait).and
        (bindFields_spec (hh₃.leaving rules.fixed (· = c)) hb₃ (hk₃.reach hck) hopen hlocks₃ (hlk.grows hk₃.grows) hsub
          hwait)) ?_
      rintro - h' ⟨⟨hsteps', hkeeps, hg, hcore'⟩, hsteps'', -⟩
      have hd : (h'.cell c).destroyed = false := (congrArg Cell.destroyed hcore' :).trans
        (hh₃.safe.live_of_reach (hk₃.reach hck)).destroyed
      refine .pure ⟨hsteps.trans hsteps', hwithout.trans hkeeps, (hgk.trans hk₃.grows).trans hg,
        hstays hr₃ hsteps'' hd hown₃, hcore'.trans ?_⟩
      exact (congrArg (fun y : Cell => { y with body := .object (x.bound [.counted label]) }) hcore :)
    | false =>
      simp only [Bool.false_eq_true, if_false]
      have hr₄ := hr₃.trans (record_spec (.recycled x.serial))
      have hrecord : (k₃.without c).Kept frame ((k₃.record (.recycled x.serial)).without c) :=
        ⟨fun _ _ => rfl, ⟨fun _ => rfl, fun _ => id, fun _ => .inl rfl⟩, Heap.grows_of_cells rfl, rfl, rfl, rfl⟩
      have hsame : (k₃.cell c).core = { k₃.cell c with body := .object x }.core := by rw [← hb₃]
      exact ⟨(Relation.ReflTransGen.single hthaw).trans hr₄.steps, hwithout.trans hrecord,
        hgk.trans hr₄.keeps.grows, hown₃, hsame.trans (congrArg (fun y : Cell => { y with body := .object x }) hcore :)⟩
  cases old with
  | none => exact hfinal hr₂ hown₂
  | some w =>
    refine .bind ((unpin_spec (hhk.run hr₂)).and (unpin_spec ((hhk.run hr₂).leaving rules.fixed (· = c)))) ?_
    rintro - k₃ ⟨hr₃, hr₃'⟩
    refine hfinal (hr₂.trans hr₃) (hstays hr₂ hr₃'.steps ?_ hown₂)
    exact ((hhk.run (hr₂.trans hr₃)).safe.live_of_reach (Heap.Kept.reach (hr₂.trans hr₃).keeps hck)).destroyed

end LazyHeap
