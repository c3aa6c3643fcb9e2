import LazyHeap.Proofs.Particles.Reading

/-!
Moving particles. A particle that moves gets a new state, which leads to the state before; with cycles it leads to itself as well.
Its past grows by one value.
-/
namespace LazyHeap

variable {rules : Rules} {frame : List Task} {h : Heap} {o : CellId} {b : Object} {l : Handle} {p : Pointer}
variable {annals : CellId → List Int} {vs : List Int} {E : Fault → Prop}

/-- Nothing is frozen. -/
def Heap.Thawed (h : Heap) : Prop := ∀ c, h.IsObject c → (h.cell c).frozen = false

/-- A new state in front of what a pointer leads to. -/
def Object.stateAfter (serial : Nat) (value : Int) (prev : Pointer) : Object :=
  (Object.state serial value).updateField .prev fun f => { f with links := [.owned prev] }

theorem Object.Tells.echo (ht : b.Tells annals vs) : ∃ g, b.field? .echo = some g ∧ ∀ p : Pointer,
    (∀ t, p.target = some t → annals t ≠ []) → (b.put ⟨.echo, false, [.owned p]⟩).Tells annals vs := by
  obtain ⟨f, g, q, e, hfs, ⟨hf, hfl⟩, ⟨hg, hgl⟩, hvs⟩ := ht.fields
  have hlinks : b.links = [.owned q, .owned e] := by simp [links, hfs, hfl, hgl]
  refine ⟨g, by simp [field?, hfs, hf, hg], fun p hp => ⟨ht.kind, ⟨q, p, ?_, hvs⟩, ?_⟩⟩
  · simp [put, updateField, Object.contents, hfs, hf, hg, hfl]
  · rintro t ⟨r, hr, hrt⟩
    have hput : (b.put ⟨.echo, false, [.owned p]⟩).links = [.owned q, .owned p] := by
      simp [put, updateField, links, hfs, hf, hg, hfl]
    rw [hput] at hr
    rcases List.mem_cons.1 hr with hr | hr
    · exact ht.leads t ⟨r, hlinks ▸ hr ▸ List.mem_cons_self, hrt⟩
    · cases List.mem_singleton.1 hr
      exact hp t hrt

theorem Pointer.fits_nil (sealed : CellId → Prop) (h : Heap) : Pointer.nil.Fits sealed h where
  target o ho := by cases ho
  label := Handle.fits_root

namespace Particles

/-! ### New states -/

theorem allocateState_spec {serial : Nat} {value : Int} (hs : Safe rules ⟨h, [], [], p.tasks ++ frame⟩) (hu : h.Uncopied annals)
    (hp : p.Fits rules.sealed h) (hl : l.Fits rules.sealed h) (hheld : ∀ t ∈ l.tasks, t ∈ p.tasks ++ frame) :
    Ends E (allocate (.object (Object.stateAfter serial value p)) l h) fun o k => o = h.size ∧
      Episode rules frame h annals k (Function.update annals h.size (value :: p.past annals)) [.release o] ∧
      k.IsObject o ∧ (k.cell o).frozen = false ∧ (h.Thawed → k.Thawed) := by
  have hlinks : (Object.stateAfter serial value p).links = [.owned p, .owned .nil] := rfl
  have htasks : (Body.object (Object.stateAfter serial value p)).tasks = p.tasks := by
    show List.flatMap Link.tasks (Object.stateAfter serial value p).links = _
    rw [hlinks]
    simp [Link.tasks, Pointer.tasks_nil]
  have hh : Holding .calm rules [] frame h (Body.object (Object.stateAfter serial value p)).tasks :=
    hs.holding (htasks ▸ .refl _)
  have htarget : ∀ t, (Object.stateAfter serial value p).LeadsTo t → p.target = some t := by
    rintro t ⟨q, hq, ht⟩
    rw [hlinks] at hq
    rcases List.mem_cons.1 hq with hq | hq
    · cases hq
      exact ht
    · cases List.mem_singleton.1 hq
      cases ht
  have hleads : ∀ t, (Object.stateAfter serial value p).LeadsTo t → h.IsObject t ∧ annals t ≠ [] := fun t ht => by
    have ht := htarget t ht
    have hlive : h.Live t := hs.live_of_held (.inl (List.mem_append_left _ (p.mem_tasks ht)))
    exact ⟨hp.target t ht, hu.past t (hp.target t ht) hlive.destroyed⟩
  have hroot : rootCell < h.size := hs.root.2.1
  have hshort : (p.past annals).length < h.size := by
    obtain ⟨_ | t, l'⟩ := p
    · exact hroot
    · exact Nat.lt_of_le_of_lt (hu.chronicle.short t) (hp.target t rfl).lt_size
  refine (allocate_spec hh ⟨show [FieldName.prev, .echo].Nodup by decide, fun link hlink => ?_⟩ rfl (Object.starts _)
    fun c hc => ?_).imp ?_
  · rw [hlinks] at hlink
    rcases List.mem_cons.1 hlink with rfl | hlink
    · exact hp
    · cases List.mem_singleton.1 hlink
      exact Pointer.fits_nil _ _
  · subst hc
    refine ⟨⟨_, rfl⟩, (hl c rfl).1.1, hh.weak_of_mem (.inr ?_)⟩
    rw [htasks]
    exact hheld _ List.mem_cons_self
  · rintro _ k ⟨rfl, hadds, hr⟩
    have hobj : (k.cell h.size).body = .object (Object.stateAfter serial value p) := by rw [hadds.new]; rfl
    have hun : (k.cell h.size).frozen = false := by rw [hadds.new]; rfl
    refine ⟨rfl, ⟨(hs.steps (htasks ▸ hr.steps)).1, .of_keeps hr.keeps, fun c hc => Function.update_of_ne (Nat.ne_of_lt hc) _ _,
      hu.adds hs.toSound hadds hr.keeps.scopes ⟨rfl, ⟨p, .nil, rfl, rfl⟩, fun t ht => (hleads t ht).2⟩
        (fun t ht => (hleads t ht).1.lt_size) (List.cons_ne_nil _ _) hshort⟩, ⟨_, hobj⟩, hun, ?_⟩
    rintro hthawed c ⟨x, hx⟩
    rcases Nat.lt_trichotomy c h.size with hc | rfl | hc
    · have hcore := hadds.old c hc
      rw [Cell.frozen_of_core hcore]
      exact hthawed c ⟨x, (Cell.body_of_core hcore).symm.trans hx⟩
    · exact hun
    · exact absurd ⟨x, hx⟩ (Heap.Chronicle.of_void (hadds.size ▸ hc)).1

theorem newParticle_spec (hs : Safe rules ⟨h, [], [], frame⟩) (hu : h.Uncopied annals) :
    Ends E (newParticle h) fun p k => ∃ annals', Episode rules frame h annals k annals' p.tasks ∧
      p.Recalls rules.sealed annals' k [0] ∧ (h.Thawed → k.Thawed) := by
  have hh : Holding .calm rules [] frame h [] := hs.holding (.refl _)
  unfold newParticle
  refine .bind (fixSettings_spec hh) fun _ h₁ ⟨hr₁, hcells₁⟩ => ?_
  have hh₁ := hh.run hr₁
  refine .bind (newSerial_spec hh₁) fun serial h₂ ⟨_, hcells₂, hr₂⟩ => ?_
  have he₁ : Episode rules frame h annals h₁ annals [] := .of_run hh.safe hu hr₁
  have he₂ : Episode rules frame h₁ annals h₂ annals [] := ⟨(hh₁.runAdding hr₂).safe, .of_keeps hr₂.keeps, fun _ _ => rfl,
    he₁.uncopied.of_cells hcells₂ hr₂.keeps.scopes⟩
  refine .bind (allocateState_spec (p := .nil) (l := .root) he₂.safe he₂.uncopied (Pointer.fits_nil _ _) Handle.fits_root
    fun t ht => absurd ht List.not_mem_nil) fun o h₃ ⟨ho, he₃, hobj, _, hthawed⟩ => .pure ?_
  have he := (he₁.trans he₂).trans he₃
  refine ⟨_, he, ⟨⟨fun t ht => Option.some.inj ht ▸ hobj, Handle.fits_root⟩, ?_, List.cons_ne_nil _ _⟩, fun ht => hthawed ?_⟩
  · subst ho
    exact Function.update_self _ _ _
  · have hcell : ∀ c, h₂.cell c = h.cell c := fun c => by simp only [Heap.cell, hcells₂, hcells₁]
    intro c hc
    rw [hcell]
    exact ht c (by rwa [Heap.IsObject, hcell] at hc)

/-- Under its lock the second field of a state gets another pointer; what it held is dropped. -/
private theorem relinked_spec {next : HeapM Unit} {Q : Unit → Heap → Prop} (hs : Safe rules ⟨h, [], [], p.tasks ++ frame⟩)
    (hu : h.Uncopied annals) (hp : p.Fits rules.sealed h) (hpast : ∀ t, p.target = some t → annals t ≠ [])
    (hobj : h.IsObject o) (hmem : .release o ∈ frame) (hun : (h.cell o).frozen = false) (hfixed : ¬ rules.fixed o)
    (hnext : ∀ k, Episode rules frame h annals k annals [] → Ends E (next k) Q) :
    Ends E ((do
      let old ← lockField o .echo
      setField o .echo []
      old.forM Link.drop
      setField o .echo [.owned p]
      unlockField o .echo
      next : HeapM Unit) h) Q := by
  have hh : Holding .calm rules [] frame h p.tasks := hs.holding (.refl _)
  obtain ⟨b, hb⟩ := hobj
  have hlive : (h.cell o).destroyed = false := (hh.live (List.mem_append_right _ hmem)).destroyed
  have hpasto : annals o ≠ [] := hu.past o ⟨b, hb⟩ hlive
  obtain ⟨f, hf, hput⟩ := (hu.tells hb hlive).echo
  have hfits : (h.cell o).body.Fits rules.sealed h o := hh.safe.fits o
  rw [hb] at hfits
  have hunlocked : f.locked = false := by
    have hl := hh.unlocked hb
    rw [Object.locked, List.any_eq_false] at hl
    exact Bool.eq_false_iff.2 (hl f (Object.mem_of_field? hf))
  refine .bind (lockField_spec hb hfits.1 hf fun hl => absurd (hunlocked.symm.trans hl) Bool.false_ne_true) ?_
  rintro _ _ ⟨-, rfl, rfl⟩
  let held : Heap := h.putField o ⟨.echo, true, []⟩
  have hact : Holding .calm rules [(o, some .echo)] frame held (f.links.flatMap Link.tasks ++ p.tasks) →
      Ends E (f.links.forM Link.drop held) fun _ k => True ∧ (∀ link ∈ [Link.owned p], link.Fits rules.sealed k) ∧
        Run .calm rules [(o, some .echo)] frame held (f.links.flatMap Link.tasks ++ p.tasks) k p.tasks := fun hh₁ => by
    refine (forM_spec (s := Link.tasks) (t := fun _ => []) (fun _ _ _ _ _ _ hhk => Link.drop_spec hhk)
      (hh₁.focus (.refl _))).imp fun _ k hr => ?_
    rw [List.flatMap_eq_nil_iff.2 fun _ _ => rfl] at hr
    refine ⟨trivial, fun link hlink => ?_, hr.widen⟩
    cases List.mem_singleton.1 hlink
    exact hp.grows ((Heap.putField_grows hb).trans hr.keeps.grows)
  have hrework := hh.rework [] (fun _ => [.owned p]) (fun _ => []) (fun u => u) hb hf hunlocked (.source (.inl hmem))
    ⟨hfixed, fun _ hfr => absurd (hun.symm.trans hfr) Bool.false_ne_true⟩ (fun x hx => absurd hx List.not_mem_nil)
    (fun l hl => absurd hl List.not_mem_nil) (.refl _) hact fun _ => by simp [Link.tasks]
  have hends : Ends E ((_ >>= fun _ => next) (h.putField o { f with locked := true })) Q := .bind hrework ?_
  · simpa only [bind_assoc, pure_bind] using hends
  rintro - h₁ ⟨_, k, -, -, hh₁, hgrows, hkeeps, hcore, hsteps, hwithout⟩
  have hk : held.Kept frame k := hkeeps
  have hleaves : h.Leaves (· ≠ o) h₁ := by
    rw [hh₁]
    have hobj : k.IsObject o := hk.grows.object o ⟨_, Heap.putField_body hb⟩
    exact ((h.leaves_putField ⟨b, hb⟩ _).trans hk.leaves).trans (k.leaves_putField hobj _)
  have hsize : h₁.size = h.size := by
    rw [hh₁]
    exact (k.putField_differs o _).size.trans (hk.size.trans (h.putField_differs o _).size)
  exact hnext h₁ ⟨(hh.safe.steps hsteps).1, .of_without ((Heap.putField_grows hb).trans (hk.grows.trans hgrows)) hwithout,
    fun _ _ => rfl, hu.rewritten hleaves hsize hwithout.scopes (congrArg Cell.body hcore) (hput p hpast) hpasto⟩

theorem addEcho_spec (hs : Safe rules ⟨h, [], [], frame⟩) (hu : h.Uncopied annals) (hp : p.Recalls rules.sealed annals h vs)
    (ho : p.target = some o) (hheld : ∀ t ∈ p.tasks, t ∈ frame) (hun : (h.cell o).frozen = false) (hfixed : ¬ rules.fixed o) :
    Ends E (addEcho o p h) fun _ k => Episode rules frame h annals k annals [] := by
  have hh : Holding .calm rules [] frame h [] := hs.holding (.refl _)
  have hobj : h.IsObject o := hp.fits.target o ho
  have hmem : Task.release o ∈ frame := hheld _ (p.mem_tasks ho)
  have hpast : ∀ t, p.target = some t → annals t ≠ [] := fun t ht => by
    cases ho.symm.trans ht
    exact hu.past o hobj (hh.live hmem).destroyed
  unfold addEcho
  refine .bind (borrow_spec hh (List.mem_append_right _ hmem) (hh.object_ne_root hobj)) fun _ h₁ hr₁ => ?_
  have he₁ : Episode rules frame h annals h₁ annals [.release o] := .of_run hh.safe hu hr₁
  have hh₁ := hh.run hr₁
  have hp₁ := he₁.recalls hp
  refine .bind (Pointer.clone_spec hh₁ (hh₁.usable_pointer hp₁.fits fun t ht => List.mem_append_right _ (hheld t ht))) ?_
  rintro e h₂ ⟨he, hr₂⟩
  obtain rfl : p = e := (he₁.uncopied.bound p).symm.trans he.symm
  have he₂ : Episode rules frame h annals h₂ annals (p.tasks ++ [.release o]) := he₁.trans (.of_run he₁.safe he₁.uncopied hr₂)
  have hun₂ : (h₂.cell o).frozen = false := (((hr₁.trans hr₂).keeps : h.Kept frame h₂).fades.frozen o).trans hun
  refine relinked_spec (he₂.focus (.refl _)) he₂.uncopied (he₂.recalls hp).fits hpast (he₂.lends.grows.object o hobj)
    List.mem_cons_self hun₂ hfixed fun h₃ he₃ => ?_
  have he₃ : Episode rules frame h annals h₃ annals [.release o] := he₂.trans he₃.widen
  refine (release_spec (he₃.safe.holding (.refl _))).imp fun _ h₄ hr₄ => ?_
  exact he₃.trans (.of_run he₃.safe he₃.uncopied hr₄)

/-- A new state in front of what a pointer leads to, and a pointer to it under the same label. -/
private theorem grown_spec {β : Type} {Q : β → Heap → Prop} {next : CellId → Handle → HeapM β} {value : Int}
    (hs : Safe rules ⟨h, [], [], p.tasks ++ frame⟩) (hu : h.Uncopied annals) (hp : p.Recalls rules.sealed annals h vs)
    (hnext : ∀ o k annals', Episode rules frame h annals k annals' (Pointer.tasks ⟨some o, p.label⟩ ++ p.tasks) →
      Pointer.Recalls rules.sealed annals' k (value :: vs) ⟨some o, p.label⟩ → (k.cell o).frozen = false →
      Ends E (next o p.label k) Q) :
    Ends E ((do
      let serial ← newSerial
      let prev ← p.clone
      let o ← allocate (.object (Object.stateAfter serial value prev)) p.label
      let l ← p.label.clone
      next o l : HeapM β) h) Q := by
  have hh : Holding .calm rules [] (p.tasks ++ frame) h [] := hs.holding (.refl _)
  refine .bind (newSerial_spec hh) fun serial h₁ ⟨_, hcells, hr₁⟩ => ?_
  have hh₁ := hh.runAdding hr₁
  have hu₁ := hu.of_cells hcells hr₁.keeps.scopes
  have he₁ : Episode rules (p.tasks ++ frame) h annals h₁ annals [] := ⟨hh₁.safe, .of_keeps hr₁.keeps, fun _ _ => rfl, hu₁⟩
  have hp₁ := he₁.recalls hp
  refine .bind (Pointer.clone_spec hh₁ (hh₁.usable_pointer hp₁.fits fun t => List.mem_append_left _)) ?_
  rintro prev h₂ ⟨hprev, hr₂⟩
  obtain rfl : p = prev := (hu₁.bound p).symm.trans hprev.symm
  have he₂ : Episode rules (p.tasks ++ frame) h₁ annals h₂ annals p.tasks :=
    (Episode.of_run hh₁.safe hu₁ hr₂).perm (.of_eq (List.append_nil _))
  have hp₂ := he₂.recalls hp₁
  refine .bind (allocateState_spec he₂.safe he₂.uncopied hp₂.fits hp₂.fits.label fun t ht =>
    List.mem_append_left _ (List.mem_append_right _ ht)) ?_
  rintro o h₃ ⟨rfl, he₃, hobj, hun, -⟩
  have hp₃ := he₃.recalls hp₂
  have hh₃ : Holding .calm rules [] (p.tasks ++ frame) h₃ [.release h₂.size] := he₃.safe.holding (.refl _)
  refine .bind (Handle.clone_spec hh₃ (hh₃.usable hp₃.fits.label fun t ht =>
    List.mem_append_right _ (List.mem_append_left _ (List.mem_append_right _ ht)))) ?_
  rintro _ h₄ ⟨rfl, hr₄, -⟩
  have he₄ : Episode rules (p.tasks ++ frame) h₃ _ h₄ _ (Pointer.tasks ⟨some h₂.size, p.label⟩) :=
    (Episode.of_run hh₃.safe he₃.uncopied hr₄).perm List.perm_append_comm
  refine hnext _ h₄ _ (((he₁.trans he₂).trans he₃).trans he₄).widen ⟨⟨fun t ht => ?_, hp₃.fits.label.grows he₄.lends.grows⟩, ?_,
    List.cons_ne_nil _ _⟩ (((Heap.Kept.fades hr₄.keeps).frozen _).trans hun)
  · cases ht
    exact he₄.lends.grows.object _ hobj
  · exact (Function.update_self _ _ _).trans (congrArg _ hp₂.past)

/-- A particle that moves gets a new state, and remembers the last one. -/
theorem propagate_spec {cycles : Bool} {delta : Int} (hs : Safe rules ⟨h, [], [], p.tasks ++ frame⟩) (hu : h.Uncopied annals)
    (hp : p.Recalls rules.sealed annals h vs) (hfixed : ∀ c, ¬ rules.fixed c) :
    Ends E (propagate cycles p delta h) fun q k => ∃ annals', Episode rules frame h annals k annals' q.tasks ∧
      q.Recalls rules.sealed annals' k ((vs.headD 0 + delta) :: vs) := by
  unfold propagate
  refine .bind (readValue_spec (hs.holding (.refl _)) hu.chronicle hp) fun y h₁ ⟨hvalue, hq, hr₁⟩ => ?_
  obtain ⟨q, v⟩ := y
  obtain rfl : v = vs.head? := hvalue
  dsimp only at hq hr₁ ⊢
  rw [← List.headD_eq_head?_getD]
  have he₁ : Episode rules frame h annals h₁ annals q.tasks := .of_run hs hu hr₁
  refine grown_spec he₁.safe he₁.uncopied hq fun o h₂ annals' he₂ hnext hun => ?_
  generalize hn : (⟨some o, q.label⟩ : Pointer) = next at he₂ hnext ⊢
  have he := he₁.trans he₂
  -- the particle's pointer is made to lead to the new state
  have hlast : ∀ h₃, Episode rules frame h₂ annals' h₃ annals' (next.tasks ++ q.tasks) →
      Ends E ((do let p ← q.assign next; next.drop; return p : HeapM Pointer) h₃) fun q k =>
        ∃ annals', Episode rules frame h annals k annals' q.tasks ∧
          q.Recalls rules.sealed annals' k ((vs.headD 0 + delta) :: vs) := fun h₃ he₃ => by
    have hh₃ : Holding .calm rules [] (next.tasks ++ frame) h₃ q.tasks :=
      (he₃.focus List.perm_append_comm).holding (.refl _)
    refine .bind (Pointer.assign_spec hh₃ (he₃.recalls hnext).fits fun t => List.mem_append_left _) fun p h₄ ⟨hp, hr₄⟩ => ?_
    subst hp
    refine .bind (Pointer.drop_spec (hh₃.run hr₄)) fun _ h₅ hr₅ => .pure ?_
    have he₅ : Episode rules frame h₃ annals' h₅ annals' p.tasks := (Episode.of_run hh₃.safe he₃.uncopied (hr₄.trans hr₅)).widen
    exact ⟨annals', (he.trans he₃).trans he₅, he₅.recalls (he₃.recalls hnext)⟩
  cases cycles with
  | false => exact hlast h₂ (.refl he₂.safe he₂.uncopied)
  | true =>
    have hfocus : Safe rules ⟨h₂, [], [], next.tasks ++ (q.tasks ++ frame)⟩ := he₂.focus (.refl _)
    refine .bind (addEcho_spec hfocus he₂.uncopied hnext (hn ▸ rfl) (fun t => List.mem_append_left _) hun (hfixed o))
      fun _ h₃ he₃ => hlast h₃ he₃.widen.widen

/-! ### Whole populations -/

/-- The history of a particle that moves. -/
def moved (vs : List Int) (delta : Int) : List Int := (vs.headD 0 + delta) :: vs

theorem newParticles_spec (n : Nat) : ∀ {frame : List Task} {h : Heap} {annals : CellId → List Int},
    Safe rules ⟨h, [], [], frame⟩ → h.Uncopied annals →
    Ends E ((List.replicate n ()).mapM (fun _ => newParticle) h) fun ps k => ∃ annals',
      Episode rules frame h annals k annals' (ps.flatMap Pointer.tasks) ∧
      List.Forall₂ (Pointer.Recalls rules.sealed annals' k) (List.replicate n [0]) ps ∧ (h.Thawed → k.Thawed) := by
  induction n with
  | zero => exact fun hs hu => ⟨_, .refl hs hu, .nil, id⟩
  | succ n ih =>
    intro frame h annals hs hu
    rw [List.replicate_succ, List.mapM_cons]
    refine .bind (newParticle_spec hs hu) fun p h₁ ⟨annals₁, he₁, hp, ht₁⟩ => ?_
    have he₁ : Episode rules ([] ++ frame) h annals h₁ annals₁ p.tasks := he₁
    refine .bind (ih he₁.safe he₁.uncopied) fun ps h₂ ⟨annals₂, he₂, hps, ht₂⟩ => .pure ?_
    exact ⟨annals₂, he₁.cons he₂, .cons (he₂.recalls hp) hps, ht₂ ∘ ht₁⟩

theorem propagateAll_spec {cycles : Bool} {vss : List (List Int)} {ps : List Pointer} (hfixed : ∀ c, ¬ rules.fixed c)
    (hps : List.Forall₂ (Pointer.Recalls rules.sealed annals h) vss ps) : ∀ {deltas : List Int} {frame : List Task},
    deltas.length = ps.length → Safe rules ⟨h, [], [], ps.flatMap Pointer.tasks ++ frame⟩ → h.Uncopied annals →
    Ends E (propagateAll cycles ps deltas h) fun qs k => ∃ annals',
      Episode rules frame h annals k annals' (qs.flatMap Pointer.tasks) ∧
      List.Forall₂ (Pointer.Recalls rules.sealed annals' k) (vss.zipWith moved deltas) qs := by
  unfold propagateAll
  induction ps generalizing h annals vss with
  | nil =>
    intro deltas frame hlen hs hu
    cases hps
    obtain rfl := List.eq_nil_of_length_eq_zero hlen
    exact ⟨annals, .refl hs hu, .nil⟩
  | cons p ps ih =>
    intro deltas frame hlen hs hu
    obtain _ | @⟨vs, _, vss, _, hp, hps⟩ := hps
    obtain ⟨d, deltas, rfl⟩ := List.exists_cons_of_length_eq_add_one hlen
    rw [List.zip_cons_cons, List.mapM_cons]
    have hs' : Safe rules ⟨h, [], [], p.tasks ++ (ps.flatMap Pointer.tasks ++ frame)⟩ := by
      rw [← List.append_assoc]
      exact hs
    refine .bind (propagate_spec hs' hu hp hfixed) fun q h₁ ⟨annals₁, he₁, hq⟩ => ?_
    refine .bind (ih (hps.imp fun _ _ => he₁.recalls) (Nat.succ.inj hlen) he₁.next he₁.uncopied)
      fun qs h₂ ⟨annals₂, he₂, hqs⟩ => .pure ?_
    exact ⟨annals₂, he₁.cons he₂, .cons (he₂.recalls hq) hqs⟩

end Particles
end LazyHeap
