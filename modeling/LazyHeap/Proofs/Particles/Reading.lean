import LazyHeap.Proofs.Particles.Episodes
import LazyHeap.Proofs.Session.Fields

/-!
Reading particles. What is read of a particle is the value of its newest state; and whoever walks along its history finds as many
states as its past has values.
-/
namespace LazyHeap

variable {rules : Rules} {frame : List Task} {h k : Heap} {o : CellId} {b : Object} {f : Field} {p q : Pointer}
variable {annals : CellId → List Int} {vs : List Int} {ready : Bool} {E : Fault → Prop}

theorem Object.Tells.fields (ht : b.Tells annals vs) : ∃ f g p e, b.fields = [f, g] ∧ (f.name = .prev ∧ f.links = [.owned p]) ∧
    (g.name = .echo ∧ g.links = [.owned e]) ∧ vs = b.value :: p.past annals := by
  obtain ⟨p, e, hc, hvs⟩ := ht.contents
  obtain ⟨f, fs, hfs, hf, hrest⟩ := List.map_eq_cons_iff.1 hc
  obtain ⟨g, gs, rfl, hg, hnil⟩ := List.map_eq_cons_iff.1 hrest
  obtain rfl := List.map_eq_nil_iff.1 hnil
  exact ⟨f, g, p, e, hfs, Prod.mk.inj hf, Prod.mk.inj hg, hvs⟩

theorem Pointer.target_bound (scopes : List Handle) (p : Pointer) : (p.bound scopes).target = p.target := by
  obtain ⟨_ | t, l⟩ := p <;> cases scopes <;> rfl

theorem Pointer.past_bound (scopes : List Handle) (p : Pointer) : (p.bound scopes).past annals = p.past annals := by
  rw [past, past, target_bound]

theorem Particles.clonePrevious_spec (hh : Holding .calm rules [] frame h []) (hb : (h.cell o).body = .object b)
    (hf : b.field? .prev = some f) (hlinks : f.links = [.owned p]) (ho : .release o ∈ frame) :
    Ends E (clonePrevious o h) fun q k => q = p.bound h.scopes ∧ q.Fits rules.sealed k ∧
      Run .calm rules [] frame h [] k q.tasks := by
  obtain ⟨_, locked, _⟩ := f
  cases Object.name_of_field? hf
  cases hlinks
  have hfits := hh.safe.fits o
  rw [show (Moment.heap _).cell o = h.cell o from rfl, hb] at hfits
  have hmem : Link.owned p ∈ b.links := List.mem_flatMap.2 ⟨_, Object.mem_of_field? hf, List.mem_cons_self⟩
  have hunlocked : locked = false := by
    have hl := hh.unlocked hb
    rw [Object.locked, List.any_eq_false] at hl
    exact Bool.eq_false_iff.2 (hl _ (Object.mem_of_field? hf))
  subst hunlocked
  unfold clonePrevious
  refine .bind (lockField_spec hb hfits.1 hf fun hl => absurd hl Bool.false_ne_true) ?_
  rintro _ _ ⟨-, rfl, rfl⟩
  have hreach : h.Reach (h.Held frame) o := .source (.inl ho)
  obtain ⟨-, -, hh₁, hreach₁⟩ := hh.lock hb hf rfl hreach
  let f₁ : Field := ⟨.prev, true, [.owned p]⟩
  have hb₁ := h.putField_body (f := f₁) hb
  have husable : Link.Usable rules.sealed (h.putField o f₁) (.owned p) := Link.usable_of_reach hh₁.safe.toSound
    ((hreach₁ o hreach).subset fun _ => Or.imp_left (List.mem_append_right _)) hb₁
    (Object.links_put (f := f₁) hfits.1 hf rfl ▸ hmem)
  refine .bind (Pointer.clone_spec hh₁ husable) ?_
  rintro q h₂ ⟨hq, hr₂⟩
  rw [List.append_nil] at hr₂
  obtain ⟨hb₂, hr⟩ := hr₂.underLock hh hb hf rfl hreach
  have hf₁ : (b.put f₁).field? .prev = some f₁ := Object.field?_put (f := f₁) hf
  refine .bind (unlockField_spec hb₂ (by rw [Object.names_put]; exact hfits.1) hf₁) fun _ h₃ hh₃ => .pure ?_
  subst hh₃
  exact ⟨hq, (hq ▸ Pointer.Fits.bound (hfits.2 _ hmem) hh.safe.scopes).grows hr.keeps.grows, hr⟩

namespace Particles

/-- Resolving a particle for reading leaves it with its past. -/
theorem resolve_recalls (hh : Holding .calm rules [] frame h p.tasks) (hc : h.Chronicle ready annals fun _ => False)
    (hp : p.Recalls rules.sealed annals h vs) : Ends E (p.resolve h) fun q k => q.2 = q.1.target ∧
      q.1.Recalls rules.sealed annals k vs ∧ Run .calm rules [] frame h p.tasks k q.1.tasks :=
  (Pointer.resolve_spec hh hp.fits).imp fun _ _ ⟨hreads, htarget, hfits, hr⟩ =>
    ⟨htarget, ⟨hfits, (hreads.retells hh hc fun _ ht => List.mem_append_left _ ht).past.trans hp.past, hp.nonempty⟩, hr⟩

theorem readValue_spec (hh : Holding .calm rules [] frame h p.tasks) (hc : h.Chronicle ready annals fun _ => False)
    (hp : p.Recalls rules.sealed annals h vs) : Ends E (readValue p h) fun y k => y.2 = vs.head? ∧
      y.1.Recalls rules.sealed annals k vs ∧ Run .calm rules [] frame h p.tasks k y.1.tasks := by
  unfold readValue
  refine .bind (resolve_recalls hh hc hp) fun y h₁ ⟨htarget, hq, hr₁⟩ => ?_
  obtain ⟨q, t⟩ := y
  obtain ⟨o, ho, hpast⟩ := hq.exists_target
  cases htarget.trans ho
  dsimp only
  have hh₁ : Holding .calm rules [] (q.tasks ++ frame) h₁ [] := (hh.run hr₁).focus (.refl _)
  have hc₁ : h₁.Chronicle ready annals fun _ => False := hc.kept (show h.Kept frame h₁ from hr₁.keeps)
  have hheld : .release o ∈ q.tasks ++ frame := List.mem_append_left _ (q.mem_tasks ho)
  obtain ⟨b, hb⟩ := hq.fits.target o ho
  obtain ⟨htells, -⟩ := hc₁.tells o b hb (hh₁.live hheld).destroyed id (hpast.trans_ne hq.nonempty)
  obtain ⟨_, _, -, hvalue⟩ := htells.contents
  refine .bind (borrow_spec hh₁ hheld (hh₁.object_ne_root ⟨b, hb⟩)) fun _ h₂ hr₂ => .readCell_bind ?_
  have hb₂ : (h₂.cell o).body = .object b := (Heap.Kept.body hr₂.keeps (.source (.inl hheld))).trans hb
  refine .bind (release_spec (hh₁.run hr₂)) fun _ h₃ hr₃ => .pure ?_
  have hr := hr₂.trans hr₃
  refine ⟨?_, hq.later hr.keeps.grows fun _ _ => rfl, hr₁.trans hr.widen⟩
  rw [Cell.object?, hb₂, ← hpast, hvalue]
  rfl

/-- A walk along a history counts as many states as the past has values, if it may take as many steps. -/
theorem historyLoop_spec {fuel : Nat} : ∀ {length : Nat} {p : Pointer} {h : Heap}, Holding .calm rules [] frame h p.tasks →
    h.Chronicle ready annals (fun _ => False) → p.Fits rules.sealed h → (∀ t, p.target = some t → annals t ≠ []) →
    (p.past annals).length ≤ fuel → Ends E (historyLoop fuel length p h) fun n k => n = length + (p.past annals).length ∧
      Run .calm rules [] frame h p.tasks k [] := by
  have hend : ∀ {length : Nat} {p q : Pointer} {h h₁ : Heap}, Holding .calm rules [] frame h p.tasks →
      Run .calm rules [] frame h p.tasks h₁ q.tasks → p.past annals = [] →
      Ends E ((do q.drop; return length : HeapM Nat) h₁) fun n k => n = length + (p.past annals).length ∧
        Run .calm rules [] frame h p.tasks k [] := fun {_ _ _ _ h₁} hh hr₁ hpast =>
    .bind (Pointer.drop_spec (hh.run hr₁)) fun _ h₂ hr₂ => .pure ⟨by rw [hpast]; rfl, hr₁.trans hr₂⟩
  induction fuel with
  | zero =>
    intro length p h hh hc hp ht hlen
    have hpast : p.past annals = [] := List.eq_nil_of_length_eq_zero (Nat.le_zero.1 hlen)
    unfold historyLoop
    refine .bind (Pointer.resolve_spec hh hp) ?_
    rintro ⟨q, t⟩ h₁ ⟨hreads, htarget, -, hr₁⟩
    obtain rfl : t = q.target := htarget
    cases hreads with
    | nil => exact hend hh hr₁ hpast
    | target _ _ =>
      have hnil : annals _ = [] := hpast
      exact absurd hnil (ht _ rfl)
  | succ fuel ih =>
    intro length p h hh hc hp ht hlen
    unfold historyLoop
    refine .bind (Pointer.resolve_spec hh hp) ?_
    rintro ⟨q, t⟩ h₁ ⟨hreads, htarget, hfits, hr₁⟩
    have hpast := (hreads.retells hh hc fun _ ht => List.mem_append_left _ ht).past
    obtain rfl : t = q.target := htarget
    cases ho : q.target with
    | none =>
      refine hend hh hr₁ ?_
      rw [← hpast, Pointer.past, ho]
      rfl
    | some o =>
      dsimp only
      have hne : p.past annals ≠ [] := by
        cases hreads with
        | nil => cases ho
        | target _ _ => exact ht _ rfl
      have hpasto : annals o = p.past annals := by
        rw [← hpast, Pointer.past, ho]
        rfl
      have hh₁ : Holding .calm rules [] (q.tasks ++ frame) h₁ [] := (hh.run hr₁).focus (.refl _)
      have hc₁ : h₁.Chronicle ready annals fun _ => False := hc.kept (show h.Kept frame h₁ from hr₁.keeps)
      have hheld : .release o ∈ q.tasks ++ frame := List.mem_append_left _ (q.mem_tasks ho)
      obtain ⟨b, hb⟩ := hfits.target o ho
      obtain ⟨htells, -⟩ := hc₁.tells o b hb (hh₁.live hheld).destroyed id (hpasto.trans_ne hne)
      obtain ⟨f, g, prev, e, hfs, ⟨hf, hl⟩, -, hvs⟩ := htells.fields
      have hfield : b.field? .prev = some f := by simp [Object.field?, hfs, hf]
      have hlink : .owned prev ∈ b.links := List.mem_flatMap.2 ⟨f, Object.mem_of_field? hfield, hl ▸ List.mem_cons_self⟩
      refine .bind (borrow_spec hh₁ hheld (hh₁.object_ne_root ⟨b, hb⟩)) fun _ h₂ hr₂ => ?_
      have hb₂ : (h₂.cell o).body = .object b := (Heap.Kept.body hr₂.keeps (.source (.inl hheld))).trans hb
      refine .bind (clonePrevious_spec ((hh₁.run hr₂).focus (.refl _)) hb₂ hfield hl List.mem_cons_self) ?_
      rintro r h₃ ⟨hr, hfits₃, hr₃⟩
      have hrun : Run .calm rules [] frame h p.tasks h₃ ((r.tasks ++ [.release o]) ++ q.tasks) :=
        (hr₁.trans hr₂.widen).trans hr₃.widen.widen
      refine .bind (Pointer.drop_spec ((hh.run hrun).focus List.perm_append_comm)) fun _ h₄ hr₄ => ?_
      have hrun₄ := hrun.andDrop List.perm_append_comm hr₄
      refine .bind (release_spec ((hh.run hrun₄).focus List.perm_append_comm)) fun _ h₅ hr₅ => ?_
      have hrun₅ := hrun₄.andDrop List.perm_append_comm hr₅
      have hpastr : r.past annals = prev.past annals := hr ▸ prev.past_bound _
      have hlen' : (p.past annals).length = (r.past annals).length + 1 := by
        rw [← hpasto, hvs, hpastr, List.length_cons]
      have hleads : ∀ t, r.target = some t → annals t ≠ [] := fun t ht => by
        rw [hr, Pointer.target_bound] at ht
        exact htells.leads t ⟨prev, hlink, ht⟩
      refine (ih (hh.run hrun₅) (hc.kept (show h.Kept frame h₅ from hrun₅.keeps))
        (hfits₃.grows (hr₄.keeps.grows.trans hr₅.keeps.grows)) hleads (by omega)).imp ?_
      rintro n k ⟨hn, hr₆⟩
      exact ⟨by omega, hrun₅.trans hr₆⟩

theorem historyLength_spec (hh : Holding .calm rules [] frame h []) (hc : h.Chronicle ready annals fun _ => False)
    (hp : p.Recalls rules.sealed annals h vs) (hheld : ∀ t ∈ p.tasks, t ∈ frame) :
    Ends E (historyLength p h) fun n k => n = vs.length ∧ Run .calm rules [] frame h [] k [] := by
  obtain ⟨o, ho, hpast⟩ := hp.exists_target
  unfold historyLength
  refine .get_bind (.bind (Pointer.clone_spec hh (hh.usable_pointer hp.fits fun t ht => List.mem_append_right _ (hheld t ht)))
    fun q h₁ ⟨hq, hr₁⟩ => ?_)
  rw [List.append_nil] at hr₁
  have hpastq : q.past annals = vs := hq ▸ (p.past_bound _).trans hp.past
  have hshort : vs.length ≤ h.size := hpast ▸ Nat.le_trans (hc.short o) (Nat.le_of_lt (hp.fits.target o ho).lt_size)
  refine (historyLoop_spec (hh.run hr₁) (hc.kept (show h.Kept frame h₁ from hr₁.keeps))
    (hq ▸ (hp.fits.bound hh.safe.scopes).grows hr₁.keeps.grows) (fun t ht => ?_) (hpastq ▸ hshort)).imp
      fun n k ⟨hn, hr₂⟩ => ⟨by rw [hn, hpastq, Nat.zero_add], hr₁.trans hr₂⟩
  rw [hq, Pointer.target_bound, ho] at ht
  cases ht
  exact hpast.trans_ne hp.nonempty

/-! ### Whole populations -/

variable {vss : List (List Int)} {ps : List Pointer}

theorem readValues_spec (hps : List.Forall₂ (Pointer.Recalls rules.sealed annals h) vss ps) : ∀ {frame : List Task},
    Holding .calm rules [] frame h (ps.flatMap Pointer.tasks) → h.Chronicle ready annals (fun _ => False) →
    Ends E (ps.mapM readValue h) fun ys k => ys.map (·.2) = vss.map List.head? ∧
      List.Forall₂ (Pointer.Recalls rules.sealed annals k) vss (ys.map (·.1)) ∧
      Run .calm rules [] frame h (ps.flatMap Pointer.tasks) k ((ys.map (·.1)).flatMap Pointer.tasks) := by
  induction ps generalizing h vss with
  | nil =>
    intro frame hh hc
    cases hps
    exact ⟨rfl, .nil, .refl _ _ _ _⟩
  | cons p ps ih =>
    intro frame hh hc
    obtain _ | @⟨vs, _, vss, _, hp, hps⟩ := hps
    rw [List.mapM_cons]
    refine .bind (readValue_spec (hh.focus (.refl _)) hc hp) fun y h₁ ⟨hy, hq, hr₁⟩ => ?_
    have hrun : Run .calm rules [] frame h ((p :: ps).flatMap Pointer.tasks) h₁ (y.1.tasks ++ ps.flatMap Pointer.tasks) :=
      hr₁.widen
    refine .bind (ih (hps.imp fun _ _ hp => hp.later hr₁.keeps.grows fun _ _ => rfl) ((hh.run hrun).focus List.perm_append_comm)
      (hc.kept (show h.Kept frame h₁ from hrun.keeps))) fun ys h₂ ⟨hys, hqs, hr₂⟩ => .pure ?_
    refine ⟨congrArg₂ List.cons hy hys, .cons (hq.later hr₂.keeps.grows fun _ _ => rfl) hqs, ?_⟩
    exact (hrun.andThen List.perm_append_comm hr₂).perm (.refl _) List.perm_append_comm

theorem historyLengths_spec (hps : List.Forall₂ (Pointer.Recalls rules.sealed annals h) vss ps)
    (hh : Holding .calm rules [] frame h []) (hc : h.Chronicle ready annals fun _ => False)
    (hheld : ∀ t ∈ ps.flatMap Pointer.tasks, t ∈ frame) :
    Ends E (ps.mapM historyLength h) fun ns k => ns = vss.map List.length ∧ Run .calm rules [] frame h [] k [] := by
  induction ps generalizing h vss with
  | nil =>
    cases hps
    exact ⟨rfl, .refl _ _ _ _⟩
  | cons p ps ih =>
    obtain _ | @⟨vs, _, vss, _, hp, hps⟩ := hps
    rw [List.mapM_cons]
    refine .bind (historyLength_spec hh hc hp fun t ht => hheld t (List.mem_append_left _ ht)) fun n h₁ ⟨hn, hr₁⟩ => ?_
    refine .bind (ih (hps.imp fun _ _ hp => hp.later hr₁.keeps.grows fun _ _ => rfl) (hh.run hr₁)
      (hc.kept (show h.Kept frame h₁ from hr₁.keeps)) fun t ht => hheld t (List.mem_append_right _ ht))
      fun ns h₂ ⟨hns, hr₂⟩ => .pure ⟨congrArg₂ List.cons hn hns, hr₁.trans hr₂⟩

theorem dropAll_spec (hh : Holding .calm rules [] frame h (ps.flatMap Pointer.tasks)) :
    Ends E (ps.forM Pointer.drop h) fun _ k => Run .calm rules [] frame h (ps.flatMap Pointer.tasks) k [] :=
  (forM_spec (s := Pointer.tasks) (t := fun _ => []) (fun _ _ _ _ _ _ hhk => Pointer.drop_spec hhk) hh).imp fun _ _ hr => by
    rwa [List.flatMap_eq_nil_iff.2 fun _ _ => rfl] at hr

end Particles
end LazyHeap
