import LazyHeap.Proofs.Particles.Moving
import LazyHeap.Proofs.Session.Laws

/-!
Resampling. A lazy clone of a particle has the same past; what it stands for is frozen, and its label is its own. So after a step
the histories are those of the drawn ancestors.
-/
namespace LazyHeap

variable {rules : Rules} {frame rest : List Task} {h k : Heap} {c : CellId} {p q : Pointer} {l : Handle}
variable {annals : CellId → List Int} {vs : List Int} {vss : List (List Int)} {ps : List Pointer} {E : Fault → Prop}

/-- What bringing a link up to date makes of it, whatever the chronicle is. -/
def Heap.Retold (h : Heap) (link link' : Link) : Prop :=
  ∀ annals, h.Chronicle false annals (fun _ => False) → link.Retells annals annals link'

theorem Heap.Uncopied.chills (hu : h.Uncopied annals) (hz : h.Chills h.Retold k) : k.Uncopied annals where
  chronicle := hu.chronicle.chills hz
  past c hc hd := hu.past c (hz.isObject hc hd) (Bool.eq_false_iff.2 fun hd' => by
    rw [hz.destroyed c hd'] at hd
    cases hd)
  memo c s hs hd := by
    refine hu.memo c s ?_ (Bool.eq_false_iff.2 fun hd' => by
      rw [hz.destroyed c hd'] at hd
      cases hd)
    rw [← hs]
    refine (hz.label c (fun hobj => ?_) hd).symm
    obtain ⟨x, hx⟩ := hz.object c hobj
    cases hs.symm.trans hx
  scopes := hz.scopes.trans hu.scopes

/-- A pointer as a lazy clone is: it has a label of its own, and what it leads to is frozen. -/
structure Pointer.Resting (h : Heap) (p : Pointer) : Prop where
  label : ∃ c, p.label = .counted c
  frozen : ∀ t, p.target = some t → (h.cell t).frozen = true

theorem forall₂_set {α β : Type} {R : α → β → Prop} {xs : List α} {ys : List β} (hall : List.Forall₂ R xs ys) :
    ∀ {a : Nat} {y : β}, (∀ ha : a < xs.length, R xs[a] y) → List.Forall₂ R xs (ys.set a y) := by
  induction hall with
  | nil => exact fun _ => .nil
  | cons hxy hall ih =>
    intro a y hy
    cases a with
    | zero => exact .cons (hy (Nat.succ_pos _)) hall
    | succ a => exact .cons hxy (ih fun ha => hy (Nat.succ_lt_succ ha))

namespace Particles

/-- Draws for so many particles: each moves, and each is replaced by the clone of one of them. -/
structure StepDraws.Fits (particles : Nat) (d : StepDraws) : Prop where
  deltas : d.deltas.length = particles
  ancestors : d.ancestors.length = particles
  bound : ∀ a ∈ d.ancestors, a < particles

/-- The histories after a step: those of the drawn ancestors, which have moved before. -/
def StepDraws.histories (vss : List (List Int)) (d : StepDraws) : List (List Int) :=
  d.ancestors.map fun a => (vss.zipWith moved d.deltas).getD a []

theorem StepDraws.length_histories (vss : List (List Int)) (d : StepDraws) : (d.histories vss).length = d.ancestors.length :=
  List.length_map _

section Steps

variable (hset : rules.Settled) (hsteady : ∀ c, ¬ rules.steady c) (hfixed : ∀ c, ¬ rules.fixed c)
include hset hsteady hfixed

theorem deepClone_spec (hs : Safe rules ⟨h, [], [], p.tasks ++ frame⟩) (hu : h.Uncopied annals)
    (hp : p.Recalls rules.sealed annals h vs) : Ends E (p.deepClone h) fun y k =>
      Episode rules frame h annals k annals (y.1.tasks ++ y.2.tasks) ∧ y.1.Recalls rules.sealed annals k vs ∧
        y.2.Recalls rules.sealed annals k vs ∧ y.2.Resting k := by
  have hh : Holding .calm rules [] frame h p.tasks := hs.holding (.refl _)
  have hspec : Ends E (p.deepClone h) fun y k => Pointer.Clones Heap.Retold (fun _ => False) frame h p k y ∧
      y.1.Fits rules.sealed k ∧ y.2.Fits rules.sealed k ∧ Passage rules [] frame h p.tasks k (y.1.tasks ++ y.2.tasks) :=
    Pointer.deepClone_spec hh hp.fits (fun c _ => ⟨id, hsteady c⟩) hset (fun d _ => hfixed d)
      fun k _ _ => Heap.Chronicle.settling k
  refine hspec.imp fun y k ⟨hclones, hfits, hfits', hpassage⟩ => ?_
  have hscopes := hclones.scopes
  have hfrozen := hclones.frozen hfits
  cases hclones with
  | nil _ => exact absurd hp.past.symm hp.nonempty
  | @graph _ o d l l' _ h₁ h₂ _ _ hreads hk₁ hz _ _ _ _ _ _ _ _ _ _ _ _ hbranch =>
    have hu₁ : h₁.Uncopied annals := hu.kept hk₁
    have hu₂ : h₂.Uncopied annals := hu₁.chills hz.1
    have huk : k.Uncopied annals := hu₂.branched (hbranch fun c s _ hs hd => by
      rw [Memo.copies, hu₂.memo c s hs hd]
      rfl) (hscopes.trans (hu.scopes.trans hu₂.scopes.symm))
    have hpast : (⟨some o, l⟩ : Pointer).past annals = vs :=
      (hreads.retells hh hu.chronicle fun _ ht => List.mem_append_left _ ht).past.trans hp.past
    exact ⟨⟨hpassage.safe, hpassage.lends, fun _ _ => rfl, huk⟩, ⟨hfits, hpast, hp.nonempty⟩, ⟨hfits', hpast, hp.nonempty⟩,
      ⟨d, rfl⟩, fun t ht => hfrozen.2 t ht⟩

theorem cloneAncestors_spec {ancestors : List Nat} : ∀ {ps : List Pointer} {frame : List Task} {h : Heap},
    List.Forall₂ (Pointer.Recalls rules.sealed annals h) vss ps → (∀ a ∈ ancestors, a < ps.length) →
    Safe rules ⟨h, [], [], ps.flatMap Pointer.tasks ++ frame⟩ → h.Uncopied annals →
    Ends E (cloneAncestors ps ancestors h) fun y k =>
      Episode rules frame h annals k annals ((y.1 ++ y.2).flatMap Pointer.tasks) ∧
      List.Forall₂ (Pointer.Recalls rules.sealed annals k) (ancestors.map fun a => vss.getD a []) y.2 ∧
      ∀ q ∈ y.2, q.Resting k := by
  induction ancestors with
  | nil =>
    intro ps frame h _ _ hs hu
    refine .pure ⟨?_, .nil, fun q hq => absurd hq List.not_mem_nil⟩
    rw [List.append_nil]
    exact .refl hs hu
  | cons a ancestors ih =>
    intro ps frame h hps hlt hs hu
    unfold cloneAncestors
    obtain ⟨ha, hlt⟩ := List.forall_mem_cons.1 hlt
    rw [List.getElem?_eq_getElem ha, Option.getD_some]
    have hlen : vss.length = ps.length := hps.length_eq
    have hrecalls : ps[a].Recalls rules.sealed annals h (vss.getD a []) := by
      rw [List.getD_eq_getElem vss [] (hlen ▸ ha)]
      exact hps.get (hlen ▸ ha) ha
    have hperm : (ps.flatMap Pointer.tasks).Perm (ps[a].tasks ++ (ps.eraseIdx a).flatMap Pointer.tasks) :=
      (List.getElem_cons_eraseIdx_perm ha).symm.flatMap_right _
    refine .bind (deepClone_spec hset hsteady hfixed ((Episode.refl hs hu).focus hperm) hu hrecalls) ?_
    rintro ⟨p, clone⟩ h₁ ⟨he₁, hp, hclone, hresting⟩
    have hperm₁ : ((p.tasks ++ clone.tasks) ++ (ps.eraseIdx a).flatMap Pointer.tasks).Perm
        ((ps.set a p).flatMap Pointer.tasks ++ clone.tasks) := List.perm_iff_count.2 fun t => by
      have hset := ((List.set_perm_cons_eraseIdx ha p).flatMap_right Pointer.tasks).count_eq t
      simp only [List.flatMap_cons, List.count_append] at hset ⊢
      omega
    have he₁ := he₁.widen.perm hperm₁
    have hps₁ : List.Forall₂ (Pointer.Recalls rules.sealed annals h₁) vss (ps.set a p) :=
      forall₂_set (hps.imp fun _ _ => he₁.recalls) fun hlt => by
        rw [← List.getD_eq_getElem vss [] hlt]
        exact hp
    refine .bind (ih hps₁ (fun b hb => (List.length_set ..).symm ▸ hlt b hb) (he₁.focus (.refl _)) he₁.uncopied) ?_
    rintro ⟨old, clones⟩ k ⟨he₂, hclones, hall⟩
    refine .pure ⟨(he₁.trans he₂.widen).perm ?_, .cons (he₂.recalls hclone) hclones,
      List.forall_mem_cons.2 ⟨⟨hresting.label, ?_⟩, hall⟩⟩
    · simp only [List.flatMap_append, List.flatMap_cons, List.perm_iff_count, List.count_append]
      intro t
      omega
    · exact fun t ht => he₂.lends.frozen t (hclone.fits.target t ht) (List.mem_append_left _ (clone.mem_tasks ht))
        (hresting.frozen t ht)

/-- A step leaves clones of the drawn ancestors. -/
theorem step_spec {cycles : Bool} {d : StepDraws} (hps : List.Forall₂ (Pointer.Recalls rules.sealed annals h) vss ps)
    (hd : d.Fits vss.length) (hs : Safe rules ⟨h, [], [], ps.flatMap Pointer.tasks ++ frame⟩) (hu : h.Uncopied annals) :
    Ends E (step cycles ps d h) fun qs k => ∃ annals', Episode rules frame h annals k annals' (qs.flatMap Pointer.tasks) ∧
      List.Forall₂ (Pointer.Recalls rules.sealed annals' k) (d.histories vss) qs ∧ ∀ q ∈ qs, q.Resting k := by
  unfold step
  refine .bind (propagateAll_spec hfixed hps (hd.deltas.trans hps.length_eq) hs hu) fun moving h₁ ⟨annals', he₁, hmoving⟩ => ?_
  have hlen : moving.length = vss.length := by
    rw [← hmoving.length_eq, List.length_zipWith, hd.deltas, Nat.min_self]
  refine .bind (cloneAncestors_spec hset hsteady hfixed hmoving (fun a ha => hlen ▸ hd.bound a ha) he₁.safe he₁.uncopied) ?_
  rintro ⟨old, clones⟩ h₂ ⟨he₂, hclones, hresting⟩
  have hh₂ : Holding .calm rules [] (clones.flatMap Pointer.tasks ++ frame) h₂ (old.flatMap Pointer.tasks) :=
    (he₂.focus (.of_eq List.flatMap_append)).holding (.refl _)
  refine .bind (dropAll_spec hh₂) fun _ h₃ hr₃ => .pure ?_
  have he₃ : Episode rules frame h₂ annals' h₃ annals' (clones.flatMap Pointer.tasks) :=
    (Episode.of_run hh₂.safe he₂.uncopied hr₃).widen
  have hk₃ : h₂.Kept (clones.flatMap Pointer.tasks ++ frame) h₃ := hr₃.keeps
  exact ⟨annals', (he₁.trans he₂).trans he₃, hclones.imp fun _ _ => he₃.recalls, fun q hq =>
    ⟨(hresting q hq).label, fun t ht => (hk₃.fades.frozen t).trans ((hresting q hq).frozen t ht)⟩⟩

/-- Any number of steps. If nothing was frozen before, then the particles are at rest in the end, or there was no step. -/
theorem steps_spec {cycles : Bool} {draws : List StepDraws} :
    ∀ {vss : List (List Int)} {ps : List Pointer} {h : Heap} {annals : CellId → List Int},
    List.Forall₂ (Pointer.Recalls rules.sealed annals h) vss ps → (∀ d ∈ draws, d.Fits vss.length) →
    Safe rules ⟨h, [], [], ps.flatMap Pointer.tasks ++ frame⟩ → h.Uncopied annals → (h.Thawed ∨ ∀ p ∈ ps, p.Resting h) →
    Ends E (draws.foldlM (step cycles) ps h) fun qs k => ∃ annals',
      Episode rules frame h annals k annals' (qs.flatMap Pointer.tasks) ∧
      List.Forall₂ (Pointer.Recalls rules.sealed annals' k) (draws.foldl StepDraws.histories vss) qs ∧
      (k.Thawed ∨ ∀ q ∈ qs, q.Resting k) := by
  induction draws with
  | nil => exact fun hps _ hs hu hrest => ⟨_, .refl hs hu, hps, hrest⟩
  | cons d draws ih =>
    intro vss ps h annals hps hd hs hu _
    obtain ⟨hd, hdraws⟩ := List.forall_mem_cons.1 hd
    rw [List.foldlM_cons]
    refine .bind (step_spec hset hsteady hfixed hps hd hs hu) fun qs h₁ ⟨annals₁, he₁, hqs, hresting⟩ => ?_
    have hdraws' : ∀ e ∈ draws, e.Fits (d.histories vss).length := by
      rw [StepDraws.length_histories, hd.ancestors]
      exact hdraws
    exact (ih hqs hdraws' he₁.safe he₁.uncopied (.inr hresting)).imp fun rs k ⟨annals₂, he₂, hrs, hrest⟩ =>
      ⟨annals₂, he₁.trans he₂, hrs, hrest⟩

end Steps
end Particles
end LazyHeap
