import LazyHeap.Proofs.Particles.Chronicles

/-!
Finishing particles. Each look at a state leaves the chronicle true and goes on to states that have a past, so finishing a
particle ends, and what the particle stands for then has the same past as before.
-/
namespace LazyHeap

variable {rules : Rules} {frame : List Task} {h k : Heap} {c : CellId} {b : Object} {p : Pointer}
variable {seen stack rest : List CellId} {annals : CellId → List Int}

namespace Heap

/-- Looking into a state that is ready leaves the chronicle true, and comes upon states that have a past. -/
theorem Chronicle.look (hc : k.Chronicle true annals fun _ => False) (hf : h.Finishing rules frame seen stack k)
    (hsafe : Safe rules ⟨h, [], [], frame⟩) (htop : stack.dropWhile seen.contains = c :: rest)
    (hb : (k.cell c).body = .object b) (hun : (k.cell c).frozen = false) (hpast : annals c ≠ [])
    (hset : rules.Settled) (hsteady : ∀ c, ¬ rules.steady c) (hfixed : ∀ c, ¬ rules.fixed c) :
    b.Labelled ∧ Ends (fun _ => False) (visitFields c (k.finishes c) Link.pull k) fun found k' =>
      ∃ annals', (∀ d < k.size, annals' d = annals d) ∧ k.size ≤ k'.size ∧ (k'.Chronicle true annals' fun _ => False) ∧
        ∀ t ∈ found, annals' t ≠ [] := by
  have hstack : c ∈ stack := (List.dropWhile_suffix _).subset (htop ▸ List.mem_cons_self)
  have hsafe' := (hsafe.steps hf.steps).1
  have hvia : Via rules.sealed k frame c := (hf.paved c (.inr hstack)).2.via
  have hlive : k.Live c := hsafe'.live_of_reach hvia.reach
  have hlt : c < k.size := IsObject.lt_size ⟨b, hb⟩
  obtain ⟨htells, hlab⟩ := hc.tells c b hb hlive.destroyed id hpast
  have hlab := hlab rfl hun
  have hall := finishes_of_ne_leaf hb (by rw [htells.kind]; decide)
  have hlinks : (b.fields.filter fun f => k.finishes c f.name).flatMap (·.links) = b.links := by
    rw [List.filter_eq_self.2 fun f _ => hall f.name]
    rfl
  have htarget : ∀ link ∈ b.links, ∀ t, link.target? = some t → t < k.size := fun link hlink t ht => by
    have hfits := hsafe'.fits c
    rw [show (Moment.heap _).cell c = k.cell c from rfl, hb] at hfits
    cases link with
    | owned q => exact ((hfits.2 _ hlink).target t ht).lt_size
    | weak w => cases ht
    | label l => cases ht
  -- the state itself is an exception while its links are resolved, and what is found has the pasts of what the links led to
  let J : List Link → List CellId → Heap → Prop := fun past found k₁ => ∃ annals', (∀ d < k.size, annals' d = annals d) ∧
    k.size ≤ k₁.size ∧ k₁.Chronicle true annals' (· = c) ∧ (k₁.IsObject c ∧ (k₁.cell c).frozen = false) ∧
    List.Forall₂ (fun t t' => annals' t' = annals t ∧ t' < k₁.size) (past.filterMap Link.target?) found
  refine ⟨hlab, (hf.look (R := fun link y => link.Akin y ∧ ∀ q, y = .owned q → q.Labelled) (J := J) hsafe htop hb
    ⟨hfixed c, fun _ hfr => absurd (hun.symm.trans hfr) Bool.false_ne_true⟩ hset hsteady (.inr hun)
    ⟨annals, fun _ _ => rfl, Nat.le_refl _, hc.mono fun _ => False.elim, ⟨⟨b, hb⟩, hun⟩, .nil⟩
    (fun past found k₁ g _ ⟨annals', hold, hsize, hc₁, ⟨⟨x, hx⟩, hun₁⟩, hfound⟩ => ?_)
    fun locks more past found link y k₁ k₂ hlink _ ⟨annals', hold, hsize, hc₁, hout, hfound⟩ hfits hh hp hfits' hrun => ?_).imp
      fun found k' ⟨_, _, ⟨new, hlooked⟩, annals', hold, hsize, hc', _, hfound⟩ => ?_⟩
  · have hsame : (k₁.putField c g).size = k₁.size := k₁.size_update c _
    exact ⟨annals', hold, hsame ▸ hsize, hc₁.of_differs (k₁.putField_differs c g) rfl ⟨_, putField_body hx⟩,
      ⟨⟨_, putField_body hx⟩, (putField_frozen hx c).trans hun₁⟩, hsame ▸ hfound⟩
  · obtain ⟨annals₂, hold₂, hc₂, hretells, hlab₂, hout₂⟩ := hp.retells hh hc₁ hfits (fun t ht => List.mem_append_left _ ht)
      fun d hd => hd ▸ hout
    have hgrows : k₁.size ≤ k₂.size := hrun.keeps.grows.size
    refine ⟨⟨hp.akin, hlab₂ fun p hp => hlab p (hp ▸ hlink)⟩, annals₂,
      fun d hd => (hold₂ d (Nat.lt_of_lt_of_le hd hsize)).trans (hold d hd), Nat.le_trans hsize hgrows, hc₂, hout₂ c rfl, ?_⟩
    rw [List.filterMap_append]
    refine List.rel_append (hfound.imp fun t t' ⟨he, hlt'⟩ => ⟨(hold₂ t' hlt').trans he, Nat.lt_of_lt_of_le hlt' hgrows⟩) ?_
    have hrel : Option.Rel (fun t t' => annals₂ t' = annals' t) link.target? y.target? := hretells.target?
    have hnew : ∀ t', y.target? = some t' → t' < k₂.size := fun t' ht' => by
      cases y with
      | owned q => exact (Pointer.Fits.target hfits' t' ht').lt_size
      | weak w => cases ht'
      | label l => cases ht'
    generalize htl : link.target? = tl, y.target? = ty at hrel hnew
    cases hrel with
    | none => simp [htl]
    | @some t t' he =>
      simp only [List.filterMap_cons, htl, List.filterMap_nil, Option.toList_some]
      exact .cons ⟨he.trans (hold t (htarget link hlink t htl)), hnew t' rfl⟩ .nil
  · rw [hlinks] at hfound
    refine ⟨annals', hold, hsize, hc'.restore fun b' hb' _ => ?_, fun t' ht' => ?_⟩
    · cases hlooked.body.symm.trans hb'
      refine ⟨?_, fun _ q hq => ?_⟩
      · rw [hold c hlt]
        exact htells.retold ((hlooked.mono fun _ _ hR => hR.1).mirrors (hfound.imp fun _ _ => And.left) hall)
      · obtain ⟨_, _, hR, _⟩ := hlooked.of_mem hall hq
        exact hR.2 q rfl
    · obtain ⟨t, ht, he, -⟩ := forall₂_exists_left hfound ht'
      obtain ⟨link, hlink, hlt⟩ := List.mem_filterMap.1 ht
      rw [he]
      exact htells.leads t (Object.leadsTo_iff.2 ⟨link, hlink, hlt⟩)

end Heap

/-- Finishing a particle ends, and leaves it with its past. -/
theorem Pointer.finish_tells (hh : Holding (.sparing rules.sealed) rules [] frame h p.tasks) (hp : p.Fits rules.sealed h)
    (hset : rules.Settled) (hsteady : ∀ c, ¬ rules.steady c) (hfixed : ∀ c, ¬ rules.fixed c) (hclosed : rules.closed = true)
    (hleaf : h.Leafless) (hl : p.Labelled) (hc : h.Chronicle true annals fun _ => False) (hpast : p.past annals ≠ []) :
    Ends (fun _ => False) (p.finish h) fun q k => Holding (.sparing rules.sealed) rules [] frame k q.tasks ∧
      q.Fits rules.sealed k ∧ h.Grows k ∧ k.scopes = h.scopes ∧ k.Leafless ∧ ∃ annals', (∀ c < h.size, annals' c = annals c) ∧
        (k.Chronicle true annals' fun _ => False) ∧ q.past annals' = p.past annals := by
  let K : Pointer → Nat → List CellId → List CellId → Heap → Prop := fun q _ _ stack k => ∃ annals',
    (∀ c < h.size, annals' c = annals c) ∧ h.size ≤ k.size ∧ (k.Chronicle true annals' fun _ => False) ∧
    (q.past annals' = p.past annals ∧ ∀ t, q.target = some t → t < k.size) ∧ ∀ d ∈ stack, annals' d ≠ []
  refine (finish_completes (K := K) hh hp hset hsteady hfixed hclosed hleaf hl (fun q o k _ ho hfits hg hpulls => ?_)
    fun q k₀ n seen stack rest k c o hsafe hcompleting ⟨annals₁, hold, hsize, hk, ⟨hq, hlt⟩, hstack⟩ htop hb => ?_).imp
      fun q k ⟨hh', hfits, hg, hscopes, hleaf', hsome, _, hK⟩ => ⟨hh', hfits, hg, hscopes, hleaf', ?_⟩
  · obtain ⟨annals₁, hold, hk, hretells, -⟩ := hpulls.retells hh hc hp (fun t ht => List.mem_append_left _ ht) fun _ => False.elim
    have hq : q.past annals₁ = p.past annals := hretells.past
    refine ⟨annals₁, hold, hg.size, hk, ⟨hq, fun t ht => (hfits.target t ht).lt_size⟩, fun d hd => ?_⟩
    rw [List.mem_singleton.1 hd]
    rwa [← hq, Pointer.past, ho] at hpast
  · have hmem : c ∈ stack := (List.dropWhile_suffix _).subset (htop ▸ List.mem_cons_self)
    obtain ⟨hlab, hlook⟩ := hk.look hcompleting.toFinishing hsafe htop hb (hcompleting.thawed c (.inr hmem)) (hstack c hmem)
      hset hsteady hfixed
    refine ⟨hlab, fun found k' hvisit => ?_⟩
    rw [hvisit] at hlook
    obtain ⟨annals₂, hold₂, hsize₂, hk₂, hfound⟩ := hlook
    refine ⟨annals₂, fun d hd => (hold₂ d (Nat.lt_of_lt_of_le hd hsize)).trans (hold d hd), Nat.le_trans hsize hsize₂, hk₂,
      ⟨?_, fun t ht => Nat.lt_of_lt_of_le (hlt t ht) hsize₂⟩, fun d hd => ?_⟩
    · rw [← hq]
      exact Pointer.past_congr fun t ht => hold₂ t (hlt t ht)
    · rcases List.mem_append.1 hd with hd | hd
      · exact hfound d (List.mem_reverse.1 hd)
      · have hd : d ∈ stack := (List.dropWhile_suffix _).subset (htop ▸ List.mem_cons_of_mem c hd)
        obtain ⟨x, hx⟩ := (hcompleting.paved d (.inr hd)).1
        rw [hold₂ d (Heap.IsObject.lt_size ⟨x, hx⟩)]
        exact hstack d hd
  · obtain ⟨t₀, ht₀⟩ := Pointer.exists_target hpast
    obtain ⟨t, ht⟩ := Option.isSome_iff_exists.1 (hsome.trans (by rw [ht₀]; rfl))
    obtain ⟨_, _, _, annals', hold, -, hk, ⟨hq, -⟩, -⟩ := hK t ht
    exact ⟨annals', hold, hk, hq⟩

end LazyHeap
