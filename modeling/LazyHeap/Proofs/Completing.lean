import LazyHeap.Proofs.Finishing
import LazyHeap.Proofs.Workload

/-!
Completing the copies of a graph comes to an end. Each look at an object lowers the workload, as long as the labels of
its links make copies; and once nothing is left to be looked into, nothing that is reached is frozen, so that completing
the graph again changes nothing.
-/
namespace LazyHeap

variable {manner : Manner} {rules : Rules} {locks : List Lock} {frame hold ins : List Task} {h h' k : Heap}
variable {c d r : CellId} {o x : Object} {l l' : Handle} {p q : Pointer} {seen stack rest : List CellId}
variable {tolls : CellId → Nat}

/-! ### Labels that make copies -/

/-- Whoever resolves the pointer for change comes to a label that makes copies, unless there is nothing to be resolved. -/
def Pointer.Labelled (p : Pointer) : Prop := p.target = none ∨ ∃ c, p.label = .counted c

def Object.Labelled (o : Object) : Prop := ∀ p, .owned p ∈ o.links → p.Labelled

instance (p : Pointer) : Decidable p.Labelled :=
  match p with
  | ⟨_, .counted c⟩ => isTrue (.inr ⟨c, rfl⟩)
  | ⟨none, .root⟩ | ⟨none, .empty⟩ => isTrue (.inl rfl)
  | ⟨some _, .root⟩ | ⟨some _, .empty⟩ => isFalse (by rintro (ht | ⟨c, hl⟩) <;> contradiction)

instance (o : Object) : Decidable o.Labelled :=
  have (link : Link) : Decidable (∀ p, link = .owned p → p.Labelled) :=
    match link with
    | .owned p => decidable_of_iff p.Labelled ⟨fun hp _ h => Link.owned.inj h ▸ hp, fun h => h p rfl⟩
    | .weak _ | .label _ => isTrue nofun
  decidable_of_iff (∀ link ∈ o.links, ∀ p, link = .owned p → p.Labelled)
    ⟨fun h p hp => h _ hp p rfl, fun h _ hl p hp => h p (hp ▸ hl)⟩

theorem Handle.Leads.counted (hl : l.Leads h l') (hh : Holding manner rules locks frame h ins) (hf : l.Fits rules.sealed h)
    (hc : ∃ c, l = .counted c) : ∃ c, l' = .counted c := by
  induction hl with
  | stop _ => exact hc
  | @next l l' c hcell _ hne _ ih =>
    obtain ⟨-, s, hs⟩ := label_of_cell? hh hf hcell
    rw [h.label_eq hs] at hne ih
    have hfits := hh.fits_label hs
    refine ih hfits.forward ?_
    cases hnext : s.forward with
    | empty => exact absurd hnext hne
    | root => exact absurd hnext hfits.rootless
    | counted d => exact ⟨d, rfl⟩

theorem Pointer.Pulls.thawed (hp : Pulls hold h h' p q) (hh : Holding manner rules locks frame h ins)
    (hf : p.label.Fits rules.sealed h) (hl : p.Labelled) : ∀ t, q.target = some t → (h'.cell t).frozen = false := by
  intro t ht
  cases hp with
  | same hun hk => exact hk ▸ hun t ht
  | @moved k o r l l' _ hforwards _ hg =>
    cases ht
    have hcounted : ∃ c, l' = .counted c := by
      cases hforwards with
      | stop hlead _ _ => exact hlead.counted hh hf (hl.resolve_left nofun)
      | fork _ _ => exact ⟨_, rfl⟩
    obtain ⟨c, rfl⟩ := hcounted
    cases hg with
    | found _ hun hk => exact (hk.fades.frozen _).trans (hun c rfl)
    | recycled _ _ _ _ _ hr _ => exact Cell.frozen_of_core hr.core
    | copied _ _ _ _ _ hc _ _ _ => exact Cell.frozen_of_core hc.core

theorem Link.Pulls.thawed {link link' : Link} (hp : link.Pulls hold h h' link') (hh : Holding manner rules locks frame h ins)
    (hf : link.Fits rules.sealed h) (hl : ∀ p, link = .owned p → p.Labelled) :
    ∀ t, link'.target? = some t → (h'.cell t).frozen = false := by
  cases link with
  | owned p =>
    cases link' with
    | owned q => exact Pointer.Pulls.thawed hp hh (Pointer.Fits.label hf) (hl p rfl)
    | _ => exact nofun
  | weak w => rw [show link' = .weak w from hp.1]; exact nofun
  | label l => rw [show link' = .label l from hp.1]; exact nofun

theorem Link.Pulls.eases {link link' : Link} {out : CellId → Prop} (hp : link.Pulls frame h k link')
    (hh : Holding manner rules locks frame h link.tasks) (hf : link.Fits rules.sealed h) (ht : h.Tolled tolls out)
    (hout : ∀ c, out c → h.IsObject c ∧ (h.cell c).frozen = false) :
    h.Eases tolls seen k ∧ k.workload tolls seen ≤ h.workload tolls seen + link.toll tolls := by
  cases link with
  | owned p =>
    cases link' with
    | owned q =>
      have hsub : ∀ t ∈ p.label.tasks, t ∈ p.tasks ++ frame := fun t hm => List.mem_append_left _ (List.mem_append_right _ hm)
      refine Pointer.Pulls.workload_le hp ht hout (fun d hd => .source ?_) fun d hd => ⟨?_, hh.leads_live hd hsub⟩
      · exact (Handle.held_of_cell? hd : h.Held (p.label.tasks ++ []) d).imp_left fun hm => hsub _ (by simpa using hm)
      · exact (hd.fits hh (Pointer.Fits.label hf) d rfl).2
    | _ => cases hp.1
  | weak w => exact hp.2 ▸ ⟨.refl _ _ _, Nat.le_add_right _ _⟩
  | label l => exact hp.2 ▸ ⟨.refl _ _ _, Nat.le_add_right _ _⟩

/-! ### Coming to an end -/

theorem mem_or_of_dropWhile (hd : d ∈ stack) (htop : stack.dropWhile seen.contains = rest) : d ∈ seen ∨ d ∈ rest := by
  rw [← List.takeWhile_append_dropWhile (p := seen.contains) (l := stack), htop] at hd
  exact (List.mem_append.1 hd).imp_left fun hd => by simpa using List.mem_takeWhile_imp hd

namespace Heap

theorem workload_cons (hb : (h.cell c).body = .object o) (hd : (h.cell c).destroyed = false) (hc : c ∉ seen) :
    h.workload tolls (c :: seen) + o.cost tolls ≤ h.workload tolls seen := by
  refine sum_range_add_le (IsObject.lt_size ⟨o, hb⟩) ?_ fun d hlt hdc _ => ⟨hlt, ?_⟩
  · rw [share_object hb, share_object hb, if_pos List.mem_cons_self, if_neg hc, Nat.zero_add, Cell.cost_object hb hd]
  · refine Nat.add_le_add_right ?_ _
    simp only [List.mem_cons, hdc, false_or]
    exact Nat.le_refl _

/-- How far the loop has come, if the links that it resolved were labelled. -/
structure Completing (rules : Rules) (frame : List Task) (h : Heap) (seen stack : List CellId) (k : Heap) : Prop
    extends h.Finishing rules frame seen stack k where
  leafless : k.Leafless
  thawed : ∀ d, d ∈ seen ∨ d ∈ stack → (k.cell d).frozen = false
  onward : ∀ x ∈ seen, ∀ o t, (k.cell x).body = .object o → o.LeadsTo t → t ∈ seen ∨ t ∈ stack

theorem finishes_of_ne_leaf (hb : (h.cell c).body = .object o) (ho : o.kind ≠ .leaf) (name : FieldName) :
    h.finishes c name = true := by
  rw [finishes, Cell.object?, hb]
  cases hk : o.kind with
  | leaf => exact absurd hk ho
  | _ => simp [ObjectKind.finishes, hk]

section Looked

variable {R : Link → Link → Prop} {found : List CellId} {new : Visited} {t : CellId} {link : Link}

theorem Looked.of_mem (hl : h.Looked c o R found k new) (hall : ∀ name, h.finishes c name = true)
    (hlink : link ∈ (o.relink (h.followed c o) new).links) :
    ∃ link₀ ∈ o.links, R link₀ link ∧ ∃ name ∈ h.followed c o, (link, link.target?) ∈ new name := by
  obtain ⟨f', hf', hlink⟩ := List.mem_flatMap.1 hlink
  obtain ⟨f, hf, rfl⟩ := List.mem_map.1 hf'
  have hname : f.name ∈ h.followed c o := List.mem_filter.2 ⟨List.mem_map_of_mem hf, hall _⟩
  rw [if_pos hname] at hlink
  obtain ⟨⟨_, target⟩, hy, rfl⟩ := List.mem_map.1 hlink
  obtain ⟨link₀, hlink₀, htarget, hR⟩ := forall₂_exists_left (hl.links f hf (hall _)) hy
  exact ⟨link₀, List.mem_flatMap.2 ⟨f, hf, hlink₀⟩, hR, f.name, hname, htarget ▸ hy⟩

theorem Looked.found_of_leadsTo (hl : h.Looked c o R found k new) (hall : ∀ name, h.finishes c name = true)
    (ht : (o.relink (h.followed c o) new).LeadsTo t) : t ∈ found := by
  obtain ⟨link, hlink, htarget⟩ := Object.leadsTo_iff.1 ht
  obtain ⟨-, -, -, name, hname, hy⟩ := hl.of_mem hall hlink
  rw [hl.found]
  exact List.mem_flatMap.2 ⟨name, hname, List.mem_filterMap.2 ⟨_, hy, htarget⟩⟩

end Looked

/-- Looking into an object whose links are labelled lowers the workload. -/
theorem Completing.look (hc : h.Completing rules frame seen stack k) (hsafe : Safe rules ⟨h, [], [], frame⟩)
    (htop : stack.dropWhile seen.contains = c :: rest) (hb : (k.cell c).body = .object o) (hfixed : ∀ c, ¬ rules.fixed c)
    (hset : rules.Settled) (hsteady : ∀ c, ¬ rules.steady c) (hlabels : o.Labelled) (ht : k.Tolled tolls fun _ => False) :
    Ends (fun _ => False) (visitFields c (k.finishes c) Link.pull k) fun found k' =>
      h.Completing rules frame (c :: seen) (found.reverse ++ rest) k' ∧
        k'.workload tolls (c :: seen) < k.workload tolls seen := by
  have hstack : c ∈ stack := (List.dropWhile_suffix _).subset (htop ▸ List.mem_cons_self)
  have hun : (k.cell c).frozen = false := hc.thawed c (.inr hstack)
  have hvia : Via rules.sealed k frame c := (hc.paved c (.inr hstack)).2.via
  have hlive : k.Live c := (hsafe.steps hc.steps).1.live_of_reach hvia.reach
  have hall := finishes_of_ne_leaf hb (hc.leafless c o hb hlive.destroyed)
  -- what is found is not frozen, and the workload rises by the tolls for the links at most
  let J : List Link → List CellId → Heap → Prop := fun past found k₁ => k.Eases tolls (c :: seen) k₁ ∧
    k₁.Tolled tolls (· = c) ∧ k₁.workload tolls (c :: seen) ≤ k.workload tolls (c :: seen) + (past.map (Link.toll tolls)).sum ∧
      ∀ t ∈ found, k₁.IsObject t ∧ (k₁.cell t).frozen = false
  refine (hc.toFinishing.look (R := fun _ _ => True) (J := J) hsafe htop hb
    ⟨hfixed c, fun _ hf => nomatch hun.symm.trans hf⟩ hset hsteady (.inr hun)
    ⟨.refl _ _ _, ht.mono fun _ => False.elim, Nat.le_add_right _ _, nofun⟩ (fun past found k₁ g _ ⟨he, ht₁, hw, hfound⟩ => ?_)
    fun locks more past found link y k₁ k₂ hlink _ ⟨he, ht₁, hw, hfound⟩ hfits hh hp hfits' _ => ⟨trivial, ?_⟩).imp
      fun found k' ⟨hf, hsame, ⟨new, hlooked⟩, he, _, hw, hfound⟩ => ?_
  · obtain ⟨⟨x, hx⟩, hun₁⟩ := he.thawed c ⟨o, hb⟩ hun
    have ⟨he₁, hw₁⟩ : k₁.Eases tolls (c :: seen) (k₁.putField c g) ∧ _ := putField_eases hx List.mem_cons_self hun₁
    exact ⟨he.trans he₁, ht₁.of_differs (k₁.putField_differs c g) rfl ⟨_, putField_body hx⟩, hw₁.trans hw,
      fun t ht => he₁.thawed t (hfound t ht).1 (hfound t ht).2⟩
  · obtain ⟨he₁, hw₁⟩ := hp.eases hh hfits ht₁ fun d hd => hd ▸ he.thawed c ⟨o, hb⟩ hun
    refine ⟨he.trans he₁, (hp.tolled hh ht₁).1, ?_, fun t ht => ?_⟩
    · rw [List.map_append, List.sum_append, List.map_singleton, List.sum_singleton]
      omega
    · rcases List.mem_append.1 ht with ht | ht
      · exact he₁.thawed t (hfound t ht).1 (hfound t ht).2
      · have ht : y.target? = some t := Option.mem_toList.1 ht
        refine ⟨?_, hp.thawed hh hfits (fun p hp => hlabels p (hp ▸ hlink)) t ht⟩
        cases y with
        | owned q => exact Pointer.Fits.target hfits' t ht
        | _ => cases ht
  · have hlinks : (o.fields.filter fun f => k.finishes c f.name).flatMap (·.links) = o.links := by
      rw [List.filter_eq_self.2 fun f _ => hall f.name]
      rfl
    rw [hlinks] at hw
    have hcons : k.workload tolls (c :: seen) + o.cost tolls ≤ k.workload tolls seen :=
      workload_cons hb hlive.destroyed (not_mem_of_dropWhile htop)
    have hahead : ∀ {d}, d ∈ seen ∨ d ∈ stack → d ∈ c :: seen ∨ d ∈ found.reverse ++ rest := fun hd => by
      have hd := hd.elim .inl fun hd => mem_or_of_dropWhile hd htop
      simp only [List.mem_cons, List.mem_append] at hd ⊢
      tauto
    refine ⟨⟨hf, he.leafless hc.leafless, fun d hd => ?_, fun x hx y t hy hlead => ?_⟩, ?_⟩
    · have hold : d ∈ seen ∨ d ∈ stack → (k'.cell d).frozen = false := fun hd =>
        (he.thawed d (hc.paved d hd).1 (hc.thawed d hd)).2
      rcases hd with hd | hd
      · rcases List.mem_cons.1 hd with rfl | hd
        · exact hold (.inr hstack)
        · exact hold (.inl hd)
      · rcases List.mem_append.1 hd with hd | hd
        · exact (hfound d (List.mem_reverse.1 hd)).2
        · exact hold (.inr ((List.dropWhile_suffix _).subset (htop ▸ List.mem_cons_of_mem c hd)))
    · rcases List.mem_cons.1 hx with rfl | hx
      · rw [hlooked.body] at hy
        cases hy
        exact .inr (List.mem_append_left _ (List.mem_reverse.2 (hlooked.found_of_leadsTo hall hlead)))
      · rw [Cell.body_of_core (hsame x hx)] at hy
        exact hahead (hc.onward x hx y t hy hlead)
    · have : o.cost tolls = 1 + (o.links.map (Link.toll tolls)).sum := rfl
      omega

theorem Completing.workload_pos (hc : h.Completing rules frame seen stack k) (hsafe : Safe rules ⟨h, [], [], frame⟩)
    (htop : stack.dropWhile seen.contains = c :: rest) : 0 < k.workload tolls seen := by
  have hpaved := hc.paved c (.inr ((List.dropWhile_suffix _).subset (htop ▸ List.mem_cons_self)))
  obtain ⟨o, ho⟩ := hpaved.1
  have hvia : Via rules.sealed k frame c := hpaved.2.via
  have hcons : k.workload tolls (c :: seen) + o.cost tolls ≤ k.workload tolls seen :=
    workload_cons ho ((hsafe.steps hc.steps).1.live_of_reach hvia.reach).destroyed (not_mem_of_dropWhile htop)
  have : o.cost tolls = 1 + (o.links.map (Link.toll tolls)).sum := rfl
  omega

/-- Cells that lead to each other only, and that are all objects which are not frozen. -/
structure Complete (h : Heap) (W : CellId → Prop) : Prop where
  object : ∀ c, W c → h.IsObject c
  thawed : ∀ c, W c → (h.cell c).frozen = false
  onward : ∀ c o t, W c → (h.cell c).body = .object o → o.LeadsTo t → W t

end Heap

/-- The loop comes to an end, and then what was looked into is complete. `K` says what else holds in the course; it has to
tell that the links of an object that is looked into are labelled. -/
theorem finishLoop_completes {root : CellId} {n : Nat} {K : Nat → List CellId → List CellId → Heap → Prop}
    (hh : Holding (.sparing rules.sealed) rules [] frame h [])
    (hset : rules.Settled) (hsteady : ∀ c, ¬ rules.steady c) (hfixed : ∀ c, ¬ rules.fixed c) (hleaf : h.Leafless)
    (hroot : h.IsObject root ∧ h.Paved [] frame root) (hun : (h.cell root).frozen = false)
    (ht : h.Tolled tolls fun _ => False) (hn : h.workload tolls [] ≤ n) (hK : K n [] [root] h)
    (hlook : ∀ n seen stack rest k c o, h.Completing rules frame seen stack k → K (n + 1) seen stack k →
      stack.dropWhile seen.contains = c :: rest → (k.cell c).body = .object o → o.Labelled ∧
        ∀ found k', visitFields c (k.finishes c) Link.pull k = .ok (found, k') → K n (c :: seen) (found.reverse ++ rest) k') :
    Ends (fun _ => False) (finishLoop n [] [root] h) fun _ k => Steps rules ⟨h, [], [], frame⟩ ⟨k, [], [], frame⟩ ∧
      k.scopes = h.scopes ∧ k.Leafless ∧ (∃ W, k.Complete W ∧ W root) ∧ ∃ n' seen stack, K n' seen stack k := by
  let I : Nat → List CellId → List CellId → Heap → Prop := fun n' seen stack k => h.Completing rules frame seen stack k ∧
    k.workload tolls seen ≤ n' ∧ (root ∈ seen ∨ root ∈ stack) ∧ K n' seen stack k
  have hstart : h.Completing rules frame [] [root] h := by
    refine ⟨.start (fun d hd => absurd hd (hfixed d)) fun d hd => List.mem_singleton.1 hd ▸ hroot, hleaf, fun d hd => ?_, nofun⟩
    rw [List.mem_singleton.1 (hd.resolve_left List.not_mem_nil), hun]
  refine (finishLoop_induct (I := I) (fun seen stack k hI htop => ?_) (fun n' seen stack rest k c ⟨hc, hw, hr, hk⟩ htop => ?_)
    n [] [root] h ⟨hstart, hn, .inr List.mem_cons_self, hK⟩).imp fun _ k ⟨n', seen, stack, ⟨hc, _, hr, hk⟩, hdone⟩ => ?_
  · obtain ⟨hc, hw, -⟩ := hI
    obtain ⟨c, rest, htop⟩ := List.exists_cons_of_ne_nil htop
    exact Nat.not_lt_of_le hw (hc.workload_pos hh.safe htop)
  · obtain ⟨o, ho⟩ := (hc.paved c (.inr ((List.dropWhile_suffix _).subset (htop ▸ List.mem_cons_self)))).1
    obtain ⟨hlab, hnext⟩ := hlook n' seen stack rest k c o hc hk htop ho
    refine (hc.look hh.safe htop ho hfixed hset hsteady hlab (hc.tolled tolls ht)).imp
      fun found k' ⟨hc', hlt⟩ hvisit => ⟨hc', by omega, ?_, hnext found k' hvisit⟩
    have hr := hr.elim .inl fun hr => mem_or_of_dropWhile hr htop
    simp only [List.mem_cons, List.mem_append] at hr ⊢
    tauto
  · have hseen : ∀ {d}, d ∈ seen ∨ d ∈ stack → d ∈ seen := fun hd =>
      hd.elim id fun hd => (mem_or_of_dropWhile hd hdone).resolve_right List.not_mem_nil
    exact ⟨hc.steps, hc.scopes, hc.leafless, ⟨(· ∈ seen), ⟨fun c hm => (hc.paved c (.inl hm)).1, fun c hm => hc.thawed c (.inl hm),
      fun c o t hm ho hlead => hseen (hc.onward c hm o t ho hlead)⟩, hseen hr⟩, n', seen, stack, hk⟩

/-- Finishing a labelled pointer comes to an end, if it comes upon labelled pointers only, and then what the pointer leads to
is complete. `K` says what else holds in the course. -/
theorem Pointer.finish_completes {K : Pointer → Nat → List CellId → List CellId → Heap → Prop}
    (hh : Holding (.sparing rules.sealed) rules [] frame h p.tasks) (hp : p.Fits rules.sealed h)
    (hset : rules.Settled) (hsteady : ∀ c, ¬ rules.steady c) (hfixed : ∀ c, ¬ rules.fixed c) (hclosed : rules.closed = true)
    (hleaf : h.Leafless) (hl : p.Labelled)
    (hstart : ∀ q o k, p.pull h = .ok ((q, some o), k) → q.target = some o → q.Fits rules.sealed k → h.Grows k →
      Pulls frame h k p q → K q k.paths [] [o] k)
    (hlook : ∀ q k₀ n seen stack rest k c o, Safe rules ⟨k₀, [], [], tasks q ++ frame⟩ →
      k₀.Completing rules (tasks q ++ frame) seen stack k → K q (n + 1) seen stack k →
      stack.dropWhile seen.contains = c :: rest → (k.cell c).body = .object o → o.Labelled ∧
        ∀ found k', visitFields c (k.finishes c) Link.pull k = .ok (found, k') → K q n (c :: seen) (found.reverse ++ rest) k') :
    Ends (fun _ => False) (p.finish h) fun q k => Holding (.sparing rules.sealed) rules [] frame k q.tasks ∧
      q.Fits rules.sealed k ∧ h.Grows k ∧ k.scopes = h.scopes ∧ k.Leafless ∧ q.target.isSome = p.target.isSome ∧
      (∃ W, k.Complete W ∧ ∀ t, q.target = some t → W t) ∧
      ∀ t, q.target = some t → ∃ n seen stack, K q n seen stack k := by
  have hnone : rules.opened = fun _ => False := funext fun c => eq_false (hset c)
  have htiered : ∀ {k ins}, Holding (.sparing rules.sealed) rules [] frame k ins → k.Tiered fun _ => False := fun hk =>
    hnone ▸ hk.safe.abides.tiered hclosed
  have hanchor : rules.Anchors h frame := fun d hd => absurd hd (hfixed d)
  unfold finish
  refine .bind_run (pull_anchored hh .nil hp hset hsteady hanchor (.inr nofun)) ?_
  rintro ⟨q, found⟩ k hpull ⟨hpulls, htarget, hfits, hr⟩
  have htarget : found = q.target := htarget
  subst htarget
  have hh₁ := hh.run hr
  have hlink : Link.Pulls frame h k (.owned p) (.owned q) := hpulls
  obtain ⟨tolls₀, htolls₀, -⟩ := (htiered hh).tolled
  have heases : h.Eases tolls₀ [] k := (hlink.eases hh hp htolls₀ fun _ => False.elim).1
  have hsome : q.target.isSome = p.target.isSome := by cases hpulls <;> rfl
  cases ho : q.target with
  | none =>
    have hvoid : k.Complete fun _ => False := ⟨fun _ => False.elim, fun _ => False.elim, fun _ _ _ => False.elim⟩
    refine .pure ⟨hh₁, hfits, hr.keeps.grows, hr.keeps.scopes, heases.leafless hleaf, hsome,
      ⟨fun _ => False, hvoid, fun t ht => ?_⟩, fun t ht => ?_⟩ <;>
    · rw [ho] at ht
      cases ht
  | some o =>
    obtain ⟨tolls, htolls, hbound⟩ := (htiered hh₁).tolled
    have hheld : k.Held (q.tasks ++ frame) o := .inl (List.mem_append_left _ (by simp [Pointer.tasks, ho]))
    have hhold : Holding (.sparing rules.sealed) rules [] (q.tasks ++ frame) k [] := ⟨hh₁.safe, by simp⟩
    refine .get_bind (.bind (finishLoop_completes (K := K q) hhold hset hsteady hfixed (heases.leafless hleaf)
      ⟨hfits.target o ho, .held hheld⟩ (hpulls.thawed hh hp.label hl o ho) htolls (Heap.workload_le_paths hbound)
      (hstart q o k (by rw [hpull, ho]) ho hfits hr.keeps.grows hpulls) fun n seen stack rest k' c x hc =>
        hlook q k n seen stack rest k' c x hh₁.safe hc) ?_)
    rintro - k' ⟨hsteps, hscopes, hleaf', ⟨W, hW, hroot⟩, hk⟩
    have hsafe := hh₁.safe.steps hsteps
    refine .pure ⟨⟨hsafe.1, nofun⟩, hfits.grows hsafe.2, hr.keeps.grows.trans hsafe.2, hscopes.trans hr.keeps.scopes, hleaf',
      hsome, ⟨W, hW, fun t ht => ?_⟩, fun _ _ => hk⟩
    cases ho.symm.trans ht
    exact hroot

/-! ### Completing what is complete -/

theorem mapM_same {α β : Type} {f : α → HeapM β} {g : α → β} {xs : List α} (hf : ∀ a ∈ xs, f a h = .ok (g a, h)) :
    xs.mapM f h = .ok (xs.map g, h) := by
  induction xs with
  | nil => rfl
  | cons a xs ih =>
    rw [List.mapM_cons]
    show (f a h).bind _ = _
    rw [hf a List.mem_cons_self]
    show ((xs.mapM f) h).bind _ = _
    rw [ih fun b hb => hf b (.tail a hb)]
    rfl

theorem Link.pull_same {link : Link} (hl : ∀ t, link.target? = some t → (h.cell t).frozen = false) :
    link.pull h = .ok ((link, link.target?), h) := by
  cases link with
  | owned p =>
    obtain ⟨_ | t, l⟩ := p
    · rfl
    · have hf : (h.cell t).frozen = false := hl t rfl
      have hpull : (⟨some t, l⟩ : Pointer).pull h = .ok ((⟨some t, l⟩, some t), h) := by
        show (if !(h.cell t).frozen then _ else _ : HeapM _) h = _
        rw [hf]
        rfl
      show ((⟨some t, l⟩ : Pointer).pull h).bind _ = _
      rw [hpull]
      rfl
  | weak w => rfl
  | label l => rfl

theorem Heap.update_same {g : Cell → Cell} (hg : g (h.cell c) = h.cell c) : h.update c g = h := by
  have hcells : h.cells.modify c g = h.cells := by
    refine Array.ext_getElem? fun i => ?_
    rw [Array.getElem?_modify]
    split
    · next hci =>
      subst hci
      cases hi : h.cells[c]? with
      | none => rfl
      | some y =>
        rw [Heap.cell, hi, Option.getD_some] at hg
        rw [Option.map_some, hg]
    · rfl
  simp only [update, hcells]

theorem Heap.putField_same {f : Field} (hb : (h.cell c).body = .object o) (hn : (o.fields.map (·.name)).Nodup)
    (hf : o.field? f.name = some f) : h.putField c f = h := by
  refine update_same ?_
  simp only [Cell.mapObject, hb, Object.put_self hn hf]
  rw [← hb]

theorem visitField_same {f : Field} {name : FieldName} (hb : (h.cell c).body = .object o)
    (hn : (o.fields.map (·.name)).Nodup) (hf : o.field? name = some f) (hun : f.locked = false)
    (hl : ∀ link ∈ f.links, ∀ t, link.target? = some t → (h.cell t).frozen = false) :
    visitField c Link.pull name h = .ok (f.links.filterMap Link.target?, h) := by
  obtain rfl := Object.name_of_field? hf
  let f₁ : Field := { f with locked := true }
  let f₂ : Field := { f₁ with links := [] }
  have hb₁ := Heap.putField_body (f := f₁) hb
  have hn₁ : ((o.put f₁).fields.map (·.name)).Nodup := by rwa [Object.names_put]
  have hf₁ : (o.put f₁).field? f.name = some f₁ := Object.field?_put hf
  have hb₂ : ((h.putField c f₂).cell c).body = .object (o.put f₂) := Heap.putField_body hb
  have hn₂ : ((o.put f₂).fields.map (·.name)).Nodup := by rwa [Object.names_put]
  have hf₂ : (o.put f₂).field? f.name = some f₂ := Object.field?_put hf
  have hspec : Ends (fun _ => False) (visitField c Link.pull f.name h) fun found h' =>
      found = f.links.filterMap Link.target? ∧ h' = h := by
    unfold visitField
    refine .bind (lockField_spec hb hn hf fun hl => nomatch hun.symm.trans hl) fun links h₁ ⟨_, hlinks, hh₁⟩ => ?_
    subst hlinks hh₁
    refine .bind (setField_spec hb₁ hn₁ hf₁) fun _ h₂ hh₂ => ?_
    have hh₂ : h₂ = h.putField c f₂ := hh₂.trans (Heap.putField_putField h c f₁ f₂ rfl)
    subst hh₂
    have hmap : f.links.mapM Link.pull (h.putField c f₂) =
        .ok (f.links.map fun link => (link, link.target?), h.putField c f₂) :=
      mapM_same fun link hlink => Link.pull_same fun t ht => (Heap.putField_frozen hb t).trans (hl link hlink t ht)
    refine .bind (.of_ok (Q := fun ys h' => ys = f.links.map (fun link => (link, link.target?)) ∧ h' = h.putField c f₂) hmap
      ⟨rfl, rfl⟩) fun ys h₃ ⟨hys, hh₃⟩ => ?_
    subst hys hh₃
    have hlinks : (f.links.map fun link => (link, link.target?)).map (·.1) = f.links := by simp [Function.comp_def]
    rw [hlinks]
    refine .bind (setField_spec hb₂ hn₂ hf₂) fun _ h₄ hh₄ => ?_
    have hh₄ : h₄ = h.putField c f₁ := hh₄.trans (Heap.putField_putField h c f₂ f₁ rfl)
    subst hh₄
    refine .bind (Q := fun _ k => k = h) ?_ fun _ k hk => .pure ⟨by simp [List.filterMap_map], hk⟩
    have hfield : ({ f₁ with locked := false } : Field) = f := by rw [← hun]
    have hback : (h.putField c f₁).putField c { f₁ with locked := false } = h := by
      rw [hfield, Heap.putField_putField h c f₁ f rfl]
      exact Heap.putField_same hb hn hf
    exact (Heap.update_field_eq hb₁ hn₁ hf₁ rfl).trans hback
  obtain ⟨found, h', hrun, rfl, rfl⟩ := hspec.exists_ok
  exact hrun

theorem Heap.size_lt_paths (h : Heap) : h.size < h.paths := by
  rw [paths, Nat.one_shiftLeft]
  exact Nat.lt_of_lt_of_le Nat.lt_two_pow_self (Nat.pow_le_pow_right (by decide) (by omega))

namespace Heap.Complete

variable {W : CellId → Prop}

theorem look {wanted : FieldName → Bool} (hW : h.Complete W) (hh : Holding manner rules [] frame h ins) (hc : W c) :
    ∃ found, visitFields c wanted Link.pull h = .ok (found, h) ∧ ∀ t ∈ found, W t := by
  obtain ⟨o, ho⟩ := hW.object c hc
  have hfits := hh.safe.fits c
  rw [show (Moment.heap _).cell c = h.cell c from rfl, ho] at hfits
  let names := (o.fields.map fun f => f.name).filter wanted
  have hfield : ∀ name ∈ names, visitField c Link.pull name h = .ok ((o.linksAt name).filterMap Link.target?, h) := by
    intro name hname
    obtain ⟨f, hf⟩ := Object.field?_of_mem_names (List.mem_filter.1 hname).1
    rw [Object.linksAt_of_field? hf]
    have hfm := Object.mem_of_field? hf
    refine visitField_same ho hfits.1 hf (Bool.eq_false_iff.2 fun hl => ?_) fun link hlink t ht => hW.thawed t ?_
    · have hunlocked := hh.unlocked ho
      rw [Object.locked, List.any_eq_false] at hunlocked
      exact hunlocked f hfm hl
    · exact hW.onward c o t hc ho (Object.leadsTo_iff.2 ⟨link, List.mem_flatMap.2 ⟨f, hfm, hlink⟩, ht⟩)
  refine ⟨(names.map fun name => (o.linksAt name).filterMap Link.target?).flatten, ?_, fun t ht => ?_⟩
  · have hnames : (((h.cell c).object?.map fun o => o.fields.map fun f => f.name).getD []).filter wanted = names := by
      rw [Cell.object?, ho]
      rfl
    show ((((((h.cell c).object?.map fun o => o.fields.map fun f => f.name).getD []).filter wanted).mapM
      (visitField c Link.pull) h).bind _ : Except Fault _) = _
    rw [hnames, mapM_same hfield]
    rfl
  · obtain ⟨ts, hts, ht⟩ := List.mem_flatten.1 ht
    obtain ⟨name, hname, rfl⟩ := List.mem_map.1 hts
    obtain ⟨f, hf⟩ := Object.field?_of_mem_names (List.mem_filter.1 hname).1
    rw [Object.linksAt_of_field? hf] at ht
    obtain ⟨link, hlink, ht⟩ := List.mem_filterMap.1 ht
    exact hW.onward c o t hc ho (Object.leadsTo_iff.2 ⟨link, List.mem_flatMap.2 ⟨f, Object.mem_of_field? hf, hlink⟩, ht⟩)

theorem finishLoop_same (hW : h.Complete W) (hh : Holding manner rules [] frame h ins) {n : Nat} (hroot : ∀ d ∈ stack, W d)
    (hn : h.size ≤ n) : finishLoop n [] stack h = .ok (⟨⟩, h) := by
  let I : Nat → List CellId → List CellId → Heap → Prop := fun n' seen stack k => k = h ∧ seen.Nodup ∧
    (∀ d, d ∈ seen ∨ d ∈ stack → W d) ∧ h.size ≤ n' + seen.length
  have hlt : ∀ {seen : List CellId}, seen.Nodup → (∀ d ∈ seen, W d) → seen.length ≤ h.size := fun hnd hall => by
    have hsub := List.subperm_of_subset hnd fun d hd => List.mem_range.2 (hW.object d (hall d hd)).lt_size
    simpa using hsub.length_le
  have hend : Ends (fun _ => False) (finishLoop n [] stack h) fun _ k => ∃ n' seen' stack', I n' seen' stack' k ∧
      stack'.dropWhile seen'.contains = [] := by
    refine finishLoop_induct (I := I) (fun seen stack k hI htop => ?_) (fun n' seen stack rest k c hI htop => ?_) n [] stack h
      ⟨rfl, List.nodup_nil, fun d hd => hroot d (hd.resolve_left List.not_mem_nil), by simpa using hn⟩
    · obtain ⟨rfl, hnd, hall, hsize⟩ := hI
      obtain ⟨c, rest, htop⟩ := List.exists_cons_of_ne_nil htop
      have hc : W c := hall c (.inr ((List.dropWhile_suffix _).subset (htop ▸ List.mem_cons_self)))
      have := hlt (List.nodup_cons.2 ⟨not_mem_of_dropWhile htop, hnd⟩) fun d hd =>
        (List.mem_cons.1 hd).elim (fun hd => hd ▸ hc) fun hd => hall d (.inl hd)
      rw [List.length_cons] at this
      omega
    · obtain ⟨rfl, hnd, hall, hsize⟩ := hI
      have hc : W c := hall c (.inr ((List.dropWhile_suffix _).subset (htop ▸ List.mem_cons_self)))
      obtain ⟨found, hrun, hfound⟩ : ∃ found, visitFields c (k.finishes c) Link.pull k = .ok (found, k) ∧ ∀ t ∈ found, W t :=
        hW.look hh hc
      refine .of_ok hrun fun _ => ⟨rfl, List.nodup_cons.2 ⟨not_mem_of_dropWhile htop, hnd⟩, fun d hd => ?_, ?_⟩
      · rcases hd with hd | hd
        · exact (List.mem_cons.1 hd).elim (fun hd => hd ▸ hc) fun hd => hall d (.inl hd)
        · rcases List.mem_append.1 hd with hd | hd
          · exact hfound d (List.mem_reverse.1 hd)
          · exact hall d (.inr ((List.dropWhile_suffix _).subset (htop ▸ List.mem_cons_of_mem c hd)))
      · rw [List.length_cons]
        omega
  obtain ⟨_, k, hrun, _, _, _, ⟨rfl, -⟩, -⟩ := hend.exists_ok
  exact hrun

theorem finish_same (hW : h.Complete W) (hh : Holding manner rules [] frame h ins) (hq : ∀ t, q.target = some t → W t) :
    q.finish h = .ok (q, h) := by
  obtain ⟨_ | t, l⟩ := q
  · rfl
  · have ht : W t := hq t rfl
    have hpull : (⟨some t, l⟩ : Pointer).pull h = .ok ((⟨some t, l⟩, some t), h) := by
      show (if !(h.cell t).frozen then _ else _ : HeapM _) h = _
      rw [hW.thawed t ht]
      rfl
    show ((⟨some t, l⟩ : Pointer).pull h).bind _ = _
    rw [hpull]
    show (finishLoop h.paths [] [t] h).bind _ = _
    rw [hW.finishLoop_same hh (fun d hd => List.mem_singleton.1 hd ▸ ht) (Nat.le_of_lt h.size_lt_paths)]
    rfl

end Heap.Complete

end LazyHeap
