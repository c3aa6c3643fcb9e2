import LazyHeap.Proofs.Lasting
import LazyHeap.Proofs.Tolls

/-!
Completing the copies of a graph. Each object that the loop looks into has all its links resolved for change; what is
still to be looked into is reached through objects that were looked into before, so it stays where it is.
-/
namespace LazyHeap

variable {rules : Rules} {kept : CellId → Prop} {frame : List Task} {h k k' : Heap} {c d : CellId} {o : Object}
variable {seen stack rest : List CellId} {E : Fault → Prop}

/-! ### What is still to be looked into -/

/-- What is reached from what is held through objects that were looked into. -/
inductive Heap.Paved (h : Heap) (seen : List CellId) (frame : List Task) : CellId → Prop where
  | held {d : CellId} : h.Held frame d → Paved h seen frame d
  | edge {x d : CellId} : Paved h seen frame x → x ∈ seen → h.IsObject x → d ∈ (h.cell x).edges → Paved h seen frame d

namespace Heap.Paved

theorem via (hp : h.Paved seen frame d) : Heap.Via kept h frame d := by
  induction hp with
  | held hd => exact .held hd
  | edge _ _ hx hd ih => exact .edge ih (.inl hx) hd

theorem mono (hp : h.Paved seen frame d) (c : CellId) : h.Paved (c :: seen) frame d := by
  induction hp with
  | held hd => exact .held hd
  | edge _ hs hx hd ih => exact .edge ih (.tail _ hs) hx hd

theorem without (hp : h.Paved seen frame d) (hc : c ∉ seen) : Heap.Via kept (h.without c) frame d := by
  induction hp with
  | held hd => exact .held hd
  | @edge x d _ hs hx hd ih =>
    have hne : x ≠ c := fun he => hc (he ▸ hs)
    refine .edge ih (.inl ?_) (by rwa [cell_without_ne h hne])
    rw [IsObject, cell_without_ne h hne]
    exact hx

theorem keep (hp : h.Paved seen frame d) (hc : c ∉ seen) (hk : (h.without c).Spares kept frame (k.without c)) :
    k.Paved seen frame d := by
  induction hp with
  | held hd => exact .held (hd.imp_right fun hm => by rwa [standing, show k.scopes = h.scopes from hk.scopes])
  | @edge x d hp hs hx hd ih =>
    have hne : x ≠ c := fun he => hc (he ▸ hs)
    have hx' : (h.without c).IsObject x := by rwa [IsObject, cell_without_ne h hne]
    have hcore := hk.cell x (hp.without hc) (.inl hx')
    rw [cell_without_ne h hne, cell_without_ne k hne] at hcore
    obtain ⟨o, ho⟩ := hx
    refine .edge ih hs ⟨o, (Cell.body_of_core hcore).trans ho⟩ ?_
    rwa [show (k.cell x).edges = (h.cell x).edges from (congrArg Cell.edges hcore :)]

end Heap.Paved

/-! ### Resolving what a field holds -/

theorem Rules.Anchors.run {locks : List Lock} {ins outs hold : List Task} (ha : rules.Anchors h hold)
    (hh : Holding (.sparing kept) rules locks frame h ins) (hr : Run (.sparing kept) rules locks frame h ins k outs)
    (hsub : ∀ t ∈ hold, t ∈ frame) : rules.Anchors k hold := fun d hd =>
  (ha d hd).course (Course.of_steps hr.steps) hh.safe.toFirm
    fun t ht => List.mem_append_right _ (hsub t ht)

/-- Resolving a pointer for change, when all that is left alone is anchored. -/
theorem Pointer.pull_anchored {p : Pointer} {locks : List Lock}
    (hh : Holding (.sparing rules.sealed) rules locks frame h p.tasks) (hmemo : FieldLocks locks)
    (hp : p.Fits rules.sealed h) (hset : rules.Settled) (hsteady : ∀ c, ¬ rules.steady c) (hanchor : rules.Anchors h frame)
    (hwait : h.Unwaiting E locks) :
    Ends E (p.pull h) fun q h' => Pulls frame h h' p q.1 ∧ q.2 = q.1.target ∧ q.1.Fits rules.sealed h' ∧
      Run (.sparing rules.sealed) rules locks frame h p.tasks h' q.1.tasks :=
  pull_spec hh hmemo hp hset hwait (fun c hc => ⟨hc.unsealed hh hp.label, hsteady c⟩) fun _ r _ _ hr =>
    hr.elim (fun hr => (hanchor r hr).via) fun hr => absurd hr (hsteady r)

/-- What resolving for change makes of a link. -/
def Link.Pulls (hold : List Task) (h h' : Heap) : Link → Link → Prop
  | .owned p, .owned q => Pointer.Pulls hold h h' p q
  | link, link' => link' = link ∧ h' = h

theorem Link.pull_spec {link : Link} {locks : List Lock}
    (hh : Holding (.sparing rules.sealed) rules locks frame h link.tasks) (hmemo : FieldLocks locks)
    (hl : link.Fits rules.sealed h) (hset : rules.Settled) (hsteady : ∀ c, ¬ rules.steady c) (hanchor : rules.Anchors h frame)
    (hwait : h.Unwaiting E locks) :
    Ends E (link.pull h) fun y h' => link.Pulls frame h h' y.1 ∧ y.2 = y.1.target? ∧ y.1.Fits rules.sealed h' ∧
      Run (.sparing rules.sealed) rules locks frame h link.tasks h' y.1.tasks := by
  cases link with
  | owned p =>
    exact .bind (Pointer.pull_anchored hh hmemo hl hset hsteady hanchor hwait) fun q h' hq => hq
  | weak w => exact ⟨⟨rfl, rfl⟩, rfl, hl, .refl _ _ _ _⟩
  | label l => exact ⟨⟨rfl, rfl⟩, rfl, hl, .refl _ _ _ _⟩

theorem Holding.leads_live {manner : Manner} {locks : List Lock} {l : Handle} {ins : List Task}
    (hh : Holding manner rules locks frame h ins) (hl : l.Leads h (.counted c)) (hsub : ∀ t ∈ l.tasks, t ∈ ins ++ frame) :
    h.Live c :=
  hh.safe.live_of_reach <| hl.reach (fun _ hd => .source <| (Handle.held_of_cell? hd : h.Held (l.tasks ++ []) _).imp_left
    fun hm => hsub _ (by simpa using hm)) c rfl

/-- Resolving a link for change leaves the tolls sufficient, and does not raise its own. -/
theorem Link.Pulls.tolled {tolls : CellId → Nat} {out : CellId → Prop} {manner : Manner} {locks : List Lock} {link link' : Link}
    (hp : link.Pulls frame h k link') (hh : Holding manner rules locks frame h link.tasks) (ht : h.Tolled tolls out) :
    k.Tolled tolls out ∧ link'.toll tolls ≤ link.toll tolls := by
  cases link with
  | owned p =>
    cases link' with
    | owned q =>
      refine ht.pulls hp fun c hc => (hh.leads_live hc fun t hm => ?_).destroyed
      exact List.mem_append_left _ (List.mem_append_right _ hm)
    | _ => cases hp.1
  | weak w => exact ⟨hp.2 ▸ ht, Nat.le_of_eq (congrArg (Link.toll tolls) hp.1)⟩
  | label l => exact ⟨hp.2 ▸ ht, Nat.le_of_eq (congrArg (Link.toll tolls) hp.1)⟩

theorem Object.cost_relink_le {tolls : CellId → Nat} {names : List FieldName} {new : Visited}
    (hnew : ∀ f ∈ o.fields, f.name ∈ names → List.Forall₂ (fun link y => y.1.toll tolls ≤ link.toll tolls) f.links (new f.name)) :
    (o.relink names new).cost tolls ≤ o.cost tolls := by
  refine Nat.add_le_add_left ?_ 1
  simp only [links, relink]
  generalize o.fields = fields at hnew
  induction fields with
  | nil => exact Nat.le_refl _
  | cons f fields ih =>
    simp only [List.map_cons, List.flatMap_cons, List.map_append, List.sum_append]
    refine Nat.add_le_add ?_ (ih fun g hg => hnew g (.tail _ hg))
    split
    · next hm =>
      have hall := hnew f List.mem_cons_self hm
      generalize f.links = links, new f.name = ys at hall
      induction hall with
      | nil => exact Nat.le_refl _
      | cons hle _ ih =>
        simp only [List.map_cons, List.sum_cons]
        exact Nat.add_le_add hle ih
    · exact Nat.le_refl _

/-! ### The loop -/

def Heap.finishes (h : Heap) (c : CellId) : FieldName → Bool :=
  ((h.cell c).object?.map fun o => o.kind.finishes).getD fun _ => true

abbrev Heap.followed (h : Heap) (c : CellId) (o : Object) : List FieldName :=
  (o.fields.map fun f => f.name).filter (h.finishes c)

/-- The objects that a loop comes to look into, each in the heap in which it does. -/
inductive Heap.Looks : Nat → List CellId → List CellId → Heap → CellId → Heap → Prop where
  | here {n : Nat} {seen stack rest : List CellId} {h : Heap} {c : CellId} :
    stack.dropWhile seen.contains = c :: rest → Looks (n + 1) seen stack h c h
  | later {n : Nat} {seen stack rest found : List CellId} {h k k' : Heap} {c d : CellId} :
    stack.dropWhile seen.contains = c :: rest → visitFields c (h.finishes c) Link.pull h = .ok (found, k) →
    Looks n (c :: seen) (found.reverse ++ rest) k d k' → Looks (n + 1) seen stack h d k'

/-- Goes along with the loop to see whether something holds of whatever it comes to look into. -/
def Heap.allLooks (P : CellId → Heap → Bool) : Nat → List CellId → List CellId → Heap → Bool
  | 0, _, _, _ => true
  | n + 1, seen, stack, h =>
    match stack.dropWhile seen.contains with
    | [] => true
    | c :: rest =>
      match visitFields c (h.finishes c) Link.pull h with
      | .ok (found, k) => P c h && allLooks P n (c :: seen) (found.reverse ++ rest) k
      | .error _ => P c h

theorem Heap.allLooks_iff {P : CellId → Heap → Bool} {n : Nat} :
    h.allLooks P n seen stack = true ↔ ∀ d k, Looks n seen stack h d k → P d k = true := by
  fun_induction allLooks P n seen stack h with
  | case1 => exact iff_of_true rfl fun _ _ hl => nomatch hl
  | case2 n seen stack h htop =>
    refine ⟨fun _ d k hl => ?_, fun _ => rfl⟩
    cases hl with
    | here h' | later h' _ _ => cases htop.symm.trans h'
  | case3 n seen stack h c rest htop found k hrun ih =>
    rw [Bool.and_eq_true, ih]
    refine ⟨fun ⟨hc, hk⟩ d k' hl => ?_, fun hl => ⟨hl c h (.here htop), fun d k' hk => hl d k' (.later htop hrun hk)⟩⟩
    cases hl with
    | here h' =>
      cases htop.symm.trans h'
      exact hc
    | later h' hrun' hl =>
      cases htop.symm.trans h'
      cases hrun.symm.trans hrun'
      exact hk d k' hl
  | case4 n seen stack h c rest htop e hrun =>
    refine ⟨fun hc d k' hl => ?_, fun hl => hl c h (.here htop)⟩
    cases hl with
    | here h' =>
      cases htop.symm.trans h'
      exact hc
    | later h' hrun' _ =>
      cases htop.symm.trans h'
      cases hrun.symm.trans hrun'

instance {P : CellId → Heap → Prop} [∀ d k, Decidable (P d k)] (n : Nat) (seen stack : List CellId) (h : Heap) :
    Decidable (∀ d k, Heap.Looks n seen stack h d k → P d k) :=
  decidable_of_iff (Heap.allLooks (fun d k => decide (P d k)) n seen stack h = true) (by simp [Heap.allLooks_iff])

theorem not_mem_of_dropWhile (htop : stack.dropWhile seen.contains = c :: rest) : c ∉ seen := by
  have := List.head?_dropWhile_not seen.contains stack
  rw [htop] at this
  simpa using this

/-- The loop ends once nothing is left to be looked into, and keeps what each look keeps. -/
theorem finishLoop_induct {I : Nat → List CellId → List CellId → Heap → Prop}
    (hend : ∀ seen stack h, I 0 seen stack h → stack.dropWhile seen.contains ≠ [] → E .endless)
    (hlook : ∀ n seen stack rest h c, I (n + 1) seen stack h → stack.dropWhile seen.contains = c :: rest →
      Ends E (visitFields c (h.finishes c) Link.pull h) fun found k =>
        visitFields c (h.finishes c) Link.pull h = .ok (found, k) → I n (c :: seen) (found.reverse ++ rest) k) :
    ∀ n seen stack h, I n seen stack h → Ends E (finishLoop n seen stack h) fun _ k =>
      ∃ n' seen' stack', I n' seen' stack' k ∧ stack'.dropWhile seen'.contains = []
  | 0, seen, stack, h, hI => by
    simp only [finishLoop]
    split
    · next hne => exact .throw (hend seen stack h hI hne)
    · next hne => exact ⟨0, seen, stack, hI, not_not.1 hne⟩
  | n + 1, seen, stack, h, hI => by
    simp only [finishLoop]
    cases htop : stack.dropWhile seen.contains with
    | nil => exact ⟨n + 1, seen, stack, hI, htop⟩
    | cons c rest =>
      refine .readCell_bind ?_
      have hwanted : ((h.cell c).object?.map fun o => o.kind.finishes).getD (fun _ => true) = h.finishes c := rfl
      rw [hwanted]
      exact .bind_run (hlook n seen stack rest h c hI htop) fun found k hvisit hk =>
        finishLoop_induct hend hlook n (c :: seen) (found.reverse ++ rest) k (hk hvisit)

/-- How far the loop has come from a heap. -/
structure Heap.Finishing (rules : Rules) (frame : List Task) (h : Heap) (seen stack : List CellId) (k : Heap) : Prop where
  steps : Steps rules ⟨h, [], [], frame⟩ ⟨k, [], [], frame⟩
  lends : h.Lends frame k
  scopes : k.scopes = h.scopes
  anchors : rules.Anchors k frame
  paved : ∀ d, d ∈ seen ∨ d ∈ stack → k.IsObject d ∧ k.Paved seen frame d
  tolled : ∀ tolls, h.Tolled tolls (fun _ => False) → k.Tolled tolls fun _ => False

theorem Heap.Finishing.start (hanchor : rules.Anchors h frame) (hstack : ∀ d ∈ stack, h.IsObject d ∧ h.Paved [] frame d) :
    h.Finishing rules frame [] stack h :=
  ⟨.refl, .refl frame h, rfl, hanchor, fun d hd => hstack d (hd.resolve_left List.not_mem_nil), fun _ => id⟩

/-- What looking into an object makes of its links. -/
structure Heap.Looked (h : Heap) (c : CellId) (o : Object) (R : Link → Link → Prop) (found : List CellId) (k : Heap)
    (new : Visited) : Prop where
  found : found = (h.followed c o).flatMap (fun n => (new n).filterMap (·.2))
  links : ∀ f ∈ o.fields, h.finishes c f.name = true →
    List.Forall₂ (fun link y => y.2 = y.1.target? ∧ R link y.1) f.links (new f.name)
  core : (k.cell c).core =
    { h.cell c with body := .object (o.relink (h.followed c o) new) }.core

namespace Heap.Looked

variable {R : Link → Link → Prop} {found : List CellId} {new : Visited}

theorem body (hl : h.Looked c o R found k new) :
    (k.cell c).body = .object (o.relink (h.followed c o) new) :=
  (congrArg Cell.body hl.core :)

theorem leadsTo (hl : h.Looked c o R found k new) (hd : d ∈ found) :
    (o.relink (h.followed c o) new).LeadsTo d := by
  rw [hl.found] at hd
  obtain ⟨name, hname, hd⟩ := List.mem_flatMap.1 hd
  obtain ⟨y, hy, hyd⟩ := List.mem_filterMap.1 hd
  obtain ⟨hmem, hwanted⟩ := List.mem_filter.1 hname
  obtain ⟨f, hf, rfl⟩ := List.mem_map.1 hmem
  have hR : y.2 = y.1.target? := forall₂_right ((hl.links f hf hwanted).imp fun _ _ => And.left) y hy
  refine Object.leadsTo_iff.2 ⟨y.1, List.mem_flatMap.2 ⟨_, List.mem_map_of_mem hf, ?_⟩, hR.symm.trans hyd⟩
  rw [if_pos hname]
  exact List.mem_map_of_mem hy

theorem mono {R' : Link → Link → Prop} (hl : h.Looked c o R found k new) (hR : ∀ a b, R a b → R' a b) :
    h.Looked c o R' found k new :=
  { hl with links := fun f hf hw => (hl.links f hf hw).imp fun _ _ hab => ⟨hab.1, hR _ _ hab.2⟩ }

end Heap.Looked

theorem Holding.unlocked {manner : Manner} {ins : List Task} (hh : Holding manner rules [] frame h ins)
    (hb : (h.cell c).body = .object o) : o.locked = false := by
  rw [← Bool.not_eq_true]
  intro hl
  obtain ⟨f, hf, hl⟩ := List.any_eq_true.1 hl
  have hkey : some f.name ∈ ((Moment.heap ⟨h, [], [], ins ++ frame⟩).cell c).body.locks := by
    show some f.name ∈ (h.cell c).body.locks
    rw [hb]
    exact List.mem_map.2 ⟨f, List.mem_filter.2 ⟨hf, hl⟩, rfl⟩
  exact absurd ((hh.safe.locks c _).1 hkey) List.not_mem_nil

/-- Looking into an object resolves its links for change and comes upon what they lead to. `R` says what becomes of a link,
and `J` what holds meanwhile, given the links that were resolved and what was found so far. -/
theorem Heap.Finishing.look {R : Link → Link → Prop} {J : List Link → List CellId → Heap → Prop}
    (hf : h.Finishing rules frame seen stack k) (hsafe : Safe rules ⟨h, [], [], frame⟩)
    (htop : stack.dropWhile seen.contains = c :: rest) (hb : (k.cell c).body = .object o) (hopen : k.Editable rules c)
    (hset : rules.Settled) (hsteady : ∀ c, ¬ rules.steady c) (hwait : E .selfWait ∨ (k.cell c).frozen = false)
    (hJ : J [] [] k) (hput : ∀ past found k' g, k'.IsObject c → J past found k' → J past found (k'.putField c g))
    (hpull : ∀ locks rest past found link y k₁ k₂, link ∈ o.links →
      past ++ [link] <+: (o.fields.filter fun f => k.finishes c f.name).flatMap (·.links) → J past found k₁ →
      link.Fits rules.sealed k₁ → Holding (.sparing rules.sealed) rules locks (rest ++ frame) k₁ link.tasks →
      link.Pulls (rest ++ frame) k₁ k₂ y → y.Fits rules.sealed k₂ →
      Run (.sparing rules.sealed) rules locks (rest ++ frame) k₁ link.tasks k₂ y.tasks →
      R link y ∧ J (past ++ [link]) (found ++ y.target?.toList) k₂) :
    Ends E (visitFields c (k.finishes c) Link.pull k) fun found k' =>
      h.Finishing rules frame (c :: seen) (found.reverse ++ rest) k' ∧ (∀ x ∈ seen, (k'.cell x).core = (k.cell x).core) ∧
        (∃ new, k.Looked c o R found k' new) ∧ J ((o.fields.filter fun f => k.finishes c f.name).flatMap (·.links)) found k' := by
  have hc : c ∉ seen := not_mem_of_dropWhile htop
  have hsub : ∀ d ∈ c :: rest, d ∈ stack := fun d hd => (List.dropWhile_suffix _).subset (htop ▸ hd)
  have hpaved := (hf.paved c (.inr (hsub c List.mem_cons_self))).2
  have hh : Holding (.sparing rules.sealed) rules [] frame k [] := ⟨(hsafe.steps hf.steps).1, nofun⟩
  -- the tolls go through the visit with the object itself as an exception
  let I : List Link → List CellId → Heap → Prop := fun past found k' => k'.IsObject c ∧ rules.Anchors k' frame ∧
    (E .selfWait ∨ (k'.cell c).frozen = false) ∧ (∀ tolls, k.Tolled tolls (· = c) → k'.Tolled tolls (· = c)) ∧ J past found k'
  refine (visitLinks_spec (R := fun link y => y.2 = y.1.target? ∧ R link y.1 ∧
      ∀ tolls, k.Tolled tolls (· = c) → y.1.toll tolls ≤ link.toll tolls)
    (I := I) hh hb hpaved.via hopen nofun (fun hl => ?_) ⟨⟨o, hb⟩, hf.anchors, hwait, fun _ => id, hJ⟩
    (fun past found k' g ⟨⟨x, hx⟩, ha, hw, ht, hj⟩ => ?_)
    fun f link rest past found k₁ hfm _ hlink hprefix ⟨⟨x, hx⟩, ha, hw, ht, hj⟩ hfits _ hh₁ => ?_).imp
      fun found k' ⟨new, hfound, hnew, hcore, ⟨_, ha, _, ht, hj⟩, hg, hsteps, hkeeps⟩ => ?_
  · rw [hh.unlocked hb] at hl
    cases hl
  · refine ⟨⟨_, Heap.putField_body hx⟩, fun d hd => (ha d hd).of_differs (k'.putField_differs c g) ⟨x, hx⟩ hopen.1,
      hw.imp_right fun hw => (Heap.putField_frozen hx c).trans hw, fun tolls hk => ?_, hput _ _ _ _ ⟨x, hx⟩ hj⟩
    exact (ht tolls hk).of_differs (k'.putField_differs c g) rfl ⟨_, Heap.putField_body hx⟩
  · have hsub : ∀ t ∈ frame, t ∈ rest ++ frame := fun t ht => List.mem_append_right _ ht
    have hlocks : FieldLocks [(c, some f.name)] := FieldLocks.nil.cons c f.name
    have hwait₁ : k₁.Unwaiting E [(c, some f.name)] := hw.imp_right fun hw y hy => by
      rw [List.mem_singleton.1 hy]
      exact hw
    refine (Link.pull_spec hh₁ hlocks hfits hset hsteady (fun d hd => (ha d hd).subset hsub) hwait₁).imp
      fun y k₂ ⟨hp, htarget, hfits', hr⟩ => ?_
    obtain ⟨hR, hj'⟩ :=
      hpull _ _ past found link y.1 k₁ k₂ (List.mem_flatMap.2 ⟨f, hfm, hlink⟩) hprefix hj hfits hh₁ hp hfits' hr
    have hw₂ : E .selfWait ∨ (k₂.cell c).frozen = false :=
      (hwait₁.run hh₁ hlocks hr.keeps).imp_right fun hw => hw _ List.mem_cons_self
    exact ⟨hr, hfits', ⟨htarget, hR, fun tolls hk => (hp.tolled hh₁ (ht tolls hk)).2⟩, hr.keeps.grows.object c ⟨x, hx⟩,
      ha.run hh₁ hr hsub, hw₂, fun tolls hk => (hp.tolled hh₁ (ht tolls hk)).1, htarget ▸ hj'⟩
  · have hlooked : k.Looked c o (fun link y => R link y ∧ ∀ tolls, k.Tolled tolls (· = c) → y.toll tolls ≤ link.toll tolls)
        found k' new := ⟨hfound, fun f hf hw => (hnew f hf hw).2, hcore⟩
    have hlends : k.Lends frame k' := .of_without hg hkeeps
    have hpaved' := (hpaved.keep hc hkeeps).mono c
    refine ⟨⟨hf.steps.trans hsteps, hf.lends.trans hlends, (show k'.scopes = k.scopes from hkeeps.scopes).trans hf.scopes,
      ha, fun d hd => ?_, fun tolls hk => ?_⟩, fun x hx => ?_, ⟨new, hlooked.mono fun _ _ => And.left⟩, hj⟩
    · have hold : d ∈ seen ∨ d ∈ stack → k'.IsObject d ∧ k'.Paved (c :: seen) frame d := fun hd =>
        ⟨hg.object d (hf.paved d hd).1, ((hf.paved d hd).2.keep hc hkeeps).mono c⟩
      rcases hd with hd | hd
      · rcases List.mem_cons.1 hd with rfl | hd
        · exact hold (.inr (hsub d List.mem_cons_self))
        · exact hold (.inl hd)
      · rcases List.mem_append.1 hd with hd | hd
        · have hlead := hlooked.leadsTo (List.mem_reverse.1 hd)
          have hedge := Heap.mem_edges_of_leadsTo hlooked.body hlead
          obtain ⟨p, hp, ht⟩ := hlead
          have hfits := (hh.safe.steps hsteps).1.fits c
          rw [show (Moment.heap _).cell c = k'.cell c from rfl, hlooked.body] at hfits
          exact ⟨(hfits.2 _ hp).target d ht, .edge hpaved' List.mem_cons_self (hg.object c ⟨o, hb⟩) hedge⟩
        · exact hold (.inr (hsub d (.tail _ hd)))
    · -- the object itself costs no more than before
      have hk := hf.tolled tolls hk
      refine hk.restore (ht tolls (hk.mono fun _ => False.elim)) hb hlooked.core (Object.cost_relink_le fun f hf hw => ?_)
      exact (hlooked.links f hf (List.mem_filter.1 hw).2).imp fun _ _ hab => hab.2.2 tolls (hk.mono fun _ => False.elim)
    · have hxc : x ≠ c := fun he => hc (he ▸ hx)
      obtain ⟨hobj, hp⟩ := hf.paved x (.inl hx)
      have hobj' : (k.without c).IsObject x := by rwa [IsObject, cell_without_ne k hxc]
      have := hkeeps.cell x (hp.without hc) (.inl hobj')
      rwa [cell_without_ne k hxc, cell_without_ne k' hxc] at this

/-- The loop resolves all that it comes upon, or works for ever. -/
theorem finishLoop_spec (hh : Holding (.sparing rules.sealed) rules [] frame h []) (hset : rules.Settled)
    (hsteady : ∀ c, ¬ rules.steady c) (hanchor : rules.Anchors h frame) (hwait : E .selfWait) (hend : E .endless) {n : Nat}
    (hstack : ∀ d ∈ stack, h.IsObject d ∧ h.Paved [] frame d)
    (hlook : ∀ d k, Heap.Looks n [] stack h d k → Steps rules ⟨h, [], [], frame⟩ ⟨k, [], [], frame⟩ → k.Editable rules d) :
    Ends E (finishLoop n [] stack h) fun _ k => ∃ seen stack, h.Finishing rules frame seen stack k := by
  refine (finishLoop_induct (I := fun n' seen stack' k => h.Finishing rules frame seen stack' k ∧
    ∀ d k', Heap.Looks n' seen stack' k d k' → Heap.Looks n [] stack h d k') (fun _ _ _ _ _ => hend)
    (fun n' seen stack' rest k c ⟨hf, hall⟩ htop => ?_) n [] stack h ⟨.start hanchor hstack, fun _ _ => id⟩).imp
      fun _ k ⟨_, seen, stack, ⟨hf, _⟩, _⟩ => ⟨seen, stack, hf⟩
  obtain ⟨o, ho⟩ := (hf.paved c (.inr ((List.dropWhile_suffix _).subset (htop ▸ List.mem_cons_self)))).1
  refine (hf.look (R := fun _ _ => True) (J := fun _ _ _ => True) hh.safe htop ho (hlook c k (hall c k (.here htop)) hf.steps)
    hset hsteady (.inl hwait) trivial (fun _ _ _ _ _ _ => trivial) fun _ _ _ _ _ _ _ _ _ _ _ _ _ _ _ _ => ⟨trivial, trivial⟩).imp
      fun found k' ⟨hf', _⟩ hvisit => ⟨hf', fun d k'' hd => hall d k'' (.later htop hvisit hd)⟩

/-- The objects that finishing a pointer comes to look into, each in the heap in which it does. -/
def Pointer.Finishes (p : Pointer) (h : Heap) (c : CellId) (k : Heap) : Prop :=
  ∃ q o h', p.pull h = .ok ((q, some o), h') ∧ Heap.Looks h'.paths [] [o] h' c k

instance {P : CellId → Heap → Prop} [∀ c k, Decidable (P c k)] (p : Pointer) (h : Heap) :
    Decidable (∀ c k, p.Finishes h c k → P c k) :=
  decidable_of_iff ((match p.pull h with
      | .ok ((_, some o), h') => decide (∀ c k, Heap.Looks h'.paths [] [o] h' c k → P c k)
      | .ok ((_, none), _) | .error _ => true) = true) <| by
    unfold Pointer.Finishes
    split
    · next q o h' hrun =>
      rw [decide_eq_true_eq, hrun]
      exact ⟨fun hl c k ⟨_, _, _, he, hf⟩ => by cases he; exact hl c k hf, fun hl c k hf => hl c k ⟨_, _, _, rfl, hf⟩⟩
    · next hrun => exact iff_of_true rfl fun c k ⟨q, o, h', he, _⟩ => nomatch hrun.symm.trans he
    · next hrun => exact iff_of_true rfl fun c k ⟨q, o, h', he, _⟩ => nomatch hrun.symm.trans he

/-- Finishing resolves everything, or waits or works for ever. -/
theorem Pointer.finish_spec {p : Pointer} (hh : Holding (.sparing rules.sealed) rules [] frame h p.tasks)
    (hp : p.Fits rules.sealed h) (hset : rules.Settled) (hsteady : ∀ c, ¬ rules.steady c)
    (hanchor : rules.Anchors h frame) (hwait : E .selfWait) (hend : E .endless)
    (hlook : ∀ c k q, p.Finishes h c k →
      Steps rules ⟨h, [], [], p.tasks ++ frame⟩ ⟨k, [], [], tasks q ++ frame⟩ → k.Editable rules c) :
    Ends E (p.finish h) fun q h' => q.Fits rules.sealed h' ∧ h'.scopes = h.scopes ∧
      Passage rules [] frame h p.tasks h' q.tasks ∧
      ∀ tolls, h.Tolled tolls (fun _ => False) → h'.Tolled tolls fun _ => False := by
  unfold finish
  refine .bind_run (pull_anchored hh .nil hp hset hsteady hanchor (.inl hwait)) ?_
  rintro ⟨q, found⟩ k hpull ⟨hpulls, htarget, hfits, hr⟩
  have htarget : found = q.target := htarget
  subst htarget
  have hh₁ := hh.run hr
  have ha₁ := hanchor.run hh hr fun _ => id
  have htolled : ∀ tolls, h.Tolled tolls (fun _ => False) → k.Tolled tolls fun _ => False := fun tolls ht =>
    ((show Link.Pulls _ _ _ (.owned p) (.owned q) from hpulls).tolled hh ht).1
  cases ho : q.target with
  | none => exact ⟨hfits, hr.keeps.scopes, .of_run hr hh.safe, htolled⟩
  | some o =>
    have hheld : k.Held (q.tasks ++ frame) o := .inl (List.mem_append_left _ (by simp [Pointer.tasks, ho]))
    refine .get_bind ?_
    have hhold : Holding (.sparing rules.sealed) rules [] (q.tasks ++ frame) k [] := ⟨hh₁.safe, by simp⟩
    refine .bind (finishLoop_spec hhold hset hsteady (fun d hd => (ha₁ d hd).subset fun t ht => List.mem_append_right _ ht)
      hwait hend (fun d hd => ?_) fun d k' hd hrun => ?_) ?_
    · rw [List.mem_singleton.1 hd]
      exact ⟨hfits.target o ho, .held hheld⟩
    · exact hlook d k' q ⟨q, o, k, by rw [hpull, ho], hd⟩ (hr.steps.trans hrun)
    · rintro - k' ⟨seen, stack, hf⟩
      refine ⟨hfits.grows hf.lends.grows, hf.scopes.trans hr.keeps.scopes, (Passage.of_run hr hh.safe).trans ?_,
        fun tolls ht => hf.tolled tolls (htolled tolls ht)⟩
      exact ⟨Course.of_steps hf.steps, (hh₁.safe.steps hf.steps).1, hf.lends.subset fun _ => List.mem_append_right _⟩

end LazyHeap
