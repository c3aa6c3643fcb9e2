import LazyHeap.Proofs.Session.Replicas
import LazyHeap.Particles

/-!
Chronicles. A state of a particle has a past: its value, and the past of the state before it. A copy has the past of its source,
so a chronicle, which gives each cell its past, stays true while pointers are resolved, for reading or for change, and goes on
with the new cells.
-/
namespace LazyHeap

variable {manner : Manner} {rules : Rules} {locks : List Lock} {frame hold ins : List Task} {h h' k : Heap}
variable {c d o r : CellId} {b b' x : Object} {l l' : Handle} {p q : Pointer} {link link' : Link} {S : CellId → Prop}
variable {sealed : CellId → Prop} {annals annals' : CellId → List Int} {ready : Bool} {out : CellId → Prop}
variable {vs : List Int} {m : Memo}

/-! ### Pasts -/

/-- The past of what a pointer leads to. There is none if it leads nowhere. -/
def Pointer.past (annals : CellId → List Int) (p : Pointer) : List Int := (p.target.map annals).getD []

theorem Pointer.past_congr {p : Pointer} (hp : ∀ t, p.target = some t → annals' t = annals t) :
    p.past annals' = p.past annals := by
  obtain ⟨_ | t, l⟩ := p
  · rfl
  · exact hp t rfl

theorem Pointer.exists_target {p : Pointer} (hp : p.past annals ≠ []) : ∃ t, p.target = some t := by
  obtain ⟨_ | t, l⟩ := p
  · exact absurd rfl hp
  · exact ⟨t, rfl⟩

/-- A state whose past is as given: first its value, then the past of the state before it. All that it leads to has a past. -/
structure Object.Tells (annals : CellId → List Int) (b : Object) (vs : List Int) : Prop where
  kind : b.kind = .state
  contents : ∃ p e, b.contents = [(.prev, [.owned p]), (.echo, [.owned e])] ∧ vs = b.value :: p.past annals
  leads : ∀ t, b.LeadsTo t → annals t ≠ []

/-- Links that lead to the same past, each told by its own annals, or nowhere both. -/
def Link.Retells (annals annals' : CellId → List Int) : Link → Link → Prop := Link.Mirrors fun t t' => annals' t' = annals t

namespace Link.Retells

theorem of_bare (hb : link'.bare = link.bare) : link.Retells annals annals link' := by
  cases link with
  | owned p =>
    obtain ⟨target, l⟩ := p
    cases link' with
    | owned q =>
      obtain ⟨target', l'⟩ := q
      cases hb
      cases target with
      | none => exact .none
      | some t => exact .some rfl
    | _ => cases hb
  | weak w => cases link' <;> exact hb
  | label l => cases link' <;> exact hb

theorem past (hr : (Link.owned p).Retells annals annals' (.owned q)) : q.past annals' = p.past annals := by
  obtain ⟨target, l⟩ := p
  obtain ⟨target', l'⟩ := q
  cases (hr : Option.Rel (fun t t' => annals' t' = annals t) target target') with
  | none => rfl
  | some ht => exact ht

end Link.Retells

namespace Object

theorem contents_bound (scopes : List Handle) (b : Object) :
    (b.bound scopes).contents = b.contents.map fun f => (f.1, f.2.map (Link.bound scopes)) := by
  simp only [contents, bound, List.map_map, Function.comp_def]

theorem mirrors_bound {R : Link → Link → Prop} {scopes : List Handle} (hR : ∀ link, R link (link.bound scopes)) :
    b.Mirrors R (b.bound scopes) := by
  refine ⟨rfl, rfl, ?_⟩
  rw [contents_bound, List.forall₂_map_right_iff]
  exact List.forall₂_same.2 fun f _ => ⟨rfl, List.forall₂_map_right_iff.2 (List.forall₂_same.2 fun l _ => hR l)⟩

namespace Tells

theorem retold (ht : b.Tells annals vs) (hm : b.Mirrors (Link.Retells annals annals') b') : b'.Tells annals' vs where
  kind := hm.kind.trans ht.kind
  contents := by
    obtain ⟨p, e, hc, hvs⟩ := ht.contents
    have howned : ∀ {p : Pointer} {links : List Link}, List.Forall₂ (Link.Retells annals annals') [.owned p] links →
        ∃ q : Pointer, links = [.owned q] ∧ q.past annals' = p.past annals := by
      rintro p _ (_ | ⟨hl, _ | _⟩)
      rename_i link
      cases link with
      | owned q => exact ⟨q, rfl, hl.past⟩
      | weak w => cases (hl : _ = _)
      | label s => cases (hl : _ = _)
    have hcontents := hm.contents
    rw [hc] at hcontents
    generalize b'.contents = fs at hcontents
    obtain _ | ⟨⟨hn₁, hl₁⟩, _ | ⟨⟨hn₂, hl₂⟩, _ | _⟩⟩ := hcontents
    obtain ⟨q, hq, hpast⟩ := howned hl₁
    obtain ⟨e', he, -⟩ := howned hl₂
    refine ⟨q, e', ?_, by rw [hvs, hm.value, hpast]⟩
    rw [← hq, ← he, ← show _ = FieldName.prev from hn₁, ← show _ = FieldName.echo from hn₂]
  leads t' hlead := by
    obtain ⟨link', hlink', htarget'⟩ := leadsTo_iff.1 hlead
    obtain ⟨link, hlink, hr⟩ := hm.link hlink'
    have hrel : Option.Rel _ link.target? link'.target? := hr.target?
    rw [htarget'] at hrel
    generalize htarget : link.target? = target at hrel
    obtain @⟨t, _, hpast⟩ | _ := hrel
    rw [hpast]
    exact ht.leads t (leadsTo_iff.2 ⟨link, hlink, htarget⟩)

theorem same (ht : b.Tells annals vs) (hs : b.Same b') : b'.Tells annals vs :=
  ht.retold (hs.mirrors fun _ => .of_bare rfl)

theorem bound (ht : b.Tells annals vs) (scopes : List Handle) : (b.bound scopes).Tells annals vs :=
  ht.retold (mirrors_bound fun link => .of_bare (link.bare_bound scopes))

theorem copyFor (ht : b.Tells annals vs) (l : Handle) (serial : Nat) : (b.copyFor l serial).Tells annals vs :=
  ⟨ht.kind, (ht.bound [l]).contents, (ht.bound [l]).leads⟩

theorem congr (ht : b.Tells annals vs) (ha : ∀ t, b.LeadsTo t → annals' t = annals t) : b.Tells annals' vs where
  kind := ht.kind
  contents := by
    obtain ⟨p, e, hc, hvs⟩ := ht.contents
    have hp : p.past annals' = p.past annals := Pointer.past_congr fun t ht => ha t ⟨p, by
      rw [links_eq_contents, hc]
      exact List.mem_cons_self, ht⟩
    exact ⟨p, e, hc, hp ▸ hvs⟩
  leads t hlead := ha t hlead ▸ ht.leads t hlead

end Tells

theorem labelled_bound (b : Object) (c : CellId) : (b.bound [.counted c]).Labelled := by
  intro p hp
  rw [links_bound] at hp
  obtain ⟨link, -, he⟩ := List.mem_map.1 hp
  cases link with
  | owned q =>
    obtain ⟨_ | t, l⟩ := q <;> cases he
    · exact .inl rfl
    · exact .inr ⟨c, rfl⟩
  | weak w => cases he
  | label s => cases he

theorem Labelled.of_links (hb : b.Labelled) (hl : b'.links = b.links) : b'.Labelled := fun p hp => hb p (hl ▸ hp)

theorem Same.labelled (hs : b.Same b') (hb : b.Labelled) : b'.Labelled := hb.of_links hs.links

end Object

/-! ### Chronicles -/

namespace Heap

/-- The chronicle gives each cell that has a past its own, exceptions apart, and copies the past of their sources. When all is
ready for pointers to be resolved for change, what is not frozen is labelled. -/
structure Chronicle (ready : Bool) (annals : CellId → List Int) (out : CellId → Prop) (h : Heap) : Prop where
  tells : ∀ c b, (h.cell c).body = .object b → (h.cell c).destroyed = false → ¬ out c → annals c ≠ [] →
    b.Tells annals (annals c) ∧ (ready = true → (h.cell c).frozen = false → b.Labelled)
  copies : ∀ c s, (h.cell c).body = .label s → (h.cell c).destroyed = false → ∀ e ∈ s.memo.entries, annals e.2 = annals e.1
  short : ∀ c, (annals c).length ≤ c

namespace Chronicle

theorem of_leaves (hc : h.Chronicle ready annals out) (hv : h.Leaves S k)
    (htells : ∀ d b, ¬ S d ∨ h.size ≤ d → (k.cell d).body = .object b → (k.cell d).destroyed = false → ¬ out d →
      annals d ≠ [] → b.Tells annals (annals d) ∧ (ready = true → (k.cell d).frozen = false → b.Labelled))
    (hcopies : ∀ d s, ¬ S d ∨ h.size ≤ d → (k.cell d).body = .label s → (k.cell d).destroyed = false →
      ∀ e ∈ s.memo.entries, annals e.2 = annals e.1) : k.Chronicle ready annals out where
  tells d b hb hd hout hpast := by
    by_cases hS : ¬ S d ∨ h.size ≤ d
    · exact htells d b hS hb hd hout hpast
    · obtain ⟨hS, hlt⟩ := not_or.1 hS
      obtain ⟨x, hx, hdx, hs⟩ := hv.object_back (not_not.1 hS) (Nat.not_le.1 hlt) hb hd
      obtain ⟨ht, hl⟩ := hc.tells d x hx hdx hout hpast
      refine ⟨ht.same hs, fun hr hf => hs.labelled (hl hr ?_)⟩
      rw [← hv.frozen (not_not.1 hS) (Nat.not_le.1 hlt), hf]
  copies d s hb hd := by
    by_cases hS : ¬ S d ∨ h.size ≤ d
    · exact hcopies d s hS hb hd
    · obtain ⟨hS, hlt⟩ := not_or.1 hS
      obtain ⟨s₀, hs₀, hd₀, hs⟩ := hv.label_back (not_not.1 hS) (Nat.not_le.1 hlt) hb hd
      exact hs.memo ▸ hc.copies d s₀ hs₀ hd₀
  short := hc.short

theorem of_void (hc : h.size ≤ c) : ¬ h.IsObject c ∧ ∀ s, (h.cell c).body = .label s → s.memo.entries = [] := by
  rw [IsObject, h.cell_of_size_le hc]
  refine ⟨?_, fun s hs => ?_⟩
  · rintro ⟨x, hx⟩
    cases hx
  · cases hs
    rfl

theorem kept (hc : h.Chronicle ready annals out) (hk : h.Kept hold k) : k.Chronicle ready annals out := by
  have hvoid : ∀ {d}, ¬ True ∨ h.size ≤ d → k.size ≤ d := fun hd => hk.size ▸ hd.resolve_left fun hn => hn trivial
  refine hc.of_leaves (hk.leaves (S := fun _ => True)) (fun d b hd hb => ?_) fun d s hd hb _ e he => ?_
  · exact absurd ⟨b, hb⟩ (of_void (hvoid hd)).1
  · rw [(of_void (hvoid hd)).2 s hb] at he
    cases he

theorem of_differs (hc : h.Chronicle ready annals out) (hd : h.Differs k c) (hout : out c) (hobj : k.IsObject c) :
    k.Chronicle ready annals out where
  tells d b hb hdd hd' := by
    rw [hd.others d fun he => hd' (he ▸ hout)] at hb hdd ⊢
    exact hc.tells d b hb hdd hd'
  copies d s hb hdd := by
    have hdc : d ≠ c := fun he => by
      obtain ⟨x, hx⟩ := hobj
      rw [he, hx] at hb
      cases hb
    rw [hd.others d hdc] at hb hdd
    exact hc.copies d s hb hdd
  short := hc.short

theorem mono {out' : CellId → Prop} (hc : h.Chronicle ready annals out) (hsub : ∀ c, out c → out' c) :
    h.Chronicle ready annals out' :=
  { hc with tells := fun c b hb hd hout => hc.tells c b hb hd fun ho => hout (hsub c ho) }

theorem restore (hc : h.Chronicle ready annals (· = c))
    (hcell : ∀ b, (h.cell c).body = .object b → annals c ≠ [] → b.Tells annals (annals c) ∧ (ready = true → b.Labelled)) :
    h.Chronicle ready annals fun _ => False where
  tells d b hb hd _ hpast := by
    by_cases hdc : d = c
    · obtain ⟨ht, hl⟩ := hcell b (hdc ▸ hb) (hdc ▸ hpast)
      exact ⟨hdc ▸ ht, fun hr _ => hl hr⟩
    · exact hc.tells d b hb hd hdc hpast
  copies := hc.copies
  short := hc.short

theorem extend (hc : h.Chronicle ready annals out) (hs : Sound sealed ⟨h, locks, ins, hold⟩)
    (ha : ∀ c < h.size, annals' c = annals c) (hshort : ∀ c, (annals' c).length ≤ c) : h.Chronicle ready annals' out where
  tells c b hb hd hout hpast := by
    have hfits := hs.fits c
    rw [show (Moment.heap _).cell c = h.cell c from rfl, hb] at hfits
    rw [ha c (IsObject.lt_size ⟨b, hb⟩)] at hpast ⊢
    obtain ⟨ht, hl⟩ := hc.tells c b hb hd hout hpast
    exact ⟨ht.congr fun t ⟨q, hq, htarget⟩ => ha t ((hfits.2 _ hq).target t htarget).lt_size, hl⟩
  copies c s hb hd e he := by
    have hfits := hs.fits c
    rw [show (Moment.heap _).cell c = h.cell c from rfl, hb] at hfits
    obtain ⟨h₁, h₂, -⟩ := hfits.entries e he
    rw [ha e.1 h₁.lt_size, ha e.2 h₂.lt_size]
    exact hc.copies c s hb hd e he
  short := hshort

/-! ### Resolving -/

theorem stands {m : Memo} (hs : h.Stands m o r) (hm : ∀ e ∈ m.entries, annals e.2 = annals e.1) : annals r = annals o := by
  induction hs with
  | stop _ => rfl
  | next _ hget _ ih => exact ih.trans (hm _ (Memo.mem_of_get? hget))

theorem sees (hc : h.Chronicle ready annals out) (hs : h.Sees l o r)
    (hlive : ∀ c, l = .counted c → (h.cell c).destroyed = false) : annals r = annals o := by
  cases l with
  | empty => exact congrArg annals hs
  | root => exact congrArg annals hs
  | counted c =>
    refine stands (show h.Stands (h.label c).memo o r from hs) fun e he => ?_
    cases hb : (h.cell c).body with
    | object x =>
      rw [Heap.label, Cell.label?, hb] at he
      cases he
    | label s =>
      rw [h.label_eq hb] at he
      exact hc.copies c s hb (hlive c rfl) e he

theorem forked {s : Label} {m : Memo} (hc : h.Chronicle ready annals out) (hf : h.Forked hold k c s m)
    (hlive : (h.cell c).destroyed = false) : k.Chronicle ready annals out := by
  have hm : ∀ e ∈ m.entries, annals e.2 = annals e.1 := fun e he => hc.copies c s hf.body hlive e (hf.inherits.entries e he)
  have hcase : ∀ {d}, ¬ d ≠ c ∨ h.size ≤ d → d = c ∨ d = h.size ∨ k.size ≤ d := fun hd =>
    hd.imp not_not.1 fun hd => (Nat.eq_or_lt_of_le hd).imp Eq.symm fun hd => hf.size ▸ hd
  refine hc.of_leaves hf.leaves (fun d b hd hb => ?_) fun d t hd hb _ => ?_
  · rcases hcase hd with rfl | rfl | hd
    · cases hf.old.symm.trans hb
    · cases hf.new.symm.trans hb
    · exact absurd ⟨b, hb⟩ (of_void hd).1
  · rcases hcase hd with rfl | rfl | hd
    · cases hf.old.symm.trans hb
      exact hm
    · cases hf.new.symm.trans hb
      exact hm
    · rw [(of_void hd).2 t hb]
      exact fun e he => absurd he List.not_mem_nil

theorem recycled (hc : h.Chronicle ready annals out) (hr : h.Recycled h' (.counted c) x r hold) (hv : h.Leaves (· ≠ r) h')
    (hx : (h.cell r).body = .object x) (hlive : (h.cell r).destroyed = false) (hr' : ¬ out r) :
    h'.Chronicle ready annals out := by
  have hcase : ∀ {d}, ¬ d ≠ r ∨ h.size ≤ d → d = r ∨ h'.size ≤ d := fun hd => hd.imp not_not.1 fun hd => hr.size ▸ hd
  refine hc.of_leaves hv (fun d b hd hb _ _ hpast => ?_) fun d s hd hb _ => ?_
  · rcases hcase hd with rfl | hd
    · obtain ⟨ht, -⟩ := hc.tells d x hx hlive hr' hpast
      have hbound : (h'.cell d).body = .object (x.bound [.counted c]) := by
        have hbody : (h'.cell d).body = .object (if x.kind.rebinds then x.bound [.counted c] else x) :=
          (congrArg Cell.body hr.core :)
        rwa [ht.kind] at hbody
      cases hbound.symm.trans hb
      exact ⟨ht.bound _, fun _ _ => x.labelled_bound c⟩
    · exact absurd ⟨b, hb⟩ (of_void hd).1
  · rcases hcase hd with rfl | hd
    · cases (congrArg Cell.body hr.core :).symm.trans hb
    · rw [(of_void hd).2 s hb]
      exact fun e he => absurd he List.not_mem_nil

theorem copied {label : CellId} {s : Label} (hc : h.Chronicle ready annals out) (hb : (h.cell label).body = .label s)
    (hlive : (h.cell label).destroyed = false) (hcopy : h.Copied h' (.counted label) x r) (hv : h.Leaves (· ≠ label) h')
    (hx : (h.cell o).body = .object x) (hlive' : (h.cell o).destroyed = false) (ho : ¬ out o) (hpast : annals r = annals o)
    (hmemo : (h'.cell label).body = .label s ∨
      (h'.cell label).body = .label { s with written := true, memo := s.memo.put o r }) : h'.Chronicle ready annals out := by
  have hcase : ∀ {d}, ¬ d ≠ label ∨ h.size ≤ d → d = label ∨ d = r ∨ h'.size ≤ d := fun hd =>
    hd.imp not_not.1 fun hd => (Nat.eq_or_lt_of_le hd).imp (fun hd => hd.symm.trans hcopy.new.symm) fun hd => hcopy.size ▸ hd
  have hs := hc.copies label s hb hlive
  refine hc.of_leaves hv (fun d b hd hbd _ _ hpast' => ?_) fun d t hd hbd _ e he => ?_
  · rcases hcase hd with rfl | rfl | hd
    · rcases hmemo with hm | hm <;> cases hm.symm.trans hbd
    · cases (Cell.body_of_core hcopy.core).symm.trans hbd
      obtain ⟨ht, -⟩ := hc.tells o x hx hlive' ho (hpast ▸ hpast')
      rw [hpast]
      exact ⟨ht.copyFor _ _, fun _ _ => (x.labelled_bound label).of_links rfl⟩
    · exact absurd ⟨b, hbd⟩ (of_void hd).1
  · rcases hcase hd with rfl | rfl | hd
    · rcases hmemo with hm | hm <;> cases hm.symm.trans hbd
      · exact hs e he
      · rcases List.mem_append.1 (show e ∈ s.memo.entries ++ [(o, r)] from he) with he | he
        · exact hs e he
        · rw [List.mem_singleton.1 he]
          exact hpast
    · cases (Cell.body_of_core hcopy.core).symm.trans hbd
    · rw [(of_void hd).2 t hbd] at he
      cases he

theorem forwards (hc : h.Chronicle ready annals out) (hf : l.Forwards hold h k l')
    (hlive : ∀ c, l.Leads h (.counted c) → (h.cell c).destroyed = false) : k.Chronicle ready annals out := by
  cases hf with
  | stop _ _ hk => exact hc.kept hk
  | fork hl hf => exact hc.forked hf (hlive _ hl)

/-- Looking up an object for change leaves the chronicle true, if a copy that is made has the past of its source. -/
theorem got (hc : h.Chronicle ready annals out) (hg : h.Got l o hold h' r) (hlive : ∀ c, h.Sees l o c ∨ l = .counted c → h.Live c)
    (hout : ∀ c, out c → (h.cell c).frozen = false) (hnew : annals h.size = annals o) :
    h'.Chronicle ready annals out ∧ annals r = annals o := by
  have hlabel : ∀ c, l = .counted c → (h.cell c).destroyed = false := fun c he => (hlive c (.inr he)).destroyed
  have hsees : ∀ {label s r}, l = .counted label → (h.cell label).body = .label s → h.Stands s.memo o r → h.Sees l o r :=
    fun he hs hst => by
      subst he
      show h.Stands (h.label _).memo o _
      rwa [h.label_eq hs]
  have hin : ∀ {c}, (h.cell c).frozen = true → ¬ out c := fun hf ho => Bool.false_ne_true ((hout _ ho).symm.trans hf)
  cases hg with
  | found hs _ hk => exact ⟨hc.kept hk, hc.sees hs hlabel⟩
  | recycled hl hs hst hf hx hr hv =>
    have hst := hsees hl hs hst
    subst hl
    exact ⟨hc.recycled hr hv hx (hlive r (.inl hst)).destroyed (hin hf), hc.sees hst hlabel⟩
  | @copied label seen _ s x hl hs hst hf hx hcopy _ hmemo hv =>
    have hst := hsees hl hs hst
    have hpast : annals r = annals o := hcopy.new ▸ hnew
    refine ⟨?_, hpast⟩
    subst hl
    exact hc.copied hs (hlabel label rfl) hcopy hv hx (hlive seen (.inl hst)).destroyed (hin hf)
      (hpast.trans (hc.sees hst hlabel).symm) (hmemo.imp And.right And.right)

end Chronicle

end Heap

theorem Heap.Got.stays_thawed (hg : h.Got l o hold h' r) (hc : h.IsObject c) (hun : (h.cell c).frozen = false) :
    h'.IsObject c ∧ (h'.cell c).frozen = false := by
  cases hg with
  | found _ _ hk => exact ⟨hk.grows.object c hc, (hk.fades.frozen c).trans hun⟩
  | recycled _ _ _ hf _ hr hv =>
    refine ⟨hr.grows.object c hc, (hv.frozen (fun he => ?_) hc.lt_size).trans hun⟩
    rw [he, hf] at hun
    cases hun
  | copied _ hs _ _ _ _ hsp _ hv =>
    refine ⟨hsp.grows.object c hc, (hv.frozen (fun he => ?_) hc.lt_size).trans hun⟩
    obtain ⟨x, hx⟩ := hc
    rw [he, hs] at hx
    cases hx

section Resolving

variable (hh : Holding manner rules locks frame h ins) (hc : h.Chronicle ready annals out)
include hh hc

theorem Pointer.Reads.retells (hr : p.Reads h q) (hsub : ∀ t ∈ p.tasks, t ∈ ins ++ frame) :
    (Link.owned p).Retells annals annals (.owned q) := by
  cases hr with
  | nil => exact .none
  | target hlead hsees =>
    refine .some (hc.sees hsees fun c he => ?_)
    exact (hh.leads_live (he ▸ hlead) fun t ht => hsub t (List.mem_append_right _ ht)).destroyed

/-- Resolving a pointer for change leaves it to lead to the same past. A copy that is made gets the past of its source. -/
theorem Pointer.Pulls.retells (hp : Pulls hold h k p q) (hf : p.Fits rules.sealed h) (hsub : ∀ t ∈ p.tasks, t ∈ ins ++ frame)
    (hout : ∀ c, out c → h.IsObject c ∧ (h.cell c).frozen = false) :
    ∃ annals', (∀ c < h.size, annals' c = annals c) ∧ k.Chronicle ready annals' out ∧
      (Link.owned p).Retells annals annals' (.owned q) ∧ (p.Labelled → q.Labelled) ∧
      ∀ c, out c → k.IsObject c ∧ (k.cell c).frozen = false := by
  cases hp with
  | same _ hk => exact ⟨annals, fun _ _ => rfl, hk ▸ hc, .of_bare rfl, id, hk ▸ hout⟩
  | @moved k₁ o r l l' _ hforwards hl hg =>
    have hlive : ∀ c, l.Leads h (.counted c) → (h.cell c).destroyed = false := fun c hlead =>
      (hh.leads_live hlead fun t ht => hsub t (.tail _ ht)).destroyed
    have hout' : ∀ c, out c → k₁.IsObject c ∧ (k₁.cell c).frozen = false := fun c ho => by
      obtain ⟨⟨x, hx⟩, hun⟩ := hout c ho
      have hspares : h.Spares (fun _ => False) _ k₁ := hforwards.spares fun _ _ => id
      refine ⟨hspares.grows.object c ⟨x, hx⟩, ?_⟩
      rw [hforwards.leaves.frozen (fun hlead => ?_) (Heap.IsObject.lt_size ⟨x, hx⟩), hun]
      obtain ⟨-, -, s, hs⟩ := hlead.fits hh hf.label c rfl
      cases hx.symm.trans hs
    have hlt : o < h.size := (hf.target o rfl).lt_size
    have hsize : h.size ≤ k₁.size := hforwards.leaves.size
    -- the copy, if one is made, is the next new cell
    let annals' : CellId → List Int := Function.update annals k₁.size (annals o)
    have hold : ∀ c < h.size, annals' c = annals c := fun c hc =>
      Function.update_of_ne (Nat.ne_of_lt (Nat.lt_of_lt_of_le hc hsize)) _ _
    have hnew : annals' k₁.size = annals o := Function.update_self _ _ _
    have hshort : ∀ c, (annals' c).length ≤ c := fun c => by
      by_cases hck : c = k₁.size
      · rw [hck, hnew]
        exact Nat.le_trans (hc.short o) (Nat.le_of_lt (Nat.lt_of_lt_of_le hlt hsize))
      · rw [show annals' c = annals c from Function.update_of_ne hck _ _]
        exact hc.short c
    have hc' : h.Chronicle ready annals' out := hc.extend hh.safe.toSound hold hshort
    obtain ⟨hk, hpast⟩ := (hc'.forwards hforwards hlive).got hg hl (fun c ho => (hout' c ho).2)
      (hnew.trans (hold o hlt).symm)
    refine ⟨annals', hold, hk, .some (hpast.trans (hold o hlt)), fun hlab => .inr ?_, fun c ho =>
      hg.stays_thawed (hout' c ho).1 (hout' c ho).2⟩
    cases hforwards with
    | stop hlead _ _ => exact hlead.counted hh hf.label (hlab.resolve_left (by simp))
    | fork _ _ => exact ⟨_, rfl⟩

theorem Link.Pulls.retells (hp : link.Pulls hold h k link') (hf : link.Fits rules.sealed h)
    (hsub : ∀ t ∈ link.tasks, t ∈ ins ++ frame) (hout : ∀ c, out c → h.IsObject c ∧ (h.cell c).frozen = false) :
    ∃ annals', (∀ c < h.size, annals' c = annals c) ∧ k.Chronicle ready annals' out ∧ link.Retells annals annals' link' ∧
      ((∀ p, link = .owned p → p.Labelled) → ∀ q, link' = .owned q → q.Labelled) ∧
      ∀ c, out c → k.IsObject c ∧ (k.cell c).frozen = false := by
  cases link with
  | owned p =>
    obtain ⟨q, rfl, hpulls⟩ := hp.owned
    obtain ⟨annals', hold, hk, hretells, hlab, hout'⟩ := hpulls.retells hh hc hf hsub hout
    exact ⟨annals', hold, hk, hretells, fun hl q hq => Link.owned.inj hq ▸ hlab (hl p rfl), hout'⟩
  | weak w =>
    obtain ⟨rfl, rfl⟩ := hp
    exact ⟨annals, fun _ _ => rfl, hc, .of_bare rfl, fun hl => hl, hout⟩
  | label l =>
    obtain ⟨rfl, rfl⟩ := hp
    exact ⟨annals, fun _ _ => rfl, hc, .of_bare rfl, fun hl => hl, hout⟩

end Resolving

/-! ### Freezing -/

namespace Heap.Chronicle

theorem settling (h : Heap) :
    Settling (fun link link' => ∀ annals, h.Chronicle ready annals out → link.Retells annals annals link') h := by
  intro k link link' hcool hall hreads annals hc
  cases link with
  | weak w =>
    rw [show link' = .weak w from hreads]
    exact .of_bare rfl
  | label l =>
    rw [show link' = .label l from hreads]
    exact .of_bare rfl
  | owned p =>
    cases link' with
    | weak w => cases hreads
    | label l => cases hreads
    | owned q =>
      cases hreads with
      | nil => exact .none
      | @target o r l l' hleads hsees =>
        refine .some ?_
        cases l' with
        | empty => exact congrArg annals hsees
        | root => exact congrArg annals hsees
        | counted c =>
          refine stands (show k.Stands (k.label c).memo o r from hsees) fun e he => ?_
          have hlive : k.Live c := hall c <| hleads.reach (fun d hd => .source <|
            (show k.Held (l.tasks ++ []) d from Handle.held_of_cell? hd).imp_left
              fun ht => List.mem_cons_of_mem _ (List.append_nil l.tasks ▸ ht)) c rfl
          rw [hcool.label_eq hlive] at he
          cases hb : (h.cell c).body with
          | object x =>
            rw [Heap.label, Cell.label?, hb] at he
            cases he
          | label s =>
            rw [h.label_eq hb] at he
            exact hc.copies c s hb (hcool.alive hlive) e he

/-- Freezing a graph leaves the chronicle true. -/
theorem chills (hc : h.Chronicle ready annals out)
    (hz : h.Chills (fun link link' => ∀ annals, h.Chronicle ready annals out → link.Retells annals annals link') k) :
    k.Chronicle ready annals out where
  tells c b hb hd hout hpast := by
    have hd₀ : (h.cell c).destroyed = false := Bool.eq_false_iff.2 fun hd' =>
      Bool.false_ne_true (hd.symm.trans (hz.destroyed c hd'))
    obtain ⟨b₀, hb₀⟩ := hz.isObject ⟨b, hb⟩ hd
    obtain ⟨ht, hl⟩ := hc.tells c b₀ hb₀ hd₀ hout hpast
    rcases hz.body c b₀ hb₀ hd with ⟨hf, hsame⟩ | ⟨-, hf, b', hb', hs⟩
    · cases hsame.symm.trans hb
      exact ⟨ht, fun hr hun => hl hr (hf ▸ hun)⟩
    · cases hb'.symm.trans hb
      exact ⟨ht.retold (hs.mirrors.imp fun _ _ hR => hR annals hc), fun _ hun => absurd (hun.symm.trans hf) Bool.false_ne_true⟩
  copies c s hb hd e he := by
    have hd₀ : (h.cell c).destroyed = false := Bool.eq_false_iff.2 fun hd' =>
      Bool.false_ne_true (hd.symm.trans (hz.destroyed c hd'))
    refine hc.copies c s ?_ hd₀ e he
    rw [← hz.label c (fun hobj => ?_) hd, hb]
    obtain ⟨x, hx⟩ := hz.object c hobj
    cases hb.symm.trans hx
  short := hc.short

end Heap.Chronicle

end LazyHeap
