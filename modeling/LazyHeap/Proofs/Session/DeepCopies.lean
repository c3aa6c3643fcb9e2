import LazyHeap.Proofs.Session.Views

/-!
Deep copies. When a graph that is not frozen is cloned lazily, its objects stay where they are, with their pointers brought up
to date and frozen, and the clone gets a label that has no copies of them. Finishing the clone then copies each object once.
So the two together are a deep copy of the graph, and what is read through the pointer that was cloned stays what it was.
-/
namespace LazyHeap

variable {rules : Rules} {kept : CellId → Prop} {frame outs : List Task} {h h₁ h₂ h₃ k k' : Heap}
variable {c d m o r t : CellId} {a : Memo} {b b' : Object} {l l' : Handle} {p p' q : Pointer} {link link' : Link}
variable {s : Label} {R : Link → Link → Prop}

theorem forall₂_and_mem {α β : Type} {P : α → β → Prop} {xs : List α} {ys : List β} (h : List.Forall₂ P xs ys) :
    List.Forall₂ (fun x y => P x y ∧ y ∈ ys) xs ys := by
  induction h with
  | nil => exact .nil
  | cons hp _ ih => exact .cons ⟨hp, List.mem_cons_self⟩ (ih.imp fun _ _ hy => ⟨hy.1, .tail _ hy.2⟩)

theorem Object.Mirrors.and_mem (hm : b.Mirrors R b') : b.Mirrors (fun link link' => R link link' ∧ link' ∈ b'.links) b' where
  kind := hm.kind
  value := hm.value
  contents := (forall₂_and_mem hm.contents).imp fun _ g hg => ⟨hg.1.1, (forall₂_and_mem hg.1.2).imp fun _ _ hl =>
    ⟨hl.1, links_eq_contents b' ▸ List.mem_flatMap.2 ⟨g, hg.2, hl.2⟩⟩⟩

protected theorem Heap.Cools.trans (hc : h.Cools h₁) (hc' : h₁.Cools k) : h.Cools k where
  size := hc'.size.trans hc.size
  scopes := hc'.scopes.trans hc.scopes
  object d hd := hc'.object d (hc.object d hd)
  destroyed d hd := hc'.destroyed d (hc.destroyed d hd)
  frozen d hd := hc'.frozen d (hc.frozen d hd)
  label d hd hl := by
    have hl₁ : (h₁.cell d).destroyed = false := Bool.eq_false_iff.2 fun hd' => by
      rw [hc'.destroyed d hd'] at hl
      cases hl
    exact (hc'.label d (fun hobj => hd (hc.isObject hobj hl₁)) hl).trans (hc.label d hd hl₁)

/-! ### Copies of what is read -/

/-- A pointer of a copy leads to the copy of what is read through the pointer in its place; the other links are the same. -/
def Link.Duplicated (h : Heap) (f : CellId → CellId) : Link → Link → Prop
  | .owned p, .owned q => ∃ p', p.Reads h p' ∧ q.target = p'.target.map f
  | link, link' => link'.bare = link.bare

/-- A function that takes the graph that is read from a pointer in one heap to the graph that is stored under a pointer in
another one: each object to one of its kind and value, with the same fields and as many links in them, which lead to what the
function makes of what is read through the links of the object. Different objects are taken to different objects. -/
structure Heap.Duplicated (h : Heap) (p : Pointer) (k : Heap) (q : Pointer) (f : CellId → CellId) : Prop where
  root : ∃ p', p.Reads h p' ∧ q.target = p'.target.map f
  injective : ∀ c d, h.Views p c → h.Views p d → f c = f d → c = d
  onto : ∀ r, q.target = some r → ∀ d, k.LeadsTo r d ↔ ∃ c, h.Views p c ∧ f c = d
  object : ∀ c, h.Views p c → ∃ b b', (h.cell c).body = .object b ∧ (k.cell (f c)).body = .object b' ∧
    b.Mirrors (Link.Duplicated h f) b'

namespace Pointer

/-! ### A graph that is frozen and handed over -/

/-- The heaps through which a lazy clone comes about, when the pointer reads an object: the first one, those after reading,
after freezing the graph and after freezing labels, and the last one. All that the object holds is there in the end. -/
structure Stages (kept : CellId → Prop) (frame : List Task) (p : Pointer) (o : CellId) (l : Handle) (h h₁ h₂ h₃ k : Heap) : Prop where
  reads : p.Reads h ⟨some o, l⟩
  keeps : h.Kept frame h₁
  freezing : h₁.Freezing (fun link link' => h.Cools h₁ → link.Reads h link') h₂ (tasks ⟨some o, l⟩ ++ frame) []
  frozen : (h₂.cell o).frozen = true
  stills : h₂.Stills h₃
  spares : h₃.Spares kept (.release o :: frame) k
  tidy : h₁.Tidy h₂ (tasks ⟨some o, l⟩ ++ frame)
  gone : ∀ c < h₃.size, (h₃.cell c).destroyed = true → (k.cell c).destroyed = true
  live : ∀ c, k.Reach (k.Held (.release o :: frame)) c → k.Live c
  thawed : ∀ c, h.Views p c → (h.cell c).frozen = false

namespace Stages

theorem size (hs : p.Stages kept frame o l h h₁ h₂ h₃ k) : h₃.size = h.size :=
  hs.stills.size.trans (hs.freezing.size.trans hs.keeps.size)

theorem alive (hs : p.Stages kept frame o l h h₁ h₂ h₃ k) (hlt : c < h.size) (hc : (k.cell c).destroyed = false) :
    (h.cell c).destroyed = false ∧ (h₁.cell c).destroyed = false ∧ (h₂.cell c).destroyed = false ∧
      (h₃.cell c).destroyed = false := by
  have hback : ∀ {x y : Cell}, (x.destroyed = true → y.destroyed = true) → y.destroyed = false → x.destroyed = false :=
    fun hxy hy => Bool.eq_false_iff.2 fun hx => by
      rw [hxy hx] at hy
      cases hy
  have h₃' := hback (hs.gone c (hs.size ▸ hlt)) hc
  have h₂' := hback (hs.stills.destroyed c) h₃'
  have h₁' := hback (hs.freezing.destroyed c) h₂'
  exact ⟨hback (hs.keeps.fades.destroyed c) h₁', h₁', h₂', h₃'⟩

theorem label (hs : p.Stages kept frame o l h h₁ h₂ h₃ k) (hb : (h.cell c).body = .label s) (hlt : c < h.size)
    (hc : (k.cell c).destroyed = false) : ∃ f, (h₃.cell c).body = .label { s with frozen := f } := by
  obtain ⟨-, hd₁, hd₂, hd₃⟩ := hs.alive hlt hc
  have hb₁ : (h₁.cell c).body = .label s := (hs.keeps.fades.body_of_live hd₁).trans hb
  have hb₂ : (h₂.cell c).body = .label s := by
    rw [hs.freezing.label c ?_ hd₂, hb₁]
    rintro ⟨x, hx⟩
    rw [hb₁] at hx
    cases hx
  obtain ⟨f, hb₃, -⟩ := hs.stills.label c s hb₂ hd₃
  exact ⟨f, hb₃⟩

/-- An object of the graph once the graph is frozen: it can be viewed, and is reached without going through labels. -/
structure Rests (kept : CellId → Prop) (frame : List Task) (p : Pointer) (o : CellId) (h h₂ h₃ : Heap) (c : CellId) : Prop where
  viewed : h.Views p c
  via : h₃.Via kept (.release o :: frame) c
  frozen : (h₂.cell c).frozen = true

theorem object (hs : p.Stages kept frame o l h h₁ h₂ h₃ k) (hc : Rests kept frame p o h h₂ h₃ c) :
    (k.cell c).destroyed = false ∧ (k.cell c).flags.freezing = (h₂.cell c).flags.freezing ∧ (h₁.cell c).frozen = false ∧
      ∃ b b', (h.cell c).body = .object b ∧ (h₂.cell c).body = .object b' ∧ (h₃.cell c).body = .object b' ∧
        (k.cell c).body = .object b' ∧ b.Settled (Link.Reads h) b' := by
  have hun₁ : (h₁.cell c).frozen = false := (hs.keeps.fades.frozen c).trans (hs.thawed c hc.viewed)
  have hobj₂ : h₂.IsObject c := hs.tidy.object c ⟨hun₁, hc.frozen⟩
  have hlt : c < h.size := (hs.freezing.size.trans hs.keeps.size) ▸ hobj₂.lt_size
  have hlive : (k.cell c).destroyed = false := (hs.live c (hs.spares.via hc.via).reach).destroyed
  obtain ⟨-, hd₁, hd₂, hd₃⟩ := hs.alive hlt hlive
  obtain ⟨b, hb₁⟩ := hs.freezing.isObject hobj₂ hd₂
  have hb : (h.cell c).body = .object b := (hs.keeps.fades.body_of_live hd₁).symm.trans hb₁
  have hcool : h.Cools h₁ := (Heap.Cools.refl h).kept hs.keeps
  rcases hs.freezing.body c b hb₁ hd₂ with ⟨hsame, -⟩ | ⟨-, -, b', hb₂, hsettled⟩
  · rw [hun₁, hc.frozen] at hsame
    cases hsame
  obtain ⟨b'', hb₃, -, -, hkeep⟩ := hs.stills.object c b' hb₂ hd₃
  obtain rfl := hkeep hc.frozen
  have hcore := hs.spares.cell c hc.via (.inl ⟨_, hb₃⟩)
  refine ⟨hlive, ?_, hun₁, b, b'', hb, hb₂, hb₃, (Cell.body_of_core hcore).trans hb₃, { hsettled with contents := ?_ }⟩
  · rw [← hs.stills.freezing c hc.frozen]
    exact (congrArg (·.flags.freezing) hcore :)
  · exact hsettled.contents.imp fun _ _ hf => ⟨hf.1, hf.2.imp fun _ _ hl => hl hcool⟩

theorem root (hs : p.Stages kept frame o l h h₁ h₂ h₃ k) : Rests kept frame p o h h₂ h₃ o :=
  ⟨.root hs.reads, .held (.inl List.mem_cons_self), hs.frozen⟩

theorem onward (hs : p.Stages kept frame o l h h₁ h₂ h₃ k) (hc : Rests kept frame p o h h₂ h₃ c)
    (hb : (k.cell c).body = .object b) (ht : b.LeadsTo t) : Rests kept frame p o h h₂ h₃ t := by
  obtain ⟨-, -, hun₁, b₀, b', hb₀, hb₂, hb₃, hb', hsettled⟩ := hs.object hc
  cases hb.symm.trans hb'
  refine ⟨?_, .edge hc.via (.inl ⟨b, hb₃⟩) (Heap.mem_edges_of_leadsTo hb₃ ht), ?_⟩
  · obtain ⟨link', hlink', ht⟩ := Object.leadsTo_iff.1 ht
    obtain ⟨link, hlink, hreads⟩ := hsettled.mirrors.link hlink'
    cases link' with
    | owned q =>
      cases link with
      | owned p₀ =>
        obtain ⟨_, l₀⟩ := q
        cases ht
        exact .step hc.viewed hb₀ hlink hreads
      | weak w => cases hreads
      | label e => cases hreads
    | weak w => cases ht
    | label e => cases ht
  · exact (hs.freezing.closed c b ⟨hun₁, hc.frozen⟩ hb₂ t ht).resolve_right List.not_mem_nil

/-- In the end the graph that is viewed is the one to which its root leads. -/
theorem rests_of_leadsTo (hs : p.Stages kept frame o l h h₁ h₂ h₃ k) (hc : k.LeadsTo o c) : Rests kept frame p o h h₂ h₃ c := by
  induction hc with
  | refl => exact hs.root
  | step _ hb ht ih => exact hs.onward ih hb ht

theorem views_iff (hs : p.Stages kept frame o l h h₁ h₂ h₃ k) : h.Views p c ↔ k.LeadsTo o c := by
  constructor
  · intro hc
    induction hc with
    | root hp =>
      cases hp.unique hs.reads
      exact .refl
    | @step x t b₀ q l₀ _ hb₀ hq hreads ih =>
      obtain ⟨-, -, -, b, b', hb, -, -, hb', hsettled⟩ := hs.object (hs.rests_of_leadsTo ih)
      cases hb₀.symm.trans hb
      -- the pointer was brought up to date, so it is stored as it is read
      obtain ⟨link', hlink', hread⟩ := hsettled.mirrors.flip.link hq
      cases link' with
      | owned q' =>
        cases Pointer.Reads.unique hread hreads
        exact .step ih hb' ⟨_, hlink', rfl⟩
      | weak w => cases hread
      | label e => cases hread
  · exact fun hc => (hs.rests_of_leadsTo hc).viewed

theorem single (hs : p.Stages kept frame o l h h₁ h₂ h₃ k) (hc : k.LeadsTo o c) (hsole : (k.cell c).flags.frozenSole = true) :
    k.Single o c := by
  have hbody : ∀ x b, k.LeadsTo o x → (k.cell x).body = .object b → (h₂.cell x).body = .object b := fun x b hx hb => by
    obtain ⟨-, -, -, _, b', -, hb₂, -, hb', -⟩ := hs.object (hs.rests_of_leadsTo hx)
    cases hb.symm.trans hb'
    exact hb₂
  have hrests := hs.rests_of_leadsTo hc
  obtain ⟨-, hfreezing, hun₁, -⟩ := hs.object hrests
  have hlone : h₂.Lone (tasks ⟨some o, l⟩ ++ frame) c :=
    hs.tidy.lone c ⟨hun₁, hrests.frozen⟩ ((Heap.sole_of_freezing hfreezing).symm.trans hsole)
  refine ⟨fun hroot x b hx hb => ?_, fun x y b b' hx hy hb hb' => ?_, fun x b hx hb => ?_⟩
  · exact hlone.held (.inl (hroot ▸ List.mem_cons_self)) x b (hbody x b hx hb)
  · exact hlone.same x y b b' (hbody x b hx hb) (hbody y b' hy hb')
  · exact hlone.once x b (hbody x b hx hb)

end Stages

end Pointer

/-! ### Labels that have nothing to say about an object -/

/-- A label at the end of its chain that has no copy of an object. -/
def Heap.Mute (h : Heap) (t c : CellId) : Prop :=
  ∃ s, (h.cell c).body = .label s ∧ s.forward = .empty ∧ s.memo.get? t = none

theorem Heap.Mute.reads (hc : h.Mute t c) : Pointer.Reads h ⟨some t, .counted c⟩ ⟨some t, .counted c⟩ := by
  obtain ⟨s, hs, hforward, hnone⟩ := hc
  refine .target (.stop fun d hd _ => ?_) (.stop fun _ => ?_)
  · cases hd
    rwa [h.label_eq hs]
  · rwa [h.label_eq hs]

/-- If memos map frozen objects only, and only frozen labels have a forward, the labels at the ends of chains have no copies of
an object that is not frozen. -/
theorem Heap.FrozenKeys.mute (hkeys : h.FrozenKeys) (hforwarded : h.Forwarded) (ht : (h.cell t).alive = true)
    (hun : (h.cell t).frozen = false) (hl : l.Leads h (.counted c)) (hb : (h.cell c).body = .label s) : h.Mute t c := by
  refine ⟨s, hb, ?_, Memo.get?_eq_none_iff.2 fun e he het => ?_⟩
  · cases hf : s.frozen with
    | false => exact hforwarded c s hb hf
    | true =>
      have hstop := hl.stops c rfl
      rw [h.label_eq hb] at hstop
      exact hstop hf
  · have hfrozen := hkeys c
    rw [hb] at hfrozen
    have := hfrozen e he (het ▸ ht)
    rw [het, hun] at this
    cases this

theorem Heap.Mute.leaves {S : CellId → Prop} (hc : h.Mute t c) (hl : h.Leaves S k) (hS : S c) (hlt : c < h.size)
    (hd : (k.cell c).destroyed = false) : k.Mute t c := by
  obtain ⟨s, hs, hforward, hnone⟩ := hc
  obtain ⟨s', hs', hsame⟩ := hl.label c s hS hlt hs hd
  exact ⟨s', hs', hsame.forward.trans hforward, hsame.memo ▸ hnone⟩

/-- When a graph has been cloned, the labels that had no copy of an object have none still. -/
theorem Pointer.Stages.mute (hs : p.Stages kept frame o l h h₁ h₂ h₃ k) (hc : h.Mute t c) (hlt : c < h.size)
    (hd : (k.cell c).destroyed = false) (hkept : kept c ∧ h₃.Via kept (.release o :: frame) c ∨
      (k.cell c).body = .label .blank ∨ ∃ s, (h₃.cell c).body = .label s ∧ (k.cell c).body = .label { s with memo := h₃.current s.memo }) :
    k.Mute t c := by
  obtain ⟨s, hb, hforward, hnone⟩ := hc
  obtain ⟨f, hb₃⟩ := hs.label hb hlt hd
  rcases hkept with ⟨hkept, hvia⟩ | hblank | ⟨s', hb', hbk⟩
  · exact ⟨_, (Cell.body_of_core (hs.spares.cell c hvia (.inr hkept))).trans hb₃, hforward, hnone⟩
  · exact ⟨_, hblank, rfl, rfl⟩
  · cases hb₃.symm.trans hb'
    refine ⟨_, hbk, hforward, Memo.get?_eq_none_iff.2 fun e he => ?_⟩
    exact Memo.get?_eq_none_iff.1 hnone e (List.mem_filter.1 he).1

/-! ### Where copies lead -/

namespace Link.Mirrors

variable {S : CellId → CellId → Prop}

theorem exists_target (hm : link.Mirrors S link') (ht : link.target? = some t) : ∃ r, link'.target? = some r ∧ S t r := by
  have hrel := hm.target?
  rw [ht] at hrel
  generalize link'.target? = x at hrel
  cases hrel with
  | some hr => exact ⟨_, rfl, hr⟩

theorem exists_source (hm : link.Mirrors S link') (hr : link'.target? = some r) : ∃ t, link.target? = some t ∧ S t r := by
  have hrel := hm.target?
  rw [hr] at hrel
  generalize link.target? = x at hrel
  cases hrel with
  | some ht => exact ⟨_, rfl, ht⟩

end Link.Mirrors

namespace Heap

variable {e : CellId × CellId}

theorem Mirrored.forth (hm : h.Mirrored a e k) (hb : (h.cell e.1).body = .object b) (ht : b.LeadsTo t) :
    ∃ r b', (t, r) ∈ a.entries ∧ (k.cell e.2).body = .object b' ∧ b'.LeadsTo r := by
  obtain ⟨b₁, b', hb₁, hb', hmirror⟩ := hm
  cases hb.symm.trans hb₁
  obtain ⟨link, hlink, ht⟩ := Object.leadsTo_iff.1 ht
  obtain ⟨link', hlink', hl⟩ := hmirror.flip.link hlink
  obtain ⟨r, hr, htr⟩ := Link.Mirrors.exists_target hl ht
  exact ⟨r, b', htr, hb', Object.leadsTo_iff.2 ⟨link', hlink', hr⟩⟩

theorem Mirrored.back (hm : h.Mirrored a e k) (hb : (k.cell e.2).body = .object b') (hr : b'.LeadsTo r) :
    ∃ t b, (t, r) ∈ a.entries ∧ (h.cell e.1).body = .object b ∧ b.LeadsTo t := by
  obtain ⟨b, b₁, hb₁, hb', hmirror⟩ := hm
  cases hb.symm.trans hb'
  obtain ⟨link', hlink', hr⟩ := Object.leadsTo_iff.1 hr
  obtain ⟨link, hlink, hl⟩ := hmirror.link hlink'
  obtain ⟨t, ht, htr⟩ := Link.Mirrors.exists_source hl hr
  exact ⟨t, b, htr, hb₁, Object.leadsTo_iff.2 ⟨link, hlink, ht⟩⟩

variable (hm : ∀ e ∈ a.entries, h.Mirrored a e k) (hroot : (o, r) ∈ a.entries)
include hm hroot

theorem exists_copy (hc : h.LeadsTo o c) : ∃ d, (c, d) ∈ a.entries ∧ k.LeadsTo r d := by
  induction hc with
  | refl => exact ⟨r, hroot, .refl⟩
  | step _ hb ht ih =>
    obtain ⟨d, hd, hlead⟩ := ih
    obtain ⟨r', b', hr', hb', ht'⟩ := (hm _ hd).forth hb ht
    exact ⟨r', hr', .step hlead hb' ht'⟩

theorem exists_source (hd : k.LeadsTo r d) : ∃ c, (c, d) ∈ a.entries ∧ h.LeadsTo o c := by
  induction hd with
  | refl => exact ⟨o, hroot, .refl⟩
  | step _ hb ht ih =>
    obtain ⟨c, hc, hlead⟩ := ih
    obtain ⟨t, b, htr, hb', hbt⟩ := (hm _ hc).back hb ht
    exact ⟨t, htr, .step hlead hb' hbt⟩

end Heap

def Memo.copyOf (a : Memo) (c : CellId) : CellId := (a.get? c).getD c

theorem Heap.Replicas.copyOf_eq (hr : h.Replicas m o a k) (he : (c, d) ∈ a.entries) : a.copyOf c = d := by
  rw [Memo.copyOf, Memo.get?_of_mem hr.sources he]
  rfl

/-- The copies of a graph that was frozen and handed over are a duplicate of the graph as it was read. -/
theorem Heap.Replicas.duplicated (hr : k.Replicas d o a k') (hs : p.Stages kept frame o l h h₁ h₂ h₃ k)
    (hm : ∀ e ∈ a.entries, k.Mirrored a e k') (hroot : (o, r) ∈ a.entries) {l' : Handle} :
    h.Duplicated p k' ⟨some r, l'⟩ a.copyOf := by
  have hcopy : ∀ c, h.Views p c → ∃ d, (c, d) ∈ a.entries ∧ k'.LeadsTo r d := fun c hc =>
    exists_copy hm hroot (hs.views_iff.1 hc)
  refine ⟨⟨_, hs.reads, ?_⟩, fun c c' hc hc' heq => ?_, fun r' hr' d' => ⟨fun hd => ?_, ?_⟩, fun c hc => ?_⟩
  · exact congrArg some (hr.copyOf_eq hroot).symm
  · obtain ⟨x, hx, -⟩ := hcopy c hc
    obtain ⟨x', hx', -⟩ := hcopy c' hc'
    rw [hr.copyOf_eq hx, hr.copyOf_eq hx'] at heq
    exact congrArg Prod.fst (hr.entry_inj hx hx' (.inr heq))
  · cases hr'
    obtain ⟨c, hc, hlead⟩ := exists_source hm hroot hd
    exact ⟨c, hs.views_iff.2 hlead, hr.copyOf_eq hc⟩
  · rintro ⟨c, hc, rfl⟩
    cases hr'
    obtain ⟨x, hx, hlead⟩ := hcopy c hc
    rwa [hr.copyOf_eq hx]
  · obtain ⟨x, hx, -⟩ := hcopy c hc
    obtain ⟨-, -, -, b, b₁, hb, -, -, hb₁, hsettled⟩ := hs.object (hs.rests_of_leadsTo (hs.views_iff.1 hc))
    obtain ⟨b₂, b', hb₂, hb', hmirror⟩ := hm _ hx
    cases hb₁.symm.trans hb₂
    refine ⟨b, b', hb, hr.copyOf_eq hx ▸ hb', (hsettled.mirrors.trans hmirror).imp ?_⟩
    rintro link link' ⟨y, hread, hl⟩
    cases link with
    | owned p₀ =>
      cases y with
      | owned p₁ =>
        cases link' with
        | owned q =>
          refine ⟨p₁, hread, ?_⟩
          have hrel : Option.Rel (fun t r => (t, r) ∈ a.entries) p₁.target q.target := hl
          generalize p₁.target = x, q.target = y at hrel
          cases hrel with
          | none => rfl
          | some he => exact congrArg some (hr.copyOf_eq he).symm
        | weak w => cases (hl : _ = _)
        | label e => cases (hl : _ = _)
      | weak w => cases hread
      | label e => cases hread
    | weak w =>
      obtain rfl : y = .weak w := hread
      cases link' <;> exact hl
    | label e =>
      obtain rfl : y = .label e := hread
      cases link' <;> exact hl

/-! ### Reading afterwards -/

theorem Pointer.reads_self {manner : Manner} {locks : List Lock} {ins : List Task} (hh : Holding manner rules locks frame h ins)
    (hmute : ∀ c, l = .counted c → h.Mute t c) : Pointer.Reads h ⟨some t, l⟩ ⟨some t, l⟩ := by
  cases l with
  | empty => exact .target (.stop nofun) rfl
  | root => exact .target (Handle.leads_root hh) rfl
  | counted c => exact (hmute c rfl).reads

namespace Pointer.Stages

variable (hs : p.Stages kept frame o l h h₁ h₂ h₃ k) {S : CellId → Prop} {held ins : List Task} {x : CellId}
include hs

theorem mute_before (hsafe : Safe { careful := true } ⟨h, [], [], held⟩) (hforwarded : h.Forwarded) (ht : h.Views p t)
    (hl : l'.Leads h (.counted c)) (hb : (h.cell c).body = .label s) : h.Mute t c := by
  obtain ⟨hd, -, -, b, -, hb', -⟩ := hs.object (hs.rests_of_leadsTo (hs.views_iff.1 ht))
  have hlive : h.Live t := hsafe.live_of_not_destroyed rfl (hs.alive (Heap.IsObject.lt_size ⟨b, hb'⟩) hd).1
  exact (hsafe.abides.keys rfl).mute hforwarded hlive.alive (hs.thawed t ht) hl hb

theorem left (hleaves : k.Leaves S k') (hS : ∀ c, k.LeadsTo o c → S c) (hsafe : Safe rules ⟨k', [], [], held⟩)
    (ho : .release o ∈ held) (hc : k.LeadsTo o c) : k'.Reach (k'.Held held) c ∧
      ∃ b b', (k.cell c).body = .object b ∧ (k'.cell c).body = .object b' ∧ b.Same b' := by
  have hbody : ∀ x, k.LeadsTo o x → k'.Reach (k'.Held held) x →
      ∃ b b', (k.cell x).body = .object b ∧ (k'.cell x).body = .object b' ∧ b.Same b' := fun x hx hreach => by
    obtain ⟨-, -, -, -, b, -, -, -, hb, -⟩ := hs.object (hs.rests_of_leadsTo hx)
    obtain ⟨b', hb', hsame⟩ := hleaves.object x b (hS x hx) hb (hsafe.live_of_reach hreach).destroyed
    exact ⟨b, b', hb, hb', hsame⟩
  suffices hreach : k'.Reach (k'.Held held) c from ⟨hreach, hbody c hc hreach⟩
  induction hc with
  | refl => exact .source (.inl ho)
  | @step x t b hx hb ht ih =>
    obtain ⟨b₁, b', hb₁, hb', hsame⟩ := hbody x hx ih
    cases hb.symm.trans hb₁
    refine .edge ih (Heap.mem_edges_of_leadsTo hb' ?_)
    obtain ⟨q, hq, ht⟩ := ht
    exact ⟨q, hsame.links ▸ hq, ht⟩

theorem mute_after (hkept : ∀ c, ¬ kept c → (k.cell c).body = .label .blank ∨
      ∃ s, (h₃.cell c).body = .label s ∧ (k.cell c).body = .label { s with memo := h₃.current s.memo })
    (hc : h.Mute t c) (hlt : c < h.size) (hvia : h₃.Via kept (.release o :: frame) c) : k.Mute t c := by
  refine hs.mute hc hlt (hs.live c (hs.spares.via hvia).reach).destroyed ?_
  by_cases hk : kept c
  · exact .inl ⟨hk, hvia⟩
  · exact .inr (hkept c hk)

theorem reflects (hkept : ∀ c, ¬ kept c → (k.cell c).body = .label .blank ∨
      ∃ s, (h₃.cell c).body = .label s ∧ (k.cell c).body = .label { s with memo := h₃.current s.memo })
    (hsafe : Safe { careful := true } ⟨h, [], [], ins⟩) (hforwarded : h.Forwarded) (hleaves : k.Leaves S k')
    (hS : ∀ c < h.size, S c) (hsafe' : Safe rules ⟨k', [], [], held⟩) (ho : .release o ∈ held) : h.Reflects k' (h.Views p) where
  onward c b q t l hc hb hq hreads := .step hc hb hq hreads
  object c hc := by
    have hlead := hs.views_iff.1 hc
    have hrests := hs.rests_of_leadsTo hlead
    obtain ⟨-, -, -, b, b₁, hb, -, hb₃, hb₁, hsettled⟩ := hs.object hrests
    have hbefore : ∀ x, k.LeadsTo o x → x < h.size := fun x hx => by
      obtain ⟨-, -, -, b, -, hb, -⟩ := hs.object (hs.rests_of_leadsTo hx)
      exact Heap.IsObject.lt_size ⟨b, hb⟩
    obtain ⟨hreach, b₂, b', hb₂, hb', hsame⟩ := hs.left hleaves (fun x hx => hS x (hbefore x hx)) hsafe' ho hlead
    cases hb₁.symm.trans hb₂
    have hm : b.Mirrors (Link.Reads h) b' :=
      ⟨hsame.kind.trans hsettled.kind, hsame.value.trans hsettled.value, hsame.contents ▸ hsettled.contents⟩
    refine ⟨b, b', hb, hb', hm.flip.and_mem.flip.and_mem.imp ?_⟩
    rintro link link' ⟨⟨hread, hlink⟩, hlink'⟩
    cases link with
    | weak w => exact congrArg Link.bare (show link' = .weak w from hread)
    | label e => exact congrArg Link.bare (show link' = .label e from hread)
    | owned p₀ =>
      cases link' with
      | weak w => cases hread
      | label e => cases hread
      | owned q =>
        have hread : p₀.Reads h q := hread
        have hview : ∀ t l, q = ⟨some t, l⟩ → h.Views p t := fun t l hq => .step hc hb hlink (hq ▸ hread)
        cases hread with
        | nil => exact ⟨none, _, _, .nil, .nil⟩
        | @target o₀ t l₀ l' hl hsees =>
          have hh : Holding .calm { careful := true } [] ins h [] := hsafe.holding .rfl
          have hh' : Holding .calm rules [] held k' [] := hsafe'.holding .rfl
          refine ⟨some t, l', l', .target hl hsees, Pointer.reads_self hh' fun e he => ?_⟩
          subst he
          have hfits := hsafe.fits c
          rw [show (Moment.heap _).cell c = h.cell c from rfl, hb] at hfits
          obtain ⟨-, hlt, s, hbs⟩ := hl.fits hh (hfits.2 _ hlink).label e rfl
          have hmute : h.Mute t e := hs.mute_before hsafe hforwarded (hview t _ rfl) hl hbs
          have hedge : e ∈ Cell.linkEdges (.owned ⟨some t, .counted e⟩) := by simp [Cell.linkEdges, Handle.counted?]
          have hvia : h₃.Via kept (.release o :: frame) e :=
            .edge hrests.via (.inl ⟨b₁, hb₃⟩) (Heap.mem_edges_of_link hb₃ (hsame.links ▸ hlink') hedge)
          have hlive : k'.Live e := hsafe'.live_of_reach (.edge hreach (Heap.mem_edges_of_link hb' hlink' hedge))
          exact (hs.mute_after hkept hmute hlt hvia).leaves hleaves (hS e hlt)
            (Nat.lt_of_lt_of_le (hs.size ▸ hlt) hs.spares.grows.size) hlive.destroyed

end Pointer.Stages

/-! ### Cloning and finishing -/

theorem Heap.not_views_nil : ¬ h.Views ⟨none, l⟩ c := fun hc => by
  induction hc with
  | root hp => cases hp
  | step _ _ _ _ ih => exact ih

/-- A deep copy of the graph that is read from a pointer, which leaves the pointer another label. -/
structure Pointer.DeepCopies (h : Heap) (p : Pointer) (k : Heap) (q d : Pointer) (f : CellId → CellId) : Prop where
  duplicated : h.Duplicated p k d f
  apart : ∀ c, h.Views p c → (k.cell (f c)).frozen = false ∧ ¬ h.Views p (f c)
  views : ∀ c, k.Views q c ↔ h.Views p c
  reads : ∀ path v, k.ReadsAlong path q v ↔ h.ReadsAlong path p v

theorem Pointer.Stages.portrait (hs : p.Stages kept frame o l h h₁ h₂ h₃ k) (hlt : d < k.size)
    (hb : (k.cell d).body = .label (.ofMemo a)) (hsafe : Safe { careful := true } ⟨h, [], [], outs⟩) (hforwarded : h.Forwarded)
    (hl : ∀ c, l = .counted c → l.Leads h l ∧ (k.cell c).destroyed = false ∧ c < h.size ∧ ∃ s, (h.cell c).body = .label s)
    (hentries : ∀ e ∈ a.entries, ∃ c s, l = .counted c ∧ (h₃.cell c).body = .label s ∧ e ∈ s.memo.entries)
    (hleaf : ∀ c b, h.Views p c → (h.cell c).body = .object b → b.kind ≠ .leaf) : k.Portrait d o where
  known := hlt
  label := by
    refine ⟨_, hb, rfl, fun c hc => Memo.get?_eq_none_iff.2 fun e he => ?_⟩
    obtain ⟨x, s, rfl, hs₃, hes⟩ := hentries e he
    obtain ⟨htip, hd, hxlt, s₀, hs₀⟩ := hl x rfl
    obtain ⟨f, hs₃'⟩ := hs.label hs₀ hxlt hd
    cases hs₃.symm.trans hs₃'
    obtain ⟨s₁, hs₁, -, hnone⟩ := hs.mute_before hsafe hforwarded (hs.views_iff.2 hc) htip hs₀
    cases hs₀.symm.trans hs₁
    exact Memo.get?_eq_none_iff.1 hnone e hes
  object c hc := by
    have hrests := hs.rests_of_leadsTo hc
    obtain ⟨-, hfreezing, -, b, b', hb, -, -, hb', hsettled⟩ := hs.object hrests
    refine ⟨(Cell.frozen_of_freezing hfreezing).trans hrests.frozen, b', hb', ?_⟩
    rw [hsettled.kind]
    exact hleaf c b hrests.viewed hb
  single _ := hs.single

namespace Pointer

/-- Cloning a graph that is not frozen and finishing the clone makes a deep copy of the graph, at any moment of a run in which
memos map frozen objects. -/
theorem deepClone_finish (hsafe : Safe { careful := true } ⟨h, [], [], p.tasks ++ frame⟩) (hfits : p.Fits (fun _ => False) h)
    (hforwarded : h.Forwarded) (hthawed : ∀ c, h.Views p c → (h.cell c).frozen = false)
    (hleaf : ∀ c b, h.Views p c → (h.cell c).body = .object b → b.kind ≠ .leaf) : ∃ q d k d' k' f,
      p.deepClone h = .ok ((q, d), k) ∧ d.finish k = .ok (d', k') ∧ p.DeepCopies h k' q d' f := by
  have hh : Holding .calm { careful := true } [] frame h p.tasks := hsafe.holding .rfl
  have hspec : Ends (fun _ => False) (p.deepClone h) fun q k => Clones (fun h₁ link link' => h.Cools h₁ → link.Reads h link')
      (fun c => ¬ p.label.Leads h (.counted c)) frame h p k q ∧ q.1.Fits (fun _ => False) k ∧ q.2.Fits (fun _ => False) k ∧
      Passage { careful := true } [] frame h p.tasks k (q.1.tasks ++ q.2.tasks) :=
    deepClone_spec hh hfits (fun c hc => ⟨not_not.2 hc, id⟩) (fun _ => id) (fun _ _ => id)
      fun h₁ _ _ k link link' hc hall hreads h₁' => settling_reads hsafe rfl k link link' (h₁'.trans hc) hall hreads
  obtain ⟨⟨q, d⟩, k, hclone, hc, hfq, hfd, hpass⟩ := hspec.exists_ok
  have hsafe₁ : Safe { careful := true } ⟨k, [], [], (q.tasks ++ d.tasks) ++ frame⟩ := hpass.safe
  cases hc with
  | @nil l _ hk =>
    refine ⟨⟨none, l⟩, .nil, k, .nil, k, id, hclone, rfl, ?_⟩
    have hreflects : h.Reflects k (h.Views ⟨none, l⟩) :=
      ⟨fun c hc => absurd hc Heap.not_views_nil, fun c _ _ _ _ hc => absurd hc Heap.not_views_nil⟩
    obtain ⟨hviews, hreads⟩ := hreflects.views (q := ⟨none, l⟩) ⟨none, l, l, .nil, .nil⟩
    exact ⟨⟨⟨_, .nil, rfl⟩, fun c _ hc => absurd hc Heap.not_views_nil, fun r hr => absurd hr.symm (Option.some_ne_none r),
      fun c hc => absurd hc Heap.not_views_nil⟩,
      fun c hc => absurd hc Heap.not_views_nil, hviews, hreads⟩
  | @graph _ o d l l' a h₁ h₂ h₃ _ hreads hk₁ hz hfr hst hsp hl hsize hne _ hbd hentries htidy hlast hgone =>
    have hs : p.Stages (fun c => ¬ p.label.Leads h (.counted c)) frame o l h h₁ h₂ h₃ k :=
      ⟨hreads, hk₁, hz, hfr, hst, hsp, htidy, hgone, fun c hc => hsafe₁.live_of_reach <| hc.subset fun _ => Or.imp_left fun ht => by
        rcases List.mem_cons.1 ht with he | ht
        · exact he ▸ List.mem_append_left _ (List.mem_append_left _ List.mem_cons_self)
        · exact List.mem_append_right _ ht, hthawed⟩
    have hleads : p.label.Leads h l := by
      cases hreads with
      | target hl _ => exact hl
    -- the label that was forked is the one under which the graph was read
    have hkept : ∀ c, ¬ ¬ p.label.Leads h (.counted c) → (k.cell c).body = .label .blank ∨
        ∃ s, (h₃.cell c).body = .label s ∧ (k.cell c).body = .label { s with memo := h₃.current s.memo } := fun c hc => by
      have he : l = .counted c := hleads.unique (not_not.1 hc)
      exact (hlast c ((hl.resolve_right fun hno => hno c he).trans he)).imp_right And.right
    have hlabel : ∀ c, l = .counted c → (k.cell c).destroyed = false ∧ c < h.size ∧ ∃ s, (h.cell c).body = .label s := fun c he => by
      subst he
      obtain ⟨-, hlt, s, hb⟩ := hleads.fits hh hfits.label c rfl
      obtain rfl : l' = .counted c := hl.resolve_right fun hno => hno c rfl
      exact ⟨(hsafe₁.live_of_held (.inl (by simp [Pointer.tasks, Handle.tasks, Handle.counted?]))).destroyed, hlt, s, hb⟩
    have hportrait : k.Portrait d o := hs.portrait (hfd.label d rfl).2.1 hbd hsafe hforwarded
      (fun c he => ⟨.stop hleads.stops, hlabel c he⟩)
      (fun e he => by
        obtain ⟨-, c, s, hc, hb, -, hmem, -⟩ := hentries e he
        exact ⟨c, s, hc, hb, hmem⟩) hleaf
    have hsafe₂ : Safe { fixed := k.LeadsTo o } ⟨k, [], [], (tasks ⟨some o, l'⟩ ++ tasks ⟨some o, .counted d⟩) ++ frame⟩ :=
      ⟨hsafe₁.toFirm, .lax rfl rfl rfl hsafe₁.abides.root, hsafe₁.sealed⟩
    have hh₂ : Holding (.sparing fun _ => False) { fixed := k.LeadsTo o } [] (tasks ⟨some o, l'⟩ ++ frame) k (tasks ⟨some o, .counted d⟩) :=
      hsafe₂.holding ((List.perm_append_comm.append_right frame).trans (.of_eq (List.append_assoc _ _ _)))
    have hroot : Task.release o ∈ tasks ⟨some o, l'⟩ ++ frame := List.mem_append_left _ List.mem_cons_self
    have hfd' : Pointer.Fits (Rules.sealed { fixed := k.LeadsTo o }) k ⟨some o, .counted d⟩ := hfd
    obtain ⟨d', k', hfinish, hh₃, r, a', rfl, hmem, hr, hm⟩ :=
      (finish_replicates hportrait hh₂ hfd' (fun _ => id) (fun _ => id) (fun _ => .rfl) hroot).exists_ok
    have hsafe₃ := hh₃.safe
    have hheld : ∀ t ∈ tasks ⟨some o, l'⟩ ++ frame, t ∈ tasks ⟨some r, .counted d⟩ ++ (tasks ⟨some o, l'⟩ ++ frame) :=
      fun t => List.mem_append_right _
    have hgrows : h.size ≤ k.size := hs.size ▸ hs.spares.grows.size
    have hreflects : h.Reflects k' (h.Views p) := hs.reflects hkept hsafe hforwarded hr.leaves
      (fun c hc => ⟨Nat.lt_of_lt_of_le hc hgrows, Nat.ne_of_lt (Nat.lt_of_lt_of_le hc hsize)⟩) hsafe₃ (hheld _ hroot)
    have halike : p.Alike h k' ⟨some o, l'⟩ := by
      refine ⟨some o, l, l', hreads, reads_self hh₃ fun c hc => ?_⟩
      subst hc
      have hlive : k'.Live c := hsafe₃.live_of_held (.inl (hheld _ (by simp [Pointer.tasks, Handle.tasks, Handle.counted?])))
      have hmute : k.Mute o c := by
        rcases hlast c rfl with hblank | ⟨rfl, hforked⟩
        · exact ⟨_, hblank, rfl, rfl⟩
        · obtain ⟨hd, hlt, s, hb⟩ := hlabel c rfl
          exact hs.mute (hs.mute_before hsafe hforwarded (.root hreads) hleads hb) hlt hd (.inr (.inr hforked))
      obtain ⟨-, hclt, -⟩ := hfq.label c rfl
      exact hmute.leaves hr.leaves ⟨hclt, fun he => hne (congrArg _ he)⟩ hclt hlive.destroyed
    obtain ⟨hviews, hpaths⟩ := hreflects.views halike
    refine ⟨⟨some o, l'⟩, ⟨some o, .counted d⟩, k, ⟨some r, .counted d⟩, k', a'.copyOf, hclone, hfinish,
      hr.duplicated hs hm hmem, fun c hc => ?_, hviews, hpaths⟩
    obtain ⟨x, hx, -⟩ := Heap.exists_copy hm hmem (hs.views_iff.1 hc)
    obtain ⟨-, hle, -, hun⟩ := hr.entry _ hx
    rw [hr.copyOf_eq hx]
    exact ⟨hun, fun hx => Nat.not_le_of_lt (hportrait.ne_label (hs.views_iff.1 hx)).1 hle⟩

end Pointer

namespace Situation

variable {x : Situation} {name : String} {t : Slot}

/-- In every run in which no object is copied directly: cloning a pointer that has a name and finishing the clone makes a deep
copy of all that is read from the pointer, if none of it is a leaf or frozen. Objects are related as before, however they are
shared and wherever they go round; the copies are not frozen, and none of them is read from the pointer that was cloned; and
what is read from that pointer along any path stays what it was. -/
theorem deepCopies_of_runs (hrun : Runs (fun s args op => op.Permitted { careful := true } s args) initial x)
    (hx : x.locked = false) (ht : x.session.slots.get? name = some t)
    (hthawed : ∀ c, x.session.heap.Views t.pointer c → (x.session.heap.cell c).frozen = false)
    (hleaf : ∀ c b, x.session.heap.Views t.pointer c → (x.session.heap.cell c).body = .object b → b.kind ≠ .leaf) :
    ∃ q d k d' k' f, t.pointer.deepClone x.session.heap = .ok ((q, d), k) ∧ d.finish k = .ok (d', k') ∧
      t.pointer.DeepCopies x.session.heap k' q d' f := by
  have ha : x.At (.initial true false false) := at_of_runs (fun _ _ _ => id) hrun
  obtain ⟨frame, -, hsafe, hfits⟩ := ha.inHand hx ht
  have hforwarded : x.session.heap.Forwarded :=
    ha.course_moment.forwarded (Safe.initial fun _ => id).toFirm .initial
  exact Pointer.deepClone_finish hsafe hfits hforwarded hthawed hleaf

/-- Two nodes that lead to each other, one of them in two ways. -/
def knot : List (Op × Args) :=
  [(.label .spawn, { Args.blank with dest := some "l" }),
    (.pointer .new, { Args.blank with dest := some "p", value := some (.int 3), within := some "l" }),
    (.pointer .new, { Args.blank with dest := some "q", value := some (.int 4) }),
    (.object .link, { Args.blank with a := some "p", b := some "q", field := some "next" }),
    (.object .link, { Args.blank with a := some "q", b := some "p", field := some "next" }),
    (.object .link, { Args.blank with a := some "q", b := some "p", field := some "alt" })]

theorem deepCopies_of_knot : ∃ x t q d k d' k' f, initial.after knot = some x ∧ x.session.slots.get? "q" = some t ∧
    t.pointer = ⟨some 3, .root⟩ ∧ t.pointer.deepClone x.session.heap = .ok ((q, d), k) ∧ d.finish k = .ok (d', k') ∧
    t.pointer.DeepCopies x.session.heap k' q d' f := by
  obtain ⟨x, hx, h⟩ : ∃ x, initial.after knot = some x ∧ (x.locked,
      ((List.range x.session.heap.size).all fun c => !(x.session.heap.cell c).frozen &&
        (x.session.heap.cell c).object?.all (·.kind ≠ .leaf)), (x.session.slots.get? "q").map (·.pointer)) =
      (false, true, some ⟨some 3, .root⟩) := Option.map_eq_some_iff.1 (by cbv)
  simp only [Prod.mk.injEq, Option.map_eq_some_iff, List.all_eq_true, List.mem_range, Bool.and_eq_true, Bool.not_eq_true'] at h
  obtain ⟨hlocked, hall, t, ht, hp⟩ := h
  have hrun : Runs (fun s args op => op.Permitted { careful := true } s args) initial x := runs_of_after rfl hx fun s p hp => by
    simp only [knot, List.mem_cons, List.not_mem_nil, or_false] at hp
    rcases hp with rfl | rfl | rfl | rfl | rfl | rfl
    · trivial
    · trivial
    · trivial
    all_goals exact Attempt.unfrozen_of_not_minds (by simp [Rules.Minds])
  obtain ⟨q, d, k, d', k', f, hclone, hfinish, hcopies⟩ := deepCopies_of_runs hrun hlocked ht
    (fun c _ => Bool.eq_false_iff.2 fun hf => by
      rw [(hall c (Heap.lt_size_of_frozen hf)).1] at hf
      cases hf)
    fun c b _ hb => by
      have hkind := (hall c (Heap.IsObject.lt_size ⟨b, hb⟩)).2
      simpa [Cell.object?, hb] using hkind
  exact ⟨x, t, q, d, k, d', k', f, hx, ht, hp, hclone, hfinish, hcopies⟩

end Situation

end LazyHeap
