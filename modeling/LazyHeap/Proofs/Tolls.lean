import LazyHeap.Proofs.Freezing
import LazyHeap.Proofs.Pulling
import Mathlib.Algebra.Order.BigOperators.Group.Finset

/-!
Tolls. An object that had one owner when it was frozen is not entered in a memo, so it is copied again each time a link
to it is resolved for change. Its toll pays for the copy and, in the same way, for what the links of the copy lead to.
There are such tolls because these objects form no cycle, and the toll for a link never rises when the link is resolved.
-/
namespace LazyHeap

variable {manner : Manner} {rules : Rules} {locks : List Lock} {frame hold ins : List Task} {h h' k : Heap}
variable {c d o r : CellId} {x y : Object} {l l' : Handle} {p q : Pointer} {S : CellId → Prop} {sealed : CellId → Prop}
variable {tolls : CellId → Nat} {out : CellId → Prop}

/-! ### What links and objects cost -/

/-- The toll for a link: that of the object to which it leads. -/
def Link.toll (tolls : CellId → Nat) (link : Link) : Nat := (link.target?.map tolls).getD 0

/-- What looking into an object costs: one for the object itself, and the tolls for its links. -/
def Object.cost (tolls : CellId → Nat) (o : Object) : Nat := 1 + (o.links.map (Link.toll tolls)).sum

/-- Labels cost nothing, nor does an object that is gone. -/
def Cell.cost (tolls : CellId → Nat) (x : Cell) : Nat :=
  if x.destroyed then 0 else (x.object?.map (Object.cost tolls)).getD 0

theorem Link.target?_bound (scopes : List Handle) (link : Link) : (link.bound scopes).target? = link.target? := by
  cases link with
  | owned p =>
    obtain ⟨_ | t, l⟩ := p
    · rfl
    · cases scopes <;> rfl
  | weak w => rfl
  | label l => rfl

theorem Link.toll_bound (scopes : List Handle) (link : Link) : (link.bound scopes).toll tolls = link.toll tolls := by
  rw [toll, target?_bound, toll]

namespace Object

theorem cost_congr (hl : y.links = x.links) : y.cost tolls = x.cost tolls := by
  rw [cost, hl, cost]

theorem cost_bound (scopes : List Handle) (x : Object) : (x.bound scopes).cost tolls = x.cost tolls := by
  simp only [cost, links_bound, List.map_map, Function.comp_def, Link.toll_bound]

theorem cost_copyFor (x : Object) (l : Handle) (serial : Nat) : (x.copyFor l serial).cost tolls = x.cost tolls :=
  (cost_congr rfl).trans (x.cost_bound [l])

theorem toll_lt_cost (ht : x.LeadsTo d) : tolls d < x.cost tolls := by
  obtain ⟨link, hlink, htarget⟩ := leadsTo_iff.1 ht
  have : link.toll tolls ≤ (x.links.map (Link.toll tolls)).sum := List.single_le_sum (by simp) _ (List.mem_map_of_mem hlink)
  rw [Link.toll, htarget] at this
  exact Nat.lt_of_le_of_lt this (Nat.lt_one_add_iff.2 (Nat.le_refl _))

end Object

namespace Cell

theorem cost_of_destroyed {x : Cell} (hd : x.destroyed = true) : x.cost tolls = 0 := if_pos hd

theorem cost_object {x : Cell} {o : Object} (hb : x.body = .object o) (hd : x.destroyed = false) :
    x.cost tolls = o.cost tolls := by
  simp [cost, hd, object?, hb]

theorem cost_label {x : Cell} {s : Label} (hb : x.body = .label s) : x.cost tolls = 0 := by
  simp [cost, object?, hb]

theorem cost_le_object {x : Cell} {o : Object} (hb : x.body = .object o) : x.cost tolls ≤ o.cost tolls := by
  cases hd : x.destroyed with
  | false => exact Nat.le_of_eq (cost_object hb hd)
  | true => exact cost_of_destroyed hd ▸ Nat.zero_le _

theorem cost_of_core {x y : Cell} (hc : x.core = y.core) : x.cost tolls = y.cost tolls :=
  (congrArg (Cell.cost tolls) hc :)

end Cell

theorem Heap.Leaves.cost_le (hv : h.Leaves S h') (hc : S c) (hlt : c < h.size) :
    (h'.cell c).cost tolls ≤ (h.cell c).cost tolls := by
  cases hd' : (h'.cell c).destroyed with
  | true => exact Cell.cost_of_destroyed hd' ▸ Nat.zero_le _
  | false =>
    have hd : (h.cell c).destroyed = false := Bool.eq_false_iff.2 fun hd => by
      rw [hv.destroyed c hlt hd] at hd'
      cases hd'
    cases hb : (h.cell c).body with
    | object x =>
      obtain ⟨y, hy, hsame⟩ := hv.object c x hc hb hd'
      rw [Cell.cost_object hy hd', Cell.cost_object hb hd, Object.cost_congr hsame.links]
    | label s =>
      obtain ⟨s', hs', -⟩ := hv.label c s hc hlt hb hd'
      exact Cell.cost_label hs' ▸ Nat.zero_le _

/-! ### Tolls that suffice -/

namespace Heap

/-- The tolls suffice: what had one owner when it was frozen, exceptions apart, costs no more than its toll. Copies in memos
and objects to come are free. -/
structure Tolled (tolls : CellId → Nat) (out : CellId → Prop) (h : Heap) : Prop where
  sole : ∀ c, ¬ out c → (h.cell c).flags.frozenSole = true → (h.cell c).cost tolls ≤ tolls c
  copies : ∀ c s, (h.cell c).body = .label s → (h.cell c).destroyed = false → ∀ v ∈ s.memo.copies, tolls v = 0
  later : ∀ c, h.size ≤ c → tolls c = 0

namespace Tolled

theorem mono {out' : CellId → Prop} (ht : h.Tolled tolls out) (hsub : ∀ c, out c → out' c) : h.Tolled tolls out' :=
  { ht with sole := fun c hc => ht.sole c fun ho => hc (hsub c ho) }

theorem of_leaves (ht : h.Tolled tolls out) (hv : h.Leaves S h')
    (hsole : ∀ d, ¬ S d ∨ h.size ≤ d → ¬ out d → (h'.cell d).flags.frozenSole = true → (h'.cell d).cost tolls ≤ tolls d)
    (hcopies : ∀ d s, ¬ S d ∨ h.size ≤ d → (h'.cell d).body = .label s → (h'.cell d).destroyed = false →
      ∀ v ∈ s.memo.copies, tolls v = 0) : h'.Tolled tolls out where
  sole d hd hs := by
    by_cases hout : ¬ S d ∨ h.size ≤ d
    · exact hsole d hout hd hs
    · obtain ⟨hS, hlt⟩ := not_or.1 hout
      have hS := not_not.1 hS
      have hlt := Nat.not_le.1 hlt
      rw [sole_of_freezing (hv.freezing d hS hlt)] at hs
      exact Nat.le_trans (hv.cost_le hS hlt) (ht.sole d hd hs)
  copies d s hb hdd v hm := by
    by_cases hout : ¬ S d ∨ h.size ≤ d
    · exact hcopies d s hout hb hdd v hm
    · obtain ⟨hS, hlt⟩ := not_or.1 hout
      have hS := not_not.1 hS
      have hlt := Nat.not_le.1 hlt
      have hd : (h.cell d).destroyed = false := Bool.eq_false_iff.2 fun hd => by
        rw [hv.destroyed d hlt hd] at hdd
        cases hdd
      cases hb₀ : (h.cell d).body with
      | object x =>
        obtain ⟨y, hy, -⟩ := hv.object d x hS hb₀ hdd
        rw [hb] at hy
        cases hy
      | label s₀ =>
        obtain ⟨s', hs', hsame⟩ := hv.label d s₀ hS hlt hb₀ hdd
        rw [hb] at hs'
        cases hs'
        exact ht.copies d s₀ hb₀ hd v (hsame.memo ▸ hm)
  later d hd := ht.later d (Nat.le_trans hv.size hd)

theorem of_differs (ht : h.Tolled tolls out) (hd : h.Differs h' c) (hc : out c) (hobj : h'.IsObject c) : h'.Tolled tolls out where
  sole d hd' hs := by
    have hdc : d ≠ c := fun he => hd' (he ▸ hc)
    rw [hd.others d hdc] at hs ⊢
    exact ht.sole d hd' hs
  copies d s hb hdd := by
    have hdc : d ≠ c := fun he => by
      obtain ⟨x, hx⟩ := hobj
      rw [he, hx] at hb
      cases hb
    rw [hd.others d hdc] at hb hdd
    exact ht.copies d s hb hdd
  later d hd' := ht.later d (hd.size ▸ hd')

theorem restore (ht : h.Tolled tolls fun _ => False) (hk : k.Tolled tolls (· = c)) (hb : (h.cell c).body = .object x)
    (hcore : (k.cell c).core = { h.cell c with body := .object y }.core) (hle : y.cost tolls ≤ x.cost tolls) :
    k.Tolled tolls fun _ => False := by
  refine { hk with sole := fun d _ hsole => ?_ }
  by_cases hdc : d = c
  · subst hdc
    rw [show (k.cell d).flags.frozenSole = _ from (congrArg (fun y : Cell => y.flags.frozenSole) hcore :)] at hsole
    refine Nat.le_trans ?_ (ht.sole d id hsole)
    rw [Cell.cost_of_core hcore]
    cases hd : (h.cell d).destroyed with
    | true => exact Nat.le_trans (Nat.le_of_eq (Cell.cost_of_destroyed hd)) (Nat.zero_le _)
    | false => rwa [Cell.cost_object hb hd, Cell.cost_object (x := { h.cell d with body := _ }) rfl hd]
  · exact hk.sole d hdc hsole

theorem of_void (hc : h.size ≤ c) : (h.cell c).flags.frozenSole = false ∧
    ∀ s, (h.cell c).body = .label s → ∀ v, v ∉ s.memo.copies := by
  rw [h.cell_of_size_le hc]
  refine ⟨rfl, fun s hs v hv => ?_⟩
  cases hs
  cases hv

theorem kept (ht : h.Tolled tolls out) (hk : h.Kept hold k) : k.Tolled tolls out := by
  refine ht.of_leaves (hk.leaves (S := fun _ => True)) (fun d hd _ hs => ?_) fun d s hd hb _ v hv => ?_ <;>
    have hd : k.size ≤ d := hk.size ▸ hd.resolve_left fun h => h trivial
  · rw [(of_void hd).1] at hs
    cases hs
  · exact absurd hv ((of_void hd).2 s hb v)

theorem forked {s : Label} {m : Memo} (ht : h.Tolled tolls out) (hf : h.Forked hold k c s m)
    (hlive : (h.cell c).destroyed = false) : k.Tolled tolls out := by
  have hm : ∀ v ∈ m.copies, tolls v = 0 := fun v hv => by
    obtain ⟨e, he, rfl⟩ := List.mem_map.1 hv
    exact ht.copies c s hf.body hlive e.2 (List.mem_map_of_mem (hf.inherits.entries e he))
  have hcase : ∀ {d}, ¬ d ≠ c ∨ h.size ≤ d → d = c ∨ d = h.size ∨ k.size ≤ d := fun hd =>
    hd.imp not_not.1 fun hd => (Nat.eq_or_lt_of_le hd).imp Eq.symm fun hd => hf.size ▸ hd
  refine ht.of_leaves hf.leaves (fun d hd _ hs => ?_) fun d t hd hb _ v hv => ?_
  · rcases hcase hd with rfl | rfl | hd
    · exact Cell.cost_label hf.old ▸ Nat.zero_le _
    · exact Cell.cost_label hf.new ▸ Nat.zero_le _
    · rw [(of_void hd).1] at hs
      cases hs
  · rcases hcase hd with rfl | rfl | hd
    · cases hf.old.symm.trans hb
      exact hm v hv
    · cases hf.new.symm.trans hb
      exact hm v hv
    · exact absurd hv ((of_void hd).2 t hb v)

theorem recycled (ht : h.Tolled tolls out) (hr : h.Recycled h' l x r hold) (hv : h.Leaves (· ≠ r) h') :
    h'.Tolled tolls out := by
  have hcase : ∀ {d}, ¬ d ≠ r ∨ h.size ≤ d → d = r ∨ h'.size ≤ d := fun hd => hd.imp not_not.1 fun hd => hr.size ▸ hd
  refine ht.of_leaves hv (fun d hd _ hs => ?_) fun d s hd hb _ v hv => ?_
  · rcases hcase hd with rfl | hd
    · rw [show (h'.cell d).flags.frozenSole = _ from (congrArg (fun y : Cell => y.flags.frozenSole) hr.core :)] at hs
      cases hs
    · rw [(of_void hd).1] at hs
      cases hs
  · rcases hcase hd with rfl | hd
    · cases (congrArg Cell.body hr.core :).symm.trans hb
    · exact absurd hv ((of_void hd).2 s hb v)

theorem copied {label : CellId} {s : Label} (ht : h.Tolled tolls out) (hb : (h.cell label).body = .label s)
    (hlive : (h.cell label).destroyed = false) (hc : h.Copied h' l x r) (hv : h.Leaves (· ≠ label) h')
    (hmemo : (h'.cell label).body = .label s ∨
      (h'.cell label).body = .label { s with written := true, memo := s.memo.put o r }) : h'.Tolled tolls out := by
  have hcase : ∀ {d}, ¬ d ≠ label ∨ h.size ≤ d → d = label ∨ d = r ∨ h'.size ≤ d := fun hd =>
    hd.imp not_not.1 fun hd => (Nat.eq_or_lt_of_le hd).imp (fun hd => hd.symm.trans hc.new.symm) fun hd => hc.size ▸ hd
  have hs : ∀ v ∈ s.memo.copies, tolls v = 0 := ht.copies label s hb hlive
  refine ht.of_leaves hv (fun d hd _ hs => ?_) fun d t hd hbd _ v hv => ?_
  · rcases hcase hd with rfl | rfl | hd
    · exact hmemo.elim (fun hm => Cell.cost_label hm ▸ Nat.zero_le _) fun hm => Cell.cost_label hm ▸ Nat.zero_le _
    · rw [show (h'.cell d).flags.frozenSole = _ from (congrArg (fun y : Cell => y.flags.frozenSole) hc.core :)] at hs
      cases hs
    · rw [(of_void hd).1] at hs
      cases hs
  · rcases hcase hd with rfl | rfl | hd
    · rcases hmemo with hm | hm <;> cases hm.symm.trans hbd
      · exact hs v hv
      · rw [Memo.copies_put] at hv
        rcases List.mem_append.1 hv with hv | hv
        · exact hs v hv
        · rw [List.mem_singleton.1 hv]
          exact ht.later r (Nat.le_of_eq hc.new.symm)
    · cases (congrArg Cell.body hc.core :).symm.trans hbd
    · exact absurd hv ((of_void hd).2 t hbd v)

theorem sees (ht : h.Tolled tolls out) (hs : h.Sees l o r) (hlive : ∀ c, l = .counted c → (h.cell c).destroyed = false) :
    tolls r ≤ tolls o := by
  cases l with
  | empty => exact Nat.le_of_eq (congrArg tolls hs)
  | root => exact Nat.le_of_eq (congrArg tolls hs)
  | counted c =>
    rcases Stands.mem hs with rfl | hcopy
    · exact Nat.le_refl _
    · cases hb : (h.cell c).body with
      | object x =>
        rw [Heap.label, Cell.label?, hb] at hcopy
        cases hcopy
      | label s =>
        rw [h.label_eq hb] at hcopy
        exact ht.copies c s hb (hlive c rfl) r hcopy ▸ Nat.zero_le _

/-- Looking up an object for change leaves the tolls sufficient, and what is come to costs no more toll. -/
theorem got (ht : h.Tolled tolls out) (hg : h.Got l o hold h' r) (hlive : ∀ c, l = .counted c → (h.cell c).destroyed = false) :
    h'.Tolled tolls out ∧ tolls r ≤ tolls o := by
  cases hg with
  | found hs _ hk => exact ⟨ht.kept hk, ht.sees hs hlive⟩
  | recycled hl hs hst _ _ hr hv =>
    subst hl
    refine ⟨ht.recycled hr hv, ht.sees (l := .counted _) ?_ hlive⟩
    show h.Stands (h.label _).memo o r
    rwa [h.label_eq hs]
  | copied hl hs hst _ _ hc _ hmemo hv =>
    refine ⟨ht.copied hs (hlive _ hl) hc hv (hmemo.imp And.right And.right), ?_⟩
    exact ht.later r (Nat.le_of_eq hc.new.symm) ▸ Nat.zero_le _

theorem forwards (ht : h.Tolled tolls out) (hf : l.Forwards hold h k l')
    (hlive : ∀ c, l.Leads h (.counted c) → (h.cell c).destroyed = false) : k.Tolled tolls out := by
  cases hf with
  | stop _ _ hk => exact ht.kept hk
  | fork hl hf => exact ht.forked hf (hlive _ hl)

/-- Resolving a pointer for change leaves the tolls sufficient, and lowers that of the pointer if it changes it. -/
theorem pulls (ht : h.Tolled tolls out) (hp : Pointer.Pulls hold h h' p q)
    (hlive : ∀ c, p.label.Leads h (.counted c) → (h.cell c).destroyed = false) :
    h'.Tolled tolls out ∧ (Link.owned q).toll tolls ≤ (Link.owned p).toll tolls := by
  cases hp with
  | same _ hk => exact ⟨hk ▸ ht, Nat.le_refl _⟩
  | @moved k o r l l' _ hf hl hg =>
    exact (ht.forwards hf hlive).got hg fun c hc => (hl c (.inr hc)).destroyed

theorem reads {link link' : Link} (ht : h.Tolled tolls out) (hr : link.Reads h link')
    (hlive : ∀ p c, link = .owned p → p.label.Leads h (.counted c) → (h.cell c).destroyed = false) :
    link'.toll tolls ≤ link.toll tolls := by
  cases link with
  | weak w => exact Nat.le_of_eq (congrArg (Link.toll tolls) hr)
  | label l => exact Nat.le_of_eq (congrArg (Link.toll tolls) hr)
  | owned p =>
    cases link' with
    | weak w => cases hr
    | label l => cases hr
    | owned q =>
      cases hr with
      | nil => exact Nat.le_refl _
      | target hlead hsees => exact ht.sees hsees fun c hc => hlive _ c rfl (hc ▸ hlead)

/-- Where tolls suffice, what had one owner when it was frozen is nobody's copy, and ranked. -/
theorem tiered {opened : CellId → Prop} (ht : h.Tolled tolls fun _ => False) (hs : Sound sealed ⟨h, locks, [], frame⟩) :
    h.Tiered opened where
  copies c s hb v hv _ := Bool.eq_false_iff.2 fun hsole => by
    have hlive : h.Live c := hs.live_of_not_destroyed rfl <| Bool.eq_false_iff.2 fun hd => by
      have hedge := mem_edges_of_copy hb hv
      rw [hs.destroyed_edges hd] at hedge
      cases hedge
    have hv' : h.Live v := hs.live_of_edge hlive (mem_edges_of_copy hb hv)
    obtain ⟨e, he, rfl⟩ := List.mem_map.1 hv
    have hfits := hs.fits c
    rw [show (Moment.heap _).cell c = h.cell c from rfl, hb] at hfits
    obtain ⟨x, hx⟩ := (hfits.entries e he).2.1
    have hle := ht.sole e.2 id hsole
    rw [ht.copies c s hb hlive.destroyed e.2 hv, Cell.cost_object hx hv'.destroyed, Object.cost] at hle
    omega
  ranked := ⟨tolls, fun c x d hx hsole _ hlead _ _ => by
    have hd : (h.cell c).destroyed = false := Bool.eq_false_iff.2 fun hd => by
      have hedge := mem_edges_of_leadsTo hx hlead
      rw [hs.destroyed_edges hd] at hedge
      cases hedge
    have := ht.sole c id hsole
    rw [Cell.cost_object hx hd] at this
    exact Nat.lt_of_lt_of_le (Object.toll_lt_cost hlead) this⟩

end Tolled

/-! ### Tolls from ranks -/

private def edgesBelow (h : Heap) (rank : CellId → Nat) (bound : Nat) : Nat :=
  ∑ c ∈ (Finset.range h.size).filter fun c => (h.cell c).flags.frozenSole = true ∧ rank c < bound, (h.cell c).edges.length

private def tollAt (h : Heap) (rank : CellId → Nat) (c : CellId) : Nat :=
  if (h.cell c).flags.frozenSole then 2 ^ h.edgesBelow rank (rank c + 1) else 0

end Heap

/-- What a cell costs, if none of the objects to which it leads has a toll above a bound. -/
theorem Cell.cost_le {x : Cell} {bound : Nat}
    (hb : ∀ o t, x.body = .object o → o.LeadsTo t → tolls t ≤ bound) : x.cost tolls ≤ 1 + x.edges.length * bound := by
  cases hbody : x.body with
  | label s => exact cost_label hbody ▸ Nat.zero_le _
  | object o =>
    refine Nat.le_trans (cost_le_object hbody) (Nat.add_le_add_left ?_ 1)
    have hlinks : ∀ links : List Link, (∀ link ∈ links, link ∈ o.links) →
        (links.map (Link.toll tolls)).sum ≤ (links.flatMap linkEdges).length * bound := by
      intro links hsub
      induction links with
      | nil => exact Nat.zero_le _
      | cons link rest ih =>
        have ih := ih fun l hl => hsub l (.tail _ hl)
        have hone : link.toll tolls ≤ (linkEdges link).length * bound := by
          cases htarget : link.target? with
          | none => rw [Link.toll, htarget]; exact Nat.zero_le _
          | some t =>
            have ht := hb o t hbody (Object.leadsTo_iff.2 ⟨link, hsub link List.mem_cons_self, htarget⟩)
            have hpos : 1 ≤ (linkEdges link).length := by
              cases link with
              | owned p =>
                have hp : p.target = some t := htarget
                simp [linkEdges, hp]
              | weak w => cases htarget
              | label l => cases htarget
            rw [Link.toll, htarget]
            exact Nat.le_trans ht (Nat.le_mul_of_pos_left _ hpos)
        simp only [List.map_cons, List.sum_cons, List.flatMap_cons, List.length_append, Nat.add_mul]
        exact Nat.add_le_add hone ih
    rw [edges, hbody]
    exact hlinks o.links fun _ => id

namespace Heap

/-- There are tolls that suffice for what is ranked, and no toll is above a power of the number of all edges. -/
theorem Tiered.tolled (ht : h.Tiered fun _ => False) :
    ∃ tolls, h.Tolled tolls (fun _ => False) ∧ ∀ c, tolls c ≤ 2 ^ h.total fun x => x.edges.length := by
  obtain ⟨rank, hrank⟩ := ht.ranked
  have hbelow : ∀ {a b}, a ≤ b → h.edgesBelow rank a ≤ h.edgesBelow rank b := fun hab =>
    Finset.sum_le_sum_of_subset fun c hc => by
      simp only [Finset.mem_filter] at hc ⊢
      exact ⟨hc.1, hc.2.1, Nat.lt_of_lt_of_le hc.2.2 hab⟩
  have htotal : ∀ b, h.edgesBelow rank b ≤ h.total fun x => x.edges.length := fun b => by
    rw [total_eq_range]
    exact Finset.sum_le_sum_of_subset (Finset.filter_subset _ _)
  refine ⟨h.tollAt rank, ⟨fun c _ hsole => ?_, fun c s hb _ v hv => ?_, fun c hc => ?_⟩, fun c => ?_⟩
  · rw [show h.tollAt rank c = 2 ^ h.edgesBelow rank (rank c + 1) from if_pos hsole]
    have hlt : c < h.size := lt_size_of_frozen (frozen_of_sole hsole)
    -- the objects to which it leads are ranked below it
    have hcost : (h.cell c).cost (h.tollAt rank) ≤ 1 + (h.cell c).edges.length * 2 ^ h.edgesBelow rank (rank c) :=
      Cell.cost_le fun o t hb hlead => by
        unfold tollAt
        split
        · next hst => exact Nat.pow_le_pow_right (by decide) (hbelow (hrank c o t hb hsole id hlead hst id))
        · exact Nat.zero_le _
    have hstep : h.edgesBelow rank (rank c) + (h.cell c).edges.length ≤ h.edgesBelow rank (rank c + 1) := by
      have hnot : c ∉ (Finset.range h.size).filter fun d => (h.cell d).flags.frozenSole = true ∧ rank d < rank c := fun hc =>
        Nat.lt_irrefl _ (Finset.mem_filter.1 hc).2.2
      have hsum := Finset.sum_cons (f := fun d => (h.cell d).edges.length) hnot
      rw [Nat.add_comm]
      refine Nat.le_trans (Nat.le_of_eq hsum.symm) (Finset.sum_le_sum_of_subset fun d hd => ?_)
      rcases Finset.mem_cons.1 hd with rfl | hd
      · exact Finset.mem_filter.2 ⟨Finset.mem_range.2 hlt, hsole, Nat.lt_succ_self _⟩
      · obtain ⟨hd, hs, hr⟩ := Finset.mem_filter.1 hd
        exact Finset.mem_filter.2 ⟨hd, hs, Nat.lt_succ_of_lt hr⟩
    calc (h.cell c).cost _ ≤ 1 + (h.cell c).edges.length * 2 ^ h.edgesBelow rank (rank c) := hcost
      _ ≤ ((h.cell c).edges.length + 1) * 2 ^ h.edgesBelow rank (rank c) := by
        have := Nat.one_le_two_pow (n := h.edgesBelow rank (rank c))
        rw [Nat.add_mul, Nat.one_mul]
        omega
      _ ≤ 2 ^ (h.cell c).edges.length * 2 ^ h.edgesBelow rank (rank c) := Nat.mul_le_mul_right _ Nat.lt_two_pow_self
      _ = 2 ^ (h.edgesBelow rank (rank c) + (h.cell c).edges.length) := by rw [Nat.add_comm, Nat.pow_add]
      _ ≤ 2 ^ h.edgesBelow rank (rank c + 1) := Nat.pow_le_pow_right (by decide) hstep
  · exact if_neg (by rw [ht.copies c s hb v hv id]; decide)
  · exact if_neg (by rw [(Tolled.of_void hc).1]; decide)
  · unfold tollAt
    split
    · exact Nat.pow_le_pow_right (by decide) (htotal _)
    · exact Nat.zero_le _

end Heap

end LazyHeap
