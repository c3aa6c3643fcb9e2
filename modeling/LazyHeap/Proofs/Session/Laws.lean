import LazyHeap.Proofs.Forking

/-!
What runs keep by abstaining. While nobody reaches into frozen objects, these lead to frozen objects only. While labels
are forked and copied only when they are frozen, and nobody resolves objects under labels of others, copies belong to one
label until they are frozen. And unless objects are copied by hand, an entry in a memo stays as long as its source and
its label, so a label copies an object once.
-/
namespace LazyHeap

variable {h h' : Heap} {rules : Rules} {m m' : Moment} {c d o r : CellId} {s : Label}

/-! ### Frozen objects -/

/-- Where the owning pointers that are stored in objects lead from one of them. -/
inductive Heap.LeadsTo (h : Heap) (o : CellId) : CellId → Prop where
  | refl : LeadsTo h o o
  | step {x c : CellId} {b : Object} : LeadsTo h o x → (h.cell x).body = .object b → b.LeadsTo c → LeadsTo h o c

theorem Heap.Closed.leadsTo (hclosed : h.Closed fun _ => False) (ho : (h.cell o).frozen = true) (hc : h.LeadsTo o c) :
    (h.cell c).frozen = true := by
  induction hc with
  | refl => exact ho
  | step _ hb ht ih => exact hclosed _ _ hb ih id _ ht

namespace Pointer

variable {R : Heap → Link → Link → Prop} {kept sealed : CellId → Prop} {frame : List Task} {k : Heap} {p q : Pointer}

theorem Freezes.frozen (hf : Freezes R frame h p k q) (ho : q.target = some o) : (k.cell o).frozen = true := by
  cases hf with
  | nil _ => cases ho
  | graph _ _ _ hfrozen => exact Option.some.inj ho ▸ hfrozen

theorem Freezes.isSome (hf : Freezes R frame h p k q) : q.target.isSome = p.target.isSome := by
  cases hf with
  | nil _ => rfl
  | graph hreads _ _ _ =>
    cases hreads
    rfl

theorem Clones.isSome {q : Pointer × Pointer} (hc : Clones R kept frame h p k q) :
    q.1.target.isSome = p.target.isSome := by
  cases hc with
  | nil _ => rfl
  | graph hreads _ _ _ _ _ _ _ _ _ _ _ _ _ _ _ =>
    cases hreads
    rfl

theorem Clones.frozen {q : Pointer × Pointer} (hc : Clones R kept frame h p k q) (hfits : q.1.Fits sealed k) :
    q.2.target = q.1.target ∧ ∀ o, q.1.target = some o → (k.cell o).frozen = true := by
  cases hc with
  | nil _ => exact ⟨rfl, nofun⟩
  | @graph _ o _ _ _ _ _ _ h₃ _ _ _ _ hfrozen hstills hspares _ _ _ _ _ _ _ _ =>
    refine ⟨rfl, fun o' ho => ?_⟩
    cases ho
    have hfrozen₃ := hstills.frozen o hfrozen
    have hobj : h₃.IsObject o := by
      cases hb : (h₃.cell o).body with
      | object x => exact ⟨x, hb⟩
      | label l =>
        obtain ⟨-, l', hl'⟩ := hspares.grows.label o ⟨Heap.lt_size_of_frozen hfrozen₃, l, hb⟩
        obtain ⟨x, hx⟩ := hfits.target o rfl
        rw [hl'] at hx
        cases hx
    have hcore := hspares.cell o (.held (.inl List.mem_cons_self)) (.inl hobj)
    exact (Cell.frozen_of_core hcore).trans hfrozen₃

end Pointer

/-! ### Labels in the course of a run -/

namespace Course

/-- A frozen label loses entries only, and only those whose source has no owner. -/
theorem shut (hrun : Course rules m m') (hs : Firm rules.sealed m) (hapart : rules.apart = true)
    (hb : (m.heap.cell c).body = .label s) (hf : s.frozen = true) (hlt : c < m.heap.size)
    (hsource : ∀ e ∈ s.memo.entries, e.1 < m.heap.size) (hd : (m'.heap.cell c).destroyed = false) :
    ∃ s', (m'.heap.cell c).body = .label s' ∧ s'.frozen = true ∧ (∀ e ∈ s'.memo.entries, e ∈ s.memo.entries) ∧
      ∀ e ∈ s.memo.entries, e ∈ s'.memo.entries ∨ (m'.heap.cell e.1).alive = false := by
  induction hrun with
  | refl => exact ⟨s, hb, hf, fun _ => id, fun _ => .inl⟩
  | @tail m₁ m₂ hrun hstep ih =>
    obtain ⟨hs₁, hg₁⟩ := firm hrun hs
    have hlt₁ := Nat.lt_of_lt_of_le hlt hg₁.size
    obtain ⟨s₁, hb₁, hf₁, hsub₁, hkeep₁⟩ := ih (destroyed (.single hstep) hs₁ hlt₁ hd)
    obtain ⟨opened, hadv⟩ := hstep
    have he : m₁.heap.Effect { rules with opened := opened } m₂.heap := hadv.effect hs₁
    have hgone : ∀ e ∈ s.memo.entries, (m₁.heap.cell e.1).alive = false → (m₂.heap.cell e.1).alive = false :=
      fun e hm hgone => Bool.eq_false_iff.2 fun halive => by
        rw [he.alive (Nat.lt_of_lt_of_le (hsource e hm) hg₁.size) halive] at hgone
        cases hgone
    obtain ⟨s₂, hb₂, rfl | hev⟩ := he.label hb₁ hlt₁ hd
    · exact ⟨s₂, hb₂, hf₁, hsub₁, fun e hm => (hkeep₁ e hm).imp_right (hgone e hm)⟩
    · refine ⟨s₂, hb₂, hev.frozen hf₁, fun e hm => ?_, fun e hm => ?_⟩
      · apply hsub₁
        apply (hev.enter e hm).resolve_right
        intro hadmits
        rw [(hadmits.apart hapart).1] at hf₁
        cases hf₁
      · rcases hkeep₁ e hm with hm₁ | hgone₁
        · exact (hev.keep e hm₁).imp_right (hgone e hm)
        · exact .inr (hgone e hm hgone₁)

/-- An entry stays for as long as the label is there and its source has owners. -/
theorem entry (hrun : Course rules m m') (hs : Firm rules.sealed m) (hb : (m.heap.cell c).body = .label s)
    (he : (o, d) ∈ s.memo.entries) (hlt : c < m.heap.size) (ho : o < m.heap.size)
    (hd : (m'.heap.cell c).destroyed = false) (halive : (m'.heap.cell o).alive = true) :
    ∃ s', (m'.heap.cell c).body = .label s' ∧ (o, d) ∈ s'.memo.entries := by
  induction hrun with
  | refl => exact ⟨s, hb, he⟩
  | @tail m₁ m₂ hrun hstep ih =>
    obtain ⟨hs₁, hg₁⟩ := firm hrun hs
    have hlt₁ := Nat.lt_of_lt_of_le hlt hg₁.size
    obtain ⟨opened, hadv⟩ := id hstep
    have heff : m₁.heap.Effect { rules with opened := opened } m₂.heap := hadv.effect hs₁
    have halive₁ := heff.alive (Nat.lt_of_lt_of_le ho hg₁.size) halive
    obtain ⟨s₁, hb₁, he₁⟩ := ih (destroyed (.single hstep) hs₁ hlt₁ hd) halive₁
    obtain ⟨s₂, hb₂, rfl | hev⟩ := heff.label hb₁ hlt₁ hd
    · exact ⟨s₂, hb₂, he₁⟩
    · refine ⟨s₂, hb₂, (hev.keep _ he₁).resolve_right fun hgone => ?_⟩
      rw [show (m₁.heap.cell o).alive = false from hgone] at halive₁
      cases halive₁

theorem frozenKeys (hrun : Course rules m m') (hs : Firm rules.sealed m) (hcareful : rules.careful = true)
    (hk : m.heap.FrozenKeys) : m'.heap.FrozenKeys := by
  induction hrun with
  | refl => exact hk
  | tail hrun hstep ih =>
    obtain ⟨opened, hadv⟩ := hstep
    exact Heap.FrozenKeys.effect ih (show Heap.Effect _ { rules with opened := opened } _ from hadv.effect (firm hrun hs).1) hcareful

end Course

/-! ### Lookups for change -/

/-- At a moment of a careful run a label looks an object up for change, comes to `o`, and makes a new cell for it. -/
inductive Moment.Copies (label o : CellId) : Moment → Moment → Prop where
  | mk {h h' : Heap} {locks : List Lock} {kept : CellId → Prop} {ins frame : List Task} {a r : CellId} :
    Holding (.sparing kept) { careful := true } locks frame h ins → FieldLocks locks → ¬ kept label → h.IsObject a →
    .release a ∈ ins → (Handle.counted label).Fits (fun _ => False) h → .release label ∈ ins ++ frame →
    h.standIn label a = .ok o → mapGet (.counted label) a h = .ok (r, h') → h.size < h'.size →
    Copies label o ⟨h, locks, [], ins ++ frame⟩ ⟨h', locks, [], .release r :: (ins ++ frame)⟩

/-- What is looked up for change is copied only if it is frozen, and the copy is entered in the memo, unless the object
had one owner when it was frozen. -/
theorem Moment.Copies.entry (hc : m.Copies c o m') : Course { careful := true } m m' ∧
    ∃ x r, (m.heap.cell o).body = .object x ∧ m.heap.Copied m'.heap (.counted c) x r ∧ (m.heap.cell o).frozen = true ∧
      ((m.heap.cell o).flags.frozenSole = false → ∃ s, (m'.heap.cell c).body = .label s ∧ (o, r) ∈ s.memo.entries) := by
  obtain ⟨hh, hmemo, hfree, ha, hins, hl, hlabel, hseen, hrun, hsize⟩ := hc
  have hget := mapGet_spec (E := fun e => e = .selfWait) hh hmemo ha hins hl (fun t ht => List.mem_singleton.1 ht ▸ hlabel)
    (fun d hd => Handle.counted.inj hd ▸ hfree) (fun _ _ _ => False.elim) (fun _ _ h => h.elim False.elim False.elim) nofun
    fun _ _ _ _ _ _ => rfl
  rw [hrun] at hget
  obtain ⟨hgot, -, -, hr⟩ := hget
  refine ⟨Course.of_same hr.steps, ?_⟩
  cases hgot with
  | found _ _ hk =>
    rw [hk.size] at hsize
    exact absurd hsize (Nat.lt_irrefl _)
  | recycled _ _ _ _ _ hrec _ =>
    rw [hrec.size] at hsize
    exact absurd hsize (Nat.lt_irrefl _)
  | @copied label seen _ s x hlabel' hs hst hf hx hcopied _ hentered _ =>
    cases hlabel'
    have heq := Heap.standIn_of_stands hs (fun e he => ((hh.fits_label hs).entries e he).2.2) hst
    rw [hseen] at heq
    cases heq
    refine ⟨x, _, hx, hcopied, hf, fun hsole => ?_⟩
    rcases hentered with ⟨hsole', -⟩ | ⟨-, hs'⟩
    · rw [hsole] at hsole'
      cases hsole'
    · exact ⟨_, hs', List.mem_append_right _ List.mem_cons_self⟩

theorem Memo.get?_of_mem {m : Memo} (hm : (m.entries.map (·.1)).Nodup) (he : (o, d) ∈ m.entries) : m.get? o = some d := by
  cases hget : m.get? o with
  | none => exact absurd rfl (Memo.get?_eq_none_iff.1 hget _ he)
  | some d' => rw [Prod.mk.inj (List.inj_on_of_nodup_map hm (Memo.mem_of_get? hget) he rfl) |>.2]

/-- What an entry in a memo is good for: while its source is frozen, a walk from the source goes on from the copy, and no
walk ends at the source. -/
theorem Label.Fits.walks {sealed : CellId → Prop} (hfits : s.Fits sealed h c) (hb : (h.cell c).body = .label s)
    (he : (o, d) ∈ s.memo.entries) (hf : (h.cell o).frozen = true) :
    (∃ r, h.standIn c o = .ok r ∧ h.standIn c d = .ok r) ∧ ∀ a, h.standIn c a ≠ .ok o := by
  have horder : ∀ e ∈ s.memo.entries, e.1 < e.2 := fun e he => (hfits.entries e he).2.2
  have hget := Memo.get?_of_mem hfits.distinct he
  constructor
  · obtain ⟨r, hr⟩ := h.exists_stands horder d
    exact ⟨r, Heap.standIn_of_stands hb horder (.next hf hget hr), Heap.standIn_of_stands hb horder hr⟩
  · intro a ha
    obtain ⟨r, hr⟩ := h.exists_stands horder a
    rw [Heap.standIn_of_stands hb horder hr] at ha
    cases ha
    rw [hr.stops hf] at hget
    cases hget

/-! ### Runs -/

/-- The moments of a run in which memos map frozen objects. -/
abbrev Moment.Careful (m : Moment) : Prop := Course { careful := true } ⟨.initial, [], [], []⟩ m

namespace Moment.Careful

theorem firm (hm : m.Careful) : Firm (fun _ => False) m := (Course.firm hm (Safe.initial fun _ => id).toFirm).1

theorem fits (hm : m.Careful) (hb : (m.heap.cell c).body = .label s) : s.Fits (fun _ => False) m.heap c := by
  have := hm.firm.fits c
  rwa [hb] at this

/-- An entry lasts as long as the label and the owners of its source, and so long its source stays frozen. -/
theorem entry (hm : m.Careful) (hrun : Course { careful := true } m m') (hb : (m.heap.cell c).body = .label s)
    (he : (o, d) ∈ s.memo.entries) (hd : (m'.heap.cell c).destroyed = false) (halive : (m'.heap.cell o).alive = true) :
    ∃ s', (m'.heap.cell c).body = .label s' ∧ (o, d) ∈ s'.memo.entries ∧ (m'.heap.cell o).frozen = true := by
  have hlt : c < m.heap.size := Heap.lt_size_of_cell_ne fun hvoid => by
    rw [hvoid] at hb
    cases hb
    cases he
  obtain ⟨s', hb', he'⟩ := hrun.entry hm.firm hb he hlt ((hm.fits hb).entries _ he).1.lt_size hd halive
  have hc := Course.frozenKeys (hm.trans hrun) (Safe.initial fun _ => id).toFirm rfl ((Heap.Abides.initial { careful := true }).keys rfl) c
  rw [hb'] at hc
  exact ⟨s', hb', he', hc _ he' halive⟩

end Moment.Careful

namespace Situation

variable {x y : Situation} {careful apart closed : Bool} {allows : Session → Args → Op → Prop}

/-- What the heap goes through between two situations of a run. -/
theorem course_of_runs (hallows : ∀ s args op, allows s args op → op.Permitted { careful, apart, closed } s args)
    (hrun : Runs allows initial x) (hrun' : Runs allows x y) : Course { careful, apart, closed } x.moment y.moment := by
  have hcourse := hrun'.course plain_initial hallows (at_of_runs hallows hrun)
  rwa [held_within, held_within, locks_initial, locks_initial] at hcourse

/-- While nobody reaches into frozen objects, whatever owning pointer is stored in one leads to an object that is frozen and
there. So once a graph has been frozen, in place or to be cloned, all that its root leads to is frozen. -/
theorem closed_of_runs (hrun : Runs (fun s args op => op.Permitted { closed := true } s args) initial x) :
    (∀ c b, (x.session.heap.cell c).body = .object b → (x.session.heap.cell c).frozen = true →
      (x.session.heap.cell c).destroyed = false → ∀ d, b.LeadsTo d →
        (x.session.heap.cell d).frozen = true ∧ (x.session.heap.cell d).destroyed = false) ∧
    (x.locked = false → ∀ name t, x.session.slots.get? name = some t →
      (∃ q k, t.pointer.freeze x.session.heap = .ok (q, k) ∧ q.target.isSome = t.pointer.target.isSome ∧
        ∀ o, q.target = some o → ∀ c, k.LeadsTo o c → (k.cell c).frozen = true) ∧
      ∃ p q k, t.pointer.deepClone x.session.heap = .ok ((p, q), k) ∧ p.target.isSome = t.pointer.target.isSome ∧
        q.target = p.target ∧ ∀ o, p.target = some o → ∀ c, k.LeadsTo o c → (k.cell c).frozen = true) := by
  have ha := at_of_runs (fun _ _ _ => id) hrun
  refine ⟨fun c b hb hf hd t ht => ⟨ha.safe.abides.closed rfl rfl c b hb hf id t ht, ?_⟩, fun hx name t ht => ?_⟩
  · have hs := ha.safe.toSound
    exact (hs.live_of_edge (hs.live_of_not_destroyed rfl hd) (Heap.mem_edges_of_leadsTo hb ht)).destroyed
  · obtain ⟨frame, -, hsafe, hfits⟩ := ha.inHand hx ht
    have hh : Holding .calm { closed := true } [] frame x.session.heap t.pointer.tasks := hsafe.holding (.refl _)
    constructor
    · obtain ⟨q, k, hrun, hfreezes, -, -, hpass⟩ := (Pointer.freeze_spec (E := fun _ => False) (R := fun _ _ _ => True) hh hfits
        (fun _ _ => id) fun _ _ _ _ _ _ _ _ _ => trivial).exists_ok
      exact ⟨q, k, hrun, hfreezes.isSome, fun o ho c hc => (hpass.safe.abides.closed rfl rfl).leadsTo (hfreezes.frozen ho) hc⟩
    · obtain ⟨⟨p, q⟩, k, hrun, hclones, hp, -, hpass⟩ := (Pointer.deepClone_spec (E := fun _ => False) (R := fun _ _ _ => True)
        hh hfits (fun _ _ => ⟨id, id⟩) (fun _ => id) (fun _ _ => id) fun _ _ _ _ _ _ _ _ _ => trivial).exists_ok
      obtain ⟨htarget, hfrozen⟩ := hclones.frozen hp
      exact ⟨p, q, k, hrun, hclones.isSome, htarget, fun o ho c hc => (hpass.safe.abides.closed rfl rfl).leadsTo (hfrozen o ho) hc⟩

/-- A node that leads to another one is frozen together with it. -/
def frozenPair : List (Op × Args) :=
  [(.label .spawn, { Args.blank with dest := some "l" }),
    (.pointer .new, { Args.blank with dest := some "p", value := some (.int 3), within := some "l" }),
    (.pointer .newRecycled, { Args.blank with dest := some "q", a := some "p", value := some (.int 4), label := some "l" }),
    (.object .freeze, { Args.blank with a := some "q" })]

theorem closed_of_frozenPair : ∃ x b t, initial.after (frozenPair ++ [(.pointer .newRecycled, { Args.blank with
      dest := some "r", a := some "q", value := some (.int 5), label := some "l" })]) = some x ∧
    ((x.session.heap.cell 3).body = .object b ∧ b.LeadsTo 2 ∧ (x.session.heap.cell 2).frozen = true ∧
      (x.session.heap.cell 2).destroyed = false) ∧
    x.session.slots.get? "r" = some t ∧ (t.pointer.target = some 4 ∧ (x.session.heap.cell 4).frozen = false) ∧
    (∃ o q k, t.pointer.freeze x.session.heap = .ok (q, k) ∧ q.target = some o ∧
      ∀ c, k.LeadsTo o c → (k.cell c).frozen = true) ∧
    ∃ o p q k, t.pointer.deepClone x.session.heap = .ok ((p, q), k) ∧ p.target = some o ∧ q.target = some o ∧
      ∀ c, k.LeadsTo o c → (k.cell c).frozen = true := by
  obtain ⟨x, hx, h⟩ : ∃ x, initial.after (frozenPair ++ [(.pointer .newRecycled, { Args.blank with
      dest := some "r", a := some "q", value := some (.int 5), label := some "l" })]) = some x ∧ (x.locked,
      (x.session.heap.cell 3).frozen, (x.session.heap.cell 3).destroyed,
      (x.session.heap.cell 3).object?.map fun b => b.links.filterMap (·.target?),
      (x.session.slots.get? "r").map (·.pointer.target), (x.session.heap.cell 4).frozen) =
      (false, true, false, some [2], some (some 4), false) := Option.map_eq_some_iff.1 (by cbv)
  simp only [Prod.mk.injEq, Option.map_eq_some_iff] at h
  obtain ⟨hlocked, hf, hd, ⟨b, hb, hlinks⟩, ⟨t, ht, htarget⟩, hthawed⟩ := h
  have hbody := Cell.body_of_object? hb
  have hleads : b.LeadsTo 2 := by
    obtain ⟨l, hl, ht⟩ := List.mem_filterMap.1 (hlinks ▸ List.mem_cons_self)
    cases l with
    | owned p => exact ⟨p, hl, ht⟩
    | weak w => cases ht
    | label l => cases ht
  have hrun : Runs (fun s args op => op.Permitted { closed := true } s args) initial x := runs_of_after rfl hx fun s p hp => by
    simp only [frozenPair, List.cons_append, List.nil_append, List.mem_cons, List.not_mem_nil, or_false] at hp
    rcases hp with rfl | rfl | rfl | rfl | rfl
    · trivial
    · trivial
    · trivial
    · refine ⟨fun _ o h hr => ?_, fun _ hc => hc.elim⟩
      cases hr with
      | borrow hop _ _ _ _ _ => simp at hop
    · trivial
  obtain ⟨hclosed, hslots⟩ := closed_of_runs hrun
  obtain ⟨⟨q, k, hfreeze, hsome, hfrozen⟩, p, q', k', hclone, hsome', hsame, hfrozen'⟩ := hslots hlocked "r" t ht
  rw [htarget] at hsome hsome'
  obtain ⟨o, ho⟩ := Option.isSome_iff_exists.1 hsome
  obtain ⟨o', ho'⟩ := Option.isSome_iff_exists.1 hsome'
  exact ⟨x, b, t, hx, ⟨hbody, hleads, hclosed 3 b hbody hf hd 2 hleads⟩, ht, ⟨htarget, hthawed⟩,
    ⟨o, q, k, hfreeze, ho, hfrozen o ho⟩, o', p, q', k', hclone, ho', hsame.trans ho', hfrozen' o' ho'⟩

/-- While labels are forked and copied only when they are frozen, and objects are not resolved under labels of others,
labels have a copy in common only if it is frozen, a frozen label has frozen copies only, whatever was entered in a memo is
noted, and from then on a frozen label loses only entries whose source has no owner. -/
theorem apart_of_runs (hrun : Runs (fun s args op => op.Permitted { apart := true } s args) initial x) :
    (∀ c d s s', (x.session.heap.cell c).body = .label s → (x.session.heap.cell d).body = .label s' → c ≠ d →
      ∀ v ∈ s.memo.copies, v ∈ s'.memo.copies → (x.session.heap.cell v).frozen = true) ∧
    (∀ c s, (x.session.heap.cell c).body = .label s → s.frozen = true → ∀ v ∈ s.memo.copies,
      (x.session.heap.cell v).frozen = true) ∧
    (∀ c s, (x.session.heap.cell c).body = .label s → s.written = false → s.memo.entries = []) ∧
    ∀ y, Runs (fun s args op => op.Permitted { apart := true } s args) x y → ∀ c s,
      (x.session.heap.cell c).body = .label s → s.frozen = true → (y.session.heap.cell c).destroyed = false →
      ∃ s', (y.session.heap.cell c).body = .label s' ∧ s'.frozen = true ∧ (∀ e ∈ s'.memo.entries, e ∈ s.memo.entries) ∧
        ∀ e ∈ s.memo.entries, e ∈ s'.memo.entries ∨ (y.session.heap.cell e.1).alive = false := by
  have ha := at_of_runs (fun _ _ _ => id) hrun
  have hapart := ha.safe.abides.apart rfl
  have hfits : ∀ c s, (x.session.heap.cell c).body = .label s → Label.Fits (fun _ => False) x.session.heap c s := fun c s hs => by
    have := ha.safe.fits c
    rwa [show (_ : Heap).cell c = x.session.heap.cell c from rfl, hs] at this
  refine ⟨hapart.common, fun c s hs hf => hapart.shut c s hs hf id, fun c s hs => (hfits c s hs).written,
    fun y hy c s hs hf hd => ?_⟩
  have hlt : c < x.session.heap.size := Heap.lt_size_of_cell_ne fun he => by
    rw [he] at hs
    cases hs
    cases hf
  exact (course_of_runs (fun _ _ _ => id) hrun hy).shut ha.moment.1 rfl hs hf hlt
    (fun e he => ((hfits c s hs).entries e he).1.lt_size) hd

/-- A label with a copy is frozen. -/
def frozenCopy : List (Op × Args) := copiedNode ++ [(.label .freeze, { Args.blank with a := some "l" })]

theorem apart_of_frozenCopy : ∃ x s, initial.after frozenCopy = some x ∧ (x.session.heap.cell 1).body = .label s ∧
    s.memo.copies = [3] ∧ (x.session.heap.cell 3).frozen = true := by
  obtain ⟨x, hx, h⟩ : ∃ x, initial.after frozenCopy = some x ∧ (x.session.heap.cell 1).label?.map (fun s =>
      (s.frozen, s.memo.copies)) = some (true, [3]) := Option.map_eq_some_iff.1 (by cbv)
  obtain ⟨s, hs, h⟩ := Option.map_eq_some_iff.1 h
  obtain ⟨hf, hcopies⟩ := Prod.mk.inj h
  have hbody := Cell.body_of_label? hs
  have hrun : Runs (fun s args op => op.Permitted { apart := true } s args) initial x := runs_of_after rfl hx fun s p hp => by
    simp only [frozenCopy, copiedNode, List.cons_append, List.nil_append, List.mem_cons, List.not_mem_nil, or_false] at hp
    rcases hp with rfl | rfl | rfl | rfl | rfl | rfl
    · trivial
    · trivial
    · trivial
    · exact Attempt.unfrozen_of_not_minds (by simp [Rules.Minds])
    · exact Attempt.unfrozen_of_not_minds (by simp [Rules.Minds])
    · trivial
  exact ⟨x, s, hx, hbody, hcopies, (apart_of_runs hrun).2.1 1 s hbody hf 3 (hcopies ▸ List.mem_singleton.2 rfl)⟩

/-- In a run in which no object is copied by hand, an entry of a memo stays while the label is there and its source has
owners. So long the source is frozen, a walk from it goes on from the copy, and no walk ends at it: once a label has copied an
object and noted it, it makes no other copy of it. -/
theorem copies_of_runs (hrun : Runs (fun s args op => op.Permitted { careful := true } s args) initial x)
    (hm : Course { careful := true } x.moment m) :
    (∀ m', Course { careful := true } m m' → ∀ c s o d, (m.heap.cell c).body = .label s → (o, d) ∈ s.memo.entries →
      (m'.heap.cell c).destroyed = false → (m'.heap.cell o).alive = true →
      (∃ s', (m'.heap.cell c).body = .label s' ∧ (o, d) ∈ s'.memo.entries) ∧ (m'.heap.cell o).frozen = true ∧
        (∃ r, m'.heap.standIn c o = .ok r ∧ m'.heap.standIn c d = .ok r) ∧ ∀ a, m'.heap.standIn c a ≠ .ok o) ∧
    ∀ m₁ m₂ m₃ c o, m.Copies c o m₁ → (m.heap.cell o).flags.frozenSole = false → Course { careful := true } m₁ m₂ →
      (m₂.heap.cell c).destroyed = false → (m₂.heap.cell o).alive = true → ¬ m₂.Copies c o m₃ := by
  have hcareful : m.Careful := (at_of_runs (fun _ _ _ => id) hrun).course_moment.trans hm
  have hlasts : ∀ m₁, m₁.Careful → ∀ m₂, Course { careful := true } m₁ m₂ → ∀ c s o d, (m₁.heap.cell c).body = .label s →
      (o, d) ∈ s.memo.entries → (m₂.heap.cell c).destroyed = false → (m₂.heap.cell o).alive = true →
      (∃ s', (m₂.heap.cell c).body = .label s' ∧ (o, d) ∈ s'.memo.entries) ∧ (m₂.heap.cell o).frozen = true ∧
        (∃ r, m₂.heap.standIn c o = .ok r ∧ m₂.heap.standIn c d = .ok r) ∧ ∀ a, m₂.heap.standIn c a ≠ .ok o := by
    intro m₁ hm₁ m₂ hrun₂ c s o d hb he hd halive
    obtain ⟨s', hb', he', hf⟩ := hm₁.entry hrun₂ hb he hd halive
    exact ⟨⟨s', hb', he'⟩, hf, Label.Fits.walks (Moment.Careful.fits (hm₁.trans hrun₂) hb') hb' he' hf⟩
  refine ⟨hlasts m hcareful, fun m₁ m₂ m₃ c o hcopies hsole hlater hd halive hagain => ?_⟩
  obtain ⟨hcourse, x, r, -, -, -, hentered⟩ := hcopies.entry
  obtain ⟨s, hb, he⟩ := hentered hsole
  obtain ⟨-, -, -, hnever⟩ := hlasts m₁ (hcareful.trans hcourse) m₂ hlater c s o r hb he hd halive
  cases hagain with
  | mk _ _ _ _ _ _ _ hseen _ _ => exact hnever _ hseen

/-- A label that looks up the target of a pointer between two operations. -/
theorem At.copies (ha : x.At (.initial true false false)) (hx : x.locked = false) {name : String} {t : Slot} {a : CellId}
    (ht : x.session.slots.get? name = some t) (hp : t.pointer = ⟨some a, .counted c⟩)
    (hseen : x.session.heap.standIn c a = .ok o) (hrun : mapGet (.counted c) a x.session.heap = .ok (r, h'))
    (hsize : x.session.heap.size < h'.size) : ∃ m m', Course { careful := true } x.moment m ∧ m.heap = x.session.heap ∧
      m.Copies c o m' := by
  obtain ⟨frame, hperm, hsafe, hfits⟩ := ha.inHand hx ht
  have hlocks := locks_within (.initial true false false) rfl hx
  rw [locks_initial] at hlocks
  rw [hp] at hperm hsafe hfits
  have hh : Holding (.sparing fun _ => False) { careful := true } [] frame x.session.heap (Pointer.tasks ⟨some a, .counted c⟩) :=
    hsafe.holding (.refl _)
  refine ⟨⟨x.session.heap, [], [], Pointer.tasks ⟨some a, .counted c⟩ ++ frame⟩, _, .single ⟨fun _ => False, ?_⟩, rfl,
    .mk hh .nil id (hfits.target a rfl) List.mem_cons_self hfits.label
      (List.mem_append_left _ (List.mem_cons_of_mem _ List.mem_cons_self)) hseen hrun hsize⟩
  rw [show x.moment = ⟨x.session.heap, x.moment.locks, [], x.moment.held⟩ from rfl, hlocks]
  exact .arrange hperm

theorem copies_of_copiedNode : ∃ (x : Situation) (m m₁ : Moment), initial.after copiedNode.dropLast = some x ∧ m.heap = x.session.heap ∧
    m.Copies 1 2 m₁ ∧ ∀ m₂ m₃, Course { careful := true } m₁ m₂ → (m₂.heap.cell 1).destroyed = false →
      (m₂.heap.cell 2).alive = true → ¬ m₂.Copies 1 2 m₃ := by
  obtain ⟨x, hx, h⟩ : ∃ x, initial.after copiedNode.dropLast = some x ∧ (x.locked,
      (x.session.slots.get? "p").map (·.pointer), x.session.heap.standIn 1 2, x.session.heap.size,
      (mapGet (.counted 1) 2 x.session.heap).toOption.map (·.2.size), (x.session.heap.cell 2).flags.frozenSole) =
      (false, some ⟨some 2, .counted 1⟩, .ok 2, 3, some 4, false) := Option.map_eq_some_iff.1 (by cbv)
  simp only [Prod.mk.injEq, Option.map_eq_some_iff] at h
  obtain ⟨hlocked, ⟨t, ht, hp⟩, hseen, hsize, ⟨⟨r, h'⟩, hget, hsize'⟩, hsole⟩ := h
  have hruns : Runs (fun s args op => op.Permitted { careful := true } s args) initial x := runs_of_after rfl hx fun s p hp => by
    simp only [copiedNode, List.dropLast_cons_cons, List.dropLast_singleton, List.mem_cons, List.not_mem_nil, or_false] at hp
    rcases hp with rfl | rfl | rfl | rfl
    · trivial
    · trivial
    · trivial
    · exact Attempt.unfrozen_of_not_minds (by simp [Rules.Minds])
  obtain ⟨m, m₁, hm, hheap, hcopies⟩ := (at_of_runs (fun _ _ _ => id) hruns).copies hlocked ht hp hseen (ok_of_toOption hget) (by
    rw [hsize, show h'.size = 4 from hsize']
    decide)
  exact ⟨x, m, m₁, hx, hheap, hcopies, fun m₂ m₃ hlater hd halive =>
    (copies_of_runs hruns hm).2 m₁ m₂ m₃ 1 2 hcopies (hheap ▸ hsole) hlater hd halive⟩

end Situation

end LazyHeap
