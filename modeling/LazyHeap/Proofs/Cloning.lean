import LazyHeap.Proofs.Freezing
import LazyHeap.Proofs.Pulling

/-!
Cloning a graph lazily. The graph is frozen, then the label of the pointer with all copies in its memo; the clone
sees the graph through a label that nobody else has.
-/
namespace LazyHeap

variable {rules : Rules} {kept : CellId → Prop} {locks : List Lock} {frame : List Task} {h k k' : Heap}
variable {c d : CellId} {s : Label} {E : Fault → Prop}

/-! ### Later moments -/

namespace Heap

/-- A later moment, while labels are being frozen: what was frozen is as it was, and labels may only be frozen. -/
structure Stills (h k : Heap) : Prop where
  size : k.size = h.size
  scopes : k.scopes = h.scopes
  destroyed : ∀ d, (h.cell d).destroyed = true → (k.cell d).destroyed = true
  freezing : ∀ d, (h.cell d).frozen = true → (k.cell d).flags.freezing = (h.cell d).flags.freezing
  object : ∀ d o, (h.cell d).body = .object o → (k.cell d).destroyed = false →
    ∃ o', (k.cell d).body = .object o' ∧ o'.kind = o.kind ∧ o'.value = o.value ∧ ((h.cell d).frozen = true → o' = o)
  label : ∀ d l, (h.cell d).body = .label l → (k.cell d).destroyed = false →
    ∃ f, (k.cell d).body = .label { l with frozen := f } ∧ (l.frozen = true → f = true)

namespace Stills

protected theorem refl (h : Heap) : h.Stills h :=
  ⟨rfl, rfl, fun _ => id, fun _ _ => rfl, fun _ o ho _ => ⟨o, ho, rfl, rfl, fun _ => rfl⟩,
    fun _ l hl _ => ⟨l.frozen, hl, id⟩⟩

theorem frozen (hs : h.Stills k) (d : CellId) (hf : (h.cell d).frozen = true) : (k.cell d).frozen = true :=
  (Cell.frozen_of_freezing (hs.freezing d hf)).trans hf

protected theorem trans (h₁ : h.Stills k) (h₂ : k.Stills k') : h.Stills k' where
  size := h₂.size.trans h₁.size
  scopes := h₂.scopes.trans h₁.scopes
  destroyed d hd := h₂.destroyed d (h₁.destroyed d hd)
  freezing d hf := (h₂.freezing d (h₁.frozen d hf)).trans (h₁.freezing d hf)
  object d o ho hd := by
    have hd' : (k.cell d).destroyed = false := Bool.eq_false_iff.2 fun hk => by
      rw [h₂.destroyed d hk] at hd
      cases hd
    obtain ⟨o', ho', hk', hv', hf'⟩ := h₁.object d o ho hd'
    obtain ⟨o'', ho'', hk'', hv'', hf''⟩ := h₂.object d o' ho' hd
    exact ⟨o'', ho'', hk''.trans hk', hv''.trans hv', fun hf => (hf'' (h₁.frozen d hf)).trans (hf' hf)⟩
  label d l hl hd := by
    have hd' : (k.cell d).destroyed = false := Bool.eq_false_iff.2 fun hk => by
      rw [h₂.destroyed d hk] at hd
      cases hd
    obtain ⟨f, hf, hle⟩ := h₁.label d l hl hd'
    obtain ⟨f', hf', hle'⟩ := h₂.label d _ hf hd
    exact ⟨f', hf', fun hl => hle' (hle hl)⟩

theorem unfrozen (hs : h.Stills k) (hd : (k.cell d).frozen = false) : (h.cell d).frozen = false :=
  Bool.eq_false_iff.2 fun hf => by
    rw [hs.frozen d hf] at hd
    cases hd

end Stills

theorem Fades.edges (hf : h.Fades k) {x : CellId} (hd : d ∈ (k.cell x).edges) : d ∈ (h.cell x).edges := by
  rw [← Cell.release_mem_tasks] at hd ⊢
  rcases hf.body x with hb | ⟨hb, -⟩ <;> rw [hb] at hd
  · exact hd
  · rw [Body.tasks_emptied] at hd
    cases hd

theorem Kept.stills {hold : List Task} (hk : h.Kept hold k) : h.Stills k where
  size := hk.size
  scopes := hk.scopes
  destroyed := hk.fades.destroyed
  freezing d _ := hk.fades.freezing d
  object _ o ho hd := ⟨o, (hk.fades.body_of_live hd).trans ho, rfl, rfl, fun _ => rfl⟩
  label _ l hl hd := ⟨l.frozen, (hk.fades.body_of_live hd).trans hl, id⟩

theorem Chills.stills {R : Link → Link → Prop} (hc : h.Chills R k) (ht : h.Tidy k frame) : h.Stills k where
  size := hc.size
  scopes := hc.scopes
  destroyed := hc.destroyed
  freezing := ht.freezing
  object d o ho hd := by
    rcases hc.body d o ho hd with ⟨-, hsame⟩ | ⟨hun, -, o', ho', hs⟩
    · exact ⟨o, hsame, rfl, rfl, fun _ => rfl⟩
    · exact ⟨o', ho', hs.kind, hs.value, fun hf => by rw [hun] at hf; cases hf⟩
  label d l hl hd := ⟨l.frozen, (hc.label d (fun ⟨o, ho⟩ => by rw [hl] at ho; cases ho) hd).trans hl, id⟩

theorem stills_putLabel (hb : (h.cell c).body = .label s) (hc : c < h.size) :
    h.Stills (h.putLabel c { s with frozen := true }) := by
  have hself := h.putLabel_self hb hc { s with frozen := true }
  have hcell : ∀ d, (d = c ∧ (h.putLabel c { s with frozen := true }).cell d =
      { h.cell c with body := .label { s with frozen := true } }) ∨
      (h.putLabel c { s with frozen := true }).cell d = h.cell d := fun d => by
    by_cases hd : d = c
    · subst hd
      exact .inl ⟨rfl, hself⟩
    · exact .inr ((h.putLabel_differs c _).others d hd)
  refine ⟨h.size_update c _, rfl, fun d hd => ?_, fun d _ => ?_, fun d o ho _ => ?_, fun d l hl _ => ?_⟩ <;>
    rcases hcell d with ⟨rfl, he⟩ | he <;> rw [he]
  · exact hd
  · exact hd
  · rw [hb] at ho
    cases ho
  · exact ⟨o, ho, rfl, rfl, fun _ => rfl⟩
  · rw [hb] at hl
    cases hl
    exact ⟨true, rfl, fun _ => rfl⟩
  · exact ⟨l.frozen, hl, id⟩

end Heap

/-- Without locks a safe moment is one between two steps of an operation, however what is held is divided. -/
theorem Safe.holding {manner : Manner} {held ins : List Task} (hs : Safe rules ⟨h, [], [], held⟩)
    (hp : held.Perm (ins ++ frame)) : Holding manner rules [] frame h ins := ⟨(hs.step (.arrange hp)).1, nofun⟩

/-! ### Freezing a label -/

/-- The laws hold without an exemption for a label once its copies are frozen. -/
private theorem safe_of_frozen_copies {h : Heap}
    (hs : Safe { rules with opened := fun d => rules.opened d ∨ d = c } ⟨h, locks, [], frame⟩)
    (hl : ∀ l, (h.cell c).body = .label l → ∀ v ∈ l.memo.copies, (h.cell v).frozen = true)
    (ho : ¬ h.IsObject c) : Safe rules ⟨h, locks, [], frame⟩ where
  toFirm := hs.toFirm
  abides := {
    keys := hs.abides.keys
    apart := fun hap => ⟨(hs.abides.apart hap).common, fun x l hx hf hn => by
      by_cases hxc : x = c
      · subst hxc
        exact hl l hx
      · exact (hs.abides.apart hap).shut x l hx hf fun hop => hop.elim hn hxc⟩
    closed := fun hcl hlen x o hx hf hn => hs.abides.closed hcl hlen x o hx hf fun hop => hop.elim hn fun he =>
      ho ⟨o, he ▸ hx⟩
    tiered := fun hcl => by
      have hcopy : ∀ x l, (h.cell x).body = .label l → ∀ v ∈ l.memo.copies, v ≠ c := fun x l hx v hv he => by
        obtain ⟨e, he', rfl⟩ := List.mem_map.1 hv
        have hfits := hs.fits x
        rw [show (Moment.heap _).cell x = h.cell x from rfl, hx] at hfits
        exact ho (he ▸ (hfits.entries e he').2.1)
      have htarget : ∀ x o t, (h.cell x).body = .object o → o.LeadsTo t → t ≠ c := fun x o t hx ⟨p, hp, ht⟩ he => by
        have hfits := hs.fits x
        rw [show (Moment.heap _).cell x = h.cell x from rfl, hx] at hfits
        exact ho (he ▸ (hfits.2 _ hp).target t ht)
      obtain ⟨rank, hrank⟩ := (hs.abides.tiered hcl).ranked
      exact ⟨fun x l hx v hv hn => (hs.abides.tiered hcl).copies x l hx v hv fun hop => hop.elim hn (hcopy x l hx v hv),
        rank, fun x o t hx hsole hn ht hst hn' => hrank x o t hx hsole (fun hop => hop.elim hn fun he => ho ⟨o, he ▸ hx⟩) ht
          hst fun hop => hop.elim hn' (htarget x o t hx ht)⟩
    root := hs.abides.root }
  sealed := hs.sealed

private theorem freezeCopy_spec {v : CellId} (hs : Safe rules ⟨h, [], [], .release v :: frame⟩) (hv : h.IsObject v)
    (hfixed : ∀ d, (h.cell d).frozen = false → ¬ rules.fixed d) :
    Ends E ((do freezeGraph v; release v : HeapM PUnit) h) fun _ k => h.Stills k ∧
      Course rules ⟨h, [], [], .release v :: frame⟩ ⟨k, [], [], frame⟩ ∧ Safe rules ⟨k, [], [], frame⟩ ∧
      (k.cell v).frozen = true := by
  refine .bind (freezeGraph_spec (R := fun _ _ => True) (fun _ _ _ _ _ _ => trivial) ⟨hs, nofun⟩ hv
    (.inl List.mem_cons_self) hfixed) fun _ k₁ ⟨hz, htidy, hcourse₁, hs₁, hfr₁⟩ => ?_
  refine (release_spec (c := v) ⟨hs₁, nofun⟩).imp fun _ k₂ hr₂ => ?_
  have hk₂ : k₁.Kept frame k₂ := hr₂.keeps
  exact ⟨(hz.stills htidy).trans hk₂.stills, hcourse₁.trans (Course.of_steps hr₂.steps), (hs₁.steps hr₂.steps).1,
    (hk₂.fades.frozen v).trans hfr₁⟩

private theorem freezeCopies_spec : ∀ (vs : List CellId) {h : Heap},
    Safe rules ⟨h, [], [], vs.map .release ++ frame⟩ → (∀ v ∈ vs, h.IsObject v) →
    (∀ d, (h.cell d).frozen = false → ¬ rules.fixed d) →
    Ends E ((vs.forM fun v => do freezeGraph v; release v : HeapM PUnit) h) fun _ k => h.Stills k ∧
      Course rules ⟨h, [], [], vs.map .release ++ frame⟩ ⟨k, [], [], frame⟩ ∧ Safe rules ⟨k, [], [], frame⟩ ∧
      ∀ v ∈ vs, (k.cell v).frozen = true
  | [], h, hs, _, _ => ⟨.refl h, .refl, hs, nofun⟩
  | v :: vs, h, hs, hobj, hfixed => by
    refine .bind (freezeCopy_spec hs (hobj v List.mem_cons_self) hfixed) fun _ k ⟨hst, hcourse, hs', hfr⟩ => ?_
    have hgrows := (Course.firm hcourse hs.toFirm).2
    exact (freezeCopies_spec vs hs' (fun w hw => hgrows.object w (hobj w (.tail _ hw)))
      fun d hd => hfixed d (hst.unfrozen hd)).imp fun _ k' ⟨hst', hcourse', hs'', hall⟩ =>
        ⟨hst.trans hst', hcourse.trans hcourse', hs'', List.forall_mem_cons.2 ⟨hst'.frozen v hfr, hall⟩⟩

private theorem retainAll_spec (cs : List CellId) (hh : Holding .calm rules locks frame h [])
    (hcs : ∀ c ∈ cs, h.IsObject c ∧ h.Reach (h.Held frame) c) :
    Ends E (cs.forM retain h) fun _ k => Run .calm rules locks frame h [] k (cs.map .release) := by
  have hnil : cs.flatMap (fun _ => ([] : List Task)) = [] := by simp
  have hall : cs.flatMap (fun c => [Task.release c]) = cs.map .release := by rw [List.map_eq_flatMap]
  refine (forM_spec (s := fun _ => []) (t := fun c => [.release c]) (fun done c rest k hd hk hhk => ?_)
    (by rwa [hnil])).imp fun _ k hr => by rwa [hnil, hall] at hr
  obtain ⟨hobj, hreach⟩ := hcs c (hd ▸ List.mem_append_right _ List.mem_cons_self)
  have hobj := hk.grows.object c hobj
  have hlive : k.Live c := hhk.safe.live_of_reach <|
    (hk.within (c := c) hreach).reach.subset fun _ => Or.imp_left fun ht => List.mem_append_right _ (List.mem_append_right _ ht)
  exact (retain_spec hhk hlive (hhk.object_ne_root hobj)).imp fun _ _ hr => hr.1

/-- Freezing a label freezes its copies, each with what it leads to. -/
theorem freezeLabel_spec (hh : Holding .calm rules [] frame h []) (hb : (h.cell c).body = .label s)
    (hc : h.Held frame c) (hsealed : ¬ rules.sealed c) (hsteady : ¬ rules.steady c)
    (hfixed : ∀ d, (h.cell d).frozen = false → ¬ rules.fixed d) :
    Ends E (freezeLabel c h) fun _ k => h.Stills k ∧ Course rules ⟨h, [], [], frame⟩ ⟨k, [], [], frame⟩ ∧
      Safe rules ⟨k, [], [], frame⟩ ∧ (k.cell c).body = .label { s with frozen := true } := by
  have hs : Safe rules ⟨h, [], [], frame⟩ := hh.safe
  obtain ⟨s₁, he₁⟩ : ∃ s₁ : Label, s₁ = { s with frozen := true } := ⟨_, rfl⟩
  rw [← he₁]
  unfold freezeLabel
  refine .get_bind ?_
  rw [h.label_eq hb]
  cases hfz : s.frozen with
  | true =>
    simp only [if_true]
    refine .pure ⟨.refl h, .refl, hs, ?_⟩
    rw [hb, he₁, ← hfz]
  | false =>
    simp only [Bool.false_eq_true, if_false]
    refine .updateCell_bind ?_
    rw [h.update_label_eq hb fun l => { l with frozen := true }, ← he₁]
    have hlt := (hh.live_held hc).lt_size
    let rules₁ : Rules := { rules with opened := fun d => rules.opened d ∨ d = c }
    have hmemo : s₁.memo = s.memo := he₁ ▸ rfl
    have hs₁ : Safe rules₁ ⟨h, [], [], frame⟩ := hs.exempt fun _ => .inl
    have hh₀ : Holding .calm rules₁ [] frame h [] := ⟨hs₁, by simp⟩
    have hstep : Advance rules₁ ⟨h, [], [], [] ++ frame⟩ ⟨h.putLabel c s₁, [], [], [] ++ frame⟩ :=
      hh₀.putLabel (t := s₁) hb (.source hc) (by rw [he₁]; exact ⟨fun _ he => .inl he, fun _ he => .inl he, fun _ => rfl,
        fun _ _ => .inr (.inr rfl), .inl rfl, hsealed, fun hst => absurd hst hsteady⟩) (by rw [he₁]; exact { hh.fits_label hb with })
        (by rw [he₁]; exact fun _ _ => id) (by rw [he₁]; exact .refl _)
        (hh₀.locks_same hb (by rw [he₁]))
    have hb₁ : ((h.putLabel c s₁).cell c).body = .label s₁ := h.putLabel_body hb hlt
    have hst₁ : h.Stills (h.putLabel c s₁) := he₁ ▸ h.stills_putLabel hb hlt
    have hs₁ : Safe rules₁ ⟨h.putLabel c s₁, [], [], frame⟩ := (hs₁.step hstep).1
    have hheld₁ : (h.putLabel c s₁).Held frame c := hc
    generalize h.putLabel c s₁ = h₁ at *
    have hnot : ∀ {k : Heap}, (k.cell c).body = .label s₁ → ¬ k.IsObject c := by
      rintro k hk ⟨o, ho⟩
      rw [hk] at ho
      cases ho
    have hh₁ : Holding .calm rules₁ [] frame h₁ [] := ⟨hs₁, by simp⟩
    have hfits := hh₁.fits_label hb₁
    cases hw : s.written with
    | false =>
      simp only [Bool.not_false, if_true]
      refine .pure ⟨hst₁, Course.of_steps (.single hstep), safe_of_frozen_copies hs₁ (fun l hl v hv => ?_) (hnot hb₁), hb₁⟩
      rw [hb₁] at hl
      cases hl
      rw [Memo.copies, hfits.written (by rw [he₁]; exact hw)] at hv
      cases hv
    | true =>
      simp only [Bool.not_true, Bool.false_eq_true, if_false]
      have hcopy : ∀ v ∈ s.memo.copies, h₁.IsObject v := fun v hv => by
        obtain ⟨e, he, rfl⟩ := List.mem_map.1 hv
        exact (hfits.entries e (hmemo ▸ he)).2.1
      refine .bind (retainAll_spec s.memo.copies hh₁ fun v hv => ⟨hcopy v hv, .edge (.source hheld₁)
        (Heap.mem_edges_of_copy hb₁ (hmemo ▸ hv))⟩) fun _ h₂ hr₂ => ?_
      have hk₂ : h₁.Kept frame h₂ := hr₂.keeps
      have hst₂ := hst₁.trans hk₂.stills
      have hs₂ : Safe rules₁ ⟨h₂, [], [], s.memo.copies.map .release ++ frame⟩ := (hh₁.run hr₂).safe
      have hcopies := freezeCopies_spec (E := E) s.memo.copies hs₂ (fun v hv => hk₂.grows.object v (hcopy v hv))
        fun d hd => hfixed d (hst₂.unfrozen hd)
      refine hcopies.imp ?_
      rintro - k ⟨hst₃, hcourse, hs₃, hall⟩
      have hheld : k.Held frame c := hheld₁.imp_right fun hm => by rwa [Heap.standing, hst₃.scopes, hk₂.scopes]
      have hlive : k.Live c := Holding.live_held (⟨hs₃, by simp⟩ : Holding .calm rules₁ [] frame k []) hheld
      obtain ⟨f, hbk, hf⟩ := (hk₂.stills.trans hst₃).label c s₁ hb₁ hlive.destroyed
      rw [hf (by rw [he₁])] at hbk
      have hbk : (k.cell c).body = .label s₁ := by rw [hbk, he₁]
      refine ⟨hst₂.trans hst₃, (Course.of_steps (.head hstep hr₂.steps)).trans hcourse,
        safe_of_frozen_copies hs₃ (fun l hl v hv => ?_) (hnot hbk), hbk⟩
      rw [hbk] at hl
      cases hl
      exact hall v (hmemo ▸ hv)

private theorem leaves_of_idle {u : PUnit} (hrun : freezeLabel c h = .ok (u, k)) (hb : (h.cell c).body = .label s)
    (hc : c < h.size) (hidle : s.memo.copies = []) : h.Leaves (· ≠ c) k := by
  have hput : k = h ∨ k = h.putLabel c { s with frozen := true } := by
    have hends : Ends (fun _ => True) (freezeLabel c h) fun _ k => k = h ∨ k = h.putLabel c { s with frozen := true } := by
      unfold freezeLabel
      refine .get_bind ?_
      rw [h.label_eq hb, hidle]
      split
      · exact .pure (.inl rfl)
      · refine .updateCell_bind ?_
        rw [h.update_label_eq hb fun l => { l with frozen := true }]
        split <;> exact .pure (.inr rfl)
    rw [hrun] at hends
    exact hends
  rcases hput with rfl | rfl
  · exact .refl _ k
  · have hother := (h.putLabel_differs c { s with frozen := true }).others
    refine ⟨⟨Nat.le_of_eq (h.size_update c _).symm, fun d _ hd => ?_, fun d hdc _ => ?_, fun d o hdc ho _ => ⟨o, ?_, .refl o⟩⟩,
      fun d l hdc _ hl _ => ⟨l, ?_, .refl l⟩⟩
    · by_cases hdc : d = c
      · rw [hdc] at hd ⊢
        rw [h.putLabel_self hb hc]
        exact hd
      · rwa [hother d hdc]
    · rw [hother d hdc]
    · rwa [hother d hdc]
    · rwa [hother d hdc]

/-! ### Clones -/

theorem Heap.Adds.leaves {S : CellId → Prop} {x : Cell} (ha : h.Adds k x) : h.Leaves S k where
  size := ha.size ▸ Nat.le_succ _
  destroyed d hlt hd := (congrArg Cell.destroyed (ha.old d hlt) :).trans hd
  freezing d _ hlt := (congrArg (fun x : Cell => x.flags.freezing) (ha.old d hlt) :)
  object d o _ ho _ := ⟨o, (Cell.body_of_core (ha.old d (Heap.IsObject.lt_size ⟨o, ho⟩))).trans ho, .refl o⟩
  label d l _ hlt hl _ := ⟨l, (Cell.body_of_core (ha.old d hlt)).trans hl, .refl l⟩

/-- What a clone does to a heap in which no copies are to be frozen: it adds labels without entries, and of what was there it
changes the label of the pointer alone. -/
structure Heap.Branched (h k : Heap) (l : Handle) : Prop where
  leaves : h.Leaves (fun c => l ≠ .counted c) k
  blank : ∀ c, l = .counted c ∨ h.size ≤ c → ∃ s, (k.cell c).body = .label s ∧ s.memo.entries = []

namespace Pointer

variable {R : Heap → Link → Link → Prop}

/-- How a lazy clone comes about: the pointer is resolved for reading, its graph is frozen, then labels are frozen,
and the clone gets a new label, of which nobody else has a handle, with the entries of the pointer's label that are still
there. -/
inductive Clones (R : Heap → Link → Link → Prop) (kept : CellId → Prop) (frame : List Task) (h : Heap) :
    Pointer → Heap → Pointer × Pointer → Prop where
  | nil {l : Handle} {k : Heap} : h.Kept frame k → Clones R kept frame h ⟨none, l⟩ k (⟨none, l⟩, .nil)
  | graph {p : Pointer} {o d : CellId} {l l' : Handle} {m : Memo} {h₁ h₂ h₃ k : Heap} :
    p.Reads h ⟨some o, l⟩ → h.Kept frame h₁ → h₁.Freezing (R h₁) h₂ ((tasks ⟨some o, l⟩) ++ frame) [] →
    (h₂.cell o).frozen = true → h₂.Stills h₃ → h₃.Spares kept (.release o :: frame) k →
    (l' = l ∨ ∀ c, l ≠ .counted c) → h.size ≤ d → l' ≠ .counted d → (∀ x, d ∉ (k.cell x).edges) →
    (k.cell d).body = .label (.ofMemo m) →
    (∀ e ∈ m.entries, (h₃.cell e.1).alive = true ∧ ∃ c s, l = .counted c ∧ (h₃.cell c).body = .label s ∧
      s.frozen = true ∧ e ∈ s.memo.entries ∧ ∃ s', (k.cell c).body = .label s' ∧ e ∈ s'.memo.entries) →
    h₁.Tidy h₂ (tasks ⟨some o, l⟩ ++ frame) →
    (∀ c, l' = .counted c → (k.cell c).body = .label .blank ∨
      l' = l ∧ ∃ s, (h₃.cell c).body = .label s ∧ (k.cell c).body = .label { s with memo := h₃.current s.memo }) →
    (∀ c < h₃.size, (h₃.cell c).destroyed = true → (k.cell c).destroyed = true) →
    ((∀ c s, l = .counted c → (h₂.cell c).body = .label s → (h₂.cell c).destroyed = false → s.memo.copies = []) →
      h₂.Branched k l) →
    Clones R kept frame h p k (⟨some o, l'⟩, ⟨some o, .counted d⟩)

theorem Clones.scopes {p : Pointer} {q : Pointer × Pointer} (hc : Clones R kept frame h p k q) : k.scopes = h.scopes := by
  cases hc with
  | nil hk => exact hk.scopes
  | graph _ hk₁ hz _ hst hsp => exact hsp.scopes.trans (hst.scopes.trans (hz.scopes.trans hk₁.scopes))

private theorem takeOver_spec {o : CellId} {l : Handle} (p : Pointer) (hh : Holding .calm rules locks frame h l.tasks)
    (hobj : h.IsObject o) (ho : .release o ∈ frame) (hl : l.Fits rules.sealed h) :
    Ends E ((do let clone ← make o l; l.drop; return (p, clone) : HeapM (Pointer × Pointer)) h) fun q k =>
      q = (p, ⟨some o, l⟩) ∧ h.Kept (l.tasks ++ frame) k ∧
        Run .calm rules locks frame h l.tasks k (tasks ⟨some o, l⟩) := by
  have hh₀ : Holding .calm rules locks (l.tasks ++ frame) h [] := hh.focus (.refl _)
  refine .bind (make_spec hh₀ hobj (hh.live (List.mem_append_right _ ho))
    (hh.usable hl fun _ => List.mem_append_left _)) fun q h₁ ⟨hq, hr₁⟩ => ?_
  subst hq
  have hr₁' : Run .calm rules locks frame h l.tasks h₁ (l.tasks ++ tasks ⟨some o, l⟩) :=
    hr₁.widen.perm (.refl _) (by rw [List.append_nil]; exact List.perm_append_comm)
  refine .bind (Handle.drop_spec ((hh.run hr₁').focus (.refl _))) fun _ h₂ hr₂ => ?_
  have hk₁ : h.Kept (l.tasks ++ frame) h₁ := hr₁.keeps
  have hk₂ : h₁.Kept (tasks ⟨some o, l⟩ ++ frame) h₂ := hr₂.keeps
  refine ⟨rfl, hk₁.trans (hk₂.subset fun t ht => ?_), hr₁'.andDrop (.refl _) hr₂⟩
  exact (List.mem_append.1 ht).elim (fun ht => List.mem_append_left _ (.tail _ ht)) (List.mem_append_right _)

private theorem cloneBeside_spec {o c : CellId} {h : Heap} (hh : Holding .calm rules [] frame h [])
    (hobj : h.IsObject o) (ho : .release o ∈ frame) (hc : .release c ∈ frame) (hl : (Handle.counted c).Fits rules.sealed h)
    (hfree : ¬ kept c ∧ ¬ rules.steady c) (hset : rules.Settled) (hfixed : ∀ d, (h.cell d).frozen = false → ¬ rules.fixed d) :
    Ends E ((do
      let borrowed ← (Handle.counted c).clone
      freezeLabel c
      let l ← fork c
      borrowed.drop
      let clone ← make o l
      l.drop
      return (⟨some o, .counted c⟩, clone) : HeapM (Pointer × Pointer)) h) fun q k => ∃ d h₃ s m,
        q = (⟨some o, .counted c⟩, ⟨some o, .counted d⟩) ∧ (Handle.counted d).Fits rules.sealed k ∧
        h.Stills h₃ ∧ h₃.Spares kept frame k ∧ h.size ≤ d ∧ (∀ x, d ∉ (k.cell x).edges) ∧
        (k.cell d).body = .label (.ofMemo m) ∧ (h₃.cell c).body = .label s ∧ s.frozen = true ∧
        (∀ e ∈ m.entries, (h₃.cell e.1).alive = true ∧ e ∈ s.memo.entries ∧
          ∃ s', (k.cell c).body = .label s' ∧ e ∈ s'.memo.entries) ∧
        (k.cell c).body = .label { s with memo := h₃.current s.memo } ∧
        (∀ c < h₃.size, (h₃.cell c).destroyed = true → (k.cell c).destroyed = true) ∧
        ((∀ t, (h.cell c).body = .label t → (h.cell c).destroyed = false → t.memo.copies = []) → h.Branched k (.counted c)) ∧
        Passage rules [] frame h [] k (tasks ⟨some o, .counted d⟩) := by
  obtain ⟨⟨hroot, hsealed⟩, hlt, s, hb⟩ := hl c rfl
  refine .bind (Handle.clone_spec hh (hh.usable hl fun t ht => List.mem_append_right _ (by
    rw [List.mem_singleton.1 ht]; exact hc))) fun _ h₁ ⟨he, hr₁, _⟩ => ?_
  subst he
  have hk₁ : h.Kept frame h₁ := hr₁.keeps
  have hb₁ : (h₁.cell c).body = .label s := (hk₁.body (.source (.inl hc))).trans hb
  have hh₁ : Holding .calm rules [] ([.release c] ++ frame) h₁ [] := (hh.run hr₁).focus (.refl _)
  have hheld : ∀ {k : Heap}, k.Held ([.release c] ++ frame) c := .inl List.mem_cons_self
  refine .bind_run (freezeLabel_spec hh₁ hb₁ hheld hsealed hfree.2 fun d hd => hfixed d ((hk₁.fades.frozen d).symm.trans hd))
    fun _ h₃ hfreeze ⟨hst, hcourse, hs₃, hb₃⟩ => ?_
  have hh₃ : Holding (.sparing kept) rules [] ([.release c] ++ frame) h₃ [] := ⟨hs₃, nofun⟩
  have hbare : Holding (.sparing fun _ => False) rules [] ([.release c] ++ frame) h₃ [] := ⟨hs₃, nofun⟩
  have hh₃' := hbare.leaving (· ≠ c) (· ≠ c)
  refine .bind ((fork_spec hh₃ hb₃ hheld hfree.1 hsealed hfree.2 fun _ => ⟨rfl, hset c⟩).and
    (fork_spec hh₃' hb₃ hheld id hsealed (fun hne => hne rfl) fun _ => ⟨rfl, hset c⟩))
    fun l h₄ ⟨⟨d, hl', hd, hsize₄, hnone, hfits, hbd, hbc, hr₄⟩, _, _, _, _, _, _, _, _, hr₄'⟩ => ?_
  subst hl'
  have hh₄ : Holding .calm rules [] ([.release d] ++ frame) h₄ [.release c] :=
    (hh₃.run hr₄).safe.holding (.swap _ _ _)
  refine .bind (Handle.drop_spec (l := .counted c) hh₄) fun _ h₅ hr₅ => ?_
  have hk₅ : h₄.Kept ([.release d] ++ frame) h₅ := hr₅.keeps
  have hh₅ : Holding .calm rules [] frame h₅ [.release d] := (hh₄.run hr₅).safe.holding (.refl _)
  have hgrows₃ : h₁.Grows h₃ := (Course.firm hcourse hh₁.safe.toFirm).2
  have hgrows : h.Grows h₅ := hk₁.grows.trans (hgrows₃.trans (hr₄.keeps.grows.trans hk₅.grows))
  refine (takeOver_spec (l := .counted d) ⟨some o, .counted c⟩ hh₅ (hgrows.object o hobj) ho
    (hfits.grows hk₅.grows)).imp fun q k ⟨hq, hk₆, hr₆⟩ => ?_
  subst hq
  have hsp₅ : h₃.Spares kept frame h₅ := (Heap.Spares.subset hr₄.keeps fun t => List.mem_append_right _).trans
    (hk₅.subset fun t => List.mem_append_right _).spares
  have hbody : (k.cell c).body = .label { s with frozen := true, memo := h₃.current s.memo } := by
    have hr : ∀ {k : Heap}, k.Reach (k.Held ([.release d] ++ frame)) c := .source (.inl (List.mem_append_right _ hc))
    rw [hk₆.body hr, hk₅.body hr, hbc]
  have hbody' : (k.cell d).body = .label (.ofMemo (h₃.current s.memo)) := by
    have hr : ∀ {k : Heap}, k.Reach (k.Held ([.release d] ++ frame)) d := .source (.inl List.mem_cons_self)
    rw [hk₆.body hr, hk₅.body hr, hbd]
  refine ⟨d, h₃, _, h₃.current s.memo, rfl, hfits.grows (hk₅.grows.trans hk₆.grows), hk₁.stills.trans hst,
    hsp₅.trans (hk₆.subset fun t => List.mem_append_right _).spares, ?_, fun x hx => hnone x (hk₅.fades.edges (hk₆.fades.edges hx)),
    ?_, hb₃, rfl, fun e he => ⟨(List.mem_filter.1 he).2, (List.mem_filter.1 he).1,
      { s with frozen := true, memo := h₃.current s.memo }, hbody, he⟩, hbody, fun c hc hd => ?_, fun hidle => ?_, ?_⟩
  · rw [hd, hst.size, hk₁.size]
  · exact hbody'
  · exact hk₆.fades.destroyed c (hk₅.fades.destroyed c (((Course.of_same hr₄.steps).lasts hs₃.toFirm).destroyed c hc hd))
  · have hcopies := hidle s hb (hh.live hc).destroyed
    have hnone : (h₃.current s.memo).entries = [] := by
      rw [Heap.current, List.map_eq_nil_iff.1 hcopies]
      rfl
    have hsize : k.size = h.size + 1 := by rw [hk₆.size, hk₅.size, hsize₄, hst.size, hk₁.size]
    have hleaves₃ : h₁.Leaves (· ≠ c) h₃ := leaves_of_idle hfreeze hb₁ (hk₁.size.symm ▸ hlt) hcopies
    have hleaves₄ : h₃.Leaves (· ≠ c) h₄ := (Course.of_same hr₄'.steps).leaves hh₃'.safe.toFirm
    refine ⟨(((hk₁.leaves.trans hleaves₃).trans hleaves₄).trans (hk₅.leaves.trans hk₆.leaves)).subset fun x hx he =>
      hx (he ▸ rfl), fun x hx => ?_⟩
    rcases hx with hx | hx
    · cases hx
      exact ⟨_, hbody, hnone⟩
    · rcases Nat.eq_or_lt_of_le hx with hx | hx
      · rw [← hx, ← hk₁.size, ← hst.size, ← hd]
        exact ⟨_, hbody', hnone⟩
      · rw [k.cell_of_size_le (hsize ▸ hx)]
        exact ⟨.blank, rfl, rfl⟩
  · have hp₂ : Passage rules [] frame h₁ [.release c] h₃ [.release c] :=
      ⟨hcourse, hs₃, hgrows₃, fun d _ _ => hst.frozen d⟩
    have hp₃ : Passage rules [] frame h₃ [.release c] h₄ [.release d, .release c] := (Passage.of_run hr₄ hh₃.safe).widen
    have hp₄ : Passage rules [] frame h₄ [.release c, .release d] h₅ [.release d] := (Passage.of_run hr₅ hh₄.safe).widen
    exact ((((Passage.of_run hr₁ hh.safe).trans hp₂).trans hp₃).trans (hp₄.perm (.swap _ _ _) (.refl _))).trans
      (.of_run hr₆ hh₅.safe)

private theorem cloneApart_spec {o : CellId} {l : Handle} {h : Heap} (hh : Holding .calm rules [] frame h [])
    (hobj : h.IsObject o) (ho : .release o ∈ frame) (hl : l.tasks = []) :
    Ends E ((do
      let mine ← spawn
      let own ← l.repoint mine
      mine.drop
      let l ← spawn
      let clone ← make o l
      l.drop
      return (⟨some o, own⟩, clone) : HeapM (Pointer × Pointer)) h) fun q k => ∃ c d,
        q = (⟨some o, .counted c⟩, ⟨some o, .counted d⟩) ∧ (Handle.counted c).Fits rules.sealed k ∧
        (Handle.counted d).Fits rules.sealed k ∧ h.Spares (fun _ => True) frame k ∧ h.size ≤ d ∧ c ≠ d ∧
        (∀ x, d ∉ (k.cell x).edges) ∧ (k.cell d).body = .label .blank ∧ (k.cell c).body = .label .blank ∧
        (∀ l', (∀ x, l' ≠ .counted x) → h.Branched k l') ∧
        Passage rules [] frame h [] k (.release c :: tasks ⟨some o, .counted d⟩) := by
  refine .bind (spawn_spec hh) fun mine h₁ ⟨hm, hfits₁, hadds₁, hr₁⟩ => ?_
  subst hm
  have hh₁ := hh.runAdding hr₁
  have hh₁' : Holding .calm rules [] ([.release h.size] ++ frame) h₁ l.tasks := by
    rw [hl]
    exact hh₁.safe.holding (.refl _)
  refine .bind (Handle.repoint_spec hh₁' (hh₁'.usable hfits₁ fun t ht => List.mem_append_right _
    (List.mem_append_left _ ht))) fun own h₂ ⟨hown, hr₂⟩ => ?_
  subst hown
  have hh₂ : Holding .calm rules [] ([.release h.size] ++ frame) h₂ [.release h.size] :=
    (hh₁'.run hr₂).safe.holding (.refl _)
  refine .bind (Handle.drop_spec (l := .counted h.size) hh₂) fun _ h₃ hr₃ => ?_
  have hh₃ : Holding .calm rules [] ([.release h.size] ++ frame) h₃ [] := hh₂.run hr₃
  refine .bind (spawn_spec hh₃) fun l' h₄ ⟨hl', hfits₄, hadds₄, hr₄⟩ => ?_
  subst hl'
  have hh₄ : Holding .calm rules [] ([.release h.size] ++ frame) h₄ [.release h₃.size] := hh₃.runAdding hr₄
  have hk₂ : h₁.Kept ([.release h.size] ++ frame) h₂ := hr₂.keeps
  have hk₃ : h₂.Kept ([.release h.size] ++ frame) h₃ := hr₃.keeps
  have hgrows₃ : h₁.Grows h₃ := hk₂.grows.trans hk₃.grows
  have hgrows₄ : h₁.Grows h₄ := hgrows₃.trans hr₄.keeps.grows
  refine (takeOver_spec (l := .counted h₃.size) ⟨some o, .counted h.size⟩ hh₄
    (hgrows₄.object o (hr₁.keeps.grows.object o hobj)) (List.mem_append_right _ ho) hfits₄).imp
    fun q k ⟨hq, hk₅, hr₅⟩ => ?_
  subst hq
  have hsize : h₃.size = h.size + 1 := by rw [hk₃.size, hk₂.size, hadds₁.size]
  have hnone : ∀ x, h₃.size ∉ (h₄.cell x).edges :=
    (hh₄.safe.lone_of_unique (by rw [hadds₄.new]; exact Nat.le_refl 1) (by rw [hadds₄.new]; rfl)).2 (.inl List.mem_cons_self)
  have hsp : h.Spares (fun _ => True) frame k := by
    have hsp₁ : h.Spares (fun _ => True) frame h₁ := hr₁.keeps
    have hsp₄ : h₃.Spares (fun _ => True) frame h₄ := Heap.Spares.subset hr₄.keeps fun t => List.mem_append_right _
    exact ((hsp₁.trans (hk₂.trans hk₃ |>.subset fun t => List.mem_append_right _).spares).trans hsp₄).trans
      (hk₅.subset fun t ht => List.mem_append_right _ (List.mem_append_right _ ht)).spares
  have hbody : (k.cell h₃.size).body = .label .blank := by
    rw [hk₅.body (.source (.inl List.mem_cons_self)), hadds₄.new]
    rfl
  have hmine : ∀ {k : Heap} {ts : List Task}, .release h.size ∈ ts → k.Reach (k.Held ts) h.size := fun hm => .source (.inl hm)
  have hbody' : (k.cell h.size).body = .label .blank :=
    calc (k.cell h.size).body = (h₄.cell h.size).body := hk₅.body (hmine (List.mem_append_right _ List.mem_cons_self))
      _ = (h₃.cell h.size).body := Cell.body_of_core (hadds₄.old _ (by omega))
      _ = (h₂.cell h.size).body := hk₃.body (hmine List.mem_cons_self)
      _ = (h₁.cell h.size).body := hk₂.body (hmine List.mem_cons_self)
      _ = .label .blank := congrArg Cell.body hadds₁.new
  refine ⟨h.size, h₃.size, rfl, hfits₁.grows (hgrows₄.trans hk₅.grows), hfits₄.grows hk₅.grows, hsp, hsize ▸ Nat.le_succ _,
    hsize ▸ Nat.ne_of_lt (Nat.lt_succ_self _),
    fun x hx => hnone x (hk₅.fades.edges hx), hbody, hbody', fun l' hl' => ⟨?_, fun x hx => ?_⟩, ?_⟩
  · exact ((hadds₁.leaves.trans (hk₂.leaves.trans hk₃.leaves)).trans hadds₄.leaves).trans hk₅.leaves
  · have hx := hx.resolve_left (hl' x)
    rcases Nat.eq_or_lt_of_le hx with hx | hx
    · exact ⟨.blank, hx ▸ hbody', rfl⟩
    · rcases Nat.eq_or_lt_of_le hx with hx | hx
      · have hsize : h₃.size = x := hsize.trans hx
        exact ⟨.blank, hsize ▸ hbody, rfl⟩
      · rw [k.cell_of_size_le (by rw [hk₅.size, hadds₄.size, hsize]; exact hx)]
        exact ⟨.blank, rfl, rfl⟩
  have hp₁ : Passage rules [] frame h [] h₁ [.release h.size] := .of_run hr₁ hh.safe
  have hp₂ : Passage rules [] frame h₁ ([] ++ [.release h.size]) h₂ ([.release h.size] ++ [.release h.size]) := by
    have := Passage.of_run hr₂ hh₁'.safe
    rw [hl] at this
    exact this.widen
  have hp₃ : Passage rules [] frame h₂ ([.release h.size] ++ [.release h.size]) h₃ ([] ++ [.release h.size]) :=
    (Passage.of_run hr₃ hh₂.safe).widen
  have hp₄ : Passage rules [] frame h₃ ([] ++ [.release h.size]) h₄ ([.release h₃.size] ++ [.release h.size]) :=
    (Passage.of_run hr₄ hh₃.safe).widen
  have hp₅ : Passage rules [] frame h₄ ([.release h₃.size] ++ [.release h.size]) k
      (tasks ⟨some o, .counted h₃.size⟩ ++ [.release h.size]) := (Passage.of_run hr₅ hh₄.safe).widen
  exact ((((hp₁.trans hp₂).trans hp₃).trans hp₄).trans hp₅).perm (.refl _) List.perm_append_comm

/-- How freezing a graph in place comes about: the pointer is resolved for reading, then its graph is frozen. -/
inductive Freezes (R : Heap → Link → Link → Prop) (frame : List Task) (h : Heap) : Pointer → Heap → Pointer → Prop where
  | nil {l : Handle} {k : Heap} : h.Kept frame k → Freezes R frame h ⟨none, l⟩ k ⟨none, l⟩
  | graph {p : Pointer} {o : CellId} {l : Handle} {h₁ k : Heap} :
    p.Reads h ⟨some o, l⟩ → h.Kept frame h₁ → h₁.Freezing (R h₁) k ((tasks ⟨some o, l⟩) ++ frame) [] →
    (k.cell o).frozen = true → Freezes R frame h p k ⟨some o, l⟩

/-- Freezing a graph in place never fails. -/
theorem freeze_spec {p : Pointer} (hh : Holding .calm rules [] frame h p.tasks) (hp : p.Fits rules.sealed h)
    (hfixed : ∀ d, (h.cell d).frozen = false → ¬ rules.fixed d)
    (hR : ∀ (k : Heap) held, Safe rules ⟨k, [], [], held⟩ → Settling (R k) k) :
    Ends E (p.freeze h) fun q k => Freezes R frame h p k q ∧ q.Fits rules.sealed k ∧ k.scopes = h.scopes ∧
      Passage rules [] frame h p.tasks k q.tasks := by
  unfold freeze
  refine .bind (resolve_spec hh hp) fun q h₁ ⟨hreads, htarget, hfits, hr₁⟩ => ?_
  obtain ⟨⟨target, l⟩, o⟩ := q
  dsimp only at htarget hfits hr₁ hreads
  subst htarget
  have hp₁ := Passage.of_run hr₁ hh.safe
  have hk₁ : h.Kept frame h₁ := hr₁.keeps
  cases o with
  | none =>
    cases hreads with
    | nil => exact .pure ⟨.nil hk₁, hfits, hk₁.scopes, hp₁⟩
  | some o =>
    dsimp only
    have hh₁ : Holding .calm rules [] (tasks ⟨some o, l⟩ ++ frame) h₁ [] := (hh.run hr₁).safe.holding (.refl _)
    refine .bind (freezeGraph_spec (hR h₁ _ hh₁.safe) hh₁ (hfits.target o rfl) (.inl List.mem_cons_self) fun d hd =>
      hfixed d ((hk₁.fades.frozen d).symm.trans hd)) fun _ k ⟨hz, htidy, hcourse, hs, hfr⟩ => .pure ?_
    exact ⟨.graph hreads hk₁ hz hfr, hfits.grows (Course.firm hcourse hh₁.safe.toFirm).2, hz.scopes.trans hk₁.scopes,
      hp₁.trans ⟨hcourse, hs, (Course.firm hcourse hh₁.safe.toFirm).2, fun d _ _ => hz.frozen d⟩⟩

/-- A lazy clone of a graph never fails. -/
theorem deepClone_spec {p : Pointer} (hh : Holding .calm rules [] frame h p.tasks) (hp : p.Fits rules.sealed h)
    (hfree : ∀ c, p.label.Leads h (.counted c) → ¬ kept c ∧ ¬ rules.steady c) (hset : rules.Settled)
    (hfixed : ∀ d, (h.cell d).frozen = false → ¬ rules.fixed d)
    (hR : ∀ (k : Heap) held, Safe rules ⟨k, [], [], held⟩ → Settling (R k) k) :
    Ends E (p.deepClone h) fun q k => Clones R kept frame h p k q ∧ q.1.Fits rules.sealed k ∧ q.2.Fits rules.sealed k ∧
      Passage rules [] frame h p.tasks k (q.1.tasks ++ q.2.tasks) := by
  unfold deepClone
  refine .bind (resolve_spec hh hp) fun q h₁ ⟨hreads, htarget, hfits, hr₁⟩ => ?_
  obtain ⟨⟨target, l⟩, o⟩ := q
  dsimp only at htarget hfits hr₁ hreads
  subst htarget
  have hp₁ := Passage.of_run hr₁ hh.safe
  have hk₁ : h.Kept frame h₁ := hr₁.keeps
  cases o with
  | none =>
    cases hreads with
    | nil =>
      dsimp only
      refine .bind (.bind (fixSettings_spec (hh.run hr₁)) fun _ h₂ hr₂ => .pure
        (Q := fun q k => q = Pointer.nil ∧ Run .calm rules [] frame h₁ l.tasks k l.tasks) ⟨rfl, hr₂.1⟩) fun q k ⟨hq, hr₂⟩ => ?_
      subst hq
      have hk₂ : h₁.Kept frame k := hr₂.keeps
      exact ⟨.nil (hk₁.trans hk₂), hfits.grows hk₂.grows, ⟨nofun, Handle.fits_root⟩,
        (hp₁.trans (.of_run hr₂ hp₁.safe)).perm (.refl _) (by rw [tasks_nil, List.append_nil]; exact .refl _)⟩
  | some o =>
    dsimp only
    have hh₁ : Holding .calm rules [] (tasks ⟨some o, l⟩ ++ frame) h₁ [] := (hh.run hr₁).safe.holding (.refl _)
    have hobj := hfits.target o rfl
    have hheld : ∀ {k : Heap}, k.Held (tasks ⟨some o, l⟩ ++ frame) o := .inl List.mem_cons_self
    have hfixed₁ : ∀ d, (h₁.cell d).frozen = false → ¬ rules.fixed d := fun d hd =>
      hfixed d ((hk₁.fades.frozen d).symm.trans hd)
    refine .bind (freezeGraph_spec (hR h₁ _ hh₁.safe) hh₁ hobj hheld hfixed₁) fun _ h₂ hfroze => ?_
    obtain ⟨hz, htidy, hcourse, hs₂, hfr⟩ := hfroze
    have hh₂ : Holding .calm rules [] (tasks ⟨some o, l⟩ ++ frame) h₂ [] := ⟨hs₂, nofun⟩
    have hobj₂ := hz.toCools.object o hobj
    have hgrows₂ := (Course.firm hcourse hh₁.safe.toFirm).2
    have hsize : h₂.size = h.size := hz.size.trans hk₁.size
    have hp₂ : Passage rules [] frame h p.tasks h₂ (tasks ⟨some o, l⟩) := hp₁.trans
      ⟨hcourse, hs₂, hgrows₂, fun d _ _ => hz.frozen d⟩
    have hmem : Task.release o ∈ tasks ⟨some o, l⟩ ++ frame := List.mem_cons_self
    have hsub : ∀ t ∈ .release o :: frame, t ∈ tasks ⟨some o, l⟩ ++ frame := fun t ht =>
      (List.mem_cons.1 ht).elim (fun he => he ▸ hmem) (List.mem_append_right _)
    rcases l with _ | _ | c
    rotate_left 2
    · dsimp only
      have hleads : p.label.Leads h (.counted c) := by
        cases hreads with
        | target hl _ => exact hl
      refine (cloneBeside_spec hh₂ hobj₂ hmem (.tail _ List.mem_cons_self) (hfits.label.grows hgrows₂) (hfree c hleads) hset
        fun d hd => hfixed₁ d ((hz.stills htidy).unfrozen hd)).imp
        fun q k ⟨d, h₃, s, m, hq, hf, hst, hsp, hd, hnone, hbd, hbc, hfz, hm, hbk, hgone, hidle, hp₃⟩ => ?_
      subst hq
      have hobj₃ := hp₃.grows.object o hobj₂
      have hne : Handle.counted c ≠ .counted d := fun he => by
        cases he
        exact absurd (hfits.label.grows hgrows₂ c rfl).2.1 (Nat.not_lt.2 hd)
      exact ⟨.graph hreads hk₁ hz hfr hst (hsp.subset hsub) (.inl rfl) (hsize ▸ hd) hne hnone hbd
        (fun e he => ⟨(hm e he).1, c, s, rfl, hbc, hfz, (hm e he).2⟩) htidy
        (fun _ hl => by cases hl; exact .inr ⟨rfl, s, hbc, hbk⟩) hgone
          fun hcopies => hidle fun t => hcopies c t rfl, ⟨fun _ ho => by cases ho; exact hobj₃,
          (hfits.label.grows hgrows₂).grows hp₃.grows⟩, ⟨fun _ ho => by cases ho; exact hobj₃, hf⟩,
        (hp₂.trans hp₃.widen).perm (.refl _) List.perm_append_comm⟩
    -- the root and the empty handle are no labels to fork
    all_goals
      refine (cloneApart_spec hh₂ hobj₂ hmem rfl).imp fun q k ⟨c, d, hq, hfc, hfd, hsp, hd, hne, hnone, hbd, hbc, hidle, hp₃⟩ => ?_
      subst hq
      have hobj₃ := hp₃.grows.object o hobj₂
      refine ⟨.graph (m := .empty) hreads hk₁ hz hfr (.refl h₂)
        ((hsp.subset hsub).relax fun _ _ => trivial) (.inr nofun) (hsize ▸ hd) (fun he => hne (Handle.counted.inj he)) hnone hbd nofun
        htidy (fun _ hl => by cases hl; exact .inl hbc) (hp₃.course.lasts hs₂.toFirm).destroyed (fun _ => hidle _ nofun),
        ⟨fun _ ho => by cases ho; exact hobj₃, hfc⟩, ⟨fun _ ho => by cases ho; exact hobj₃, hfd⟩,
        (hp₂.trans hp₃.widen).perm (.refl _) ?_⟩
      show List.Perm ([Task.release c, .release o, .release d] ++ [.release o])
        ([Task.release o] ++ [.release c, .release o, .release d])
      exact List.perm_append_comm

end Pointer

end LazyHeap
