import LazyHeap.Proofs.Run

/-!
What lasts. An object that a run leaves alone keeps its value for as long as it is there. A run that abstains from more
is also a run that abstains from less.
-/
namespace LazyHeap

variable {rules rules' : Rules} {S S' : CellId → Prop} {h h' h'' : Heap} {c : CellId} {m m' : Moment}

/-! ### Objects that are left alone -/

/-- The same object, apart from locks. -/
structure Object.Same (o o' : Object) : Prop where
  kind : o'.kind = o.kind
  serial : o'.serial = o.serial
  value : o'.value = o.value
  contents : o'.contents = o.contents

namespace Object.Same

variable {o o' o'' : Object}

protected theorem refl (o : Object) : o.Same o := ⟨rfl, rfl, rfl, rfl⟩

protected theorem trans (h₁ : o.Same o') (h₂ : o'.Same o'') : o.Same o'' :=
  ⟨h₂.kind.trans h₁.kind, h₂.serial.trans h₁.serial, h₂.value.trans h₁.value, h₂.contents.trans h₁.contents⟩

theorem links (hs : o.Same o') : o'.links = o.links := by
  rw [Object.links_eq_contents, hs.contents, ← Object.links_eq_contents]

end Object.Same

/-- The objects of a sort keep their values while they are there, and stay as frozen as they are. -/
structure Heap.Lasts (S : CellId → Prop) (h h' : Heap) : Prop where
  size : h.size ≤ h'.size
  destroyed : ∀ c, c < h.size → (h.cell c).destroyed = true → (h'.cell c).destroyed = true
  freezing : ∀ c, S c → c < h.size → (h'.cell c).flags.freezing = (h.cell c).flags.freezing
  object : ∀ c o, S c → (h.cell c).body = .object o → (h'.cell c).destroyed = false →
    ∃ o', (h'.cell c).body = .object o' ∧ o.Same o'

namespace Heap.Lasts

theorem frozen (hl : h.Lasts S h') (hc : S c) (hlt : c < h.size) : (h'.cell c).frozen = (h.cell c).frozen :=
  Cell.frozen_of_freezing (hl.freezing c hc hlt)

protected theorem refl (S : CellId → Prop) (h : Heap) : h.Lasts S h :=
  ⟨Nat.le_refl _, fun _ _ => id, fun _ _ _ => rfl, fun _ o _ ho _ => ⟨o, ho, .refl o⟩⟩

protected theorem trans (h₁ : h.Lasts S h') (h₂ : h'.Lasts S h'') : h.Lasts S h'' where
  size := Nat.le_trans h₁.size h₂.size
  destroyed c hc hd := h₂.destroyed c (Nat.lt_of_lt_of_le hc h₁.size) (h₁.destroyed c hc hd)
  freezing c hS hc := (h₂.freezing c hS (Nat.lt_of_lt_of_le hc h₁.size)).trans (h₁.freezing c hS hc)
  object c o hS ho hd := by
    have hc := Nat.lt_of_lt_of_le (IsObject.lt_size ⟨o, ho⟩) h₁.size
    have hd' : (h'.cell c).destroyed = false := by
      cases hd' : (h'.cell c).destroyed with
      | false => rfl
      | true =>
        rw [h₂.destroyed c hc hd'] at hd
        cases hd
    obtain ⟨o', ho', hsame⟩ := h₁.object c o hS ho hd'
    obtain ⟨o'', ho'', hsame'⟩ := h₂.object c o' hS ho' hd
    exact ⟨o'', ho'', hsame.trans hsame'⟩

theorem subset (hl : h.Lasts S h') (hsub : ∀ c, S' c → S c) : h.Lasts S' h' :=
  { hl with
    freezing := fun c hS => hl.freezing c (hsub c hS)
    object := fun c o hS => hl.object c o (hsub c hS) }

end Heap.Lasts

namespace Heap

theorem lasts_update (h : Heap) {g : Cell → Cell}
    (hd : (h.cell c).destroyed = true → (g (h.cell c)).destroyed = true)
    (hf : S c → (g (h.cell c)).flags.freezing = (h.cell c).flags.freezing)
    (hS : ∀ o, S c → (h.cell c).body = .object o → ∃ o', (g (h.cell c)).body = .object o' ∧ o.Same o') :
    h.Lasts S (h.update c g) where
  size := Nat.le_of_eq (h.size_update c g).symm
  destroyed d _ hdd := by
    rcases h.cell_update_cases c g d with he | ⟨rfl, -, he⟩ <;> rw [he]
    · exact hdd
    · exact hd hdd
  freezing d hd' _ := by
    rcases h.cell_update_cases c g d with he | ⟨rfl, -, he⟩ <;> rw [he]
    exact hf hd'
  object d o hd' ho _ := by
    rcases h.cell_update_cases c g d with he | ⟨rfl, -, he⟩ <;> rw [he]
    · exact ⟨o, ho, .refl o⟩
    · exact hS o hd' ho

theorem Fades.lasts (hf : h.Fades h') (hsize : h.size ≤ h'.size) : h.Lasts S h' where
  size := hsize
  destroyed c _ := hf.destroyed c
  freezing c _ _ := hf.freezing c
  object _ o _ ho hd := ⟨o, (hf.body_of_live hd).trans ho, .refl o⟩

theorem lasts_push (h : Heap) (x : Cell) : h.Lasts S (h.push x) where
  size := (h.size_push x).symm ▸ Nat.le_succ _
  destroyed c hc := by
    rw [h.cell_push_of_lt x hc]
    exact id
  freezing c _ hc := by rw [h.cell_push_of_lt x hc]
  object c o _ ho _ := ⟨o, by rw [h.cell_push_of_lt x (IsObject.lt_size ⟨o, ho⟩), ho], .refl o⟩

theorem Effect.lasts (he : h.Effect rules h') (hsize : h.size ≤ h'.size) : h.Lasts rules.fixed h' := by
  cases he with
  | wanes hw => exact hw.lasts hsize
  | push _ _ _ => exact h.lasts_push _
  | @edit c b _ _ hev _ =>
    refine h.lasts_update id (fun _ => rfl) fun o hc ho => ?_
    rw [ho] at hev
    cases b with
    | object o' => exact ⟨o', rfl, hev.kind, hev.serial, (hev.fixed hc).2, (hev.fixed hc).1⟩
    | label l => cases hev
  | freeze hfixed _ =>
    refine h.lasts_update (fun hd => ?_) (fun hc => absurd hc hfixed) fun _ hc => absurd hc hfixed
    rw [← hd, Cell.freeze]
    split <;> rfl
  | thaw hfixed _ => exact h.lasts_update id (fun hc => absurd hc hfixed) fun _ hc => absurd hc hfixed

end Heap

/-! ### Runs with exemptions -/

/-- A run in which cells may be exempt for a while. -/
abbrev Course (rules : Rules) : Moment → Moment → Prop :=
  Relation.ReflTransGen fun m m' => ∃ opened, Advance { rules with opened := opened } m m'

namespace Course

theorem of_steps {opened : CellId → Prop} (hrun : Steps { rules with opened := opened } m m') : Course rules m m' :=
  hrun.lift id fun _ _ hstep => ⟨opened, hstep⟩

theorem of_same (hrun : Steps rules m m') : Course rules m m' :=
  hrun.lift id fun _ _ hstep => ⟨rules.opened, hstep⟩

theorem firm (hrun : Course rules m m') (hs : Firm rules.sealed m) :
    Firm rules.sealed m' ∧ m.heap.Grows m'.heap := by
  induction hrun with
  | refl => exact ⟨hs, .refl _⟩
  | tail _ hstep ih =>
    obtain ⟨opened, hstep⟩ := hstep
    obtain ⟨hs', hg⟩ := ih
    obtain ⟨hs'', hg'⟩ := hstep.firm hs'
    exact ⟨hs'', hg.trans hg'⟩

theorem owned (hrun : Course rules m m') (hs : Firm rules.sealed m) (ho : m.Owned) : m'.Owned := by
  induction hrun with
  | refl => exact ho
  | tail hrun hstep ih =>
    obtain ⟨opened, hstep⟩ := hstep
    exact hstep.owned (firm hrun hs).1 ih

/-- What is fixed lasts through a run. -/
theorem lasts (hrun : Course rules m m') (hs : Firm rules.sealed m) : m.heap.Lasts rules.fixed m'.heap := by
  induction hrun with
  | refl => exact .refl _ _
  | tail hrun hstep ih =>
    obtain ⟨opened, hstep⟩ := hstep
    have hs' := (firm hrun hs).1
    exact ih.trans ((hstep.effect hs').lasts (hstep.firm hs').2.size)

end Course

theorem Heap.Effect.label {l : Label} (he : h.Effect rules h') (hl : (h.cell c).body = .label l)
    (hlt : c < h.size) (hd : (h'.cell c).destroyed = false) :
    ∃ l', (h'.cell c).body = .label l' ∧ (l' = l ∨ l.Evolves h rules c l') := by
  cases he with
  | wanes hw => exact ⟨l, (hw.toFades.body_of_live hd).trans hl, .inl rfl⟩
  | push _ _ _ => exact ⟨l, by rw [h.cell_push_of_lt _ hlt, hl], .inl rfl⟩
  | @edit e b w _ hev _ =>
    rcases h.cell_update_cases e (fun x => { x with body := b, owner := w }) c with hx | ⟨rfl, -, hx⟩ <;> rw [hx]
    · exact ⟨l, hl, .inl rfl⟩
    · rw [hl] at hev
      cases b with
      | object o => cases hev
      | label l' => exact ⟨l', rfl, .inr hev⟩
  | freeze _ _ => exact ⟨l, by rw [h.body_freeze, hl], .inl rfl⟩
  | thaw _ _ => exact ⟨l, by rw [h.body_thaw, hl], .inl rfl⟩

theorem Heap.Effect.alive (he : h.Effect rules h') (hlt : c < h.size) (ha : (h'.cell c).alive = true) :
    (h.cell c).alive = true := by
  cases he with
  | wanes hw => exact hw.alive c ha
  | push _ _ _ => rwa [h.cell_push_of_lt _ hlt] at ha
  | @edit e b w _ _ _ =>
    have := h.flags_edit e b w c
    rwa [Cell.alive, this.1, this.2] at ha
  | @freeze e _ _ =>
    rcases h.cell_update_cases e Cell.freeze c with hx | ⟨rfl, -, hx⟩ <;> rw [hx] at ha
    · exact ha
    · unfold Cell.freeze at ha
      split at ha <;> exact ha
  | @thaw e _ _ =>
    rcases h.cell_update_cases e Cell.thaw c with hx | ⟨rfl, -, hx⟩ <;> rw [hx] at ha <;> exact ha

theorem Heap.Effect.sealed {l : Label} (he : h.Effect rules h') (hc : rules.sealed c) (hl : (h.cell c).body = .label l)
    (hlt : c < h.size) (hd : (h'.cell c).destroyed = false) : (h'.cell c).body = .label l := by
  obtain ⟨l', hl', rfl | hev⟩ := he.label hl hlt hd
  · exact hl'
  · exact absurd hc hev.sealed

theorem Course.destroyed (hrun : Course rules m m') (hs : Firm rules.sealed m) (hlt : c < m.heap.size)
    (hd : (m'.heap.cell c).destroyed = false) : (m.heap.cell c).destroyed = false :=
  Bool.eq_false_iff.2 fun hd' => by
    rw [(hrun.lasts hs).destroyed c hlt hd'] at hd
    cases hd

theorem Course.sealed {l : Label} (hrun : Course rules m m') (hs : Firm rules.sealed m) (hc : rules.sealed c)
    (hl : (m.heap.cell c).body = .label l) (hlt : c < m.heap.size) (hd : (m'.heap.cell c).destroyed = false) :
    (m'.heap.cell c).body = .label l := by
  induction hrun with
  | refl => exact hl
  | @tail m₁ m₂ hrun hstep ih =>
    obtain ⟨hs', hg⟩ := firm hrun hs
    have hlt' := Nat.lt_of_lt_of_le hlt hg.size
    obtain ⟨opened, hadv⟩ := id hstep
    have he : m₁.heap.Effect { rules with opened := opened } m₂.heap :=
      hadv.effect hs'
    exact he.sealed hc (ih (Course.destroyed (.single hstep) hs' hlt' hd)) hlt' hd

/-- The same label, apart from its lock and from the note that something was entered. -/
structure Label.Same (l l' : Label) : Prop where
  memo : l'.memo = l.memo
  frozen : l'.frozen = l.frozen
  forward : l'.forward = l.forward

namespace Label.Same

protected theorem refl (l : Label) : l.Same l := ⟨rfl, rfl, rfl⟩

protected theorem trans {l l' l'' : Label} (h₁ : l.Same l') (h₂ : l'.Same l'') : l.Same l'' :=
  ⟨h₂.memo.trans h₁.memo, h₂.frozen.trans h₁.frozen, h₂.forward.trans h₁.forward⟩

end Label.Same

theorem Course.steady {l : Label} (hrun : Course rules m m') (hs : Firm rules.sealed m) (hc : rules.steady c)
    (hl : (m.heap.cell c).body = .label l) (hlt : c < m.heap.size) (hd : (m'.heap.cell c).destroyed = false) :
    ∃ l', (m'.heap.cell c).body = .label l' ∧ l.Same l' := by
  induction hrun with
  | refl => exact ⟨l, hl, .refl l⟩
  | @tail m₁ m₂ hrun hstep ih =>
    obtain ⟨hs', hg⟩ := firm hrun hs
    have hlt' := Nat.lt_of_lt_of_le hlt hg.size
    obtain ⟨l₁, hl₁, hsame⟩ := ih (Course.destroyed (.single hstep) hs' hlt' hd)
    obtain ⟨opened, hadv⟩ := hstep
    have he : m₁.heap.Effect { rules with opened := opened } m₂.heap := hadv.effect hs'
    obtain ⟨l₂, hl₂, rfl | hev⟩ := he.label hl₁ hlt' hd
    · exact ⟨l₂, hl₂, hsame⟩
    · obtain ⟨hm, hf, hfw⟩ := hev.steady hc
      exact ⟨l₂, hl₂, hsame.trans ⟨hm, hf, hfw⟩⟩

/-- The objects of a sort last, and the labels of the sort stay the same for as long as they are there. -/
structure Heap.Leaves (S : CellId → Prop) (h h' : Heap) : Prop extends h.Lasts S h' where
  label : ∀ c l, S c → c < h.size → (h.cell c).body = .label l → (h'.cell c).destroyed = false →
    ∃ l', (h'.cell c).body = .label l' ∧ l.Same l'

namespace Heap.Leaves

protected theorem refl (S : CellId → Prop) (h : Heap) : h.Leaves S h :=
  ⟨.refl S h, fun _ l _ _ hl _ => ⟨l, hl, .refl l⟩⟩

protected theorem trans (h₁ : h.Leaves S h') (h₂ : h'.Leaves S h'') : h.Leaves S h'' := by
  refine ⟨h₁.toLasts.trans h₂.toLasts, fun c l hc hlt hl hd => ?_⟩
  have hlt' := Nat.lt_of_lt_of_le hlt h₁.size
  have hd' : (h'.cell c).destroyed = false := by
    rw [← Bool.not_eq_true]
    intro hd'
    rw [h₂.destroyed c hlt' hd'] at hd
    cases hd
  obtain ⟨l₁, hl₁, hs₁⟩ := h₁.label c l hc hlt hl hd'
  obtain ⟨l₂, hl₂, hs₂⟩ := h₂.label c l₁ hc hlt' hl₁ hd
  exact ⟨l₂, hl₂, hs₁.trans hs₂⟩

theorem subset (hl : h.Leaves S h') (hsub : ∀ c, S' c → S c) : h.Leaves S' h' :=
  ⟨hl.toLasts.subset hsub, fun c l hc => hl.label c l (hsub c hc)⟩

theorem alive (hl : h.Leaves S h') (hlt : c < h.size) (hd : (h'.cell c).destroyed = false) :
    (h.cell c).destroyed = false :=
  Bool.eq_false_iff.2 fun hd' => by
    rw [hl.destroyed c hlt hd'] at hd
    cases hd

theorem object_back {o' : Object} (hl : h.Leaves S h') (hc : S c) (hlt : c < h.size) (ho : (h'.cell c).body = .object o')
    (hd : (h'.cell c).destroyed = false) : ∃ o, (h.cell c).body = .object o ∧ (h.cell c).destroyed = false ∧ o.Same o' := by
  cases hb : (h.cell c).body with
  | object o =>
    obtain ⟨o₁, ho₁, hs⟩ := hl.object c o hc hb hd
    rw [ho] at ho₁
    cases ho₁
    exact ⟨o, rfl, hl.alive hlt hd, hs⟩
  | label l =>
    obtain ⟨l', hl', -⟩ := hl.label c l hc hlt hb hd
    rw [ho] at hl'
    cases hl'

theorem label_back {l' : Label} (hl : h.Leaves S h') (hc : S c) (hlt : c < h.size) (hb' : (h'.cell c).body = .label l')
    (hd : (h'.cell c).destroyed = false) : ∃ l, (h.cell c).body = .label l ∧ (h.cell c).destroyed = false ∧ l.Same l' := by
  cases hb : (h.cell c).body with
  | object o =>
    obtain ⟨o', ho', -⟩ := hl.object c o hc hb hd
    rw [hb'] at ho'
    cases ho'
  | label l =>
    obtain ⟨l₁, hl₁, hs⟩ := hl.label c l hc hlt hb hd
    rw [hb'] at hl₁
    cases hl₁
    exact ⟨l, rfl, hl.alive hlt hd, hs⟩

end Heap.Leaves

theorem Heap.Kept.leaves {hold : List Task} (hk : h.Kept hold h') : h.Leaves S h' where
  toLasts := hk.fades.lasts (Nat.le_of_eq hk.size.symm)
  label _ l _ _ hl hd := ⟨l, (hk.fades.body_of_live hd).trans hl, .refl l⟩

theorem Course.leaves (hrun : Course { rules with fixed := S, steady := S } m m') (hs : Firm rules.sealed m) :
    m.heap.Leaves S m'.heap :=
  ⟨hrun.lasts hs, fun _ _ hc hlt hl hd => hrun.steady hs hc hl hlt hd⟩

/-! ### Who made an object -/

/-- Only what has no value any more is told to forget who made it. -/
def Moment.Disowns (m : Moment) : Prop := ∀ c, .disown c ∈ m.pending → (m.heap.cell c).destroyed = true

private theorem Heap.owner_update (h : Heap) (d : CellId) {g : Cell → Cell} (hg : (g (h.cell d)).owner = (h.cell d).owner)
    (c : CellId) : ((h.update d g).cell c).owner = (h.cell c).owner := by
  rcases h.cell_update_cases d g c with hx | ⟨rfl, -, hx⟩ <;> rw [hx]
  exact hg

/-- A step tells nothing to forget who made it that has a value still, and changes the maker of nothing that is to keep
it. -/
private theorem Advance.maker (hstep : Advance rules m m') (hs : Firm rules.sealed m) (hm : m.Disowns) :
    m'.Disowns ∧ (rules.steady c → c < m.heap.size → (m'.heap.cell c).destroyed = false →
      (m'.heap.cell c).owner = (m.heap.cell c).owner) := by
  cases hstep with
  | arrange _ => exact ⟨hm, fun _ _ _ => rfl⟩
  | begin _ => exact ⟨fun d hd => (nomatch hs.held _ (List.mem_append_left _ hd)), fun _ _ _ => rfl⟩
  | @work h h' locks t new ts held hw =>
    have hkeep : ∀ d, (h.cell d).destroyed = true → (h'.cell d).destroyed = true := (Heap.wanes_work hw).destroyed
    refine ⟨fun d hd => ?_, fun _ _ hd => ?_⟩
    · rcases List.mem_append.1 hd with hd | hd
      · exact (Heap.work_maker hw d).2 hd
      · exact hkeep d (hm d (List.mem_cons_of_mem _ hd))
    · refine (Heap.work_maker hw c).1.resolve_left fun ht => ?_
      rw [show (h'.cell c).destroyed = true from hkeep c (hm c (ht ▸ List.mem_cons_self))] at hd
      cases hd
  | openRound hr hopen =>
    obtain ⟨k, roots, whites, hk, heq⟩ := hs.toSound.openRound hr
    rw [heq] at hopen
    cases hopen
    refine ⟨fun d hd => ?_, fun _ _ _ => (congrArg Cell.owner (hk.cell c) :)⟩
    have hd := hm d ((List.mem_append.1 hd).resolve_left (by simp))
    exact ((congrArg Cell.destroyed (hk.cell d) :) : _ = _).trans hd
  | @retain h locks d held _ _ => exact ⟨nofun, fun _ _ _ => h.owner_update d rfl c⟩
  | @retainWeak h locks d held _ => exact ⟨nofun, fun _ _ _ => h.owner_update d rfl c⟩
  | @giveBack h locks d held _ => exact ⟨nofun, fun _ _ _ => h.owner_update d rfl c⟩
  | @allocate h locks b w held _ _ _ _ => exact ⟨nofun, fun _ hlt _ => congrArg Cell.owner (h.cell_push_of_lt _ hlt)⟩
  | @rewrite h locks locks' d b w ins outs held he =>
    refine ⟨nofun, fun hst _ _ => ?_⟩
    rcases h.cell_update_cases d (fun x => { x with body := b, owner := w }) c with hx | ⟨rfl, -, hx⟩ <;> simp only [hx]
    exact he.maker hst
  | @freeze h locks d held _ _ =>
    refine ⟨nofun, fun _ _ _ => h.owner_update d ?_ c⟩
    unfold Cell.freeze
    split <;> rfl
  | @thaw h locks d held _ _ _ => exact ⟨nofun, fun _ _ _ => h.owner_update d rfl c⟩
  | enterScope _ => exact ⟨nofun, fun _ _ _ => rfl⟩
  | leaveScope _ => exact ⟨nofun, fun _ _ _ => rfl⟩
  | clerical heq _ => exact ⟨nofun, fun _ _ _ => by rw [heq]; rfl⟩

/-- Between two operations an object that is to keep its maker has kept it, if it is still there. -/
theorem Course.maker (hrun : Course rules m m') (hs : Firm rules.sealed m) (hp : m.pending = []) (hc : rules.steady c)
    (hlt : c < m.heap.size) (hd : (m'.heap.cell c).destroyed = false) :
    (m'.heap.cell c).owner = (m.heap.cell c).owner := by
  have key : m'.Disowns ∧ ((m'.heap.cell c).destroyed = false → (m'.heap.cell c).owner = (m.heap.cell c).owner) := by
    clear hd
    induction hrun with
    | refl =>
      refine ⟨fun d hd => ?_, fun _ => rfl⟩
      rw [hp] at hd
      cases hd
    | tail hrun hstep ih =>
      obtain ⟨hs', hg⟩ := firm hrun hs
      have hlt' := Nat.lt_of_lt_of_le hlt hg.size
      obtain ⟨opened, hadv⟩ := id hstep
      obtain ⟨hm, hown⟩ := Advance.maker hadv hs' ih.1
      exact ⟨hm, fun hd => (hown hc hlt' hd).trans (ih.2 (Course.destroyed (.single hstep) hs' hlt' hd))⟩
  exact key.2 hd

/-! ### Cells that are given back -/

/-- A cell whose bookkeeping is given back: nobody observes it, and nobody is about to stop observing it. -/
private theorem Sound.released {sealed : CellId → Prop} (hs : Sound sealed m) (hc : (m.heap.cell c).weak = 0) :
    (m.heap.cell c).destroyed = true ∧ m.claims (.unpin c) = 0 := by
  have := hs.weak c
  rw [hc] at this
  cases hd : (m.heap.cell c).destroyed <;> rw [hd] at this
  · simp at this
  · exact ⟨rfl, by omega⟩

private theorem Sound.released_work {sealed : CellId → Prop} {ts held : List Task} {t : Task} {new : List Task}
    {locks : List Lock} (hs : Sound sealed ⟨h, locks, t :: ts, held⟩) (hw : h.work t = .ok (h', new))
    (hc : (h.cell c).weak = 0) : (h'.cell c).weak = 0 := by
  obtain ⟨hd, hclaims⟩ := hs.released hc
  have hd : (h.cell c).destroyed = true := hd
  have hsame : ∀ {d : CellId} {k : Heap}, d ≠ c → h.Differs k d → (k.cell c).weak = 0 := fun hdc hdiff => by
    rw [hdiff.others c (Ne.symm hdc), hc]
  cases t with
  | release d =>
    simp only [Heap.work] at hw
    split at hw
    · cases hw
      exact hc
    · split at hw
      · cases hw
      · next n hn =>
        have hdc : d ≠ c := fun he => by
          have := (hs.dead c hd).1
          rw [show (Moment.heap _).cell c = h.cell d from congrArg h.cell he.symm, hn] at this
          cases this
        have hdiff := Heap.Differs.update h d fun x => { x with shared := n, weak := x.weak + 1 }
        split at hw
        · split at hw
          · cases hw
          · next k us hk =>
            cases hw
            exact hsame hdc (hdiff.trans (Heap.differs_destroy hk))
        · rw [show h' = _ from (congrArg Prod.fst (Except.ok.inj hw)).symm]
          exact hsame hdc (hdiff.trans (Heap.differs_note _ _))
  | unpin d =>
    simp only [Heap.work, Heap.perform] at hw
    split at hw
    · cases hw
    · next n hn =>
      cases hw
      refine hsame (fun he => ?_) (.update h d _)
      rw [he, hc] at hn
      cases hn
  | perish d =>
    refine hsame (fun he => ?_) ((Heap.Differs.update h d _).trans (Heap.differs_destroy hw))
    have := hs.perish d
    rw [he, show (Moment.heap _).cell c = h.cell c from rfl, hd] at this
    simp at this
  | disown d =>
    simp only [Heap.work, Heap.perform] at hw
    split at hw
    · cases hw
      exact hc
    · cases hw
      rcases h.cell_update_cases d (fun x => { x with owner := none }) c with he | ⟨rfl, -, he⟩ <;> rw [he] <;> exact hc
  | closeRound o =>
    cases hw
    exact hc

theorem Advance.released (hstep : Advance rules m m') (hs : Firm rules.sealed m) (hlt : c < m.heap.size)
    (hc : (m.heap.cell c).weak = 0) : (m'.heap.cell c).weak = 0 := by
  have hupdate : ∀ (h : Heap) (d : CellId) (g : Cell → Cell), (∀ x, (g x).weak = x.weak) → (h.cell c).weak = 0 →
      ((h.update d g).cell c).weak = 0 := fun h d g hg hc => by
    rcases h.cell_update_cases d g c with he | ⟨rfl, -, he⟩ <;> rw [he]
    · exact hc
    · rw [hg, hc]
  cases hstep with
  | arrange _ => exact hc
  | begin _ => exact hc
  | work hw => exact hs.toSound.released_work hw hc
  | openRound hr ho =>
    obtain ⟨hd, -⟩ := hs.toSound.released hc
    obtain ⟨k, roots, whites, hk, heq⟩ := hs.toSound.openRound hr
    rw [heq] at ho
    cases ho
    have hw : c ∉ whites := fun hw => by
      have := Cell.destroyed_of_alive (hk.alive c ((hk.mem_whites c).1 hw).1)
      rw [show (_ : Heap).cell c = _ from rfl, this] at hd
      cases hd
    refine ((congrArg Cell.weak (hk.cell c) :) : _ = _).trans ?_
    simpa [Cell.unmarked, Cell.opened, hw] using hc
  | retain _ _ => exact hupdate _ _ _ (fun _ => rfl) hc
  | @retainWeak h locks d held hd =>
    rw [h.cell_update_ne _ fun he => by
      rw [← he, hc] at hd
      cases hd]
    exact hc
  | giveBack _ => exact hupdate _ _ _ (fun _ => rfl) hc
  | allocate _ _ _ _ =>
    rw [Heap.cell_push_of_lt _ _ hlt]
    exact hc
  | rewrite _ => exact hupdate _ _ _ (fun _ => rfl) hc
  | freeze _ _ => exact hupdate _ _ _ (fun x => by unfold Cell.freeze; split <;> rfl) hc
  | thaw _ _ _ => exact hupdate _ _ _ (fun _ => rfl) hc
  | enterScope _ => exact hc
  | leaveScope _ => exact hc
  | clerical heq _ =>
    rw [heq]
    exact hc

theorem Course.released (hrun : Course rules m m') (hs : Firm rules.sealed m) (hlt : c < m.heap.size)
    (hc : (m.heap.cell c).weak = 0) : (m'.heap.cell c).weak = 0 := by
  induction hrun with
  | refl => exact hc
  | tail hrun hstep ih =>
    obtain ⟨opened, hstep⟩ := hstep
    obtain ⟨hs', hg⟩ := firm hrun hs
    exact hstep.released hs' (Nat.lt_of_lt_of_le hlt hg.size) ih

/-! ### Anchors -/

/-- What is reached from what is held through objects that are left as they are, and through sealed labels. -/
inductive Heap.Anchored (rules : Rules) (h : Heap) (hold : List Task) : CellId → Prop where
  | held {d : CellId} : .release d ∈ hold → Anchored rules h hold d
  | object {x d : CellId} : Anchored rules h hold x → rules.fixed x → h.IsObject x → d ∈ (h.cell x).edges →
    Anchored rules h hold d
  | label {x d : CellId} : Anchored rules h hold x → rules.sealed x → h.IsLabel x → d ∈ (h.cell x).edges →
    Anchored rules h hold d

/-- All that is left as it is stays there, since it is held in this way. -/
def Rules.Anchors (rules : Rules) (h : Heap) (hold : List Task) : Prop := ∀ d, rules.fixed d → h.Anchored rules hold d

namespace Heap.Anchored

variable {hold hold' held held' : List Task} {locks locks' : List Lock} {d : CellId}

theorem via (ha : h.Anchored rules hold d) : Via rules.sealed h hold d := by
  induction ha with
  | held hd => exact .held (.inl hd)
  | object _ _ hx hd ih => exact .edge ih (.inl hx) hd
  | label _ hx _ hd ih => exact .edge ih (.inr hx) hd

theorem subset (ha : h.Anchored rules hold d) (hsub : ∀ t ∈ hold, t ∈ hold') : h.Anchored rules hold' d := by
  induction ha with
  | held hd => exact .held (hsub _ hd)
  | object _ hf hx hd ih => exact .object ih hf hx hd
  | label _ hs hx hd ih => exact .label ih hs hx hd

theorem of_differs (ha : h.Anchored rules hold d) (hd : h.Differs h' c) (hc : h.IsObject c) (hfixed : ¬ rules.fixed c) :
    h'.Anchored rules hold d := by
  induction ha with
  | held hh => exact .held hh
  | @object x d _ hf hx he ih =>
    have hxc := hd.others x fun he => hfixed (he ▸ hf)
    exact .object ih hf (by rwa [IsObject, hxc]) (by rwa [hxc])
  | @label x d _ hs hx he ih =>
    obtain ⟨hlt, l, hl⟩ := hx
    have hxc := hd.others x fun he => by
      obtain ⟨o, ho⟩ := hc
      rw [he, ho] at hl
      cases hl
    exact .label ih hs ⟨Nat.lt_of_lt_of_eq hlt hd.size.symm, l, by rw [hxc, hl]⟩ (by rwa [hxc])

theorem course (ha : h.Anchored rules hold d) (hrun : Course rules ⟨h, locks, [], held⟩ ⟨h', locks', [], held'⟩)
    (hs : Firm rules.sealed ⟨h, locks, [], held⟩) (hsub : ∀ t ∈ hold, t ∈ held') : h'.Anchored rules hold d := by
  have hs' := (hrun.firm hs).1
  have hlive : ∀ {x}, h'.Anchored rules hold x → h'.Live x := fun hx =>
    hs'.toSound.live_of_reach (hx.subset hsub).via.reach
  induction ha with
  | held hd => exact .held hd
  | @object x d _ hf hx he ih =>
    obtain ⟨o, ho⟩ := hx
    obtain ⟨o', ho', hsame⟩ := (hrun.lasts hs).object x o hf ho (hlive ih).destroyed
    refine .object ih hf ⟨o', ho'⟩ ?_
    rw [Cell.edges, ho] at he
    rw [Cell.edges, show (h'.cell x).body = _ from ho']
    show d ∈ o'.links.flatMap Cell.linkEdges
    rwa [hsame.links]
  | @label x d _ hsl hx he ih =>
    obtain ⟨hlt, l, hl⟩ := hx
    have hl' := hrun.sealed hs hsl hl hlt (hlive ih).destroyed
    refine .label ih hsl ⟨(hlive ih).lt_size, l, hl'⟩ ?_
    rw [Cell.edges, hl] at he
    rwa [Cell.edges, show (h'.cell x).body = _ from hl']

end Heap.Anchored

/-- An operation under a frame, in the course of which cells may be exempt. Before and after it the laws hold
without exemption, and nothing that the frame holds has thawed. -/
structure Passage (rules : Rules) (locks : List Lock) (frame : List Task) (h : Heap) (ins : List Task) (h' : Heap)
    (outs : List Task) : Prop where
  course : Course rules ⟨h, locks, [], ins ++ frame⟩ ⟨h', locks, [], outs ++ frame⟩
  safe : Safe rules ⟨h', locks, [], outs ++ frame⟩
  lends : h.Lends frame h'

namespace Passage

variable {manner : Manner} {locks : List Lock} {frame ins mid outs ins' outs' used new rest : List Task}

theorem of_run (hr : Run manner rules locks frame h ins h' outs)
    (hs : Safe rules ⟨h, locks, [], ins ++ frame⟩) : Passage rules locks frame h ins h' outs :=
  ⟨.of_steps hr.steps, (hs.steps hr.steps).1, .of_keeps hr.keeps⟩

protected theorem refl (hs : Safe rules ⟨h, locks, [], ins ++ frame⟩) : Passage rules locks frame h ins h ins :=
  ⟨.refl, hs, .refl frame h⟩

protected theorem trans (h₁ : Passage rules locks frame h ins h' mid)
    (h₂ : Passage rules locks frame h' mid h'' outs) : Passage rules locks frame h ins h'' outs :=
  ⟨h₁.course.trans h₂.course, h₂.safe, h₁.lends.trans h₂.lends⟩

theorem perm (hp : Passage rules locks frame h ins h' outs) (hins : ins'.Perm ins) (houts : outs.Perm outs') :
    Passage rules locks frame h ins' h' outs' := by
  have hi : Advance rules ⟨h, locks, [], ins' ++ frame⟩ ⟨h, locks, [], ins ++ frame⟩ :=
    .arrange (hins.append_right frame)
  have ho : Advance rules ⟨h', locks, [], outs ++ frame⟩ ⟨h', locks, [], outs' ++ frame⟩ :=
    .arrange (houts.append_right frame)
  exact ⟨((Course.of_steps (.single hi)).trans hp.course).trans (Course.of_steps (.single ho)), (hp.safe.step ho).1, hp.lends⟩

theorem widen (hp : Passage rules locks (rest ++ frame) h ins h' outs) :
    Passage rules locks frame h (ins ++ rest) h' (outs ++ rest) := by
  obtain ⟨hc, hs, hl⟩ := hp
  refine ⟨?_, ?_, hl.subset fun _ => List.mem_append_right _⟩
  · rwa [List.append_assoc, List.append_assoc]
  · rwa [List.append_assoc]

theorem grows (hp : Passage rules locks frame h ins h' outs) : h.Grows h' := hp.lends.grows

end Passage

/-! ### Abstaining from less -/

/-- A run under the first rules is one under the second. -/
structure Rules.Implies (rules rules' : Rules) : Prop where
  careful : rules'.careful = true → rules.careful = true
  apart : rules'.apart = true → rules.apart = true
  closed : rules'.closed = true → rules.closed = true ∨ ∀ c, rules'.opened c
  sealed : rules'.sealed = rules.sealed
  opened : rules'.closed = true ∨ rules'.apart = true → ∀ c, rules.opened c → rules'.opened c
  fixed : ∀ c, rules'.fixed c → rules.fixed c
  steady : ∀ c, rules'.steady c → rules.steady c

namespace Rules.Implies

variable {locks locks' : List Lock} {held ins outs : List Task} {b : Body} {w : Option CellId} {l l' : Label}

theorem admits {e : CellId × CellId} (hi : rules.Implies rules') (ha : l.Admits h rules e) : l.Admits h rules' e where
  fresh := ha.fresh
  careful hc := ha.careful (hi.careful hc)
  apart hap := ha.apart (hi.apart hap)

theorem evolves (hi : rules.Implies rules') (he : (h.cell c).body.Evolves h rules c b) :
    (h.cell c).body.Evolves h rules' c b := by
  cases hb : (h.cell c).body with
  | object o =>
    rw [hb] at he
    cases b with
    | object o' =>
      exact ⟨he.kind, he.serial, fun hc hf hno =>
        he.links ((hi.closed hc).resolve_right fun hall => hno (hall c)) hf fun ho => hno (hi.opened (.inl hc) c ho),
        fun hf => he.fixed (hi.fixed c hf)⟩
    | label l => cases he
  | label l =>
    rw [hb] at he
    cases b with
    | object o => cases he
    | label l' =>
      exact ⟨he.keep, fun e hm => (he.enter e hm).imp_right hi.admits, he.frozen, fun hap hf =>
        (he.shut (hi.apart hap) hf).imp_right (hi.opened (.inr hap) c), he.forward, hi.sealed ▸ he.sealed,
        fun hst => he.steady (hi.steady c hst)⟩

theorem starts (hi : rules.Implies rules') (hb : b.Starts h rules) : b.Starts h rules' :=
  ⟨fun hc => hb.careful (hi.careful hc), fun hap => hb.apart (hi.apart hap), fun hc l hl v hv ho =>
    hb.closed ((hi.closed hc).resolve_right fun hall => ho (hall v)) l hl v hv fun hv => ho (hi.opened (.inl hc) v hv)⟩

theorem advance (hi : rules.Implies rules') (hstep : Advance rules m m') : Advance rules' m m' := by
  cases hstep with
  | arrange hp => exact .arrange hp
  | begin hg => exact .begin hg
  | work hw => exact .work hw
  | openRound hr ho => exact .openRound hr ho
  | retain hc hroot => exact .retain hc hroot
  | retainWeak hc => exact .retainWeak hc
  | giveBack hc => exact .giveBack hc
  | allocate hf hl ho hb => exact .allocate (hi.sealed ▸ hf) hl ho (hi.starts hb)
  | rewrite he => exact .rewrite ⟨he.reached, hi.evolves he.evolves, hi.sealed ▸ he.fits, he.root, he.owner,
      fun hst => he.maker (hi.steady _ hst), he.dues, he.own, he.others⟩
  | freeze hfixed hc => exact .freeze (fun hf => hfixed (hi.fixed _ hf)) fun hcl =>
      (hi.closed hcl).elim (fun h => (hc h).imp_right (hi.opened (.inl hcl) _)) fun hall => .inr (hall _)
  | thaw hfixed hu hl =>
    exact .thaw (fun hf => hfixed (hi.fixed _ hf)) hu
      (hl.imp_right fun ⟨x, l, hx, hm, hs, hap⟩ => ⟨x, l, hx, hm, hi.sealed ▸ hs, fun ha => hap (hi.apart ha)⟩)
  | enterScope hf => exact .enterScope (hi.sealed ▸ hf)
  | leaveScope hs => exact .leaveScope hs
  | clerical heq hle => exact .clerical heq hle

end Rules.Implies

theorem Course.lawless (hrun : Course rules m m') : Steps { sealed := rules.sealed } m m' :=
  hrun.lift id fun _ _ ⟨opened, hstep⟩ =>
    have hi : Rules.Implies { rules with opened := opened } { sealed := rules.sealed } :=
      ⟨nofun, nofun, nofun, rfl, fun h => h.elim nofun nofun, fun _ => False.elim, fun _ => False.elim⟩
    hi.advance hstep

theorem Safe.leaving (hs : Safe rules m) (fixed steady : CellId → Prop) :
    Safe { rules with fixed := fixed, steady := steady } m where
  toFirm := hs.toFirm
  abides := { hs.abides with }
  sealed := hs.sealed

theorem Holding.leaving {manner : Manner} {locks : List Lock} {frame ins : List Task}
    (hh : Holding manner rules locks frame h ins) (fixed steady : CellId → Prop) :
    Holding manner { rules with fixed := fixed, steady := steady } locks frame h ins :=
  ⟨hh.safe.leaving fixed steady, hh.within⟩

theorem Safe.exempt {opened fixed : CellId → Prop} (hs : Safe rules m) (ho : ∀ c, rules.opened c → opened c) :
    Safe { rules with opened := opened, fixed := fixed } m where
  toFirm := hs.toFirm
  abides :=
    { keys := hs.abides.keys
      apart := fun hap => ⟨(hs.abides.apart hap).common, fun x l hl hf hn =>
        (hs.abides.apart hap).shut x l hl hf fun hx => hn (ho x hx)⟩
      closed := fun hc hlen x o hx hf hn => hs.abides.closed hc hlen x o hx hf fun hx => hn (ho x hx)
      tiered := fun hc => ⟨fun x l hl v hv hn => (hs.abides.tiered hc).copies x l hl v hv fun hv => hn (ho v hv),
        (hs.abides.tiered hc).ranked.imp fun _ hr x o t hx hsole hn ht hsole' hn' =>
          hr x o t hx hsole (fun hx => hn (ho x hx)) ht hsole' fun ht => hn' (ho t ht)⟩
      root := hs.abides.root }
  sealed := hs.sealed

/-! ### Indulging a while

An operation that resolves links of frozen objects is run without the law that these keep their links. When it is over the
law holds again, if what was frozen when it had one owner is still ranked. -/

/-- The rules of an operation during which links of frozen objects are resolved, if that is tolerated. -/
def Rules.loosened (rules : Rules) : Rules := { rules with closed := rules.closed && !rules.lenient }

theorem Rules.closed_of_loosened (hc : rules.loosened.closed = true) : rules.closed = true ∧ rules.lenient = false := by
  simpa [Rules.loosened] using hc

theorem Safe.loosen (hs : Safe rules m) : Safe rules.loosened m where
  toFirm := hs.toFirm
  abides :=
    { hs.abides with
      closed := fun hc => hs.abides.closed (Rules.closed_of_loosened hc).1
      tiered := fun hc => hs.abides.tiered (Rules.closed_of_loosened hc).1 }
  sealed := hs.sealed

theorem Holding.loosen {manner : Manner} {locks : List Lock} {frame ins : List Task}
    (hh : Holding manner rules locks frame h ins) : Holding manner rules.loosened locks frame h ins :=
  ⟨hh.safe.loosen, hh.within⟩

theorem Heap.Anchored.loosen {hold : List Task} (ha : h.Anchored rules hold c) : h.Anchored rules.loosened hold c := by
  induction ha with
  | held hd => exact .held hd
  | object _ hf hx he ih => exact .object ih hf hx he
  | label _ hs hx he ih => exact .label ih hs hx he

theorem Rules.Anchors.loosen {hold : List Task} (ha : rules.Anchors h hold) : rules.loosened.Anchors h hold := fun c hc =>
  (ha c hc).loosen

/-- While frozen objects need not keep their links, everything is exempt. -/
theorem Course.of_loosened (hrun : Course rules.loosened m m') : Course rules m m' :=
  hrun.lift id fun _ _ ⟨opened, hstep⟩ => by
    refine ⟨fun c => opened c ∨ rules.lenient = true, Rules.Implies.advance ?_ hstep⟩
    refine ⟨id, id, fun hc => ?_, rfl, fun _ _ => .inl, fun _ => id, fun _ => id⟩
    cases hl : rules.lenient with
    | true => exact .inr fun _ => .inr rfl
    | false => exact .inl (by simpa [Rules.loosened, hl] using hc)

/-- Once what was frozen when it had one owner is ranked again, nothing is exempt. -/
theorem Passage.of_loosened {locks : List Lock} {frame ins outs : List Task}
    (hp : Passage rules.loosened locks frame h ins h' outs)
    (ht : rules.closed = true → rules.lenient = true → h'.Tiered rules.opened) : Passage rules locks frame h ins h' outs where
  course := hp.course.of_loosened
  safe :=
    { hp.safe with
      abides :=
        { hp.safe.abides with
          closed := fun hc hl => hp.safe.abides.closed (by simpa [Rules.loosened, hl] using hc) hl
          tiered := fun hc => by
            cases hl : rules.lenient with
            | true => exact ht hc hl
            | false => exact hp.safe.abides.tiered (by simpa [Rules.loosened, hl] using hc) } }
  lends := hp.lends

end LazyHeap
