import LazyHeap.Proofs.Step

/-!
What runs keep by abstaining. Whatever a step does to the cells is one of five things: it only gives values up,
it adds a cell, it edits one value, it freezes a cell, or it thaws one that nobody shares. So each law that a run
keeps is checked against these five.
-/
namespace LazyHeap

/-! ### What a step does to the cells -/

/-- Nothing has come back to life, and values have only been given up. -/
structure Heap.Wanes (h h' : Heap) : Prop extends h.Fades h' where
  alive : ∀ c, (h'.cell c).alive = true → (h.cell c).alive = true

namespace Heap

variable {h h' h'' : Heap} {c : CellId}

protected theorem Wanes.refl (h : Heap) : h.Wanes h := ⟨.refl h, fun _ => id⟩

protected theorem Wanes.trans (h₁ : h.Wanes h') (h₂ : h'.Wanes h'') : h.Wanes h'' :=
  ⟨h₁.toFades.trans h₂.toFades, fun c hc => h₁.alive c (h₂.alive c hc)⟩

theorem wanes_update (h : Heap) (c : CellId) {g : Cell → Cell}
    (hf : (g (h.cell c)).flags.freezing = (h.cell c).flags.freezing)
    (ha : (g (h.cell c)).alive = true → (h.cell c).alive = true)
    (hd : (h.cell c).destroyed = true → (g (h.cell c)).destroyed = true)
    (hb : (g (h.cell c)).body = (h.cell c).body ∨
      ((g (h.cell c)).body = (h.cell c).body.emptied ∧ (g (h.cell c)).destroyed = true)) :
    h.Wanes (h.update c g) := by
  by_cases hlt : c < h.size
  · have hself := h.cell_update_self g hlt
    refine ⟨.of_differs (.update h c g) (by rw [hself, hf]) (by rw [hself]; exact hd) (by rw [hself]; exact hb),
      fun d hd => ?_⟩
    by_cases hdc : d = c
    · subst hdc
      rw [hself] at hd
      exact ha hd
    · rwa [h.cell_update_ne g hdc] at hd
  · rw [h.update_of_size_le g (Nat.not_lt.1 hlt)]
    exact .refl h

theorem Wanes.of_cells (hw : h.Wanes h') (hcells : h''.cells = h'.cells) : h.Wanes h'' := by
  have hcell : ∀ c, h''.cell c = h'.cell c := fun c => by simp only [cell, hcells]
  exact ⟨⟨fun c => hcell c ▸ hw.freezing c, fun c => hcell c ▸ hw.destroyed c, fun c => hcell c ▸ hw.body c⟩, fun c => hcell c ▸ hw.alive c⟩

private theorem wanes_destroy {ts : List Task} (hd : h.destroy c = .ok (h', ts)) : h.Wanes h' := by
  simp only [destroy] at hd
  split at hd
  · cases hd
  · cases hd
    have hw : h.Wanes (h.update c fun x => { x with flags.destroyed := true, body := x.body.emptied }) :=
      h.wanes_update c rfl (by simp [Cell.alive]) (fun _ => rfl) (.inr ⟨rfl, rfl⟩)
    split
    · exact hw.of_cells rfl
    · exact hw

private theorem wanes_note (h : Heap) (c : CellId) : h.Wanes (h.note c).1 := by
  simp only [note]
  have hw : h.Wanes (h.update c fun x => (x.setColour .purple).setBuffered true) :=
    h.wanes_update c rfl id id (.inl rfl)
  split
  · exact .refl h
  · split
    · exact hw
    · exact hw.of_cells rfl

theorem wanes_work {t : Task} {ts : List Task} (hw : h.work t = .ok (h', ts)) : h.Wanes h' := by
  cases t with
  | release c =>
    simp only [work] at hw
    split at hw
    · cases hw
      exact .refl h
    · split at hw
      · cases hw
      · next n hn =>
        have h₁ : h.Wanes (h.update c fun x => { x with shared := n, weak := x.weak + 1 }) :=
          h.wanes_update c rfl (by simp [Cell.alive, hn]) id (.inl rfl)
        split at hw
        · split at hw
          · cases hw
          · next hd =>
            cases hw
            exact h₁.trans (wanes_destroy hd)
        · have hnote := wanes_note (h.update c fun x => { x with shared := n, weak := x.weak + 1 }) c
          rw [show Heap.note _ c = (h', ts) from Except.ok.inj hw] at hnote
          exact h₁.trans hnote
  | unpin c =>
    simp only [work, perform] at hw
    split at hw
    · cases hw
    · cases hw
      exact h.wanes_update c rfl id id (.inl rfl)
  | perish c =>
    have h₁ : h.Wanes (h.update c fun x => { x with shared := 0 }) :=
      h.wanes_update c rfl (by simp [Cell.alive]) id (.inl rfl)
    exact h₁.trans (wanes_destroy hw)
  | disown c =>
    simp only [work, perform] at hw
    split at hw
    · cases hw
      exact .refl h
    · cases hw
      exact h.wanes_update c rfl id id (.inl rfl)
  | closeRound o =>
    cases hw
    exact (Wanes.refl h).of_cells rfl

theorem Opened.wanes {roots whites : List CellId} (ho : h.Opened h' roots whites) : h.Wanes h' where
  freezing c := (congrArg (fun x : Cell => x.flags.freezing) (ho.cell c) :)
  destroyed c := by
    rw [show (h'.cell c).destroyed = (h.cell c).destroyed from (congrArg Cell.destroyed (ho.cell c) :)]
    exact id
  alive c hc := by
    rw [← show (h'.cell c).alive = (h.cell c).alive from (congrArg Cell.alive (ho.cell c) :)]
    exact hc
  body c := .inl (congrArg Cell.body (ho.cell c) :)

/-- A cell that may thaw: no memo maps it, and its only owner, if it is a cell at all, is a label that may still
change. -/
structure Thaws (h : Heap) (rules : Rules) (c : CellId) : Prop where
  unmapped : ∀ x l, (h.cell x).body = .label l → ∀ e ∈ l.memo.entries, e.1 ≠ c
  lone : ∀ x y, c ∈ (h.cell x).edges → c ∈ (h.cell y).edges → x = y
  owner : ∀ x, c ∈ (h.cell x).edges → ∃ l, (h.cell x).body = .label l ∧ ¬ rules.sealed x ∧
    (rules.apart = true → l.frozen = false)

/-- What a step does to the cells. -/
inductive Effect (h : Heap) (rules : Rules) : Heap → Prop where
  | wanes {k : Heap} : h.Wanes k → Effect h rules k
  | push {b : Body} {w : Option CellId} : b.Starts h rules →
    (∀ l, b = .label l ∨ (∃ x, (h.cell x).body = .label l) → ∀ e ∈ l.memo.entries, e.1 < h.size) →
    rootCell < h.size → Effect h rules (h.push (.fresh b w))
  | edit {c : CellId} {b : Body} {w : Option CellId} : h.Live c → (h.cell c).body.Evolves h rules c b →
    (c = rootCell → ∀ t ∈ b.tasks, t ∈ (h.cell c).body.tasks) →
    Effect h rules (h.update c fun x => { x with body := b, owner := w })
  | freeze {c : CellId} : ¬ rules.fixed c → (rules.closed = true → (h.cell c).frozen = true ∨ rules.opened c) →
    Effect h rules (h.update c Cell.freeze)
  | thaw {c : CellId} : ¬ rules.fixed c → h.Thaws rules c → Effect h rules (h.update c Cell.thaw)

end Heap

section Thaws

variable {sealed : CellId → Prop} {m : Moment} {c : CellId}

theorem Sound.claims_of_unique (hs : Sound sealed m) (hu : (m.heap.cell c).unique = true)
    (hcol : (m.heap.cell c).flags.collected = false) : m.claims (.release c) = 1 ∧ m.claims (.unpin c) = 0 := by
  simp only [Cell.unique, Bool.and_eq_true, decide_eq_true_eq] at hu
  have hd : (m.heap.cell c).destroyed = false := by
    rw [← Bool.not_eq_true]
    intro hd
    have := (hs.dead _ hd).1
    omega
  have hcand : m.heap.candidates.toList.count c = if (m.heap.cell c).flags.buffered then 1 else 0 := by
    split
    · next hb => exact List.count_eq_one_of_mem hs.buffered.nodup ((hs.buffered.candidates _).2 hb)
    · next hb => exact List.count_eq_zero.2 fun hm => hb ((hs.buffered.candidates _).1 hm)
  have hweak := hs.weak c
  rw [hcand, hd] at hweak
  refine ⟨(hs.shared c hcol).symm.trans hu.1, ?_⟩
  cases hb : (m.heap.cell c).flags.buffered <;> simp [hb] at hu hweak <;> omega

theorem Heap.mem_dues_of_key {h : Heap} {x : CellId} {l : Label} (hl : (h.cell x).body = .label l)
    {e : CellId × CellId} (he : e ∈ l.memo.entries) : .unpin e.1 ∈ (h.cell x).dues := by
  rw [Cell.dues, hl]
  exact List.mem_append_left _ (List.mem_append_left _ (List.mem_flatMap.2 ⟨e, he, by simp⟩))

private theorem not_mapped_of_unique (hs : Sound sealed m) (hu : (m.heap.cell c).unique = true)
    (hcol : (m.heap.cell c).flags.collected = false) {x : CellId} {l : Label} (hl : (m.heap.cell x).body = .label l) :
    ∀ e ∈ l.memo.entries, e.1 ≠ c := by
  rintro e he rfl
  have hclaims := Sound.claims_pos_of_due (m := m) (Heap.mem_dues_of_key hl he)
  rw [(hs.claims_of_unique hu hcol).2] at hclaims
  exact Nat.lt_irrefl 0 hclaims

theorem Sound.lone_of_unique (hs : Sound sealed m) (hu : (m.heap.cell c).shared ≤ 1)
    (hcol : (m.heap.cell c).flags.collected = false) :
    (∀ x y, c ∈ (m.heap.cell x).edges → c ∈ (m.heap.cell y).edges → x = y) ∧
      (m.heap.Held m.held c → ∀ x, c ∉ (m.heap.cell x).edges) := by
  have hshared := hs.shared c hcol
  simp only [Moment.claims, m.heap.due_release] at hshared
  refine ⟨fun x y hx hy => Classical.by_contradiction fun hne => ?_, fun hh x hx => ?_⟩
  · have hnodup : [x, y].Nodup := by simpa using hne
    have hsum := m.heap.count_edges_le_inward hnodup c
    have h₁ := List.count_pos_iff.2 hx
    have h₂ := List.count_pos_iff.2 hy
    simp only [List.flatMap_cons, List.flatMap_nil, List.append_nil, List.count_append] at hsum
    omega
  · have h₁ := Heap.inward_pos hx
    have h₂ : 0 < m.heap.standing.count (.release c) + m.held.count (.release c) :=
      hh.elim (fun hh => Nat.add_pos_right _ (List.count_pos_iff.2 hh))
        fun hh => Nat.add_pos_left (List.count_pos_iff.2 hh) _
    omega

theorem Sound.thaws {rules : Rules} (hs : Sound rules.sealed m) (hp : m.pending = [])
    (hu : (m.heap.cell c).unique = true) (hl : m.heap.Loose rules m.held c) : m.heap.Thaws rules c := by
  have hone : (m.heap.cell c).shared ≤ 1 := by
    simp only [Cell.unique, Bool.and_eq_true, decide_eq_true_eq] at hu
    omega
  have hcol : (m.heap.cell c).flags.collected = false := by
    rcases hl with hl | ⟨x, l, hb, hc, -, -⟩
    · exact (hs.live_of_held (.inl hl)).collected
    · have hedge : c ∈ (m.heap.cell x).edges := by
        rw [Cell.edges, hb]
        exact List.mem_append_left _ hc
      rw [← Bool.not_eq_true]
      intro hcol
      -- the owner of a cell that is claimed is claimed with it, and between operations it has nothing left
      have hx := hs.collected_destroyed hp ((hs.collected c hcol).2 x hedge)
      rw [hs.destroyed_edges hx] at hedge
      cases hedge
  obtain ⟨hlone, hout⟩ := hs.lone_of_unique hone hcol
  refine ⟨fun x l hb => not_mapped_of_unique hs hu hcol hb, hlone, fun x hx => ?_⟩
  rcases hl with hl | ⟨y, l, hb, hc, hns, hf⟩
  · exact absurd hx (hout (.inl hl) x)
  · have : x = y := hlone x y hx (by
      rw [Cell.edges, hb]
      exact List.mem_append_left _ hc)
    exact this ▸ ⟨l, hb, hns, hf⟩

end Thaws

/-- What a step does to the cells is one of five things. -/
theorem Advance.effect {rules : Rules} {m m' : Moment} (hstep : Advance rules m m') (hs : Firm rules.sealed m) :
    m.heap.Effect rules m'.heap := by
  cases hstep with
  | arrange _ => exact .wanes (.refl _)
  | begin _ => exact .wanes (.refl _)
  | work hw => exact .wanes (Heap.wanes_work hw)
  | openRound hr ho =>
    obtain ⟨k, roots, whites, hopen, heq⟩ := hs.toSound.openRound hr
    rw [heq] at ho
    cases ho
    exact .wanes hopen.wanes
  | retain hc _ => exact .wanes (Heap.wanes_update _ _ rfl (fun _ => hc.alive) id (.inl rfl))
  | retainWeak _ => exact .wanes (Heap.wanes_update _ _ rfl id id (.inl rfl))
  | giveBack _ =>
    exact .wanes (Heap.wanes_update _ _ rfl
      (fun _ => (hs.live_of_held (.inl List.mem_cons_self)).alive) id (.inl rfl))
  | allocate hfits _ _ hstarts =>
    refine .push hstarts (fun l hl e he => ?_) hs.root.2.1
    rcases hl with rfl | ⟨x, hx⟩
    · exact (hfits.entries e he).1.lt_size
    · have := hs.fits x
      simp only [hx] at this
      exact (this.entries e he).1.lt_size
  | rewrite he =>
    exact .edit (hs.live_of_reach (he.reached.subset fun _ => Or.imp_left (List.mem_append_right _)))
      he.evolves he.root
  | freeze hfixed hc => exact .freeze hfixed hc
  | thaw hfixed hu hl => exact .thaw hfixed (hs.thaws rfl hu hl)
  | enterScope _ => exact .wanes ((Heap.Wanes.refl _).of_cells rfl)
  | leaveScope _ => exact .wanes ((Heap.Wanes.refl _).of_cells rfl)
  | clerical heq _ =>
    rw [heq]
    exact .wanes ((Heap.Wanes.refl _).of_cells rfl)

/-! ### Laws -/

namespace Heap

/-- The memos map frozen objects only, as far as these are still there. -/
def FrozenKeys (h : Heap) : Prop := ∀ c, (h.cell c).body.FrozenKeys h

/-- Labels have copies in common, and frozen labels have copies at all, only if these are frozen. -/
structure Apart (h : Heap) (opened : CellId → Prop) : Prop where
  common : ∀ x y l l', (h.cell x).body = .label l → (h.cell y).body = .label l' → x ≠ y →
    ∀ v, v ∈ l.memo.copies → v ∈ l'.memo.copies → (h.cell v).frozen = true
  shut : ∀ x l, (h.cell x).body = .label l → l.frozen = true → ¬ opened x →
    ∀ v ∈ l.memo.copies, (h.cell v).frozen = true

/-- Frozen objects lead to frozen objects. -/
def Closed (h : Heap) (opened : CellId → Prop) : Prop :=
  ∀ x o, (h.cell x).body = .object o → (h.cell x).frozen = true → ¬ opened x →
    ∀ t, o.LeadsTo t → (h.cell t).frozen = true

/-- Objects that had one owner when they were frozen: they are nobody's copies, and they are ranked, each above those
to which it leads, so that they form no cycle. -/
structure Tiered (h : Heap) (opened : CellId → Prop) : Prop where
  copies : ∀ x l, (h.cell x).body = .label l → ∀ v ∈ l.memo.copies, ¬ opened v →
    (h.cell v).flags.frozenSole = false
  ranked : ∃ rank : CellId → Nat, ∀ x o t, (h.cell x).body = .object o → (h.cell x).flags.frozenSole = true →
    ¬ opened x → o.LeadsTo t → (h.cell t).flags.frozenSole = true → ¬ opened t → rank t < rank x

/-- The laws of a run. -/
structure Abides (h : Heap) (rules : Rules) : Prop where
  keys : rules.careful = true → h.FrozenKeys
  apart : rules.apart = true → h.Apart rules.opened
  closed : rules.closed = true → rules.lenient = false → h.Closed rules.opened
  tiered : rules.closed = true → h.Tiered rules.opened
  root : (h.cell rootCell).edges = []

/-- Where none of the laws is asked for, only that the root label holds nothing. -/
theorem Abides.lax {h : Heap} {rules : Rules} (hcareful : rules.careful = false) (hapart : rules.apart = false)
    (hclosed : rules.closed = false) (hroot : (h.cell rootCell).edges = []) : h.Abides rules where
  keys hc := absurd hc (by simp [hcareful])
  apart ha := absurd ha (by simp [hapart])
  closed hc _ := absurd hc (by simp [hclosed])
  tiered hc := absurd hc (by simp [hclosed])
  root := hroot

variable {h h' : Heap} {rules : Rules} {c : CellId}

theorem lt_size_of_frozen (hf : (h.cell c).frozen = true) : c < h.size :=
  lt_size_of_cell_ne fun he => by
    rw [he] at hf
    cases hf

theorem frozen_push (y : Cell) (hf : (h.cell c).frozen = true) : ((h.push y).cell c).frozen = true := by
  rwa [h.cell_push_of_lt y (lt_size_of_frozen hf)]

theorem frozen_freeze (h : Heap) (c : CellId) {x : CellId} (hf : (h.cell x).frozen = true) :
    ((h.update c Cell.freeze).cell x).frozen = true := by
  rcases h.cell_update_cases c Cell.freeze x with he | ⟨rfl, -, he⟩
  · rwa [he]
  · rw [he, Cell.freeze, if_pos hf]
    exact hf

theorem body_freeze (h : Heap) (c x : CellId) :
    ((h.update c Cell.freeze).cell x).body = (h.cell x).body := by
  rcases h.cell_update_cases c Cell.freeze x with he | ⟨rfl, -, he⟩
  · rw [he]
  · rw [he, Cell.freeze_body]

theorem body_thaw (h : Heap) (c x : CellId) : ((h.update c Cell.thaw).cell x).body = (h.cell x).body := by
  rcases h.cell_update_cases c Cell.thaw x with he | ⟨rfl, -, he⟩
  · rw [he]
  · rw [he]
    rfl

theorem flags_edit (h : Heap) (c : CellId) (b : Body) (w : Option CellId) (x : CellId) :
    ((h.update c fun x => { x with body := b, owner := w }).cell x).flags = (h.cell x).flags ∧
      ((h.update c fun x => { x with body := b, owner := w }).cell x).shared = (h.cell x).shared := by
  rcases h.cell_update_cases c (fun x => { x with body := b, owner := w }) x with he | ⟨rfl, -, he⟩
  · rw [he]
    exact ⟨rfl, rfl⟩
  · rw [he]
    exact ⟨rfl, rfl⟩

theorem Wanes.label {l : Label} (hw : h.Wanes h') (hl : (h'.cell c).body = .label l) :
    ∃ l₀, (h.cell c).body = .label l₀ ∧ (l = l₀ ∨ l = l₀.emptied) := by
  cases hb : (h.cell c).body with
  | object o =>
    rcases hw.body c with he | ⟨he, -⟩ <;> rw [he, hb] at hl <;> cases hl
  | label l₀ =>
    refine ⟨l₀, rfl, ?_⟩
    rcases hw.body c with he | ⟨he, -⟩ <;> rw [he, hb] at hl <;> cases hl
    · exact .inl rfl
    · exact .inr rfl

theorem Wanes.object {o : Object} (hw : h.Wanes h') (ho : (h'.cell c).body = .object o) :
    ∃ o₀, (h.cell c).body = .object o₀ ∧ (o = o₀ ∨ o = o₀.emptied) := by
  cases hb : (h.cell c).body with
  | label l =>
    rcases hw.body c with he | ⟨he, -⟩ <;> rw [he, hb] at ho <;> cases ho
  | object o₀ =>
    refine ⟨o₀, rfl, ?_⟩
    rcases hw.body c with he | ⟨he, -⟩ <;> rw [he, hb] at ho <;> cases ho
    · exact .inl rfl
    · exact .inr rfl

end Heap

theorem Object.links_emptied (o : Object) : o.emptied.links = [] :=
  List.eq_nil_iff_forall_not_mem.2 fun l hl => by
    obtain ⟨f, hf, hl⟩ := List.mem_flatMap.1 hl
    obtain ⟨g, -, rfl⟩ := List.mem_map.1 hf
    cases hl

theorem Object.not_leadsTo_emptied (o : Object) (t : CellId) : ¬ o.emptied.LeadsTo t := fun ⟨p, hp, _⟩ => by
  rw [o.links_emptied] at hp
  cases hp

namespace Heap

variable {h h' : Heap} {rules : Rules} {c : CellId}

/-! #### Memos map frozen objects -/

private theorem FrozenKeys.mono (hk : h.FrozenKeys)
    (hback : ∀ c l, (h'.cell c).body = .label l → ∀ e ∈ l.memo.entries, (h'.cell e.1).alive = true →
      (h'.cell e.1).frozen = true ∨ (∃ l₀, (h.cell c).body = .label l₀ ∧ e ∈ l₀.memo.entries ∧
        (h.cell e.1).alive = true ∧ ((h.cell e.1).frozen = true → (h'.cell e.1).frozen = true))) :
    h'.FrozenKeys := fun c => by
  cases hb : (h'.cell c).body with
  | object o => exact True.intro
  | label l =>
    intro e he hal
    rcases hback c l hb e he hal with hf | ⟨l₀, hl₀, he₀, hal₀, hf⟩
    · exact hf
    · have hc := hk c
      rw [hl₀] at hc
      exact hf (hc e he₀ hal₀)

theorem FrozenKeys.effect (hk : h.FrozenKeys) (he : h.Effect rules h') (hcar : rules.careful = true) :
    h'.FrozenKeys := by
  cases he with
  | wanes hw =>
    refine hk.mono fun c l hl e he hal => .inr ?_
    obtain ⟨l₀, hl₀, rfl | rfl⟩ := hw.label hl
    · exact ⟨l, hl₀, he, hw.alive _ hal, fun hf => (hw.frozen e.1).trans hf⟩
    · cases he
  | @push b w hb hlt _ =>
    refine hk.mono fun c l hl e he hal => ?_
    rcases h.cell_push_cases (.fresh b w) c with ⟨_, hcell⟩ | ⟨rfl, hcell⟩ | hcell <;> rw [hcell] at hl
    · have hold := h.cell_push_of_lt (.fresh b w) (hlt l (.inr ⟨c, hl⟩) e he)
      rw [hold] at hal ⊢
      exact .inr ⟨l, hl, he, hal, id⟩
    · have hl : b = .label l := hl
      subst hl
      have hold := h.cell_push_of_lt (.fresh (.label l) w) (hlt l (.inl rfl) e he)
      rw [hold] at hal ⊢
      exact .inl (hb.careful hcar e he hal)
    · cases hl
      cases he
  | @edit c b w hlive hev _ =>
    have hflags := h.flags_edit c b w
    refine hk.mono fun x l hl e he hal => ?_
    have hal₀ : (h.cell e.1).alive = true := by
      rwa [Cell.alive, (hflags e.1).1, (hflags e.1).2] at hal
    have hfr : (h.cell e.1).frozen = true → ((h.update c fun x =>
        { x with body := b, owner := w }).cell e.1).frozen = true := fun hf => by
      rwa [Cell.frozen, (hflags e.1).1]
    rcases h.cell_update_cases c (fun x => { x with body := b, owner := w }) x with hx | ⟨rfl, -, hx⟩ <;>
      rw [hx] at hl
    · exact .inr ⟨l, hl, he, hal₀, hfr⟩
    · have hl : b = .label l := hl
      subst hl
      cases hb : (h.cell x).body with
      | object o =>
        rw [hb] at hev
        cases hev
      | label l₀ =>
        rw [hb] at hev
        rcases Label.Evolves.enter hev e he with he | he
        · exact .inr ⟨l₀, rfl, he, hal₀, hfr⟩
        · exact .inl (hfr (he.careful hcar))
  | @freeze c _ _ =>
    refine hk.mono fun x l hl e he hal => .inr ⟨l, by rwa [h.body_freeze] at hl, he, ?_, h.frozen_freeze c⟩
    rcases h.cell_update_cases c Cell.freeze e.1 with hx | ⟨hec, -, hx⟩ <;> rw [hx] at hal
    · exact hal
    · rw [hec]
      unfold Cell.freeze at hal
      split at hal <;> exact hal
  | @thaw c _ ht =>
    refine hk.mono fun x l hl e he hal => .inr ⟨l, by rwa [h.body_thaw] at hl, he, ?_⟩
    have hne := ht.unmapped x l (by rwa [h.body_thaw] at hl) e he
    rw [h.cell_update_ne _ hne] at hal ⊢
    exact ⟨hal, id⟩

/-! #### Copies belong to one label -/

theorem mem_edges_of_copy {l : Label} {v : CellId} (hl : (h.cell c).body = .label l)
    (hv : v ∈ l.memo.copies) : v ∈ (h.cell c).edges := by
  rw [Cell.edges, hl]
  exact List.mem_append_left _ hv

theorem Apart.effect (ha : h.Apart rules.opened) (he : h.Effect rules h') (hap : rules.apart = true) :
    h'.Apart rules.opened := by
  cases he with
  | wanes hw =>
    have hcopies : ∀ {x l}, (h'.cell x).body = .label l → ∃ l₀, (h.cell x).body = .label l₀ ∧
        (l.frozen = true → l₀.frozen = true) ∧ ∀ v ∈ l.memo.copies, v ∈ l₀.memo.copies := fun hl => by
      obtain ⟨l₀, hl₀, rfl | rfl⟩ := hw.label hl
      · exact ⟨_, hl₀, id, fun _ => id⟩
      · exact ⟨l₀, hl₀, id, fun v hv => by cases hv⟩
    refine ⟨fun x y l l' hx hy hne v hv hv' => ?_, fun x l hx hf ho v hv => ?_⟩ <;>
      refine (hw.frozen v).trans ?_
    · obtain ⟨l₀, hl₀, -, h₁⟩ := hcopies hx
      obtain ⟨l₁, hl₁, -, h₂⟩ := hcopies hy
      exact ha.common x y l₀ l₁ hl₀ hl₁ hne v (h₁ v hv) (h₂ v hv')
    · obtain ⟨l₀, hl₀, hf₀, h₁⟩ := hcopies hx
      exact ha.shut x l₀ hl₀ (hf₀ hf) ho v (h₁ v hv)
  | @push b w hb _ _ =>
    -- a new label has frozen copies only
    have hcases : ∀ {x l}, ((h.push (.fresh b w)).cell x).body = .label l →
        (h.cell x).body = .label l ∨ ∀ v ∈ l.memo.copies, (h.cell v).frozen = true := fun {x l} hl => by
      rcases h.cell_push_cases (.fresh b w) x with ⟨_, hcell⟩ | ⟨rfl, hcell⟩ | hcell <;> rw [hcell] at hl
      · exact .inl hl
      · exact .inr (hb.apart hap l hl)
      · cases hl
        exact .inr nofun
    refine ⟨fun x y l l' hx hy hne v hv hv' => frozen_push _ ?_, fun x l hx hf ho v hv =>
      frozen_push _ ?_⟩
    · rcases hcases hx with hx | hx
      · rcases hcases hy with hy | hy
        · exact ha.common x y l l' hx hy hne v hv hv'
        · exact hy v hv'
      · exact hx v hv
    · rcases hcases hx with hx | hx
      · exact ha.shut x l hx hf ho v hv
      · exact hx v hv
  | @edit c b w hlive hev _ =>
    have hfr : ∀ {v}, (h.cell v).frozen = true → ((h.update c fun x =>
        { x with body := b, owner := w }).cell v).frozen = true := fun hf => by
      rwa [Cell.frozen, (h.flags_edit c b w _).1]
    -- the label that changes gets copies that are nobody else's
    have hcases : ∀ {x l}, ((h.update c fun x => { x with body := b, owner := w }).cell x).body = .label l →
        (h.cell x).body = .label l ∨ (x = c ∧ ∃ l₀, (h.cell x).body = .label l₀ ∧
          l₀.Evolves h rules c l) := fun {x l} hl => by
      rcases h.cell_update_cases c (fun x => { x with body := b, owner := w }) x with hx | ⟨rfl, -, hx⟩ <;>
        rw [hx] at hl
      · exact .inl hl
      · have hl : b = .label l := hl
        subst hl
        cases hb : (h.cell x).body with
        | object o =>
          rw [hb] at hev
          cases hev
        | label l₀ =>
          rw [hb] at hev
          exact .inr ⟨rfl, l₀, rfl, hev⟩
    have hcopy : ∀ {l₀ l : Label}, l₀.Evolves h rules c l → ∀ v ∈ l.memo.copies, v ∈ l₀.memo.copies ∨
        (l₀.frozen = false ∧ ∀ x, v ∉ (h.cell x).edges) := fun hev v hv => by
      obtain ⟨e, he, rfl⟩ := List.mem_map.1 hv
      exact (hev.enter e he).imp List.mem_map_of_mem fun ha => ha.apart hap
    refine ⟨fun x y l l' hx hy hne v hv hv' => hfr ?_, fun x l hx hf ho v hv => hfr ?_⟩
    · rcases hcases hx with hx | ⟨hxc, l₀, hx, hev₁⟩ <;> rcases hcases hy with hy | ⟨hyc, l₁, hy, hev₂⟩
      · exact ha.common x y l l' hx hy hne v hv hv'
      · rcases hcopy hev₂ v hv' with hv' | hv'
        · exact ha.common x y l l₁ hx hy hne v hv hv'
        · exact absurd (mem_edges_of_copy hx hv) (hv'.2 x)
      · rcases hcopy hev₁ v hv with hv | hv
        · exact ha.common x y l₀ l' hx hy hne v hv hv'
        · exact absurd (mem_edges_of_copy hy hv') (hv.2 y)
      · exact absurd (hxc.trans hyc.symm) hne
    · rcases hcases hx with hx | ⟨rfl, l₀, hx, hev₁⟩
      · exact ha.shut x l hx hf ho v hv
      · have hf₀ : l₀.frozen = true := (hev₁.shut hap hf).resolve_right ho
        rcases hcopy hev₁ v hv with hv | hv
        · exact ha.shut x l₀ hx hf₀ ho v hv
        · rw [hv.1] at hf₀
          cases hf₀
  | @freeze c _ _ =>
    refine ⟨fun x y l l' hx hy hne v hv hv' => h.frozen_freeze c ?_, fun x l hx hf ho v hv =>
      h.frozen_freeze c ?_⟩ <;> rw [h.body_freeze] at hx
    · rw [h.body_freeze] at hy
      exact ha.common x y l l' hx hy hne v hv hv'
    · exact ha.shut x l hx hf ho v hv
  | @thaw c _ ht =>
    have hfr : ∀ {v}, v ≠ c → (h.cell v).frozen = true →
        ((h.update c Cell.thaw).cell v).frozen = true := fun hne hf => by rwa [h.cell_update_ne _ hne]
    refine ⟨fun x y l l' hx hy hne v hv hv' => ?_, fun x l hx hf ho v hv => ?_⟩ <;>
      rw [h.body_thaw] at hx
    · rw [h.body_thaw] at hy
      refine hfr (fun hvc => hne ?_) (ha.common x y l l' hx hy hne v hv hv')
      exact ht.lone x y (hvc ▸ mem_edges_of_copy hx hv) (hvc ▸ mem_edges_of_copy hy hv')
    · refine hfr (fun hvc => ?_) (ha.shut x l hx hf ho v hv)
      obtain ⟨l₀, hl₀, -, hf₀⟩ := ht.owner x (hvc ▸ mem_edges_of_copy hx hv)
      rw [hx] at hl₀
      cases hl₀
      rw [hf₀ hap] at hf
      cases hf

/-! #### Frozen objects lead to frozen objects -/

theorem mem_edges_of_leadsTo {o : Object} {t : CellId} (ho : (h.cell c).body = .object o)
    (ht : o.LeadsTo t) : t ∈ (h.cell c).edges := by
  obtain ⟨p, hp, hpt⟩ := ht
  rw [Cell.edges, ho]
  exact List.mem_flatMap.2 ⟨_, hp, by simp [Cell.linkEdges, hpt]⟩

theorem Closed.effect (hc : h.Closed rules.opened) (he : h.Effect rules h') (hcl : rules.closed = true) :
    h'.Closed rules.opened := by
  cases he with
  | wanes hw =>
    intro x o ho hf hn t ht
    obtain ⟨o₀, ho₀, rfl | rfl⟩ := hw.object ho
    · exact (hw.frozen t).trans (hc x o ho₀ ((hw.frozen x).symm.trans hf) hn t ht)
    · exact absurd ht (o₀.not_leadsTo_emptied t)
  | @push b w _ _ _ =>
    intro x o ho hf hn t ht
    rcases h.cell_push_cases (.fresh b w) x with ⟨_, hcell⟩ | ⟨rfl, hcell⟩ | hcell <;>
      rw [hcell] at ho hf
    · exact frozen_push _ (hc x o ho hf hn t ht)
    · cases hf
    · cases hf
  | @edit c b w hlive hev _ =>
    intro x o ho hf hn t ht
    have hflags := h.flags_edit c b w
    rw [Cell.frozen, (hflags x).1] at hf
    rw [Cell.frozen, (hflags t).1]
    rcases h.cell_update_cases c (fun x => { x with body := b, owner := w }) x with hx | ⟨rfl, -, hx⟩ <;>
      rw [hx] at ho
    · exact hc x o ho hf hn t ht
    · have ho : b = .object o := ho
      subst ho
      cases hb : (h.cell x).body with
      | label l =>
        rw [hb] at hev
        cases hev
      | object o₀ =>
        rw [hb] at hev
        have hlinks : o.links = o₀.links := by
          rw [Object.links_eq_contents, Object.links_eq_contents, Object.Evolves.links hev hcl hf hn]
        obtain ⟨p, hp, hpt⟩ := ht
        exact hc x o₀ hb hf hn t ⟨p, hlinks ▸ hp, hpt⟩
  | @freeze c _ hfr =>
    intro x o ho hf hn t ht
    rw [h.body_freeze] at ho
    refine h.frozen_freeze c (hc x o ho ?_ hn t ht)
    rcases h.cell_update_cases c Cell.freeze x with hx | ⟨rfl, -, -⟩
    · rwa [hx] at hf
    · exact (hfr hcl).resolve_right hn
  | @thaw c _ hth =>
    intro x o ho hf hn t ht
    rw [h.body_thaw] at ho
    have hne : t ≠ c := fun he => by
      obtain ⟨l, hl, -⟩ := hth.owner x (he ▸ mem_edges_of_leadsTo ho ht)
      rw [ho] at hl
      cases hl
    rw [h.cell_update_ne _ hne]
    refine hc x o ho ?_ hn t ht
    rcases h.cell_update_cases c Cell.thaw x with hx | ⟨rfl, -, hx⟩ <;> rw [hx] at hf
    · exact hf
    · cases hf

/-! #### Objects that had one owner when they were frozen -/

theorem frozen_of_sole (hs : (h.cell c).flags.frozenSole = true) : (h.cell c).frozen = true := by
  have hs : (h.cell c).flags.freezing = .sole := of_decide_eq_true hs
  simp [Cell.frozen, Flags.frozen, hs]

theorem sole_of_freezing {x y : Cell} (hf : x.flags.freezing = y.flags.freezing) :
    x.flags.frozenSole = y.flags.frozenSole := by
  simp only [Flags.frozenSole, hf]

private theorem Effect.sole (he : h.Effect rules h') (hcl : rules.closed = true) (hc : ¬ rules.opened c)
    (hs : (h'.cell c).flags.frozenSole = true) : (h.cell c).flags.frozenSole = true := by
  cases he with
  | wanes hw => rwa [← sole_of_freezing (hw.freezing c)]
  | @push b w _ _ _ =>
    rcases h.cell_push_cases (.fresh b w) c with ⟨_, hcell⟩ | ⟨rfl, hcell⟩ | hcell <;> rw [hcell] at hs
    · exact hs
    · cases hs
    · cases hs
  | @edit d b w _ _ _ => rwa [(h.flags_edit d b w c).1] at hs
  | @freeze d _ hfr =>
    rcases h.cell_update_cases d Cell.freeze c with hx | ⟨rfl, -, hx⟩ <;> rw [hx] at hs
    · exact hs
    · rwa [Cell.freeze, if_pos ((hfr hcl).resolve_right hc)] at hs
  | @thaw d _ _ =>
    rcases h.cell_update_cases d Cell.thaw c with hx | ⟨rfl, -, hx⟩ <;> rw [hx] at hs
    · exact hs
    · cases hs

private theorem Effect.copy {l : Label} {v : CellId} (he : h.Effect rules h') (hcl : rules.closed = true)
    (hl : (h'.cell c).body = .label l) (hv : v ∈ l.memo.copies) :
    (∃ l₀, (h.cell c).body = .label l₀ ∧ v ∈ l₀.memo.copies) ∨
      (¬ rules.opened v → (h.cell v).flags.frozenSole = false) := by
  cases he with
  | wanes hw =>
    obtain ⟨l₀, hl₀, rfl | rfl⟩ := hw.label hl
    · exact .inl ⟨l, hl₀, hv⟩
    · cases hv
  | @push b w hb _ _ =>
    rcases h.cell_push_cases (.fresh b w) c with ⟨_, hcell⟩ | ⟨rfl, hcell⟩ | hcell <;> rw [hcell] at hl
    · exact .inl ⟨l, hl, hv⟩
    · exact .inr fun ho => decide_eq_false (hb.closed hcl l hl v hv ho)
    · cases hl
      cases hv
  | @edit d b w _ hev _ =>
    rcases h.cell_update_cases d (fun x => { x with body := b, owner := w }) c with hx | ⟨rfl, -, hx⟩ <;>
      rw [hx] at hl
    · exact .inl ⟨l, hl, hv⟩
    · have hl : b = .label l := hl
      subst hl
      cases hb : (h.cell c).body with
      | object o =>
        rw [hb] at hev
        cases hev
      | label l₀ =>
        rw [hb] at hev
        obtain ⟨e, he, rfl⟩ := List.mem_map.1 hv
        rcases Label.Evolves.enter hev e he with he | he
        · exact .inl ⟨l₀, rfl, List.mem_map_of_mem he⟩
        · exact .inr fun _ => Bool.eq_false_iff.2 fun hs =>
            Bool.noConfusion ((frozen_of_sole hs).symm.trans he.fresh)
  | freeze _ _ => exact .inl ⟨l, by rwa [h.body_freeze] at hl, hv⟩
  | thaw _ _ => exact .inl ⟨l, by rwa [h.body_thaw] at hl, hv⟩

private theorem Effect.leadsTo {o : Object} {t : CellId} (he : h.Effect rules h') (hcl : rules.closed = true)
    (hc : ¬ rules.opened c) (ho : (h'.cell c).body = .object o) (hf : (h.cell c).frozen = true)
    (ht : o.LeadsTo t) : ∃ o₀, (h.cell c).body = .object o₀ ∧ o₀.LeadsTo t := by
  cases he with
  | wanes hw =>
    obtain ⟨o₀, ho₀, rfl | rfl⟩ := hw.object ho
    · exact ⟨o, ho₀, ht⟩
    · exact absurd ht (o₀.not_leadsTo_emptied t)
  | @push b w _ _ _ =>
    rw [h.cell_push_of_lt _ (lt_size_of_frozen hf)] at ho
    exact ⟨o, ho, ht⟩
  | @edit d b w _ hev _ =>
    rcases h.cell_update_cases d (fun x => { x with body := b, owner := w }) c with hx | ⟨rfl, -, hx⟩ <;>
      rw [hx] at ho
    · exact ⟨o, ho, ht⟩
    · have ho : b = .object o := ho
      subst ho
      cases hb : (h.cell c).body with
      | label l =>
        rw [hb] at hev
        cases hev
      | object o₀ =>
        rw [hb] at hev
        have hlinks : o.links = o₀.links := by
          rw [Object.links_eq_contents, Object.links_eq_contents, Object.Evolves.links hev hcl hf hc]
        obtain ⟨p, hp, hpt⟩ := ht
        exact ⟨o₀, rfl, p, hlinks ▸ hp, hpt⟩
  | freeze _ _ => exact ⟨o, by rwa [h.body_freeze] at ho, ht⟩
  | thaw _ _ => exact ⟨o, by rwa [h.body_thaw] at ho, ht⟩

theorem Tiered.effect (ht : h.Tiered rules.opened) (he : h.Effect rules h') (hcl : rules.closed = true) :
    h'.Tiered rules.opened := by
  obtain ⟨rank, hrank⟩ := ht.ranked
  refine ⟨fun x l hl v hv ho => Bool.eq_false_iff.2 fun hs => ?_, rank, fun x o t hx hs hn hlead hst hnt => ?_⟩
  · have hs := he.sole hcl ho hs
    rcases he.copy hcl hl hv with ⟨l₀, hl₀, hv₀⟩ | hnot
    · rw [ht.copies x l₀ hl₀ v hv₀ ho] at hs
      cases hs
    · rw [hnot ho] at hs
      cases hs
  · have hs := he.sole hcl hn hs
    obtain ⟨o₀, ho₀, hlead₀⟩ := he.leadsTo hcl hn hx (frozen_of_sole hs) hlead
    exact hrank x o₀ t ho₀ hs hn hlead₀ (he.sole hcl hnt hst) hnt

/-! #### The root owns nothing -/

theorem edges_eq_nil_iff (h : Heap) (c : CellId) :
    (h.cell c).edges = [] ↔ ∀ d, .release d ∉ (h.cell c).body.tasks := by
  simp only [List.eq_nil_iff_forall_not_mem, Cell.release_mem_tasks]

private theorem root_effect (hr : (h.cell rootCell).edges = []) (he : h.Effect rules h') :
    (h'.cell rootCell).edges = [] := by
  rw [edges_eq_nil_iff] at hr ⊢
  intro d hd
  cases he with
  | wanes hw =>
    rcases hw.body rootCell with hb | ⟨hb, -⟩ <;> rw [hb] at hd
    · exact hr d hd
    · rw [Body.tasks_emptied] at hd
      cases hd
  | push _ _ hlt =>
    rw [h.cell_push_of_lt _ hlt] at hd
    exact hr d hd
  | @edit c b w _ _ hroot =>
    rcases h.cell_update_cases c (fun x => { x with body := b, owner := w }) rootCell with
      hx | ⟨hrc, -, hx⟩ <;> rw [hx] at hd
    · exact hr d hd
    · exact hr d (hrc ▸ hroot hrc.symm _ hd)
  | freeze _ _ =>
    rw [h.body_freeze] at hd
    exact hr d hd
  | thaw _ _ =>
    rw [h.body_thaw] at hd
    exact hr d hd

theorem Abides.effect (ha : h.Abides rules) (he : h.Effect rules h') : h'.Abides rules where
  keys hcar := (ha.keys hcar).effect he hcar
  apart hap := (ha.apart hap).effect he hap
  closed hcl hlen := (ha.closed hcl hlen).effect he hcl
  tiered hcl := (ha.tiered hcl).effect he hcl
  root := root_effect ha.root he

theorem body_initial (c : CellId) : (Heap.initial.cell c).body = .label .blank := by
  by_cases hc : c = rootCell
  · rw [hc]
    rfl
  · rw [Heap.initial.cell_of_size_le (Nat.one_le_iff_ne_zero.2 hc)]
    rfl

theorem Abides.initial (rules : Rules) : Heap.initial.Abides rules := by
  have hlabel : ∀ {c l}, (Heap.initial.cell c).body = .label l → l = .blank := fun hl => by
    rw [body_initial] at hl
    cases hl
    rfl
  refine ⟨fun _ c => ?_, fun _ => ⟨fun x y l l' hx _ _ v hv => ?_, fun x l hx _ _ v hv => ?_⟩,
    fun _ _ x o ho => ?_, fun _ => ⟨fun x l hx v hv => ?_, fun _ => 0, fun x o t ho => ?_⟩, rfl⟩
  · rw [body_initial]
    exact nofun
  · cases hlabel hx
    cases hv
  · cases hlabel hx
    cases hv
  · rw [body_initial] at ho
    cases ho
  · cases hlabel hx
    cases hv
  · rw [body_initial] at ho
    cases ho

end Heap

/-! ### Safe moments -/

/-- A moment that is firm, at which the laws are kept. -/
structure Safe (rules : Rules) (m : Moment) : Prop extends Firm rules.sealed m where
  abides : m.heap.Abides rules
  sealed : ∀ c, rules.sealed c → c < m.heap.size

namespace Safe

variable {rules : Rules} {m m' : Moment}

theorem initial {rules : Rules} (hs : ∀ c, ¬ rules.sealed c) : Safe rules ⟨.initial, [], [], []⟩ :=
  ⟨⟨.initial, nofun⟩, .initial rules, fun c hc => absurd hc (hs c)⟩

theorem step (hs : Safe rules m) (hstep : Advance rules m m') : Safe rules m' ∧ m.heap.Grows m'.heap :=
  have ⟨hf, hg⟩ := hstep.firm hs.toFirm
  ⟨⟨hf, hs.abides.effect (hstep.effect hs.toFirm), fun c hc =>
    Nat.lt_of_lt_of_le (hs.sealed c hc) hg.size⟩, hg⟩

theorem steps (hs : Safe rules m) (hrun : Steps rules m m') : Safe rules m' ∧ m.heap.Grows m'.heap := by
  induction hrun with
  | refl => exact ⟨hs, .refl _⟩
  | tail _ hstep ih =>
    obtain ⟨hs', hg⟩ := ih.1.step hstep
    exact ⟨hs', ih.2.trans hg⟩

end Safe

end LazyHeap
