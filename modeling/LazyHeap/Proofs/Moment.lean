import LazyHeap.Proofs.Reach
import LazyHeap.Proofs.Round.Claiming

/-!
Moments of a run. At a moment some tasks are pending and some references are held outside of the heap, each
written as the task that gives it up. A moment is sound if every count is the number of references, and what
else holds throughout every run: flags, colours, candidates and locks agree with each other, no reference leads
to the wrong kind of cell, and every cell that is still there is reached from somewhere.
-/
namespace LazyHeap

/-- A lock that is held: the cell, and the name of the field or none for the memo of a label. -/
abbrev Lock := CellId × Option FieldName

structure Moment where
  heap : Heap
  locks : List Lock
  pending : List Task
  held : List Task

/-! ### References to the right kind of cell -/

namespace Heap

def IsObject (h : Heap) (c : CellId) : Prop := ∃ o, (h.cell c).body = .object o

def IsLabel (h : Heap) (c : CellId) : Prop := c < h.size ∧ ∃ l, (h.cell c).body = .label l

/-- A later heap has all the cells of an earlier one, each with a value of the same kind. -/
structure Grows (h h' : Heap) : Prop where
  size : h.size ≤ h'.size
  object : ∀ c, h.IsObject c → h'.IsObject c
  label : ∀ c, h.IsLabel c → h'.IsLabel c

protected theorem Grows.refl (h : Heap) : h.Grows h := ⟨Nat.le_refl _, fun _ => id, fun _ => id⟩

protected theorem Grows.trans {h h' h'' : Heap} (h₁ : h.Grows h') (h₂ : h'.Grows h'') :
    h.Grows h'' :=
  ⟨Nat.le_trans h₁.size h₂.size, fun c hc => h₂.object c (h₁.object c hc),
    fun c hc => h₂.label c (h₁.label c hc)⟩

theorem IsObject.lt_size {h : Heap} {c : CellId} (hc : h.IsObject c) : c < h.size :=
  lt_size_of_cell_ne fun he => by
    obtain ⟨o, ho⟩ := hc
    rw [he] at ho
    cases ho

end Heap

section Fits

variable (sealed : CellId → Prop)

/-- A counted handle names a label that is neither the root nor sealed. Whoever has a handle to a sealed label
keeps it to himself. -/
def Handle.Fits (h : Heap) (l : Handle) : Prop :=
  ∀ c, l = .counted c → (c ≠ rootCell ∧ ¬ sealed c) ∧ h.IsLabel c

structure Pointer.Fits (h : Heap) (p : Pointer) : Prop where
  target : ∀ o, p.target = some o → h.IsObject o
  label : p.label.Fits sealed h

structure WeakPointer.Fits (h : Heap) (w : WeakPointer) : Prop where
  target : ∀ o, w.target = some o → h.IsObject o
  label : w.label.Fits sealed h

def Link.Fits (h : Heap) : Link → Prop
  | .owned p => p.Fits sealed h
  | .weak w => w.Fits sealed h
  | .label l => l.Fits sealed h

/-- Memo entries and forwards lead to younger cells, each object has one entry at most, and a memo into which
nothing was entered is empty. -/
structure Label.Fits (h : Heap) (c : CellId) (l : Label) : Prop where
  entries : ∀ e ∈ l.memo.entries, h.IsObject e.1 ∧ h.IsObject e.2 ∧ e.1 < e.2
  distinct : (l.memo.entries.map (·.1)).Nodup
  forward : l.forward.Fits sealed h
  rootless : l.forward ≠ .root
  later : ∀ d, l.forward = .counted d → c < d
  written : l.written = false → l.memo.entries = []

/-- Fields have different names. -/
def Body.Fits (h : Heap) (c : CellId) : Body → Prop
  | .object o => (o.fields.map (·.name)).Nodup ∧ ∀ l ∈ o.links, l.Fits sealed h
  | .label l => l.Fits sealed h c

theorem Label.Fits.of_nil {h : Heap} {c : CellId} {l : Label} (hm : l.memo.entries = []) (hf : l.forward = .empty) :
    l.Fits sealed h c where
  entries e he := by
    rw [hm] at he
    cases he
  distinct := by simp [hm]
  forward d hd := by
    rw [hf] at hd
    cases hd
  rootless := by simp [hf]
  later d hd := by
    rw [hf] at hd
    cases hd
  written _ := hm

end Fits

section Fits

variable {sealed : CellId → Prop} {h h' : Heap}

theorem Handle.Fits.grows {l : Handle} (hl : l.Fits sealed h) (hg : h.Grows h') : l.Fits sealed h' :=
  fun c hc => ⟨(hl c hc).1, hg.label c (hl c hc).2⟩

theorem Handle.fits_empty : Handle.empty.Fits sealed h := fun _ hc => nomatch hc

theorem Handle.fits_root : Handle.root.Fits sealed h := fun _ hc => nomatch hc

theorem Pointer.Fits.grows {p : Pointer} (hp : p.Fits sealed h) (hg : h.Grows h') : p.Fits sealed h' :=
  ⟨fun o ho => hg.object o (hp.target o ho), hp.label.grows hg⟩

theorem WeakPointer.Fits.grows {w : WeakPointer} (hw : w.Fits sealed h) (hg : h.Grows h') : w.Fits sealed h' :=
  ⟨fun o ho => hg.object o (hw.target o ho), hw.label.grows hg⟩

theorem Link.Fits.grows {l : Link} (hl : l.Fits sealed h) (hg : h.Grows h') : l.Fits sealed h' := by
  cases l with
  | owned p => exact Pointer.Fits.grows hl hg
  | weak w => exact WeakPointer.Fits.grows hl hg
  | label s => exact Handle.Fits.grows hl hg

theorem Body.Fits.grows {c : CellId} {b : Body} (hb : b.Fits sealed h c) (hg : h.Grows h') :
    b.Fits sealed h' c := by
  cases b with
  | object o => exact ⟨hb.1, fun l hl => (hb.2 l hl).grows hg⟩
  | label l =>
    exact { hb with
      entries := fun e he => ⟨hg.object _ (hb.entries e he).1, hg.object _ (hb.entries e he).2.1, (hb.entries e he).2.2⟩
      forward := hb.forward.grows hg }

end Fits

/-! ### Locks -/

/-- The locks of a value that are held: the names of the fields, or none for a memo. -/
def Body.locks : Body → List (Option FieldName)
  | .object o => (o.fields.filter (·.locked)).map fun f => some f.name
  | .label l => if l.locked then [none] else []

theorem Cell.locked_iff (x : Cell) : x.locked = true ↔ ∃ k, k ∈ x.body.locks := by
  cases hb : x.body with
  | object o => simp [locked, hb, Body.locks, Object.locked, List.any_eq_true]
  | label l => cases hl : l.locked <;> simp [locked, hb, Body.locks, hl]

/-! ### Tasks of a round in their order -/

/-- Claimed cells perish before the round is closed. -/
def Orderly : Bool → List Task → Prop
  | b, [] => b = false
  | b, .closeRound _ :: ts => b = true ∧ Orderly false ts
  | b, .perish _ :: ts => b = true ∧ Orderly b ts
  | b, .release _ :: ts => Orderly b ts
  | b, .unpin _ :: ts => Orderly b ts
  | b, .disown _ :: ts => Orderly b ts

namespace Moment

/-- How many references of a sort there are: in the cells, standing, about to be given up, and in hand. -/
def claims (m : Moment) (t : Task) : Nat :=
  m.heap.due t + m.heap.standing.count t + m.pending.count t + m.held.count t

/-- Where reachability starts: what is held, what is about to be released or to perish, the candidates, and
the cells whose locks are held. -/
def Source (m : Moment) (c : CellId) : Prop :=
  m.heap.Held m.held c ∨ .release c ∈ m.pending ∨ .perish c ∈ m.pending ∨
    c ∈ m.heap.candidates.toList ∨ ∃ k, (c, k) ∈ m.locks

end Moment

/-- What holds at every moment of every run. -/
structure Sound (sealed : CellId → Prop) (m : Moment) : Prop where
  shared : ∀ c, (m.heap.cell c).flags.collected = false →
    (m.heap.cell c).shared = m.claims (.release c)
  weak : ∀ c, (m.heap.cell c).weak = m.claims (.unpin c) + m.heap.candidates.toList.count c +
    (if (m.heap.cell c).destroyed then 0 else 1)
  dead : ∀ c, (m.heap.cell c).destroyed = true →
    (m.heap.cell c).shared = 0 ∧ (m.heap.cell c).body.tasks = []
  live : ∀ c, (m.heap.cell c).destroyed = false → (m.heap.cell c).flags.collected = false →
    0 < (m.heap.cell c).shared
  collected : ∀ c, (m.heap.cell c).flags.collected = true → ¬ m.heap.Held m.held c ∧
    ∀ x, c ∈ (m.heap.cell x).edges → (m.heap.cell x).flags.collected = true
  perish : ∀ c, m.pending.count (.perish c) =
    if (m.heap.cell c).flags.collected && !(m.heap.cell c).destroyed then 1 else 0
  buffered : m.heap.Buffered
  orderly : Orderly m.heap.inRound m.pending
  held : ∀ t ∈ m.held, t.isReference = true
  fits : ∀ c, (m.heap.cell c).body.Fits sealed m.heap c
  scopes : ∀ l ∈ m.heap.scopes, l.Fits sealed m.heap
  locks : ∀ c k, k ∈ (m.heap.cell c).body.locks ↔ (c, k) ∈ m.locks
  root : m.claims (.release rootCell) = 1 ∧ m.heap.IsLabel rootCell
  covered : ∀ c, (m.heap.cell c).destroyed = false → (m.heap.cell c).flags.collected = false →
    m.heap.Reach m.Source c

/-- A cell that is there: it has owners, and nobody has begun to take it away. -/
structure Heap.Live (h : Heap) (c : CellId) : Prop where
  shared : 0 < (h.cell c).shared
  destroyed : (h.cell c).destroyed = false
  collected : (h.cell c).flags.collected = false

theorem Heap.Live.lt_size {h : Heap} {c : CellId} (hc : h.Live c) : c < h.size :=
  lt_size_of_cell_ne fun he => by
    have := hc.shared
    simp [he, Cell.void] at this

theorem Heap.Live.alive {h : Heap} {c : CellId} (hc : h.Live c) : (h.cell c).alive = true := by
  have hd : (h.cell c).flags.destroyed = false := hc.destroyed
  simp [Cell.alive, hc.shared, hd]

namespace Sound

variable {sealed : CellId → Prop} {m : Moment} {c x : CellId}

theorem initial : Sound sealed ⟨.initial, [], [], []⟩ := by
  -- there is the root's cell and no other
  have hall : ∀ P : CellId → Cell → Prop, P rootCell (.fresh (.label .blank) none) →
      (∀ c, c ≠ rootCell → P c .void) → ∀ c, P c (Heap.initial.cell c) := by
    intro P h₀ h₁ c
    by_cases hc : c = rootCell
    · exact hc ▸ h₀
    · rw [Heap.initial.cell_of_size_le (Nat.one_le_iff_ne_zero.2 hc)]
      exact h₁ c hc
  have hdue : ∀ t, Heap.initial.due t = 0 := fun t => Heap.total_eq_zero
    (hall (fun _ x => x.dues.count t = 0) rfl fun _ _ => rfl)
  have hclaims : ∀ t, (Moment.mk .initial [] [] []).claims t =
      [Task.release rootCell].count t := fun t => by
    rw [Moment.claims, hdue]
    exact Nat.zero_add _
  have hother : ∀ c, c ≠ rootCell → [Task.release rootCell].count (.release c) = 0 := fun c hc => by
    rw [List.count_singleton, if_neg (by simpa using Ne.symm hc)]
  have hroot : Heap.initial.IsLabel rootCell := ⟨Nat.one_pos, .blank, rfl⟩
  exact {
    shared := fun c _ => (hclaims _).symm ▸ hall
      (fun c x => x.shared = [Task.release rootCell].count (.release c)) rfl
      (fun c hc => (hother c hc).symm) c
    weak := fun c => (hclaims _).symm ▸ hall (fun c x => x.weak =
      [Task.release rootCell].count (.unpin c) + 0 + (if x.destroyed then 0 else 1)) rfl
      (fun _ _ => rfl) c
    dead := hall (fun _ x => x.destroyed = true → x.shared = 0 ∧ x.body.tasks = [])
      (fun h => nomatch h) fun _ _ _ => ⟨rfl, rfl⟩
    live := hall (fun _ x => x.destroyed = false → x.flags.collected = false → 0 < x.shared)
      (fun _ _ => Nat.one_pos) fun _ _ h => nomatch h
    collected := fun c hc => absurd hc <| by
      rw [Bool.not_eq_true]
      exact hall (fun _ x => x.flags.collected = false) rfl (fun _ _ => rfl) c
    perish := hall (fun c x => ([] : List Task).count (.perish c) =
      if x.flags.collected && !x.destroyed then 1 else 0) rfl fun _ _ => rfl
    buffered := {
      colour := hall (fun _ x => x.flags.colour = if x.flags.buffered then .purple else .black) rfl
        fun _ _ => rfl
      candidates := hall (fun c x => c ∈ ([] : List CellId) ↔ x.flags.buffered = true) (by simp [Cell.fresh])
        fun c _ => by simp [Cell.void]
      nodup := List.nodup_nil }
    orderly := rfl
    held := nofun
    fits := hall (fun c x => x.body.Fits sealed .initial c)
      (Label.Fits.of_nil _ rfl rfl) fun _ _ => Label.Fits.of_nil _ rfl rfl
    scopes := nofun
    locks := hall (fun c x => ∀ k, k ∈ x.body.locks ↔ (c, k) ∈ ([] : List Lock))
      (fun _ => by simp [Cell.fresh, Body.locks, Label.blank, Label.ofMemo])
      fun _ _ _ => by simp [Cell.void, Body.locks, Label.blank, Label.ofMemo]
    root := ⟨by rw [hclaims]; rfl, hroot⟩
    covered := by
      refine hall (fun c x => x.destroyed = false → _ → Heap.Reach _ _ c) ?_ fun _ _ h => nomatch h
      exact fun _ _ => .source (.inl (.inr List.mem_cons_self)) }

theorem live_of_claims (hs : Sound sealed m) (hcol : (m.heap.cell c).flags.collected = false)
    (hpos : 0 < m.claims (.release c)) : m.heap.Live c := by
  rw [← hs.shared c hcol] at hpos
  refine ⟨hpos, ?_, hcol⟩
  rw [← Bool.not_eq_true]
  intro hd
  have := (hs.dead c hd).1
  omega

theorem claims_pos_of_held {hold : List Task} (hh : m.heap.Held hold c)
    (hsub : ∀ t ∈ hold, t ∈ m.held) : 0 < m.claims (.release c) := by
  rcases hh with hh | hh
  · have := List.count_pos_iff.2 (hsub _ hh)
    simp only [Moment.claims]
    omega
  · have := List.count_pos_iff.2 hh
    simp only [Moment.claims]
    omega

theorem claims_pos_of_due {t : Task} (ht : t ∈ (m.heap.cell x).dues) : 0 < m.claims t := by
  have h₁ := List.count_pos_iff.2 ht
  have h₂ : (m.heap.cell x).dues.count t ≤ m.heap.due t :=
    m.heap.le_total (fun x => x.dues.count t) (by simp) x
  simp only [Moment.claims]
  omega

theorem claims_pos_of_edge (he : c ∈ (m.heap.cell x).edges) : 0 < m.claims (.release c) := by
  have := Heap.inward_pos he
  rw [← Heap.due_release] at this
  simp only [Moment.claims]
  omega

theorem live_of_held (hs : Sound sealed m) (hc : m.heap.Held m.held c) : m.heap.Live c := by
  refine hs.live_of_claims ?_ (claims_pos_of_held hc fun _ => id)
  rw [← Bool.not_eq_true]
  exact fun hcol => (hs.collected c hcol).1 hc

theorem live_of_edge (hs : Sound sealed m) (hx : m.heap.Live x) (he : c ∈ (m.heap.cell x).edges) :
    m.heap.Live c := by
  refine hs.live_of_claims ?_ (claims_pos_of_edge he)
  rw [← Bool.not_eq_true]
  intro hcol
  have := (hs.collected c hcol).2 x he
  rw [hx.collected] at this
  cases this

theorem live_of_reach (hs : Sound sealed m) (hr : m.heap.Reach (m.heap.Held m.held) c) : m.heap.Live c := by
  induction hr with
  | source hc => exact hs.live_of_held hc
  | edge _ he ih => exact hs.live_of_edge ih he

theorem collected_destroyed (hs : Sound sealed m) (hp : m.pending = [])
    (hc : (m.heap.cell c).flags.collected = true) : (m.heap.cell c).destroyed = true := by
  have := hs.perish c
  rw [hp, hc] at this
  simpa using this

theorem live_of_not_destroyed (hs : Sound sealed m) (hp : m.pending = [])
    (hc : (m.heap.cell c).destroyed = false) : m.heap.Live c := by
  have hcol : (m.heap.cell c).flags.collected = false := by
    rw [← Bool.not_eq_true]
    intro hcol
    rw [hs.collected_destroyed hp hcol] at hc
    cases hc
  exact ⟨hs.live c hc hcol, hc, hcol⟩

theorem weak_pos (hs : Sound sealed m)
    (hc : (m.heap.cell c).destroyed = false ∨ 0 < m.claims (.unpin c)) : 0 < (m.heap.cell c).weak := by
  have := hs.weak c
  rcases hc with hc | hc
  · rw [hc] at this
    simp only [Bool.false_eq_true, if_false] at this
    omega
  · omega

theorem destroyed_edges (hs : Sound sealed m) (hd : (m.heap.cell c).destroyed = true) :
    (m.heap.cell c).edges = [] :=
  List.eq_nil_iff_forall_not_mem.2 fun d hd' => by
    have := Cell.release_mem_tasks.2 hd'
    rw [(hs.dead c hd).2] at this
    cases this

end Sound

end LazyHeap
