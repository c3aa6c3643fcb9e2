import LazyHeap.Proofs.Work
import Mathlib.Data.List.Nodup
import Mathlib.Logic.Relation

/-!
What a run does, step by step. Every operation comes down to a few changes: references are taken, given up or
moved, tasks are performed, rounds are opened, values are edited, cells are added. Each of them keeps a moment
sound, so a run keeps it sound throughout. Some runs abstain from some of the changes.
-/
namespace LazyHeap

/-- What a run abstains from, and what is exempt for the moment. -/
structure Rules where
  /-- Memos map frozen objects only. -/
  careful : Bool := false
  /-- Two labels have a copy in common only if it is frozen, and a frozen label has frozen copies only. -/
  apart : Bool := false
  /-- Frozen objects keep their links. -/
  closed : Bool := false
  /-- Links of frozen objects may be resolved for all that, so that they need not lead to frozen objects. -/
  lenient : Bool := false
  /-- Labels of which nobody takes another handle. -/
  sealed : CellId → Prop := fun _ => False
  /-- Cells that are about to be frozen together with what they lead to. -/
  opened : CellId → Prop := fun _ => False
  /-- Objects that are left as they are until they go. -/
  fixed : CellId → Prop := fun _ => False
  /-- Labels that keep their entries and their forward, and objects that keep the label that made them. -/
  steady : CellId → Prop := fun _ => False

/-- The links of an object, each field's under its name. -/
def Object.contents (o : Object) : List (FieldName × List Link) := o.fields.map fun f => (f.name, f.links)

theorem Object.links_eq_contents (o : Object) : o.links = o.contents.flatMap (·.2) := by
  simp only [links, contents, List.flatMap_map]

def Object.LeadsTo (o : Object) (c : CellId) : Prop := ∃ p, .owned p ∈ o.links ∧ p.target = some c

/-- An entry that a label may get. -/
structure Label.Admits (h : Heap) (rules : Rules) (l : Label) (e : CellId × CellId) : Prop where
  fresh : (h.cell e.2).frozen = false
  careful : rules.careful = true → (h.cell e.1).frozen = true
  apart : rules.apart = true → l.frozen = false ∧ ∀ x, e.2 ∉ (h.cell x).edges

/-- How the label in a cell may change: entries go only when their source has no owner, a frozen label stays
frozen, and it alone may get a forward, once. -/
structure Label.Evolves (h : Heap) (rules : Rules) (c : CellId) (l l' : Label) : Prop where
  keep : ∀ e ∈ l.memo.entries, e ∈ l'.memo.entries ∨ (h.cell e.1).alive = false
  enter : ∀ e ∈ l'.memo.entries, e ∈ l.memo.entries ∨ l.Admits h rules e
  frozen : l.frozen = true → l'.frozen = true
  shut : rules.apart = true → l'.frozen = true → l.frozen = true ∨ rules.opened c
  forward : l'.forward = l.forward ∨ (l.forward = .empty ∧ l.frozen = true)
  sealed : ¬ rules.sealed c
  steady : rules.steady c → l'.memo = l.memo ∧ l'.frozen = l.frozen ∧ l'.forward = l.forward

/-- How the object in a cell may change. -/
structure Object.Evolves (h : Heap) (rules : Rules) (c : CellId) (o o' : Object) : Prop where
  kind : o'.kind = o.kind
  serial : o'.serial = o.serial
  links : rules.closed = true → (h.cell c).frozen = true → ¬ rules.opened c → o'.contents = o.contents
  fixed : rules.fixed c → o'.contents = o.contents ∧ o'.value = o.value

def Body.Evolves (h : Heap) (rules : Rules) (c : CellId) : Body → Body → Prop
  | .object o, .object o' => o.Evolves h rules c o'
  | .label l, .label l' => l.Evolves h rules c l'
  | _, _ => False

/-- The memo of a label maps frozen objects only, as far as they are still there. -/
def Body.FrozenKeys (h : Heap) : Body → Prop
  | .object _ => True
  | .label l => ∀ e ∈ l.memo.entries, (h.cell e.1).alive = true → (h.cell e.1).frozen = true

/-- How a new value may start. -/
structure Body.Starts (h : Heap) (rules : Rules) (b : Body) : Prop where
  careful : rules.careful = true → b.FrozenKeys h
  apart : rules.apart = true → ∀ l, b = .label l → ∀ v ∈ l.memo.copies, (h.cell v).frozen = true
  closed : rules.closed = true → ∀ l, b = .label l → ∀ v ∈ l.memo.copies, ¬ rules.opened v →
    (h.cell v).flags.freezing ≠ .sole

/-- Whoever has the only count of a cell is somebody outside of the cells, or a label that may still change. -/
def Heap.Loose (h : Heap) (rules : Rules) (held : List Task) (c : CellId) : Prop :=
  .release c ∈ held ∨ ∃ x l, (h.cell x).body = .label l ∧ c ∈ l.memo.copies ∧ ¬ rules.sealed x ∧
    (rules.apart = true → l.frozen = false)

/-- Cells whose locks are held are reached from what is held. -/
def Heap.Guarded (h : Heap) (locks : List Lock) (held : List Task) : Prop :=
  ∀ x ∈ locks, h.Reach (h.Held held) x.1

/-- An edit of the value of a cell that is reached from what is held: references in hand, `ins`, go into it,
references from it, `outs`, come into hand, and locks are taken or given back. The root never gets anything. -/
structure Edit (rules : Rules) (h : Heap) (locks locks' : List Lock) (c : CellId) (b : Body)
    (w : Option CellId) (ins outs held : List Task) : Prop where
  reached : h.Reach (h.Held held) c
  evolves : (h.cell c).body.Evolves h rules c b
  fits : b.Fits rules.sealed h c
  root : c = rootCell → ∀ t ∈ b.tasks, t ∈ (h.cell c).body.tasks
  owner : ∀ d, w = some d → (h.cell c).owner = some d ∨ h.IsObject c ∧ d ≠ rootCell
  maker : rules.steady c → w = (h.cell c).owner
  dues : ((h.cell c).dues ++ ins).Perm ({ h.cell c with body := b, owner := w }.dues ++ outs)
  own : ∀ k, k ∈ b.locks ↔ (c, k) ∈ locks'
  others : ∀ d, d ≠ c → ∀ k, (d, k) ∈ locks' ↔ (d, k) ∈ locks

/-- The steps of a run. -/
inductive Advance (rules : Rules) : Moment → Moment → Prop where
  | arrange {h locks ts held held'} : held.Perm held' →
    Advance rules ⟨h, locks, ts, held⟩ ⟨h, locks, ts, held'⟩
  | begin {h locks ts held} : h.Guarded locks held →
    Advance rules ⟨h, locks, [], ts ++ held⟩ ⟨h, locks, ts, held⟩
  | work {h h' locks t new ts held} : h.work t = .ok (h', new) →
    Advance rules ⟨h, locks, t :: ts, held⟩ ⟨h', locks, new ++ ts, held⟩
  | openRound {h h' locks new o ts held} : h.inRound = false → h.openRound = .ok (h', new, o) →
    Advance rules ⟨h, locks, ts, held⟩ ⟨h', locks, new ++ ts, held⟩
  | retain {h locks c held} : h.Live c → c ≠ rootCell →
    Advance rules ⟨h, locks, [], held⟩
      ⟨h.update c fun x => { x with shared := x.shared + 1 }, locks, [], .release c :: held⟩
  | retainWeak {h locks c held} : 0 < (h.cell c).weak →
    Advance rules ⟨h, locks, [], held⟩
      ⟨h.update c fun x => { x with weak := x.weak + 1 }, locks, [], .unpin c :: held⟩
  | giveBack {h locks c held} : .release c ∈ held →
    Advance rules ⟨h, locks, [], .release c :: held⟩
      ⟨h.update c fun x => { x with shared := x.shared - 1 }, locks, [], held⟩
  | allocate {h locks} {b : Body} {w : Option CellId} {held} : b.Fits rules.sealed h h.size → b.locks = [] →
    (∀ d, w = some d → (∃ o, b = .object o) ∧ d ≠ rootCell) → b.Starts h rules → Advance rules ⟨h, locks, [], b.tasks ++ w.toList.map .unpin ++ held⟩
      ⟨h.push (.fresh b w), locks, [], .release h.size :: held⟩
  | rewrite {h locks locks' c b w ins outs held} : Edit rules h locks locks' c b w ins outs held →
    Advance rules ⟨h, locks, [], ins ++ held⟩
      ⟨h.update c fun x => { x with body := b, owner := w }, locks', [], outs ++ held⟩
  | freeze {h locks c held} : ¬ rules.fixed c →
    (rules.closed = true → (h.cell c).frozen = true ∨ rules.opened c) →
    Advance rules ⟨h, locks, [], held⟩ ⟨h.update c Cell.freeze, locks, [], held⟩
  | thaw {h locks c held} : ¬ rules.fixed c → (h.cell c).unique = true → h.Loose rules held c →
    Advance rules ⟨h, locks, [], held⟩ ⟨h.update c Cell.thaw, locks, [], held⟩
  | enterScope {h locks held} {l : Handle} : l.Fits rules.sealed h →
    Advance rules ⟨h, locks, [], l.tasks ++ held⟩
      ⟨{ h with scopes := l :: h.scopes }, locks, [], held⟩
  | leaveScope {h locks held l rest} : h.scopes = l :: rest →
    Advance rules ⟨h, locks, [], held⟩ ⟨{ h with scopes := rest }, locks, [], l.tasks ++ held⟩
  | clerical {h h' locks held} : h' = { h with
      totals := h'.totals, settings := h'.settings, nextSerial := h'.nextSerial, log := h'.log } →
    h.nextSerial ≤ h'.nextSerial → Advance rules ⟨h, locks, [], held⟩ ⟨h', locks, [], held⟩

abbrev Steps (rules : Rules) : Moment → Moment → Prop := Relation.ReflTransGen (Advance rules)

namespace Sound

variable {sealed : CellId → Prop} {rules : Rules} {h h' : Heap} {locks locks' : List Lock}
variable {ts held held' : List Task} {c : CellId}

private theorem perm_step (hs : Sound sealed ⟨h, locks, ts, held⟩)
    (hp : held.Perm held') : Sound sealed ⟨h, locks, ts, held'⟩ :=
  hs.repend (fun d _ => by simp only [List.count_append, hp.count_eq])
    (fun d => by simp only [List.count_append, hp.count_eq]) (fun d _ hd => hp.mem_iff.2 hd)
    (fun _ => rfl) hs.orderly (fun t ht => hs.held t (hp.mem_iff.2 ht))
    fun d hsrc _ => hsrc.imp_left fun hh => hh.imp_left hp.mem_iff.1

private theorem begin_step (hs : Sound sealed ⟨h, locks, [], ts ++ held⟩) : Sound sealed ⟨h, locks, ts, held⟩ := by
  have hrefs : ∀ t ∈ ts, t.isReference = true := fun t ht => hs.held t (List.mem_append_left _ ht)
  have horder : Orderly h.inRound [] := hs.orderly
  refine hs.repend (fun d _ => rfl) (fun d => rfl) (fun d _ hd => List.mem_append_right _ hd)
    (fun d => List.count_eq_zero.2 fun hd => nomatch hrefs _ hd) ?_
    (fun t ht => hs.held t (List.mem_append_right _ ht)) fun d hsrc _ => ?_
  · simpa using horder.prepend fun t ht => .inr (hrefs t ht)
  · rcases hsrc with (hsrc | hsrc) | hsrc | hsrc | hsrc
    · exact (List.mem_append.1 hsrc).elim (fun h => .inr (.inl h)) fun h => .inl (.inl h)
    · exact .inl (.inr hsrc)
    · cases hsrc
    · cases hsrc
    · exact .inr (.inr (.inr hsrc))

private theorem open_step {new : List Task} {o : RoundOutcome} (hs : Sound sealed ⟨h, locks, ts, held⟩)
    (hr : h.inRound = false) (ho : h.openRound = .ok (h', new, o)) :
    Sound sealed ⟨h', locks, new ++ ts, held⟩ := by
  obtain ⟨k, roots, whites, hk, heq⟩ := hs.openRound hr
  rw [heq] at ho
  simp only [Except.ok.injEq, Prod.mk.injEq] at ho
  obtain ⟨rfl, rfl, rfl⟩ := ho
  exact hs.opened hr hk

private theorem reflag (hs : Sound sealed ⟨h, locks, ts, held⟩) {f : Freezing} {g : Cell → Cell}
    (hg : g (h.cell c) = { h.cell c with flags.freezing := f }) :
    Sound sealed ⟨h.update c g, locks, ts, held⟩ := by
  by_cases hc : c < h.size
  · have hself : (h.update c g).cell c = { h.cell c with flags.freezing := f } :=
      (h.cell_update_self g hc).trans hg
    have hdest : ((h.update c g).cell c).destroyed = (h.cell c).destroyed := by rw [hself]; rfl
    have hcol : ((h.update c g).cell c).flags.collected = (h.cell c).flags.collected := by rw [hself]
    have hshared : ((h.update c g).cell c).shared = (h.cell c).shared := by rw [hself]
    have hbody : ((h.update c g).cell c).body = (h.cell c).body := by rw [hself]
    refine hs.recount (.update h c g) hc hbody (by rw [hself]) hcol (fun _ => by rw [hself])
      (fun _ _ => rfl) (by rw [hself]; rfl) (fun _ _ => rfl) (fun hd => ?_) (fun hd hc' => ?_)
      (fun hd => hdest.trans hd) (fun _ _ => id) ?_ (fun _ _ => rfl) ?_ hs.orderly hs.held rfl
      fun d hsrc _ => .source hsrc
    · rw [hshared, hbody]
      exact hs.dead c (hdest ▸ hd)
    · rw [hshared]
      exact hs.live c (hdest ▸ hd) (hcol ▸ hc')
    · rw [hdest, hcol]
      exact hs.perish c
    · obtain ⟨h₁, h₂, h₃⟩ := hs.buffered
      have hflags : ∀ d, ((h.update c g).cell d).flags.colour = (h.cell d).flags.colour ∧
          ((h.update c g).cell d).flags.buffered = (h.cell d).flags.buffered := fun d => by
        by_cases hd : d = c
        · rw [hd, hself]
          exact ⟨rfl, rfl⟩
        · rw [h.cell_update_ne _ hd]
          exact ⟨rfl, rfl⟩
      refine ⟨fun d => ?_, fun d => ?_, h₃⟩
      · rw [(hflags d).1, (hflags d).2]
        exact h₁ d
      · rw [(hflags d).2]
        exact h₂ d
  · rw [h.update_of_size_le g (Nat.not_lt.1 hc)]
    exact hs

private theorem recounted (hs : Sound sealed ⟨h, locks, [], held⟩) {n w : Nat} {g : Cell → Cell}
    (hlt : c < h.size) (hg : g (h.cell c) = { h.cell c with shared := n, weak := w })
    (hshared : n + held.count (.release c) = (h.cell c).shared + held'.count (.release c))
    (hrel : ∀ d, d ≠ c → held.count (.release d) = held'.count (.release d))
    (hweak : w + held.count (.unpin c) = (h.cell c).weak + held'.count (.unpin c))
    (hpin : ∀ d, d ≠ c → held.count (.unpin d) = held'.count (.unpin d))
    (hpos : n = (h.cell c).shared ∨ h.Live c ∧ 0 < n)
    (hheld : ∀ d, .release d ∈ held' ↔ .release d ∈ held ∨ d = c ∧ .release c ∈ held')
    (href : ∀ t ∈ held', t.isReference = true)
    (hroot : held'.count (.release rootCell) = held.count (.release rootCell)) :
    Sound sealed ⟨h.update c g, locks, [], held'⟩ := by
  have hself : (h.update c g).cell c = { h.cell c with shared := n, weak := w } :=
    (h.cell_update_self g hlt).trans hg
  have hdest : ((h.update c g).cell c).destroyed = (h.cell c).destroyed := by rw [hself]; rfl
  have hcol : ((h.update c g).cell c).flags.collected = (h.cell c).flags.collected := by rw [hself]
  have hs' : ((h.update c g).cell c).shared = n := by rw [hself]
  have hw' : ((h.update c g).cell c).weak = w := by rw [hself]
  have hbody : ((h.update c g).cell c).body = (h.cell c).body := by rw [hself]
  refine hs.recount (.update h c g) hlt hbody (by rw [hself]) hcol (fun _ => ?_) (fun d hd => ?_)
    ?_ (fun d hd => ?_) (fun hd => ?_) (fun hd hc' => ?_) (fun hd => hdest.trans hd)
    (fun d hd hh => ?_) ?_ (fun _ _ => rfl) ?_ hs.orderly href ?_ fun d hsrc _ => .source ?_
  · simpa [hs'] using hshared
  · simpa using hrel d hd
  · have hcand : (h.update c g).candidates = h.candidates := rfl
    rw [hw', hdest, hcand]
    simp only [List.nil_append]
    omega
  · have hcand : (h.update c g).candidates = h.candidates := rfl
    rw [hcand]
    simpa using hpin d hd
  · rw [hdest] at hd
    rw [hs', hbody]
    refine ⟨?_, (hs.dead c hd).2⟩
    rcases hpos with hpos | ⟨hl, -⟩
    · rw [hpos]
      exact (hs.dead c hd).1
    · have := hl.destroyed
      rw [hd] at this
      cases this
  · rw [hs']
    rcases hpos with hpos | ⟨-, hpos⟩
    · rw [hpos]
      exact hs.live c (hdest ▸ hd) (hcol ▸ hc')
    · exact hpos
  · rcases (hheld d).1 hh with hh | ⟨rfl, hh⟩
    · exact hh
    · rcases hpos with hpos | ⟨hl, -⟩
      · -- then the count of the cell in hand is the same
        rw [hpos] at hshared
        have h₁ := List.count_pos_iff.2 hh
        exact List.count_pos_iff.1 (by omega)
      · have := hl.collected
        rw [hd] at this
        cases this
  · rw [hdest, hcol]
    exact hs.perish c
  · obtain ⟨h₁, h₂, h₃⟩ := hs.buffered
    have hflags : ∀ d, ((h.update c g).cell d).flags = (h.cell d).flags := fun d => by
      by_cases hd : d = c
      · rw [hd, hself]
      · rw [h.cell_update_ne _ hd]
    refine ⟨fun d => ?_, fun d => ?_, h₃⟩
    · rw [hflags]
      exact h₁ d
    · rw [hflags]
      exact h₂ d
  · simpa using hroot
  · rcases hsrc with (hsrc | hsrc) | hsrc
    · exact .inl (.inl ((hheld d).2 (.inl hsrc)))
    · exact .inl (.inr hsrc)
    · exact .inr hsrc

private theorem retain_step (hs : Sound sealed ⟨h, locks, [], held⟩) (hc : h.Live c) (hroot : c ≠ rootCell) :
    Sound sealed ⟨h.update c fun x => { x with shared := x.shared + 1 }, locks, [], .release c :: held⟩ := by
  refine hs.recounted hc.lt_size rfl ?_ (fun d hd => ?_) ?_ (fun d _ => ?_)
    (.inr ⟨hc, Nat.succ_pos _⟩) (fun d => ?_) (fun t ht => ?_) ?_
  · rw [List.count_cons_self]
    omega
  · rw [List.count_cons_of_ne (by simpa using Ne.symm hd)]
  · rw [List.count_cons_of_ne (by simp)]
  · rw [List.count_cons_of_ne (by simp)]
  · simp only [List.mem_cons, Task.release.injEq]
    tauto
  · rcases List.mem_cons.1 ht with rfl | ht
    · rfl
    · exact hs.held t ht
  · rw [List.count_cons_of_ne (by simpa using hroot)]

private theorem retainWeak_step (hs : Sound sealed ⟨h, locks, [], held⟩) (hw : 0 < (h.cell c).weak) :
    Sound sealed ⟨h.update c fun x => { x with weak := x.weak + 1 }, locks, [], .unpin c :: held⟩ := by
  have hc : c < h.size := Heap.lt_size_of_cell_ne fun he => by simp [he, Cell.void] at hw
  refine hs.recounted hc rfl ?_ (fun d _ => ?_) ?_ (fun d hd => ?_) (.inl rfl) (fun d => ?_)
    (fun t ht => ?_) ?_
  · rw [List.count_cons_of_ne (by simp)]
  · rw [List.count_cons_of_ne (by simp)]
  · rw [List.count_cons_self]
    omega
  · rw [List.count_cons_of_ne (by simpa using Ne.symm hd)]
  · simp only [List.mem_cons, reduceCtorEq, false_or]
    refine ⟨.inl, fun hd => hd.elim id fun ⟨he, hm⟩ => he ▸ hm⟩
  · rcases List.mem_cons.1 ht with rfl | ht
    · rfl
    · exact hs.held t ht
  · rw [List.count_cons_of_ne (by simp)]

private theorem giveBack_step (hs : Sound sealed ⟨h, locks, [], .release c :: held⟩)
    (hc : .release c ∈ held) :
    Sound sealed ⟨h.update c fun x => { x with shared := x.shared - 1 }, locks, [], held⟩ := by
  have hlive : h.Live c := hs.live_of_held (.inl List.mem_cons_self)
  have hpos := List.count_pos_iff.2 hc
  have htwo : 2 ≤ (h.cell c).shared := by
    have := hs.shared c hlive.collected
    simp only [Moment.claims, List.count_cons_self] at this
    omega
  have hroot : c ≠ rootCell := fun he => by
    have h₁ := hs.root.1
    have h₂ : 0 < h.standing.count (.release rootCell) := List.count_pos_iff.2 List.mem_cons_self
    simp only [Moment.claims, ← he, List.count_cons_self] at h₁ h₂
    omega
  refine hs.recounted hlive.lt_size rfl ?_ (fun d hd => ?_) ?_ (fun d _ => ?_)
    (.inr ⟨hlive, by omega⟩) (fun d => ?_) (fun t ht => hs.held t (List.mem_cons_of_mem _ ht)) ?_
  · rw [List.count_cons_self]
    omega
  · rw [List.count_cons_of_ne (by simpa using Ne.symm hd)]
  · rw [List.count_cons_of_ne (by simp)]
  · rw [List.count_cons_of_ne (by simp)]
  · simp only [List.mem_cons, Task.release.injEq]
    refine ⟨fun hd => .inl (.inr hd), fun hd => ?_⟩
    rcases hd with (rfl | hd) | ⟨rfl, hd⟩
    · exact hc
    · exact hd
    · exact hd
  · rw [List.count_cons_of_ne (by simpa using hroot)]

private theorem recast (hs : Sound sealed ⟨h, locks, [], held⟩) (hcells : h'.cells = h.cells)
    (hcand : h'.candidates = h.candidates) (hround : h'.inRound = h.inRound)
    (hscopes : ∀ l ∈ h'.scopes, l.Fits sealed h)
    (hcount : ∀ t, h'.standing.count t + held'.count t = h.standing.count t + held.count t)
    (href : ∀ t ∈ held', t.isReference = true) : Sound sealed ⟨h', locks, [], held'⟩ := by
  have hcell : ∀ c, h'.cell c = h.cell c := fun c => by simp only [Heap.cell, hcells]
  have hdue : ∀ t, h'.due t = h.due t := fun t => by simp only [Heap.due, Heap.total, hcells]
  have hclaims : ∀ t, (Moment.mk h' locks [] held').claims t = (Moment.mk h locks [] held).claims t :=
    fun t => by
      have := hcount t
      simp only [Moment.claims, hdue]
      omega
  have hheld : ∀ c, h'.Held held' c ↔ h.Held held c := fun c => by
    have := hcount (.release c)
    simp only [Heap.Held, ← List.count_pos_iff]
    omega
  have hgrows : h.Grows h' := {
    size := by simp only [Heap.size, hcells, Nat.le_refl]
    object := fun c hc => by rwa [Heap.IsObject, hcell]
    label := fun c hc => ⟨by simpa only [Heap.size, hcells] using hc.1, by rw [hcell]; exact hc.2⟩ }
  exact {
    shared := fun c hc => by
      simp only [hcell] at hc ⊢
      exact (hs.shared c hc).trans (hclaims _).symm
    weak := fun c => by
      simp only [hcell, hclaims, hcand]
      exact hs.weak c
    dead := fun c => by
      simp only [hcell]
      exact hs.dead c
    live := fun c => by
      simp only [hcell]
      exact hs.live c
    collected := fun c hc => by
      simp only [hcell, hheld] at hc ⊢
      exact hs.collected c hc
    perish := fun c => by
      simp only [hcell]
      exact hs.perish c
    buffered := by
      obtain ⟨h₁, h₂, h₃⟩ := hs.buffered
      refine ⟨fun c => ?_, fun c => ?_, ?_⟩
      · simp only [hcell]
        exact h₁ c
      · simp only [hcell, hcand]
        exact h₂ c
      · simp only [hcand]
        exact h₃
    orderly := by
      simp only [hround]
      exact hs.orderly
    held := href
    fits := fun c => by
      simp only [hcell]
      exact (hs.fits c).grows hgrows
    scopes := fun l hl => (hscopes l hl).grows hgrows
    locks := fun c => by
      simp only [hcell]
      exact hs.locks c
    root := ⟨(hclaims _).trans hs.root.1, hgrows.label _ hs.root.2⟩
    covered := fun c hd hcol => by
      simp only [hcell] at hd hcol
      refine (hs.covered c hd hcol).mono (fun d hd => .source ?_) fun x d _ he hx =>
        .edge hx ((hcell x).symm ▸ he)
      simp only [Moment.Source, hheld, hcand]
      exact hd }

/-- What an edit does to what is owned: nothing leaves the cell but what comes into hand, and nothing gets into
it but what was in hand. -/
private theorem edit_moves {b : Body} {w : Option CellId} {ins outs : List Task}
    (he : Edit rules h locks locks' c b w ins outs held) {y : Cell}
    (hy : y = { h.cell c with body := b, owner := w }) (d : CellId) :
    (d ∈ (h.cell c).edges ∨ .release d ∈ ins) ↔ (d ∈ y.edges ∨ .release d ∈ outs) := by
  have hiff : ∀ (x : Cell) (ts : List Task), Task.release d ∈ x.dues ++ ts ↔
      d ∈ x.edges ∨ .release d ∈ ts := fun x ts => by
    rw [List.mem_append, Cell.dues, List.mem_append, Cell.release_mem_tasks]
    simp
  rw [← hiff, ← hiff, hy]
  exact he.dues.mem_iff

private theorem reach_edit {b : Body} {w : Option CellId} {ins outs : List Task}
    (he : Edit rules h locks locks' c b w ins outs held) (hdiff : h.Differs h' c)
    (hself : h'.cell c = { h.cell c with body := b, owner := w }) {d : CellId}
    (hd : h.Reach (h.Held (ins ++ held)) d) : h'.Reach (h'.Held (outs ++ held)) d := by
  have hold := fun d => (edit_moves he hself d).1
  have hedge : ∀ x d, h'.Reach (h'.Held (outs ++ held)) x → d ∈ (h.cell x).edges →
      h'.Reach (h'.Held (outs ++ held)) d := fun x d hx hd => by
    by_cases hxc : x = c
    · subst hxc
      exact (hold d (.inl hd)).elim (.edge hx) fun hm => .source (.inl (List.mem_append_left _ hm))
    · exact .edge hx (by rwa [hdiff.others x hxc])
  have hstand : h'.standing = h.standing := by simp only [Heap.standing, hdiff.scopes]
  -- the edited cell is reached without what goes into it
  have hc : h'.Reach (h'.Held (outs ++ held)) c := by
    refine he.reached.mono (fun d hd => .source ?_) fun x d _ hd hx => hedge x d hx hd
    exact hd.imp (List.mem_append_right _) fun h => hstand ▸ h
  refine hd.mono (fun d hd => ?_) fun x d _ hd hx => hedge x d hx hd
  rcases hd with hd | hd
  · rcases List.mem_append.1 hd with hd | hd
    · exact (hold d (.inr hd)).elim (.edge hc) fun hm => .source (.inl (List.mem_append_left _ hm))
    · exact .source (.inl (List.mem_append_right _ hd))
  · exact .source (.inr (hstand ▸ hd))

private theorem edit_grows {b : Body} {w : Option CellId} {ins outs : List Task}
    (he : Edit rules h locks locks' c b w ins outs held) (hdiff : h.Differs h' c)
    (hself : h'.cell c = { h.cell c with body := b, owner := w }) : h.Grows h' := by
  have hev := he.evolves
  refine hdiff.grows ?_ ?_
  · rintro ⟨o, ho⟩
    rw [ho] at hev
    rw [hself]
    cases b with
    | object o' => exact ⟨o', rfl⟩
    | label l' => cases hev
  · rintro ⟨l, hl⟩
    rw [hl] at hev
    rw [hself]
    cases b with
    | object o' => cases hev
    | label l' => exact ⟨l', rfl⟩

private theorem rewrite_step {b : Body} {w : Option CellId} {ins outs : List Task}
    (hs : Sound rules.sealed ⟨h, locks, [], ins ++ held⟩) (he : Edit rules h locks locks' c b w ins outs held)
    (hg : h.Guarded locks (ins ++ held)) :
    Sound rules.sealed ⟨h.update c fun x => { x with body := b, owner := w }, locks', [], outs ++ held⟩ := by
  let h' := h.update c fun x => { x with body := b, owner := w }
  have hlive : h.Live c := hs.live_of_reach
    (he.reached.subset fun _ => Or.imp_left (List.mem_append_right _))
  have hself : h'.cell c = { h.cell c with body := b, owner := w } :=
    h.cell_update_self _ hlive.lt_size
  have hdiff : h.Differs h' c := .update h c _
  have hgrows : h.Grows h' := edit_grows he hdiff hself
  have hmoves := edit_moves he hself
  have hstay : ∀ {d}, h.Reach (h.Held (ins ++ held)) d →
      h'.Reach (Moment.mk h' locks' [] (outs ++ held)).Source d := fun hd =>
    (reach_edit he hdiff hself hd).subset fun _ => .inl
  -- nothing that the cell comes to own or gives away is claimed by a round
  have hclean : ∀ d, (d ∈ (h'.cell c).edges ∨ .release d ∈ outs) → h.Live d := fun d hd =>
    ((hmoves d).2 hd).elim (hs.live_of_edge hlive) fun hd =>
      hs.live_of_held (.inl (List.mem_append_left _ hd))
  refine hs.exchange hdiff hlive.lt_size hself rfl rfl hgrows (he.fits.grows hgrows) (fun t _ => ?_)
    (fun hd => ?_) (fun d hcol hd => ?_) (fun d hcol hd => ?_) hs.orderly (fun t ht => ?_) he.own
    he.others (fun d hsrc _ => ?_) fun d hd => ?_
  · have := he.dues.count_eq t
    rw [show (h'.cell c).dues = _ from congrArg Cell.dues hself]
    simp only [List.count_append, List.count_nil] at this ⊢
    omega
  · rw [hlive.destroyed] at hd
    cases hd
  · rcases List.mem_append.1 hd with hd | hd
    · have := (hclean d (.inr hd)).collected
      rw [hcol] at this
      cases this
    · exact List.mem_append_right _ hd
  · have := (hclean d (.inl hd)).collected
    rw [hcol] at this
    cases this
  · rcases List.mem_append.1 ht with ht | ht
    · rcases List.mem_append.1 (he.dues.mem_iff.2 (List.mem_append_right _ ht)) with hm | hm
      · exact Cell.isReference_of_mem_dues hm
      · exact hs.held t (List.mem_append_left _ hm)
    · exact hs.held t (List.mem_append_right _ ht)
  · rcases hsrc with hsrc | hsrc | hsrc | hsrc | ⟨k, hsrc⟩
    · exact hstay (.source hsrc)
    · cases hsrc
    · cases hsrc
    · exact .source (.inr (.inr (.inr (.inl hsrc))))
    · exact hstay (hg _ hsrc)
  · exact ((hmoves d).1 (.inl hd)).imp_right fun hm => .inl (.inl (List.mem_append_left _ hm))

theorem kept_opened {roots whites : List CellId} (hs : Sound sealed ⟨h, locks, ts, held⟩)
    (hround : h.inRound = false) (ho : h.Opened h' roots whites) : h.Kept held h' := by
  have hs' := hs.opened (o := ⟨0, 0, 0⟩) hround ho
  have hbody : ∀ c, (h'.cell c).body = (h.cell c).body := fun c => (congrArg Cell.body (ho.cell c) :)
  have hscopes : h'.scopes = h.scopes := by rw [ho.rest]
  refine ⟨fun c hr => ?_, ⟨fun c => (congrArg (fun x : Cell => x.flags.freezing) (ho.cell c) :),
      fun c => (congrArg Cell.destroyed (ho.cell c) :).trans, fun c => .inl (hbody c)⟩,
    ⟨Nat.le_of_eq ho.size.symm, fun c hc => ?_, fun c hc => ?_⟩, ho.size, hscopes, by rw [ho.rest]⟩
  · have hr' : h'.Reach (h'.Held held) c := by
      refine hr.mono (fun d hd => .source ?_) fun x d _ hd hx => .edge hx ?_
      · exact hd.imp_right fun h => by rwa [Heap.standing, hscopes]
      · rwa [Cell.edges, hbody]
    have h₁ : (h'.cell c).flags.collected = false := (hs'.live_of_reach hr').collected
    have h₂ : (h.cell c).flags.collected = false := (hs.live_of_reach hr).collected
    have hcell := ho.cell c
    have hw : c ∉ whites := fun hw => by
      have : (h'.cell c).flags.collected = ((h.cell c).opened (decide (c ∈ whites))).flags.collected :=
        (congrArg (fun x => x.flags.collected) hcell :)
      simp [Cell.opened, hw, h₁] at this
    have hcore : (h'.cell c).core = ((h.cell c).opened (decide (c ∈ whites))).core :=
      (congrArg Cell.core hcell :)
    rw [hcore]
    simp [Cell.opened, Cell.core, hw]
  · rwa [Heap.IsObject, hbody]
  · exact ⟨ho.size.symm ▸ hc.1, by rw [hbody]; exact hc.2⟩

end Sound

namespace Heap

variable {h h' : Heap} {locks : List Lock} {held held' : List Task}

theorem cell_update_cases (h : Heap) (c : CellId) (g : Cell → Cell) (x : CellId) :
    (h.update c g).cell x = h.cell x ∨ (x = c ∧ c < h.size ∧ (h.update c g).cell x = g (h.cell c)) := by
  by_cases hx : x = c
  · by_cases hlt : c < h.size
    · exact .inr ⟨hx, hlt, by rw [hx, h.cell_update_self g hlt]⟩
    · rw [h.update_of_size_le g (Nat.not_lt.1 hlt)]
      exact .inl rfl
  · exact .inl (h.cell_update_ne g hx)

theorem cell_push_cases (h : Heap) (y : Cell) (x : CellId) :
    (x < h.size ∧ (h.push y).cell x = h.cell x) ∨ (x = h.size ∧ (h.push y).cell x = y) ∨
      (h.push y).cell x = .void := by
  rcases Nat.lt_trichotomy x h.size with hx | hx | hx
  · exact .inl ⟨hx, h.cell_push_of_lt y hx⟩
  · exact .inr (.inl ⟨hx, hx ▸ h.cell_push_self y⟩)
  · exact .inr (.inr (cell_of_size_le _ (by rw [h.size_push]; exact hx)))

theorem Guarded.mono (hg : h.Guarded locks held) (hheld : ∀ c, h.Held held c → h'.Held held' c)
    (hedge : ∀ x c, c ∈ (h.cell x).edges → c ∈ (h'.cell x).edges) : h'.Guarded locks held' :=
  fun x hx => (hg x hx).mono (fun c hc => .source (hheld c hc)) fun y c _ hc hy => .edge hy (hedge y c hc)

theorem Kept.guarded (hk : h.Kept held h') (hg : h.Guarded locks held) : h'.Guarded locks held :=
  fun x hx => hk.reach (hg x hx)

theorem Guarded.subset (hg : h.Guarded locks held) (hsub : ∀ t ∈ held, t ∈ held') :
    h.Guarded locks held' :=
  fun x hx => (hg x hx).subset fun _ => Or.imp_left (hsub _)

theorem edges_update_of_body (h : Heap) (c : CellId) {g : Cell → Cell} (hg : ∀ x, (g x).body = x.body)
    (x : CellId) : ((h.update c g).cell x).edges = (h.cell x).edges := by
  by_cases hx : x = c
  · subst hx
    by_cases hlt : x < h.size
    · rw [h.cell_update_self g hlt]
      simp only [Cell.edges, hg]
    · rw [h.update_of_size_le g (Nat.not_lt.1 hlt)]
  · rw [h.cell_update_ne g hx]

theorem Guarded.update (hg : h.Guarded locks held) {c : CellId} {g : Cell → Cell}
    (hbody : ∀ x, (g x).body = x.body) (hheld : ∀ d, h.Held held d → h.Held held' d) :
    (h.update c g).Guarded locks held' :=
  hg.mono hheld fun x d hd => by rwa [h.edges_update_of_body c hbody]

theorem grows_update_of_body (h : Heap) (c : CellId) {g : Cell → Cell} (hg : ∀ x, (g x).body = x.body) :
    h.Grows (h.update c g) := by
  by_cases hlt : c < h.size
  · exact (Differs.update h c g).grows_of_body (by rw [h.cell_update_self g hlt, hg])
  · rw [h.update_of_size_le g (Nat.not_lt.1 hlt)]
    exact .refl h

theorem grows_of_cells (hcells : h'.cells = h.cells) : h.Grows h' where
  size := by simp only [size, hcells, Nat.le_refl]
  object c hc := by simpa only [IsObject, cell, hcells] using hc
  label c hc := by simpa only [IsLabel, size, cell, hcells] using hc

theorem cell_of_cells (hcells : h'.cells = h.cells) (x : CellId) : h'.cell x = h.cell x := by
  simp only [cell, hcells]

theorem grows_push (h : Heap) (x : Cell) : h.Grows (h.push x) where
  size := by
    rw [h.size_push]
    exact Nat.le_succ _
  object c hc := by rwa [IsObject, h.cell_push_of_lt x hc.lt_size]
  label c hc := ⟨by rw [h.size_push]; exact Nat.lt_succ_of_lt hc.1,
    by rw [h.cell_push_of_lt x hc.1]; exact hc.2⟩

end Heap

theorem Cell.freeze_body (x : Cell) : x.freeze.body = x.body := by
  unfold freeze
  split <;> rfl

/-- A moment that is sound, at which what is locked is held. -/
structure Firm (sealed : CellId → Prop) (m : Moment) : Prop extends Sound sealed m where
  guarded : m.heap.Guarded m.locks m.held

/-- A step keeps a moment firm, and what a cell is for. -/
theorem Advance.firm {rules : Rules} {m m' : Moment} (hstep : Advance rules m m') (hs : Firm rules.sealed m) :
    Firm rules.sealed m' ∧ m.heap.Grows m'.heap := by
  obtain ⟨hs, hg⟩ := hs
  cases hstep with
  | arrange hp => exact ⟨⟨hs.perm_step hp, hg.subset fun t ht => hp.mem_iff.1 ht⟩, .refl _⟩
  | begin hg' => exact ⟨⟨hs.begin_step, hg'⟩, .refl _⟩
  | work hw =>
    obtain ⟨k, ns, heq, hs', hkept⟩ := hs.work
    rw [heq] at hw
    cases hw
    exact ⟨⟨hs', hkept.guarded hg⟩, hkept.grows⟩
  | openRound hr ho =>
    have hs' := hs.open_step hr ho
    obtain ⟨k, roots, whites, hopen, heq⟩ := hs.openRound hr
    rw [heq] at ho
    cases ho
    have hkept := hs.kept_opened hr hopen
    exact ⟨⟨hs', hkept.guarded hg⟩, hkept.grows⟩
  | retain hc hroot =>
    exact ⟨⟨hs.retain_step hc hroot, Heap.Guarded.update hg (fun _ => rfl)
      fun _ => Or.imp_left (List.mem_cons_of_mem _)⟩, Heap.grows_update_of_body _ _ fun _ => rfl⟩
  | retainWeak hc =>
    exact ⟨⟨hs.retainWeak_step hc, Heap.Guarded.update hg (fun _ => rfl)
      fun _ => Or.imp_left (List.mem_cons_of_mem _)⟩, Heap.grows_update_of_body _ _ fun _ => rfl⟩
  | giveBack hc =>
    refine ⟨⟨hs.giveBack_step hc, Heap.Guarded.update hg (fun _ => rfl) fun d hd =>
      hd.imp_left fun hd => ?_⟩, Heap.grows_update_of_body _ _ fun _ => rfl⟩
    rcases List.mem_cons.1 hd with he | hd
    · exact Task.release.inj he ▸ hc
    · exact hd
  | @allocate h locks b w held hfits hlocks _ hstarts =>
    refine ⟨⟨hs.add hfits hlocks, fun x hx => ?_⟩, h.grows_push _⟩
    have hnew : (h.push (.fresh b w)).Reach ((h.push (.fresh b w)).Held (.release h.size :: held))
        h.size := .source (.inl List.mem_cons_self)
    refine (hg x hx).mono (fun d hd => ?_) fun y d _ hd hy => .edge hy ?_
    · rcases hd with hd | hd
      · rcases List.mem_append.1 hd with hd | hd
        · rcases List.mem_append.1 hd with hd | hd
          · refine .edge hnew ?_
            rw [h.cell_push_self]
            exact Cell.release_mem_tasks.1 hd
          · obtain ⟨_, -, he⟩ := List.mem_map.1 hd
            cases he
        · exact .source (.inl (List.mem_cons_of_mem _ hd))
      · exact .source (.inr hd)
    · rwa [h.cell_push_of_lt _ (Heap.lt_size_of_cell_ne fun he => by
        rw [he] at hd
        cases hd)]
  | @rewrite h locks locks' c b w ins outs held he =>
    have hlive : h.Live c := hs.live_of_reach
      (he.reached.subset fun _ => Or.imp_left (List.mem_append_right _))
    have hself := h.cell_update_self (fun x => { x with body := b, owner := w }) hlive.lt_size
    have hdiff := Heap.Differs.update h c fun x => { x with body := b, owner := w }
    refine ⟨⟨hs.rewrite_step he hg, fun x hx => ?_⟩, Sound.edit_grows he hdiff hself⟩
    refine Sound.reach_edit he hdiff hself ?_
    by_cases hxc : x.1 = c
    · rw [hxc]
      exact he.reached.subset fun _ => Or.imp_left (List.mem_append_right _)
    · exact hg _ ((he.others x.1 hxc x.2).1 hx)
  | @freeze h locks c held _ hc =>
    refine ⟨⟨?_, Heap.Guarded.update hg Cell.freeze_body fun _ => id⟩,
      Heap.grows_update_of_body _ _ Cell.freeze_body⟩
    by_cases hf : (h.cell c).frozen = true
    · exact hs.reflag (f := (h.cell c).flags.freezing) (by rw [Cell.freeze, if_pos hf])
    · exact hs.reflag (by rw [Cell.freeze, if_neg hf])
  | thaw _ hu _ =>
    exact ⟨⟨hs.reflag rfl, Heap.Guarded.update hg (fun _ => rfl) fun _ => id⟩,
      Heap.grows_update_of_body _ _ fun _ => rfl⟩
  | @enterScope h locks held l hl =>
    have hstand : ∀ t, ({ h with scopes := l :: h.scopes } : Heap).standing.count t +
        held.count t = h.standing.count t + (l.tasks ++ held).count t := fun t => by
      simp only [Heap.standing, List.flatMap_cons, List.count_cons, List.count_append]
      omega
    refine ⟨⟨hs.recast rfl rfl rfl (fun k hk => ?_) hstand fun t ht => hs.held t
      (List.mem_append_right _ ht), hg.mono (fun d hd => ?_) fun _ _ => id⟩, Heap.grows_of_cells rfl⟩
    · rcases List.mem_cons.1 hk with rfl | hk
      · exact hl
      · exact hs.scopes k hk
    · have := hstand (.release d)
      simp only [Heap.Held, ← List.count_pos_iff] at hd ⊢
      omega
  | @leaveScope h locks held l rest hl =>
    have hstand : ∀ t, ({ h with scopes := rest } : Heap).standing.count t +
        (l.tasks ++ held).count t = h.standing.count t + held.count t := fun t => by
      simp only [Heap.standing, hl, List.flatMap_cons, List.count_cons, List.count_append]
      omega
    refine ⟨⟨hs.recast rfl rfl rfl (fun k hk => ?_) hstand fun t ht => ?_, hg.mono (fun d hd => ?_)
      fun _ _ => id⟩, Heap.grows_of_cells rfl⟩
    · exact hs.scopes k (hl ▸ List.mem_cons_of_mem _ hk)
    · rcases List.mem_append.1 ht with ht | ht
      · obtain ⟨c, -, rfl⟩ := List.mem_map.1 ht
        rfl
      · exact hs.held t ht
    · have := hstand (.release d)
      simp only [Heap.Held, ← List.count_pos_iff] at hd ⊢
      omega
  | clerical heq _ =>
    rw [heq]
    exact ⟨⟨hs.recast rfl rfl rfl hs.scopes (fun _ => rfl) hs.held, hg.mono (fun _ => id)
      fun _ _ => id⟩, Heap.grows_of_cells rfl⟩

/-- Only objects know who made them, it was not the root, and they forget it when they are destroyed. -/
def Moment.Owned (m : Moment) : Prop :=
  ∀ c w, (m.heap.cell c).owner = some w → m.heap.IsObject c ∧ w ≠ rootCell ∧
    ((m.heap.cell c).destroyed = true → .disown c ∈ m.pending)

namespace Moment.Owned

variable {h h' : Heap} {locks locks' : List Lock} {ts ts' held held' : List Task}

/-- Nobody gets a new owner, and whoever is destroyed is about to forget the old one. -/
theorem mono (ho : (Moment.mk h locks ts held).Owned) (hg : h.Grows h')
    (hc : ∀ c w, (h'.cell c).owner = some w → (h.cell c).owner = some w ∧ ((h'.cell c).destroyed = true →
      .disown c ∈ ts' ∨ (h.cell c).destroyed = true ∧ (.disown c ∈ ts → .disown c ∈ ts'))) :
    (Moment.mk h' locks' ts' held').Owned := fun c w hw => by
  obtain ⟨hw', hd⟩ := hc c w hw
  obtain ⟨hobj, hroot, hold⟩ := ho c w hw'
  exact ⟨hg.object c hobj, hroot, fun hdest => (hd hdest).elim id fun ⟨hdest, hm⟩ => hm (hold hdest)⟩

theorem of_cells (ho : (Moment.mk h locks ts held).Owned) (hcells : h'.cells = h.cells)
    (hts : ∀ c, .disown c ∈ ts → .disown c ∈ ts') : (Moment.mk h' locks' ts' held').Owned :=
  ho.mono (Heap.grows_of_cells hcells) fun c w hw => by
    rw [Heap.cell_of_cells hcells] at hw ⊢
    exact ⟨hw, fun hd => .inr ⟨hd, hts c⟩⟩

theorem update (ho : (Moment.mk h locks ts held).Owned) {d : CellId} {g : Cell → Cell}
    (hg : ∀ x, (g x).body = x.body ∧ (g x).owner = x.owner ∧ (g x).destroyed = x.destroyed) :
    (Moment.mk (h.update d g) locks' ts held').Owned :=
  ho.mono (h.grows_update_of_body d fun x => (hg x).1) fun c w hw => by
    rcases h.cell_update_cases d g c with hc | ⟨rfl, -, hc⟩
    · rw [hc] at hw ⊢
      exact ⟨hw, fun hd => .inr ⟨hd, id⟩⟩
    · rw [hc] at hw ⊢
      rw [(hg _).2.1] at hw
      rw [(hg _).2.2]
      exact ⟨hw, fun hd => .inr ⟨hd, id⟩⟩

theorem initial : (Moment.mk .initial [] [] []).Owned := fun c w hw => by
  rw [show (Heap.initial.cell c).owner = none from ?_] at hw
  · cases hw
  · cases c with
    | zero => rfl
    | succ c => rw [Heap.initial.cell_of_size_le (Nat.succ_le_succ (Nat.zero_le c))]; rfl

end Moment.Owned

namespace Heap

variable {h h' : Heap} {c : CellId} {t : Task} {new : List Task}

private theorem destroy_owner (hd : h.destroy c = .ok (h', new)) (d : CellId) :
    (h'.cell d).owner = (h.cell d).owner ∧
      ((h'.cell d).destroyed = true → .disown d ∈ new ∨ (h.cell d).destroyed = true) := by
  cases hgone : (h.cell c).destroyed with
  | true =>
    simp only [destroy, show (h.cell c).flags.destroyed = true from hgone, if_true] at hd
    cases hd
  | false =>
    have hlt : c < h.size := lt_size_of_cell_ne fun he => by
      rw [he] at hgone
      cases hgone
    obtain ⟨k, heq, hdiff, -, -, -, hself⟩ := h.destroy_eq hlt hgone
    rw [heq] at hd
    cases hd
    by_cases hdc : d = c
    · subst hdc
      exact ⟨by rw [hself], fun _ => .inl (by simp)⟩
    · rw [hdiff.others d hdc]
      exact ⟨rfl, .inr⟩

private theorem destroy_disowns (hd : h.destroy c = .ok (h', new)) {d : CellId} (hm : .disown d ∈ new) :
    (h'.cell d).destroyed = true := by
  cases hgone : (h.cell c).destroyed with
  | true =>
    simp only [destroy, show (h.cell c).flags.destroyed = true from hgone, if_true] at hd
    cases hd
  | false =>
    have hlt : c < h.size := lt_size_of_cell_ne fun he => by
      rw [he] at hgone
      cases hgone
    obtain ⟨k, heq, -, -, -, -, hself⟩ := h.destroy_eq hlt hgone
    rw [heq] at hd
    cases hd
    rcases List.mem_append.1 hm with hm | hm
    · cases Cell.isReference_of_mem_dues (x := h.cell c) (List.mem_append_left _ hm)
    · have hdc : d = c := by simpa using hm
      rw [hdc, hself]
      rfl

theorem differs_destroy (hd : h.destroy c = .ok (h', new)) : h.Differs h' c := by
  cases hgone : (h.cell c).destroyed with
  | true =>
    simp only [destroy, show (h.cell c).flags.destroyed = true from hgone, if_true] at hd
    cases hd
  | false =>
    have hlt : c < h.size := lt_size_of_cell_ne fun he => by
      rw [he] at hgone
      cases hgone
    obtain ⟨k, heq, hdiff, -⟩ := h.destroy_eq hlt hgone
    rw [heq] at hd
    cases hd
    exact hdiff

theorem differs_note (h : Heap) (c : CellId) : h.Differs (h.note c).1 c := by
  have hu := Differs.update h c fun x => (x.setColour .purple).setBuffered true
  simp only [note]
  split
  · exact .refl h c
  · split
    · exact hu
    · exact ⟨hu.size, hu.others, hu.scopes⟩

private theorem note_owner (h : Heap) (c d : CellId) :
    ((h.note c).1.cell d).owner = (h.cell d).owner ∧
      ((h.note c).1.cell d).destroyed = (h.cell d).destroyed := by
  have hu : ((h.update c fun x => (x.setColour .purple).setBuffered true).cell d).owner = (h.cell d).owner ∧
      ((h.update c fun x => (x.setColour .purple).setBuffered true).cell d).destroyed = (h.cell d).destroyed := by
    rcases h.cell_update_cases c (fun x => (x.setColour .purple).setBuffered true) d with he | ⟨rfl, -, he⟩ <;>
      rw [he] <;> exact ⟨rfl, rfl⟩
  simp only [note]
  split
  · exact ⟨rfl, rfl⟩
  · split
    · exact hu
    · exact hu

/-- Work on a task gives nobody another owner; whom it destroys is to forget the owner next. -/
theorem work_owner (hw : h.work t = .ok (h', new)) {d w : CellId} (ho : (h'.cell d).owner = some w) :
    (h.cell d).owner = some w ∧ ((h'.cell d).destroyed = true →
      .disown d ∈ new ∨ (h.cell d).destroyed = true ∧ t ≠ .disown d) := by
  -- a change of counts
  have hcount : ∀ (c : CellId) (g : Cell → Cell), (∀ x, (g x).owner = x.owner ∧ (g x).destroyed = x.destroyed) →
      ((h.update c g).cell d).owner = (h.cell d).owner ∧
        ((h.update c g).cell d).destroyed = (h.cell d).destroyed := fun c g hg => by
    rcases h.cell_update_cases c g d with he | ⟨rfl, -, he⟩ <;> rw [he]
    · exact ⟨rfl, rfl⟩
    · exact hg _
  cases t with
  | release c =>
    simp only [work] at hw
    split at hw
    · cases hw
      exact ⟨ho, fun hd => .inr ⟨hd, by simp⟩⟩
    · split at hw
      · cases hw
      · next n _ =>
        obtain ⟨h₁, h₂⟩ := hcount c (fun x => { x with shared := n, weak := x.weak + 1 }) fun _ => ⟨rfl, rfl⟩
        split at hw
        · split at hw
          · cases hw
          · next k ts hk =>
            cases hw
            obtain ⟨h₃, h₄⟩ := destroy_owner hk d
            refine ⟨h₁.symm.trans (h₃.symm.trans ho), fun hd => (h₄ hd).imp (List.mem_append_left _) fun hd =>
              ⟨h₂.symm.trans hd, by simp⟩⟩
        · obtain ⟨h₃, h₄⟩ := note_owner (h.update c fun x => { x with shared := n, weak := x.weak + 1 }) c d
          rw [show h' = _ from (congrArg Prod.fst (Except.ok.inj hw)).symm] at ho ⊢
          exact ⟨h₁.symm.trans (h₃.symm.trans ho), fun hd => .inr ⟨h₂.symm.trans (h₄.symm.trans hd), by simp⟩⟩
  | unpin c =>
    simp only [work, perform] at hw
    split at hw
    · cases hw
    · next n _ =>
      cases hw
      obtain ⟨h₁, h₂⟩ := hcount c (fun x => { x with weak := n }) fun _ => ⟨rfl, rfl⟩
      exact ⟨h₁.symm.trans ho, fun hd => .inr ⟨h₂.symm.trans hd, by simp⟩⟩
  | perish c =>
    obtain ⟨h₁, h₂⟩ := hcount c (fun x => { x with shared := 0 }) fun _ => ⟨rfl, rfl⟩
    obtain ⟨h₃, h₄⟩ := destroy_owner hw d
    exact ⟨h₁.symm.trans (h₃.symm.trans ho), fun hd => (h₄ hd).imp_right fun hd => ⟨h₂.symm.trans hd, by simp⟩⟩
  | disown c =>
    simp only [work, perform] at hw
    split at hw
    · next hnone =>
      cases hw
      refine ⟨ho, fun hd => .inr ⟨hd, fun he => ?_⟩⟩
      cases he
      rw [hnone] at ho
      cases ho
    · cases hw
      rcases h.cell_update_cases c (fun x => { x with owner := none }) d with he | ⟨rfl, -, he⟩
      · refine ⟨he ▸ ho, fun hd => .inr ⟨he ▸ hd, fun hdc => ?_⟩⟩
        cases hdc
        -- a cell without an owner stays one
        by_cases hlt : d < h.size
        · rw [h.cell_update_self _ hlt] at ho
          cases ho
        · rw [he, h.cell_of_size_le (Nat.not_lt.1 hlt)] at ho
          cases ho
      · rw [he] at ho
        cases ho
  | closeRound o =>
    cases hw
    exact ⟨ho, fun hd => .inr ⟨hd, by simp⟩⟩

/-- Work on a task changes the owner of a cell only if the cell is told to forget it, and only cells whose value is gone come
to be told so. -/
theorem work_maker (hw : h.work t = .ok (h', new)) (d : CellId) :
    (t = .disown d ∨ (h'.cell d).owner = (h.cell d).owner) ∧ (.disown d ∈ new → (h'.cell d).destroyed = true) := by
  -- a change of counts
  have hcount : ∀ (c : CellId) (g : Cell → Cell), (∀ x, (g x).owner = x.owner) →
      ((h.update c g).cell d).owner = (h.cell d).owner := fun c g hg => by
    rcases h.cell_update_cases c g d with he | ⟨rfl, -, he⟩ <;> rw [he]
    exact hg _
  cases t with
  | release c =>
    simp only [work] at hw
    split at hw
    · cases hw
      exact ⟨.inr rfl, by simp⟩
    · split at hw
      · cases hw
      · next n _ =>
        have h₁ := hcount c (fun x => { x with shared := n, weak := x.weak + 1 }) fun _ => rfl
        split at hw
        · split at hw
          · cases hw
          · next k ts hk =>
            cases hw
            exact ⟨.inr ((destroy_owner hk d).1.trans h₁), fun hm => destroy_disowns hk (by simpa using hm)⟩
        · obtain ⟨h₃, -⟩ := note_owner (h.update c fun x => { x with shared := n, weak := x.weak + 1 }) c d
          have hw := Except.ok.inj hw
          refine ⟨.inr ((congrArg (fun k : Heap => (k.cell d).owner) (congrArg Prod.fst hw).symm).trans (h₃.trans h₁)),
            fun hm => ?_⟩
          rw [← show _ = new from congrArg Prod.snd hw] at hm
          simp only [note] at hm
          split at hm
          · simp at hm
          · split at hm <;> simp at hm
  | unpin c =>
    simp only [work, perform] at hw
    split at hw
    · cases hw
    · next n _ =>
      cases hw
      exact ⟨.inr (hcount c (fun x => { x with weak := n }) fun _ => rfl), by simp⟩
  | perish c =>
    exact ⟨.inr ((destroy_owner hw d).1.trans (hcount c (fun x => { x with shared := 0 }) fun _ => rfl)),
      fun hm => destroy_disowns hw hm⟩
  | disown c =>
    simp only [work, perform] at hw
    split at hw
    · cases hw
      exact ⟨.inr rfl, by simp⟩
    · cases hw
      by_cases hdc : d = c
      · exact ⟨.inl (by rw [hdc]), by simp⟩
      · exact ⟨.inr (congrArg Cell.owner (h.cell_update_ne _ hdc)), by simp⟩
  | closeRound o =>
    cases hw
    exact ⟨.inr rfl, by simp⟩

end Heap

private theorem Cell.freeze_owner (x : Cell) : x.freeze.owner = x.owner ∧ x.freeze.destroyed = x.destroyed := by
  unfold freeze
  split <;> exact ⟨rfl, rfl⟩

theorem Advance.owned {rules : Rules} {m m' : Moment} (hstep : Advance rules m m') (hs : Firm rules.sealed m)
    (ho : m.Owned) : m'.Owned := by
  have hgrows : m.heap.Grows m'.heap := (hstep.firm hs).2
  cases hstep with
  | arrange _ => exact ho.of_cells rfl fun _ => id
  | begin _ => exact ho.of_cells rfl fun _ hm => nomatch hm
  | work hw =>
    refine ho.mono hgrows fun c w hw' => ?_
    obtain ⟨hw', hd⟩ := Heap.work_owner hw hw'
    refine ⟨hw', fun hdest => (hd hdest).imp (List.mem_append_left _) (And.imp_right fun hne hm => ?_)⟩
    exact List.mem_append_right _ ((List.mem_cons.1 hm).resolve_left (Ne.symm hne))
  | openRound hr hopen =>
    obtain ⟨k, roots, whites, hk, heq⟩ := hs.toSound.openRound hr
    rw [heq] at hopen
    cases hopen
    exact ho.mono hgrows fun c w hw => ⟨((congrArg Cell.owner (hk.cell c) :) : _ = _).symm.trans hw, fun hd =>
      .inr ⟨((congrArg Cell.destroyed (hk.cell c) :) : _ = _).symm.trans hd, List.mem_append_right _⟩⟩
  | retain _ _ => exact ho.update fun _ => ⟨rfl, rfl, rfl⟩
  | retainWeak _ => exact ho.update fun _ => ⟨rfl, rfl, rfl⟩
  | giveBack _ => exact ho.update fun _ => ⟨rfl, rfl, rfl⟩
  | @allocate h locks b w held _ _ howner _ =>
    intro c d hd
    rcases h.cell_push_cases (.fresh b w) c with ⟨-, hc⟩ | ⟨-, hc⟩ | hc <;> simp only [hc] at hd ⊢
    · exact ⟨hgrows.object c (ho c d hd).1, (ho c d hd).2⟩
    · obtain ⟨⟨o, hb⟩, hroot⟩ := howner d hd
      exact ⟨⟨o, by rw [hc]; exact hb⟩, hroot, nofun⟩
    · cases hd
  | @rewrite h locks locks' c b w ins outs held he =>
    have hlive : h.Live c := hs.live_of_reach (he.reached.subset fun _ => Or.imp_left (List.mem_append_right _))
    intro x d hd
    rcases h.cell_update_cases c (fun x => { x with body := b, owner := w }) x with hx | ⟨rfl, -, hx⟩ <;>
      simp only [hx] at hd ⊢
    · exact ⟨hgrows.object x (ho x d hd).1, (ho x d hd).2⟩
    · rcases he.owner d hd with hd | ⟨hobj, hroot⟩
      · exact ⟨hgrows.object x (ho x d hd).1, (ho x d hd).2⟩
      · refine ⟨hgrows.object x hobj, hroot, fun hdest => ?_⟩
        have hd : (h.cell x).destroyed = true := hdest
        rw [hlive.destroyed] at hd
        cases hd
  | freeze _ _ => exact ho.update fun x => ⟨x.freeze_body, x.freeze_owner⟩
  | thaw _ _ _ => exact ho.update fun _ => ⟨rfl, rfl, rfl⟩
  | enterScope _ => exact ho.of_cells rfl fun _ => id
  | leaveScope _ => exact ho.of_cells rfl fun _ => id
  | clerical heq _ =>
    rw [heq]
    exact ho.of_cells rfl fun _ => id

end LazyHeap
