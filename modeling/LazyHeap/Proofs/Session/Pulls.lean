import LazyHeap.Proofs.Pulling
import LazyHeap.Proofs.Session.Laws

/-!
Pulling agrees with reading. A pull makes the forward that is missing and takes a copy where a read only looks, but both
end at the same object: a fork sees what the label saw, and a copy or a recycled object is what was read, apart from its
number and from the labels of its pointers.
-/
namespace LazyHeap

variable {rules : Rules} {locks : List Lock} {frame hold : List Task} {h h' k : Heap} {m : Moment}
variable {c o r x : CellId} {l l' : Handle} {p q : Pointer} {b b' : Object}

/-! ### Objects apart from labels -/

/-- Where a link leads, whatever the label that it is bound to. -/
def Link.bare : Link → Link
  | .owned p => .owned ⟨p.target, .empty⟩
  | .weak w => .weak ⟨w.target, .empty⟩
  | .label l => .label l

theorem Link.bare_bound (scopes : List Handle) (l : Link) : (Link.bound scopes l).bare = l.bare := by
  cases l with
  | owned p => obtain ⟨_ | o, s⟩ := p <;> cases scopes <;> rfl
  | weak w => obtain ⟨_ | o, s⟩ := w <;> cases scopes <;> rfl
  | label l => rfl

/-- Where the links of an object lead, field by field. -/
def Object.leads (b : Object) : List (FieldName × List Link) := b.contents.map fun f => (f.1, f.2.map Link.bare)

/-- Objects of one kind with one value, whose pointers lead to the same targets. -/
structure Object.Resembles (b b' : Object) : Prop where
  kind : b'.kind = b.kind
  value : b'.value = b.value
  leads : b'.leads = b.leads

namespace Object

theorem Same.resembles (hs : b.Same b') : b.Resembles b' := ⟨hs.kind, hs.value, by rw [leads, hs.contents, leads]⟩

theorem Resembles.trans {b'' : Object} (h₁ : b.Resembles b') (h₂ : b'.Resembles b'') : b.Resembles b'' :=
  ⟨h₂.kind.trans h₁.kind, h₂.value.trans h₁.value, h₂.leads.trans h₁.leads⟩

theorem resembles_bound (scopes : List Handle) (b : Object) : b.Resembles (b.bound scopes) :=
  ⟨rfl, rfl, by simp [leads, contents, bound, Link.bare_bound]⟩

theorem resembles_copyFor (l : Handle) (serial : Nat) (b : Object) : b.Resembles (b.copyFor l serial) :=
  ⟨rfl, rfl, (resembles_bound [l] b).leads⟩

end Object

/-! ### What a pull comes to -/

/-- An object may have changed in no other way than by becoming a label's own: it was frozen, it thawed, and its pointers
have other labels. -/
def Heap.Moved (h h' : Heap) (x c : CellId) (b b' : Object) : Prop :=
  b.Same b' ∨ c = x ∧ (h.cell c).frozen = true ∧ (h'.cell c).frozen = false ∧ b.Resembles b'

/-- What a pull comes to, as compared with a read. The pointer leads to what was read, or to something that resembles it
and is not frozen, unless the pointer has no label under which it could have been copied; no other pointer that is left
has changed, but for the labels of the pointers in an object that was recycled; and a second pull does nothing. -/
structure Pointer.Agrees (h h' : Heap) (r x : CellId) (q : Pointer) : Prop where
  target : q.target = some x
  object : ∃ b b', (h.cell r).body = .object b ∧ (h'.cell x).body = .object b' ∧ b.Resembles b'
  thawed : (h'.cell x).frozen = true → q.label = .root ∨ q.label = .empty
  others : ∀ c b, (h.cell c).body = .object b → (h'.cell c).destroyed = false →
    ∃ b', (h'.cell c).body = .object b' ∧ h.Moved h' x c b b'
  again : (h'.cell x).frozen = false → q.pull h' = .ok ((q, some x), h')

theorem Heap.Sees.eq_of_unfrozen (hs : h.Sees l o r) (ho : (h.cell o).frozen = false) : r = o := by
  cases l with
  | counted c =>
    refine Heap.Stands.unique (show h.Stands (h.label c).memo o r from hs) (.stop fun hf => ?_)
    rw [ho] at hf
    cases hf
  | empty => exact hs
  | root => exact hs

theorem Pointer.pull_again (hp : q.target = some x) (hx : (h.cell x).frozen = false) : q.pull h = .ok ((q, some x), h) := by
  have h₁ : Ends (fun _ => False) (q.pull h) fun a h' => a = (q, some x) ∧ h' = h := by
    obtain ⟨_, l⟩ := q
    cases hp
    refine .readCell_bind ?_
    simp only [hx, Bool.not_false, if_true]
    exact ⟨rfl, rfl⟩
  obtain ⟨_, _, hrun, rfl, rfl⟩ := h₁.exists_ok
  exact hrun

/-! ### Looking up and forwarding -/

theorem Heap.Sees.unique {r' : CellId} (hs : h.Sees l o r) (hs' : h.Sees l o r') : r = r' := by
  cases l with
  | counted c => exact Heap.Stands.unique (m := (h.label c).memo) hs hs'
  | empty => exact Eq.trans hs (Eq.symm hs')
  | root => exact Eq.trans hs (Eq.symm hs')

theorem Holding.seen_object {manner : Manner} {ins : List Task} (hh : Holding manner rules locks frame h ins)
    (hl : l.Fits rules.sealed h) (ho : h.IsObject o) (hs : h.Sees l o r) : h.IsObject r := by
  cases l with
  | counted c =>
    obtain ⟨-, -, s, hb⟩ := hl c rfl
    refine hh.sees_object hb ho ?_
    rwa [← h.label_eq hb]
  | empty => exact (show r = o from hs) ▸ ho
  | root => exact (show r = o from hs) ▸ ho

theorem Handle.Forwards.object {manner : Manner} {ins : List Task} (hf : l.Forwards hold h k l')
    (hh : Holding manner rules locks frame h ins) (hl : l.Fits rules.sealed h) (hb : (h.cell c).body = .object b)
    (hd : (k.cell c).destroyed = false) : (k.cell c).frozen = (h.cell c).frozen ∧ ∃ b', (k.cell c).body = .object b' ∧ b.Same b' := by
  have hne : ¬ l.Leads h (.counted c) := fun hlead => by
    obtain ⟨-, -, s, hs⟩ := hlead.fits hh hl c rfl
    rw [hb] at hs
    cases hs
  exact ⟨hf.leaves.frozen hne (Heap.IsObject.lt_size ⟨b, hb⟩), hf.leaves.object c b hne hb hd⟩

/-! ### The comparison -/

namespace Heap.Got

theorem live_before (hg : h.Got l o hold h' x) (hc : c < h.size) (hd : (h'.cell c).destroyed = false) :
    (h.cell c).destroyed = false := by
  have hkeep : (h.cell c).destroyed = true → (h'.cell c).destroyed = true := by
    cases hg with
    | found _ _ hk => exact hk.fades.destroyed c
    | recycled _ _ _ _ _ _ hv => exact hv.destroyed c hc
    | copied _ _ _ _ _ _ _ _ hv => exact hv.destroyed c hc
  rw [← Bool.not_eq_true]
  intro hdest
  rw [hkeep hdest] at hd
  cases hd

/-- Whatever object was there before a lookup is as it was afterwards, unless it was recycled. -/
theorem others (hg : h.Got l o hold h' x) (hb : (h.cell c).body = .object b) (hd : (h'.cell c).destroyed = false) :
    ∃ b', (h'.cell c).body = .object b' ∧ h.Moved h' x c b b' := by
  have hlabel : ∀ {label s}, (h.cell label).body = .label s → c ≠ label := fun hs he => by
    rw [← he, hb] at hs
    cases hs
  have hsame : ∀ {S : CellId → Prop}, h.Leaves S h' → S c → ∃ b', (h'.cell c).body = .object b' ∧ h.Moved h' x c b b' :=
    fun hv hc => (hv.object c b hc hb hd).imp fun _ h => ⟨h.1, .inl h.2⟩
  cases hg with
  | found _ _ hk => exact hsame (S := fun _ => True) hk.leaves True.intro
  | copied _ hs _ _ _ _ _ _ hv => exact hsame hv (hlabel hs)
  | @recycled label _ s y _ _ _ hf hy hr hv =>
    by_cases hc : c = x
    · subst hc
      cases hb.symm.trans hy
      refine ⟨_, Cell.body_of_core hr.core, .inr ⟨rfl, hf, (Cell.frozen_of_core hr.core), ?_⟩⟩
      split
      · exact Object.resembles_bound _ _
      · exact (Object.Same.refl _).resembles
    · exact hsame hv hc

/-- A lookup ends at what the label sees or at something that resembles it, and this is not frozen, unless the label is
the root or empty. -/
theorem resembles (hg : h.Got l o hold h' x) (hlive : h'.Live x) (hobj : ∀ r, h.Sees l o r → h.IsObject r) :
    ∃ r b b', h.Sees l o r ∧ (h.cell r).body = .object b ∧ (h'.cell x).body = .object b' ∧ b.Resembles b' ∧
      ((h'.cell x).frozen = true → l = .root ∨ l = .empty) := by
  have hsees : ∀ {label s r}, l = .counted label → (h.cell label).body = .label s → h.Stands s.memo o r → h.Sees l o r :=
    fun he hs hst => by
      subst he
      show h.Stands (h.label _).memo o _
      rwa [h.label_eq hs]
  have hg' := hg
  cases hg with
  | found hs hf hk =>
    obtain ⟨b, hb⟩ := hobj x hs
    obtain ⟨b', hb', hmoved⟩ := hg'.others hb hlive.destroyed
    refine ⟨x, b, b', hs, hb, hb', hmoved.elim Object.Same.resembles fun h => h.2.2.2, fun hfr => ?_⟩
    cases l with
    | counted c =>
      rw [hk.fades.frozen, hf c rfl] at hfr
      cases hfr
    | empty => exact .inr rfl
    | root => exact .inl rfl
  | recycled he hs hst _ hy hr _ =>
    obtain ⟨b', hb', hmoved⟩ := hg'.others hy hlive.destroyed
    refine ⟨x, _, b', hsees he hs hst, hy, hb', hmoved.elim Object.Same.resembles fun h => h.2.2.2, fun hfr => ?_⟩
    rw [Cell.frozen_of_core hr.core] at hfr
    cases hfr
  | @copied _ seen _ _ y he hs hst _ hy hc _ _ _ =>
    refine ⟨seen, y, _, hsees he hs hst, hy, Cell.body_of_core hc.core, Object.resembles_copyFor _ _ _, fun hfr => ?_⟩
    rw [Cell.frozen_of_core hc.core] at hfr
    cases hfr

end Heap.Got

namespace Pointer

/-- Resolving a pointer for change ends where resolving it for reading does. -/
theorem Pulls.agrees {manner : Manner} {q₀ : Pointer} (hpull : p.Pulls frame h h' q) (hread : p.Reads h q₀)
    (hh : Holding manner rules locks frame h p.tasks) (hp : p.Fits rules.sealed h) (ho : p.target = some o)
    (hlive : ∀ x, q.target = some x → h'.Live x) : ∃ r x, q₀.target = some r ∧ Agrees h h' r x q := by
  cases hread with
  | nil => cases ho
  | @target o' r l l₀ hlead hsees =>
    cases ho
    have hobj := hp.target o rfl
    cases hpull with
    | same hf hsame =>
      subst hsame
      have hun := hf o rfl
      obtain rfl := hsees.eq_of_unfrozen hun
      obtain ⟨b, hb⟩ := hobj
      refine ⟨r, r, rfl, rfl, ⟨b, b, hb, hb, (Object.Same.refl b).resembles⟩, fun hfr => ?_,
        fun c b hb _ => ⟨b, hb, .inl (.refl b)⟩, pull_again rfl⟩
      rw [hun] at hfr
      cases hfr
    | @moved k _ x _ l' hfrozen hforward hlives hgot =>
      have hhold : Holding manner rules locks (tasks ⟨some o, l⟩ ++ frame) h [] := hh.focus (.refl _)
      have hreach : ∀ c, l.cell? = some c → h.Reach (h.Held (tasks ⟨some o, l⟩ ++ frame)) c := fun c hc => .source <|
        (Handle.held_of_cell? hc : h.Held (l.tasks ++ frame) c).imp_left fun hm => (List.mem_append.1 hm).elim
          (fun hm => List.mem_append_left _ (.tail _ hm)) (List.mem_append_right _)
      -- what is seen at the end of the chain is what is read
      have hseen : ∀ {r'}, k.Sees l' o r' → r' = r := fun hs => by
        obtain ⟨e, hlead', hs'⟩ := hforward.sees hhold hs hreach hobj (.source (.inl List.mem_cons_self))
        obtain rfl := hlead.unique hlead'
        exact hs'.unique hsees
      obtain ⟨b, hb⟩ : h.IsObject r := hhold.seen_object (hlead.fits hhold hp.label) hobj hsees
      have hthere : ∀ {c b}, (h.cell c).body = .object b → (k.cell c).destroyed = false →
          (k.cell c).frozen = (h.cell c).frozen ∧ ∃ b', (k.cell c).body = .object b' ∧ b.Same b' :=
        fun hb hd => hforward.object hhold hp.label hb hd
      have hsees' : ∀ r', k.Sees l' o r' → k.IsObject r' := fun r' hs => by
        obtain rfl := hseen hs
        obtain ⟨-, b', hb', -⟩ := hthere hb (hlives _ (.inl hs)).destroyed
        exact ⟨b', hb'⟩
      obtain ⟨r', b₁, b₂, hs, hb₁, hb₂, hres, hthawed⟩ := hgot.resembles (hlive x rfl) hsees'
      obtain rfl := hseen hs
      obtain ⟨-, b₁', hb₁', hsame⟩ := hthere hb (hlives _ (.inl hs)).destroyed
      cases hb₁.symm.trans hb₁'
      refine ⟨r', x, rfl, rfl, ⟨b, b₂, hb, hb₂, hsame.resembles.trans hres⟩, hthawed, fun c y hy hd => ?_, pull_again rfl⟩
      have hgrows : h.size ≤ k.size := hforward.leaves.size
      have hd₁ := hgot.live_before (Nat.lt_of_lt_of_le (Heap.IsObject.lt_size ⟨y, hy⟩) hgrows) hd
      obtain ⟨hfr, y₁, hy₁, hsame₁⟩ := hthere hy hd₁
      obtain ⟨y₂, hy₂, hmoved⟩ := hgot.others hy₁ hd
      refine ⟨y₂, hy₂, hmoved.imp hsame₁.trans fun ⟨he, hf, hun, hres⟩ => ⟨he, hfr ▸ hf, hun, ?_⟩⟩
      exact hsame₁.resembles.trans hres

end Pointer

/-! ### Pointers in hand -/

/-- A pointer is in hand at a moment between two steps of an operation. What is locked is held besides. -/
structure Moment.Hands (m : Moment) (p : Pointer) (frame : List Task) : Prop where
  idle : m.pending = []
  held : m.held = p.tasks ++ frame
  within : ∀ y ∈ m.locks, Heap.Via (fun _ => False) m.heap frame y.1
  fieldLocks : FieldLocks m.locks
  fits : p.Fits (fun _ => False) m.heap

namespace Moment.Hands

/-- What a pointer in hand is read as is there, and a pull agrees with it; unless it waits for the lock of an object that
is frozen. -/
theorem agrees (hm : m.Hands p frame) (hs : Safe {} m) (ho : p.target = some o) :
    ∃ r q₀ k₀, p.resolve m.heap = .ok ((q₀, some r), k₀) ∧
      ((∃ q x h', p.pull m.heap = .ok ((q, some x), h') ∧ q.Agrees m.heap h' r x) ∨
        p.pull m.heap = .error .selfWait ∧ ∃ y ∈ m.locks, (m.heap.cell y.1).frozen = true) := by
  obtain ⟨h, locks, ts, held⟩ := m
  obtain ⟨hidle, hheld, hwithin, hfield, hfits⟩ := hm
  cases hidle
  cases hheld
  have hh : Holding (.sparing fun _ => False) {} locks frame h p.tasks := ⟨hs, hwithin⟩
  obtain ⟨⟨q₀, y₀⟩, k₀, hread, hreads, hy₀, -, -⟩ := (Pointer.resolve_spec (E := fun _ => False) hh.calm hfits).exists_ok
  have hwait : h.Unwaiting (fun e => e = .selfWait ∧ ∃ y ∈ locks, (h.cell y.1).frozen = true) locks := by
    by_cases hw : ∃ y ∈ locks, (h.cell y.1).frozen = true
    · exact .inl ⟨rfl, hw⟩
    · refine .inr fun y hy => ?_
      rw [← Bool.not_eq_true]
      exact fun hf => hw ⟨y, hy, hf⟩
  obtain ⟨r, hr⟩ : ∃ r, q₀.target = some r := by
    cases hreads with
    | nil => cases ho
    | target => exact ⟨_, rfl⟩
  have hy₀ : y₀ = some r := hy₀.trans hr
  subst hy₀
  refine ⟨r, q₀, k₀, hread, ?_⟩
  have hpull := Pointer.pull_spec hh hfield hfits (fun _ => id) hwait (fun _ _ => ⟨id, id⟩)
    fun _ _ _ _ hf => hf.elim False.elim False.elim
  unfold Ends at hpull
  rcases hrun : p.pull h with e | ⟨⟨q, y⟩, h'⟩
  · rw [hrun] at hpull
    obtain ⟨rfl, hw⟩ := hpull
    exact .inr ⟨rfl, hw⟩
  · rw [hrun] at hpull
    obtain ⟨hpulls, hy, -, hrun'⟩ := hpull
    have hlive : ∀ x, q.target = some x → h'.Live x := fun x hx =>
      (hh.run hrun').live (List.mem_append_left _ (by simp [Pointer.tasks, hx]))
    obtain ⟨r', x, hr', hagrees⟩ := hpulls.agrees hreads hh hfits ho hlive
    obtain rfl := Option.some.inj (hr.symm.trans hr')
    have hy : y = some x := hy.trans hagrees.target
    subst hy
    exact .inl ⟨q, x, h', rfl, hagrees⟩

end Moment.Hands

namespace Situation

variable {y : Situation} {name : String} {t : Slot} {f : Field}

/-- A pointer that has a name may be taken in hand while no field is locked. -/
theorem At.hands_slot (ha : y.At (.initial false false false)) (hy : y.locked = false) (ht : y.session.slots.get? name = some t) :
    ∃ frame, Course {} y.moment ⟨y.session.heap, [], [], t.pointer.tasks ++ frame⟩ ∧
      Moment.Hands ⟨y.session.heap, [], [], t.pointer.tasks ++ frame⟩ t.pointer frame := by
  obtain ⟨frame, hperm, -, hfits⟩ := ha.inHand hy ht
  have hlocks := locks_within (.initial false false false) rfl hy
  rw [locks_initial] at hlocks
  refine ⟨frame, .single ⟨fun _ => False, ?_⟩, rfl, rfl, nofun, .nil, hfits⟩
  rw [show y.moment = ⟨y.session.heap, y.moment.locks, [], y.moment.held⟩ from rfl, hlocks]
  exact .arrange hperm

/-- A pointer in a field of an object that is held may be taken in hand under the lock of the field, when no other field
is locked. -/
theorem At.hands_field (ha : y.At (.initial false false false)) (hy : y.locked = false)
    (hb : (y.session.heap.cell c).body = .object b) (hc : .release c ∈ y.moment.held) (hf : f ∈ b.fields)
    (hp : .owned p ∈ f.links) :
    ∃ frame, Course {} y.moment
        ⟨y.session.heap.putField c ⟨f.name, true, []⟩, [(c, some f.name)], [], p.tasks ++ frame⟩ ∧
      Moment.Hands ⟨y.session.heap.putField c ⟨f.name, true, []⟩, [(c, some f.name)], [], p.tasks ++ frame⟩ p frame := by
  have hlocks := locks_within (.initial false false false) rfl hy
  rw [locks_initial] at hlocks
  have hh : Holding .calm {} [] y.moment.held y.session.heap [] := by
    have hs := ha.safe
    rw [held_within, locks_initial, hlocks] at hs
    exact hs.holding (.refl _)
  have hfits := hh.safe.fits c
  rw [show (Moment.heap _).cell c = y.session.heap.cell c from rfl, hb] at hfits
  obtain ⟨before, after, hsplit⟩ := List.append_of_mem hp
  have hperm : (f.links.flatMap Link.tasks ++ y.moment.held).Perm
      (p.tasks ++ ((before ++ after).flatMap Link.tasks ++ y.moment.held)) := by
    rw [hsplit]
    simp only [List.flatMap_append, List.flatMap_cons, Link.tasks, List.perm_iff_count, List.count_append]
    intro u
    omega
  have hstep : Advance {} ⟨y.session.heap, [], [], [] ++ y.moment.held⟩
      ⟨y.session.heap.putField c ⟨f.name, true, []⟩, [(c, some f.name)], [], f.links.flatMap Link.tasks ++ y.moment.held⟩ :=
    hh.putField hb (g := f) (Object.field?_of_mem hfits.1 hf) (.source (.inl hc)) (.inl ⟨id, by simp⟩) (by simp) (by simp) fun k => by
      simp
  refine ⟨(before ++ after).flatMap Link.tasks ++ y.moment.held, ?_, rfl, rfl, fun k hk => ?_, FieldLocks.nil.cons c f.name, ?_⟩
  · refine .tail (.single ⟨fun _ => False, ?_⟩) ⟨fun _ => False, .arrange hperm⟩
    rw [show y.moment = ⟨y.session.heap, y.moment.locks, [], y.moment.held⟩ from rfl, hlocks]
    exact hstep
  · rw [List.mem_singleton.1 hk]
    exact .held (.inl (List.mem_append_right _ hc))
  · have hlink : Link.Fits (fun _ => False) y.session.heap (.owned p) :=
      hfits.2 _ (List.mem_flatMap.2 ⟨f, hf, hp⟩)
    exact hlink.grows (Heap.putField_grows hb)

theorem resolveSlot_run {s : Session} {mode : Mode} {found : Option CellId} (hrun : t.pointer.resolveBy mode s.heap = .ok ((q, found), h')) :
    (Attempt.resolveSlot name t mode).run s =
      .ok (.ok found, { s with heap := h', slots := s.slots.insert name { t with pointer := q } }) := by
  rw [Attempt.resolveSlot, Attempt.run_bind, Attempt.heap_run, hrun]
  rfl

/-- In every run in which no header is changed by hand, a pull agrees with a read, for whatever pointer is in hand at a
moment in the course of an operation: it ends at an object that resembles the one that is read, is not frozen if the
pointer has a label under which it could be copied, and changes no other pointer that is left. Pointers that have names
can be taken in hand, so pulling one never fails; and so can those in the fields of objects that are held. -/
theorem pulls_of_runs (hrun : Runs HeadersKept initial y) :
    (∀ m p frame o, Course {} y.moment m → m.Hands p frame → p.target = some o →
      ∃ r q₀ k₀, p.resolve m.heap = .ok ((q₀, some r), k₀) ∧
        ((∃ q x h', p.pull m.heap = .ok ((q, some x), h') ∧ q.Agrees m.heap h' r x) ∨
          p.pull m.heap = .error .selfWait ∧ ∃ z ∈ m.locks, (m.heap.cell z.1).frozen = true)) ∧
    (y.locked = false → ∀ name t o, y.session.slots.get? name = some t → t.pointer.target = some o →
      ∃ r s₀ x q h', (Attempt.resolveSlot name t .read).run y.session = .ok (.ok (some r), s₀) ∧
        (Attempt.resolveSlot name t .pull).run y.session = .ok (.ok (some x),
          { y.session with heap := h', slots := y.session.slots.insert name { t with pointer := q } }) ∧
        q.Agrees y.session.heap h' r x) ∧
    (y.locked = false → ∀ c b f p, (y.session.heap.cell c).body = .object b → .release c ∈ y.moment.held → f ∈ b.fields →
      .owned p ∈ f.links → ∃ frame, Course {} y.moment
          ⟨y.session.heap.putField c ⟨f.name, true, []⟩, [(c, some f.name)], [], p.tasks ++ frame⟩ ∧
        Moment.Hands ⟨y.session.heap.putField c ⟨f.name, true, []⟩, [(c, some f.name)], [], p.tasks ++ frame⟩ p frame) := by
  have ha := at_headersKept hrun
  have hsafe : ∀ m, Course {} y.moment m → Safe {} m := fun m hm => by
    have hs := ha.safe
    rw [held_within, locks_initial] at hs
    exact (hs.steps hm.lawless).1
  refine ⟨fun m p frame o hm hp ho => hp.agrees (hsafe m hm) ho, fun hy name t o ht ho => ?_,
    fun hy c b f p hb hc hf hp => ha.hands_field hy hb hc hf hp⟩
  obtain ⟨frame, hm, hp⟩ := ha.hands_slot hy ht
  obtain ⟨r, q₀, k₀, hread, ⟨q, x, h', hpull, hagrees⟩ | ⟨-, _, hz, -⟩⟩ := hp.agrees (hsafe _ hm) ho
  · exact ⟨r, _, x, q, h', resolveSlot_run hread, resolveSlot_run hpull, hagrees⟩
  · cases hz

/-- A frozen node under a new label, which two pointers share. -/
def sharedNode : List (Op × Args) :=
  [(.label .spawn, { Args.blank with dest := some "l" }),
    (.pointer .new, { Args.blank with dest := some "p", value := some (.int 3), within := some "l" }),
    (.pointer .clone, { Args.blank with a := some "p", dest := some "q" }),
    (.object .freeze, { Args.blank with a := some "p" })]

theorem pulls_of_sharedNode : ∃ y t r s₀ x q h', initial.after sharedNode = some y ∧ y.session.slots.get? "p" = some t ∧
    t.pointer = ⟨some 2, .counted 1⟩ ∧ (y.session.heap.cell 2).frozen = true ∧
    (Attempt.resolveSlot "p" t .read).run y.session = .ok (.ok (some r), s₀) ∧
    (Attempt.resolveSlot "p" t .pull).run y.session = .ok (.ok (some x),
      { y.session with heap := h', slots := y.session.slots.insert "p" { t with pointer := q } }) ∧
    q.Agrees y.session.heap h' r x := by
  obtain ⟨y, hy, h⟩ : ∃ y, initial.after sharedNode = some y ∧ (y.locked, (y.session.slots.get? "p").map (·.pointer),
      (y.session.heap.cell 2).frozen) = (false, some ⟨some 2, .counted 1⟩, true) := Option.map_eq_some_iff.1 (by cbv)
  simp only [Prod.mk.injEq, Option.map_eq_some_iff] at h
  obtain ⟨hlocked, ⟨t, ht, hp⟩, hfrozen⟩ := h
  obtain ⟨r, s₀, x, q, h', hread, hpull, hagrees⟩ :=
    (pulls_of_runs (runs_of_after rfl hy (by simp [sharedNode]))).2.1 hlocked "p" t 2 ht (by rw [hp])
  exact ⟨y, t, r, s₀, x, q, h', hy, ht, hp, hfrozen, hread, hpull, hagrees⟩

end Situation

end LazyHeap
