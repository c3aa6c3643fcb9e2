import LazyHeap.Proofs.Session.Lookups

/-!
Objects that are borrowed. A borrow owns its object until it is dropped, whichever pointers are resolved, assigned or
dropped meanwhile: so the object is not destroyed, no label makes it its own, and it does not thaw.
-/
namespace LazyHeap

variable {m m' : Moment} {a c x : CellId} {r : String}

/-- What becomes a label's own has a single owner, and this is in hand only if it is what was looked up. -/
theorem Moment.Recycles.lone (hr : m.Recycles c a x m') (hs : Safe {} m) : m.Lone c x ∧ (.release x ∈ m.held → x = a) := by
  obtain ⟨s, b, hb, hx, ha, hown, hlive, hu, -⟩ := hr.recycled hs
  have hlone : m.Lone c x := hs.toSound.lone hu hlive.collected (hown.imp (fun he => by rwa [he]) fun hm => ⟨s, hb, hm⟩)
  refine ⟨hlone, fun hm => hown.resolve_right fun hcopy => ?_⟩
  exact (hlone.held hm).2 c (Heap.mem_edges_of_copy hb hcopy)

/-- An object that is borrowed besides what is looked up does not become a label's own. -/
theorem Moment.Recycles.ne_of_borrowed {rest : List Task} (hr : m.Recycles c a x m') (hs : Safe {} m)
    (hheld : m.held.Perm (.release a :: rest)) {o : CellId} (ho : .release o ∈ rest) : x ≠ o := by
  rintro rfl
  obtain ⟨hlone, hsame⟩ := hr.lone hs
  have hm : .release x ∈ m.held := hheld.mem_iff.2 (List.mem_cons_of_mem _ ho)
  obtain rfl := hsame hm
  have hone := (hlone.held hm).1
  rw [hheld.count_eq, List.count_cons_self] at hone
  have := List.count_pos_iff.2 ho
  omega

/-! ### Circumstances in which an object is borrowed -/

/-- A borrow of an object has a name, which is reserved. -/
def Setting.borrowing (r : String) (c : CellId) (frozen : Prop) : Setting where
  rules := {}
  origin := ⟨.initial, [], [], []⟩
  locks := []
  scopes := []
  outer := [.release c]
  anchor := []
  free p := decide (p ≠ .borrow r)
  kept s := s.borrows.get? r = some c
  lent d := frozen ∧ d = c
  settled _ := id
  unsteady _ := id
  rootFree := id
  fieldLocks := .nil
  guarded := nofun
  anchored := nofun
  keptReserved s s' hs _ hborrows := (hborrows r (by simp)).trans hs
  lentOuter d hd := by simp [hd.2]

/-- The requests that are under way hold what they hold, and an object that one of them has borrowed is frozen. -/
def Setting.inside (around : List Surround) (c : CellId) (frozen : Prop) (hc : .release c ∈ around.flatMap Surround.tasks) :
    Setting :=
  { (Setting.initial false false false).within around with
    lent := fun d => frozen ∧ d = c
    lentOuter := fun d hd => by simpa [hd.2, Setting.within, Setting.initial] using hc }

namespace Setting

theorem free_borrowing {frozen : Prop} (p : Place) (hp : p.isBorrow = false) : (borrowing r c frozen).free p = true := by
  cases p with
  | borrow _ => cases hp
  | _ => simp [borrowing]

end Setting

namespace Situation

variable {x y : Situation} {f : FieldName}

/-- What comes of an object that is borrowed, from one situation to a later one. It is there now, and was at every
moment in between, whatever operation was under way; frozen it stays. The borrow is still held, and as long as it is no
label makes the object its own. -/
structure Lasts (x y : Situation) (c : CellId) : Prop where
  live : y.session.heap.IsObject c ∧ y.session.heap.Live c
  frozen : (x.session.heap.cell c).frozen = true → (y.session.heap.cell c).frozen = true
  between : ∀ m, Course {} x.moment m → Course {} m y.moment → m.heap.IsObject c ∧ (m.heap.cell c).destroyed = false
  held : .release c ∈ y.moment.held
  apart : ∀ m, Course {} y.moment m → ∀ label a d m' rest, m.Recycles label a d m' → m.held.Perm (.release a :: rest) →
    .release c ∈ rest → d ≠ c

private theorem At.lasts (hx : x.At (.initial false false false)) (hrun : Runs HeadersKept x y)
    (hobj : x.session.heap.IsObject c) (hheld : .release c ∈ y.moment.held)
    (hfrozen : (x.session.heap.cell c).frozen = true → (y.session.heap.cell c).frozen = true) : x.Lasts y c := by
  have hcourse := hrun.course plain_initial (fun _ _ _ => HeadersKept.permitted) hx
  have hy := hrun.at plain_initial (fun _ _ _ => HeadersKept.permitted) hx
  rw [held_within, held_within, locks_initial, locks_initial] at hcourse
  have hsafe : ∀ {z : Situation}, z.At (.initial false false false) → Safe {} z.moment := fun {z} hz => by
    have hs := hz.safe
    rwa [held_within, locks_initial] at hs
  have hlive : y.session.heap.Live c := (hsafe hy).live_of_held (.inl hheld)
  refine ⟨⟨(hcourse.firm (hsafe hx).toFirm).2.object c hobj, hlive⟩, hfrozen, fun m hm hm' => ?_, hheld,
    fun m hm label a d m' rest hr hp hc => ?_⟩
  · -- what is destroyed stays destroyed
    obtain ⟨hfirm, hgrows⟩ := hm.firm (hsafe hx).toFirm
    have hobj' := hgrows.object c hobj
    refine ⟨hobj', ?_⟩
    rw [← Bool.not_eq_true]
    intro hd
    have := (hm'.lasts hfirm).destroyed c hobj'.lt_size hd
    rw [show (y.moment.heap.cell c).destroyed = false from hlive.destroyed] at this
    cases this
  · exact hr.ne_of_borrowed ((hsafe hy).steps hm.lawless).1 hp hc

/-! ### Borrows that have names -/

private theorem At.borrowing {frozen : Prop} (ha : x.At (.initial false false false)) (hc : x.session.borrows.get? r = some c)
    (hfrozen : frozen → (x.session.heap.cell c).frozen = true) : x.At (.borrowing r c frozen) := by
  have ht := Setting.At.takeBorrow ha hc rfl
  have hp : ((((Setting.initial false false false).within x.around).reserve (.borrow r)).held x.session [.release c]).Perm
      (((Setting.borrowing r c frozen).within x.around).held x.session []) := by
    refine List.perm_iff_count.2 fun t => ?_
    simp only [Setting.held, Setting.within, Setting.reserve, Setting.initial, Setting.borrowing, List.count_append, Bool.true_and,
      List.count_nil]
    omega
  have hstep : Advance {} ⟨x.session.heap, ((Setting.initial false false false).within x.around).locks, [], _⟩
      ⟨x.session.heap, ((Setting.initial false false false).within x.around).locks, [], _⟩ := .arrange hp
  exact {
    course := ht.course.tail ⟨_, hstep⟩
    safe := (ht.safe.step hstep).1
    owned := hstep.owned ht.safe.toFirm ht.owned
    fits := ht.fits
    scopes := ht.scopes
    anchors := fun _ => False.elim
    fixed := fun _ => False.elim
    kept := hc
    lent := fun d hd => by
      obtain ⟨hf, rfl⟩ := hd
      exact ⟨ha.fitsBorrow hc rfl, hfrozen hf⟩ }

private theorem lasts_of_named (ha : x.At (.initial false false false)) (hc : x.session.borrows.get? r = some c)
    (hrun : Runs (fun s args op => HeadersKept s args op ∧ op.Leaves (· ≠ .borrow r) args) x y) :
    y.session.borrows.get? r = some c ∧ x.Lasts y c := by
  have hrun' : Runs HeadersKept x y := hrun.lift id fun _ _ hstep => hstep.mono fun _ _ _ => And.left
  have hborrow : y.At (.borrowing r c ((x.session.heap.cell c).frozen = true)) :=
    hrun.keeps (Setting.quiet_of_free rfl Setting.free_borrowing)
      (fun _ args _ hop => ⟨Setting.admits_of_free Setting.free_borrowing args, hop.1.permitted, hop.2⟩) (ha.borrowing hc id)
  have hget : y.session.borrows.get? r = some c := hborrow.kept
  have hheld : .release c ∈ y.moment.held := by
    have := Setting.At.heldBorrow (σ := (Setting.initial false false false).within y.around) hget rfl []
    rwa [held_within] at this
  exact ⟨hget, ha.lasts hrun' (ha.fitsBorrow hc rfl) hheld fun hf => (hborrow.lent c ⟨hf, rfl⟩).2⟩

/-! ### Borrows under which a field is locked -/

private theorem At.lockedObject (ha : x.At (.initial false false false)) (hlock : .lock c f ∈ x.around) :
    x.session.heap.IsObject c ∧ .release c ∈ x.around.flatMap Surround.tasks := by
  refine ⟨?_, List.mem_flatMap.2 ⟨_, hlock, List.mem_singleton.2 rfl⟩⟩
  have hmem : (c, some f) ∈ ((Setting.initial false false false).within x.around).locks :=
    List.mem_append_left _ (List.mem_flatMap.2 ⟨_, hlock, List.mem_singleton.2 rfl⟩)
  have hlocks : some f ∈ (x.session.heap.cell c).body.locks := (ha.safe.locks c (some f)).2 hmem
  cases hb : (x.session.heap.cell c).body with
  | object o => exact ⟨o, hb⟩
  | label l =>
    rw [hb, Body.locks] at hlocks
    split at hlocks <;> simp at hlocks

private theorem Step.inside {around : List Surround} {frozen : Prop} {hc : .release c ∈ around.flatMap Surround.tasks}
    (hstep : Step HeadersKept x y) (hx : x.around = around) (hy : y.around = x.around) (hlocked : x.locked = true)
    (ha : (Setting.inside around c frozen hc).At x.session []) : (Setting.inside around c frozen hc).At y.session [] := by
  cases hstep with
  | @perform s s' _ args op reply hop hruns hrun =>
    have hplain : (Setting.initial false false false).Plain := plain_initial
    obtain ⟨ha₁, ha₂, ha₃, ha₄, ha₅, ha₆, ha₇, ha₈⟩ := (hplain.admits args).inside around
    have := Attempt.reply_ends (Attempt.perform_ends ha (fun hno => absurd (hno.symm.trans hlocked) nofun) hruns
      ⟨ha₁, ha₂, ha₃, ha₄, ha₅, ha₆, ha₇, ha₈⟩ (hplain.allows (HeadersKept.permitted hop)))
    rwa [SessionM.Ends, hrun] at this
  | lock hno => exact absurd (hno.symm.trans hlocked) nofun
  | noLock hno => exact absurd (hno.symm.trans hlocked) nofun
  | unlock => exact absurd (congrArg List.length hy) (by simp)
  | scope hno => exact absurd (hno.symm.trans hlocked) nofun
  | noScope hno => exact absurd (hno.symm.trans hlocked) nofun
  | endScope => exact absurd (congrArg List.length hy) (by simp)

private theorem lasts_of_locked (ha : x.At (.initial false false false)) (hlock : .lock c f ∈ x.around)
    (hrun : Relation.ReflTransGen (fun x y => Step HeadersKept x y ∧ y.around = x.around) x y) : x.Lasts y c := by
  obtain ⟨hobj, hmem⟩ := ha.lockedObject hlock
  have hx : (Setting.inside x.around c ((x.session.heap.cell c).frozen = true) hmem).At x.session [] :=
    { ha with
      lent := fun d hd => by
        obtain ⟨hf, rfl⟩ := hd
        exact ⟨hobj, hf⟩ }
  obtain ⟨hsame, hy⟩ : y.around = x.around ∧
      (Setting.inside x.around c ((x.session.heap.cell c).frozen = true) hmem).At y.session [] := by
    induction hrun with
    | refl => exact ⟨rfl, hx⟩
    | tail _ hstep ih =>
      exact ⟨hstep.2.trans ih.1, hstep.1.inside ih.1 hstep.2 (List.any_eq_true.2 ⟨_, ih.1 ▸ hlock, rfl⟩) ih.2⟩
  exact ha.lasts (hrun.lift id fun _ _ => And.left) hobj (List.mem_append_right _ (hsame ▸ hmem)) fun hf => (hy.lent c ⟨hf, rfl⟩).2

/-- In every run in which no header is changed by hand, an object lasts until a borrow of it is dropped: until the name of
the borrow is released or given to another one, or, if a field of the object is locked through the borrow, until the
request under the lock ends. -/
theorem borrows_of_runs (hrun : Runs HeadersKept initial x) :
    (∀ r c, x.session.borrows.get? r = some c →
      ∀ y, Runs (fun s args op => HeadersKept s args op ∧ op.Leaves (· ≠ .borrow r) args) x y →
        y.session.borrows.get? r = some c ∧ x.Lasts y c) ∧
    ∀ c f, .lock c f ∈ x.around →
      ∀ y, Relation.ReflTransGen (fun x y => Step HeadersKept x y ∧ y.around = x.around) x y → x.Lasts y c :=
  have ha := at_headersKept hrun
  ⟨fun _ _ hc _ => lasts_of_named ha hc, fun _ _ hlock _ => lasts_of_locked ha hlock⟩

/-- A frozen node that is borrowed, -/
def borrowedNode : List (Op × Args) :=
  frozenNode ++ [(.object .read, { Args.blank with a := some "p", keep := some "r" })]

/-- and what happens to the pointer meanwhile. -/
def pulledAndDropped : List (Op × Args) :=
  [(.object .pull, { Args.blank with a := some "p" }), (.pointer .drop, { Args.blank with a := some "p" }),
    (.collector .collect, Args.blank)]

/-- The node while its field is locked; a lock is a borrow, too. -/
def droppedUnderLock : List (Op × Args) :=
  [(.pointer .drop, { Args.blank with a := some "p" }), (.collector .collect, Args.blank)]

theorem borrows_of_borrowedNode : (∃ x y, initial.after borrowedNode = some x ∧ x.after pulledAndDropped = some y ∧
      y.references = [1, 2] ∧ y.session.borrows.get? "r" = some 2 ∧ x.Lasts y 2 ∧
      (y.session.heap.cell 2).frozen = true) ∧
    ∃ x s y, initial.after frozenNode = some x ∧
      (Attempt.takeLock { Args.blank with a := some "p", field := some "next" }).run x.session =
        .ok (.ok (some (2, .next)), s) ∧
      after ⟨s, .lock 2 .next :: x.around⟩ droppedUnderLock = some y ∧ y.session.slots.get? "p" = none ∧
      Lasts ⟨s, .lock 2 .next :: x.around⟩ y 2 := by
  constructor
  · obtain ⟨x, hx, h⟩ : ∃ x, initial.after borrowedNode = some x ∧ (x.locked, x.session.borrows.get? "r",
        (x.session.heap.cell 2).frozen, (x.after pulledAndDropped).map (·.references)) = (false, some 2, true, some [1, 2]) :=
      Option.map_eq_some_iff.1 (by cbv)
    simp only [Prod.mk.injEq, Option.map_eq_some_iff] at h
    obtain ⟨hlocked, hborrow, hfrozen, y, hy, href⟩ := h
    obtain ⟨hget, hlasts⟩ := (borrows_of_runs (runs_of_after rfl hx (by simp [borrowedNode, frozenNode]))).1 "r" 2 hborrow y
      (runs_of_after hlocked hy (by simp [pulledAndDropped, Args.blank, Op.Leaves, ObjectOp.Leaves]))
    exact ⟨x, y, hx, hy, href, hget, hlasts, hlasts.frozen hfrozen⟩
  · obtain ⟨x, hx, h⟩ : ∃ x, initial.after frozenNode = some x ∧ (x.locked,
        ((Attempt.takeLock { Args.blank with a := some "p", field := some "next" }).run x.session).toOption.map fun r =>
          (r.1.toOption, (after ⟨r.2, .lock 2 .next :: x.around⟩ droppedUnderLock).map fun y =>
            (y.session.slots.get? "p").isNone)) = (false, some (some (some (2, .next)), some true)) :=
      Option.map_eq_some_iff.1 (by cbv)
    simp only [Prod.mk.injEq, Option.map_eq_some_iff, Option.isNone_iff_eq_none] at h
    obtain ⟨hfree, ⟨r, s⟩, htake, hr, y, hy, hgone⟩ := h
    cases ok_of_toOption hr
    have htake := ok_of_toOption htake
    have hrun : Runs HeadersKept initial ⟨s, .lock 2 .next :: x.around⟩ :=
      (runs_of_after rfl hx (by simp [frozenNode])).tail (.lock hfree htake)
    exact ⟨x, s, y, hx, htake, hy, hgone, (borrows_of_runs hrun).2 2 .next List.mem_cons_self y
      (steps_of_after (fun _ => by simp [droppedUnderLock, Op.runsLocked]) hy (by simp [droppedUnderLock]))⟩

end Situation

end LazyHeap
