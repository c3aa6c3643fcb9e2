import LazyHeap.Proofs.Abiding
import LazyHeap.Reference

/-!
Runs of operations. An operation takes some references in hand and leaves others in hand; all that is held
besides, its frame, stays held throughout. A calm operation changes nothing that its frame reaches; a sparing one
may change labels, but not those that are kept, and no objects that its frame reaches. An operation ends in a
result, or in a fault that is tolerated.
-/
namespace LazyHeap

/-! ### Outcomes -/

/-- The computation ends with `Q`, or in a fault that is tolerated. -/
def Ends {α : Type} (tolerated : Fault → Prop) (r : Except Fault (α × Heap)) (Q : α → Heap → Prop) : Prop :=
  match r with
  | .ok (a, h) => Q a h
  | .error e => tolerated e

namespace Ends

variable {α β : Type} {E E' : Fault → Prop} {Q : α → Heap → Prop} {Q' : β → Heap → Prop} {h : Heap}

theorem pure {a : α} (hp : Q a h) : Ends E ((Pure.pure a : HeapM α) h) Q := hp

theorem throw {e : Fault} (he : E e) : Ends E ((MonadExcept.throw e : HeapM α) h) Q := he

theorem bind_run {x : HeapM α} {f : α → HeapM β} (hx : Ends E (x h) Q)
    (hf : ∀ a h', x h = .ok (a, h') → Q a h' → Ends E (f a h') Q') : Ends E ((x >>= f) h) Q' := by
  have heq : (x >>= f) h = (x h).bind fun r => f r.1 r.2 := rfl
  rw [heq]
  cases hr : x h with
  | error e =>
    rw [hr] at hx
    exact hx
  | ok r =>
    rw [hr] at hx
    exact hf r.1 r.2 hr hx

theorem bind {x : HeapM α} {f : α → HeapM β} (hx : Ends E (x h) Q)
    (hf : ∀ a h', Q a h' → Ends E (f a h') Q') : Ends E ((x >>= f) h) Q' :=
  bind_run hx fun a h' _ => hf a h'

theorem mono {r : Except Fault (α × Heap)} {Q' : α → Heap → Prop} (hr : Ends E r Q)
    (hE : ∀ e, E e → E' e) (hp : ∀ a h', Q a h' → Q' a h') : Ends E' r Q' := by
  cases r with
  | error e => exact hE e hr
  | ok r => exact hp _ _ hr

theorem imp {r : Except Fault (α × Heap)} {Q' : α → Heap → Prop} (hr : Ends E r Q)
    (hp : ∀ a h', Q a h' → Q' a h') : Ends E r Q' := hr.mono (fun _ => id) hp

theorem and {r : Except Fault (α × Heap)} {Q' : α → Heap → Prop} (hr : Ends E r Q)
    (hr' : Ends E r Q') : Ends E r fun a h => Q a h ∧ Q' a h := by
  cases r with
  | error e => exact hr
  | ok r => exact ⟨hr, hr'⟩

theorem of_ok {r : Except Fault (α × Heap)} {a : α} {h' : Heap} (hr : r = .ok (a, h'))
    (hp : Q a h') : Ends E r Q := by
  rw [hr]
  exact hp

theorem exists_ok {r : Except Fault (α × Heap)} (hr : Ends (fun _ => False) r Q) :
    ∃ a h', r = .ok (a, h') ∧ Q a h' := by
  cases r with
  | error e => exact hr.elim
  | ok r => exact ⟨r.1, r.2, rfl, hr⟩

theorem get_bind {f : Heap → HeapM β} (hf : Ends E (f h h) Q') :
    Ends E ((get >>= f) h) Q' := hf

theorem modify_bind {g : Heap → Heap} {f : PUnit → HeapM β} (hf : Ends E (f ⟨⟩ (g h)) Q') :
    Ends E ((modify g >>= f) h) Q' := hf

theorem set_bind {k : Heap} {f : PUnit → HeapM β} (hf : Ends E (f ⟨⟩ k) Q') :
    Ends E ((set k >>= f) h) Q' := hf

theorem readCell_bind {c : CellId} {f : Cell → HeapM β} (hf : Ends E (f (h.cell c) h) Q') :
    Ends E ((readCell c >>= f) h) Q' := hf

theorem updateCell_bind {c : CellId} {g : Cell → Cell} {f : PUnit → HeapM β}
    (hf : Ends E (f ⟨⟩ (h.update c g)) Q') : Ends E ((updateCell c g >>= f) h) Q' := hf

end Ends

/-! ### Frames -/

namespace Heap

/-- What is reached from references in hand without going through a label, unless that label is one of the
`kept` ones. -/
inductive Via (kept : CellId → Prop) (h : Heap) (hold : List Task) : CellId → Prop where
  | held {c : CellId} : h.Held hold c → Via kept h hold c
  | edge {x c : CellId} : Via kept h hold x → (h.IsObject x ∨ kept x) → c ∈ (h.cell x).edges →
    Via kept h hold c

theorem mem_edges_of_link {h : Heap} {x c : CellId} {o : Object} {l : Link}
    (ho : (h.cell x).body = .object o) (hl : l ∈ o.links) (hc : c ∈ Cell.linkEdges l) :
    c ∈ (h.cell x).edges := by
  rw [Cell.edges, ho]
  exact List.mem_flatMap.2 ⟨l, hl, hc⟩

variable {kept kept' : CellId → Prop} {h h' h'' : Heap} {hold hold' : List Task} {c : CellId}

theorem Via.reach (hv : Via kept h hold c) : h.Reach (h.Held hold) c := by
  induction hv with
  | held hc => exact .source hc
  | edge _ _ hc ih => exact .edge ih hc

theorem Via.subset (hv : Via kept h hold c) (hsub : ∀ t ∈ hold, t ∈ hold') : Via kept h hold' c := by
  induction hv with
  | held hc => exact .held (hc.imp_left (hsub _))
  | edge _ hx hc ih => exact .edge ih hx hc

theorem Via.relax (hv : Via kept' h hold c) (hk : ∀ c, kept' c → kept c) : Via kept h hold c := by
  induction hv with
  | held hc => exact .held hc
  | edge _ hx hc ih => exact .edge ih (hx.imp_right (hk _)) hc

/-- An operation leaves alone the objects and the kept labels that its frame reaches. -/
structure Spares (kept : CellId → Prop) (hold : List Task) (h h' : Heap) : Prop where
  cell : ∀ c, Via kept h hold c → (h.IsObject c ∨ kept c) → (h'.cell c).core = (h.cell c).core
  grows : h.Grows h'
  scopes : h'.scopes = h.scopes
  nextSerial : h.nextSerial ≤ h'.nextSerial

namespace Spares

theorem held (hk : h.Spares kept hold h') {c : CellId} : h'.Held hold c ↔ h.Held hold c := by
  simp only [Held, standing, hk.scopes]

theorem via (hk : h.Spares kept hold h') (hv : Via kept h hold c) : Via kept h' hold c := by
  induction hv with
  | held hc => exact .held (hk.held.2 hc)
  | edge hv hx hc ih =>
    refine .edge ih (hx.imp_left (hk.grows.object _)) ?_
    rwa [show (h'.cell _).edges = _ from (congrArg Cell.edges (hk.cell _ hv hx) :)]

protected theorem trans (h₁ : h.Spares kept hold h') (h₂ : h'.Spares kept hold h'') :
    h.Spares kept hold h'' where
  cell c hv hc := (h₂.cell c (h₁.via hv) (hc.imp_left (h₁.grows.object c))).trans (h₁.cell c hv hc)
  grows := h₁.grows.trans h₂.grows
  scopes := h₂.scopes.trans h₁.scopes
  nextSerial := Nat.le_trans h₁.nextSerial h₂.nextSerial

theorem subset (hk : h.Spares kept hold h') (hsub : ∀ t ∈ hold', t ∈ hold) : h.Spares kept hold' h' :=
  { hk with cell := fun c hv => hk.cell c (hv.subset hsub) }

theorem relax (hk : h.Spares kept hold h') (hsub : ∀ c, kept' c → kept c) : h.Spares kept' hold h' :=
  { hk with cell := fun c hv hc => hk.cell c (hv.relax hsub) (hc.imp_right (hsub c)) }

end Spares

end Heap

/-- How much an operation leaves alone: everything, or all but the labels that are not kept. -/
inductive Manner where
  | calm
  | sparing (kept : CellId → Prop)

/-- An operation that only adds cells leaves alone all that was there. -/
abbrev Manner.adding : Manner := .sparing fun _ => True

namespace Heap

/-- What a frame reaches, as far as an operation of the manner leaves it alone. -/
def Within (manner : Manner) (h : Heap) (hold : List Task) (c : CellId) : Prop :=
  match manner with
  | .calm => h.Reach (h.Held hold) c
  | .sparing kept => Via kept h hold c

def Keeps (manner : Manner) (hold : List Task) (h h' : Heap) : Prop :=
  match manner with
  | .calm => h.Kept hold h'
  | .sparing kept => h.Spares kept hold h'

variable {manner : Manner} {kept : CellId → Prop} {h h' h'' : Heap} {hold hold' : List Task} {c : CellId}

namespace Within

theorem reach (hw : h.Within manner hold c) : h.Reach (h.Held hold) c := by
  cases manner with
  | calm => exact hw
  | sparing kept => exact Via.reach hw

theorem held (hc : h.Held hold c) : h.Within manner hold c := by
  cases manner with
  | calm => exact .source hc
  | sparing kept => exact .held hc

theorem subset (hw : h.Within manner hold c) (hsub : ∀ t ∈ hold, t ∈ hold') :
    h.Within manner hold' c := by
  cases manner with
  | calm => exact Reach.subset hw fun _ => Or.imp_left (hsub _)
  | sparing kept => exact Via.subset hw hsub

end Within

theorem Kept.keeps (hk : h.Kept hold h') : h.Keeps manner hold h' := by
  cases manner with
  | calm => exact hk
  | sparing kept =>
    exact ⟨fun c hv _ => hk.cell c hv.reach, hk.grows, hk.scopes, Nat.le_of_eq hk.nextSerial.symm⟩

theorem Kept.spares (hk : h.Kept hold h') : h.Spares kept hold h' :=
  (hk.keeps : h.Keeps (.sparing kept) hold h')

namespace Keeps

theorem grows (hk : h.Keeps manner hold h') : h.Grows h' := by
  cases manner with
  | calm => exact Kept.grows hk
  | sparing kept => exact Spares.grows hk

theorem scopes (hk : h.Keeps manner hold h') : h'.scopes = h.scopes := by
  cases manner with
  | calm => exact Kept.scopes hk
  | sparing kept => exact Spares.scopes hk

theorem nextSerial_le (hk : h.Keeps manner hold h') : h.nextSerial ≤ h'.nextSerial := by
  cases manner with
  | calm => exact Nat.le_of_eq (Kept.nextSerial hk).symm
  | sparing kept => exact Spares.nextSerial hk

theorem core (hk : h.Keeps manner hold h') (hw : h.Within manner hold c) (ho : h.IsObject c) :
    (h'.cell c).core = (h.cell c).core := by
  cases manner with
  | calm => exact Kept.cell hk c hw
  | sparing kept => exact Spares.cell hk c hw (.inl ho)

theorem body {o : Object} (hk : h.Keeps manner hold h') (hw : h.Within manner hold c)
    (ho : (h.cell c).body = .object o) : (h'.cell c).body = .object o :=
  (congrArg Cell.body (hk.core hw ⟨o, ho⟩) : _).trans ho

theorem within (hk : h.Keeps manner hold h') (hw : h.Within manner hold c) :
    h'.Within manner hold c := by
  cases manner with
  | calm => exact Kept.reach hk hw
  | sparing kept => exact Spares.via hk hw

protected theorem refl (manner : Manner) (hold : List Task) (h : Heap) : h.Keeps manner hold h :=
  (Kept.refl hold h).keeps

protected theorem trans (h₁ : h.Keeps manner hold h') (h₂ : h'.Keeps manner hold h'') :
    h.Keeps manner hold h'' := by
  cases manner with
  | calm => exact Kept.trans h₁ h₂
  | sparing kept => exact Spares.trans h₁ h₂

theorem subset (hk : h.Keeps manner hold h') (hsub : ∀ t ∈ hold', t ∈ hold) :
    h.Keeps manner hold' h' := by
  cases manner with
  | calm => exact Kept.subset hk hsub
  | sparing kept => exact Spares.subset hk hsub

end Keeps

end Heap

/-- What a frame holds may be frozen meanwhile, but it is not thawed. -/
structure Heap.Lends (frame : List Task) (h h' : Heap) : Prop where
  grows : h.Grows h'
  frozen : ∀ c, h.IsObject c → .release c ∈ frame → (h.cell c).frozen = true → (h'.cell c).frozen = true

namespace Heap.Lends

variable {manner : Manner} {frame frame' : List Task} {h h' h'' : Heap}

protected theorem refl (frame : List Task) (h : Heap) : h.Lends frame h := ⟨.refl h, fun _ _ _ => id⟩

protected theorem trans (h₁ : h.Lends frame h') (h₂ : h'.Lends frame h'') : h.Lends frame h'' :=
  ⟨h₁.grows.trans h₂.grows, fun c hc hheld hf => h₂.frozen c (h₁.grows.object c hc) hheld (h₁.frozen c hc hheld hf)⟩

theorem subset (hl : h.Lends frame h') (hsub : ∀ t ∈ frame', t ∈ frame) : h.Lends frame' h' :=
  ⟨hl.grows, fun c hc hheld => hl.frozen c hc (hsub _ hheld)⟩

theorem of_keeps (hk : h.Keeps manner frame h') : h.Lends frame h' :=
  ⟨hk.grows, fun _ hc hheld hf => (Cell.frozen_of_core (hk.core (.held (.inl hheld)) hc)).trans hf⟩

end Heap.Lends

/-- A moment between two steps of an operation: some references are in hand, the frame is held besides, and
what is locked is held by the frame. -/
structure Holding (manner : Manner) (rules : Rules) (locks : List Lock) (frame : List Task) (h : Heap)
    (hand : List Task) : Prop where
  safe : Safe rules ⟨h, locks, [], hand ++ frame⟩
  within : ∀ x ∈ locks, h.Within manner frame x.1

/-- An operation under a frame: it starts with some references in hand and ends with others. -/
structure Run (manner : Manner) (rules : Rules) (locks : List Lock) (frame : List Task) (h : Heap)
    (ins : List Task) (h' : Heap) (outs : List Task) : Prop where
  steps : Steps rules ⟨h, locks, [], ins ++ frame⟩ ⟨h', locks, [], outs ++ frame⟩
  keeps : h.Keeps manner frame h'

variable {manner : Manner} {rules : Rules} {locks : List Lock} {frame : List Task} {h h' h'' : Heap}
variable {ins mid outs : List Task}

namespace Holding

theorem guarded (hh : Holding manner rules locks frame h ins) : h.Guarded locks frame := fun x hx =>
  (hh.within x hx).reach

theorem calm (hh : Holding manner rules locks frame h ins) : Holding .calm rules locks frame h ins :=
  ⟨hh.safe, hh.guarded⟩

theorem run (hh : Holding manner rules locks frame h ins)
    (hr : Run manner rules locks frame h ins h' outs) : Holding manner rules locks frame h' outs :=
  ⟨(hh.safe.steps hr.steps).1, fun x hx => hr.keeps.within (hh.within x hx)⟩

theorem reach_of_adding {c : CellId} (hk : h.Keeps .adding frame h') (hc : h.Reach (h.Held frame) c) :
    h'.Reach (h'.Held frame) c := by
  suffices hv : h.Within .adding frame c from (hk.within hv).reach
  induction hc with
  | source hc => exact .held hc
  | edge _ he ih => exact .edge ih (.inr True.intro) he

theorem runAdding (hh : Holding .calm rules locks frame h ins)
    (hr : Run .adding rules locks frame h ins h' outs) : Holding .calm rules locks frame h' outs :=
  ⟨(hh.safe.steps hr.steps).1, fun x hx => reach_of_adding hr.keeps (hh.within x hx)⟩

theorem perm (hh : Holding manner rules locks frame h ins) (hp : ins.Perm outs) :
    Holding manner rules locks frame h outs :=
  ⟨(hh.safe.step (.arrange (hp.append_right _))).1, hh.within⟩

theorem focus (hh : Holding manner rules locks frame h ins) {rest : List Task}
    (hp : ins.Perm (mid ++ rest)) : Holding manner rules locks (rest ++ frame) h mid := by
  refine ⟨?_, fun x hx => (hh.within x hx).subset fun t ht => List.mem_append_right _ ht⟩
  rw [← List.append_assoc]
  exact (hh.perm hp).safe

theorem live (hh : Holding manner rules locks frame h ins) {c : CellId}
    (hc : .release c ∈ ins ++ frame) : h.Live c :=
  hh.safe.live_of_held (.inl hc)

end Holding

namespace Run

protected theorem refl (locks : List Lock) (frame : List Task) (h : Heap) (ins : List Task) :
    Run manner rules locks frame h ins h ins := ⟨.refl, .refl manner frame h⟩

protected theorem trans (h₁ : Run manner rules locks frame h ins h' mid)
    (h₂ : Run manner rules locks frame h' mid h'' outs) :
    Run manner rules locks frame h ins h'' outs :=
  ⟨h₁.steps.trans h₂.steps, h₁.keeps.trans h₂.keeps⟩

theorem relax (hr : Run .calm rules locks frame h ins h' outs) :
    Run manner rules locks frame h ins h' outs := ⟨hr.steps, Heap.Kept.keeps hr.keeps⟩

theorem spare {kept kept' : CellId → Prop} (hr : Run (.sparing kept') rules locks frame h ins h' outs)
    (hk : ∀ c, kept c → kept' c) : Run (.sparing kept) rules locks frame h ins h' outs :=
  ⟨hr.steps, Heap.Spares.relax hr.keeps hk⟩

theorem of_step (hstep : Advance rules ⟨h, locks, [], ins ++ frame⟩ ⟨h', locks, [], outs ++ frame⟩)
    (hk : h.Keeps manner frame h') : Run manner rules locks frame h ins h' outs :=
  ⟨.single hstep, hk⟩

theorem of_perm (hp : ins.Perm outs) : Run manner rules locks frame h ins h outs :=
  ⟨.single (.arrange (hp.append_right _)), .refl manner frame h⟩

theorem perm {ins' outs' : List Task} (hr : Run manner rules locks frame h ins h' outs)
    (hins : ins'.Perm ins) (houts : outs.Perm outs') :
    Run manner rules locks frame h ins' h' outs' :=
  ((of_perm hins).trans hr).trans (of_perm houts)

theorem widen {rest : List Task} (hr : Run manner rules locks (rest ++ frame) h ins h' outs) :
    Run manner rules locks frame h (ins ++ rest) h' (outs ++ rest) := by
  refine ⟨?_, hr.keeps.subset fun t ht => List.mem_append_right _ ht⟩
  rw [List.append_assoc, List.append_assoc]
  exact hr.steps

/-- One operation after the other: the second uses some of the references in hand. -/
theorem andThen {used rest new : List Task} (h₁ : Run manner rules locks frame h ins h' outs)
    (hp : outs.Perm (used ++ rest)) (h₂ : Run manner rules locks (rest ++ frame) h' used h'' new) :
    Run manner rules locks frame h ins h'' (new ++ rest) :=
  h₁.trans (h₂.widen.perm hp (.refl _))

theorem andDrop {used rest : List Task} (h₁ : Run manner rules locks frame h ins h' outs)
    (hp : outs.Perm (used ++ rest)) (h₂ : Run manner rules locks (rest ++ frame) h' used h'' []) :
    Run manner rules locks frame h ins h'' rest :=
  h₁.andThen hp h₂

end Run

/-! ### Performing tasks -/

/-- Pending tasks can be performed to their end, and what is held is kept meanwhile. -/
theorem Safe.drain {ts held : List Task} (hs : Safe rules ⟨h, locks, ts, held⟩) :
    ∃ h', h.drain ts = .ok h' ∧ Steps rules ⟨h, locks, ts, held⟩ ⟨h', locks, [], held⟩ ∧
      h.Kept held h' := by
  induction h, ts using Heap.drain.induct with
  | case1 h => exact ⟨h, by rw [Heap.drain], .refl, .refl _ _⟩
  | case2 h t rest e hp =>
    -- no task fails
    obtain ⟨k, new, hw, hs', -⟩ := hs.toSound.work
    rcases h.perform_cases t with he | ⟨k', hw', hr, he⟩
    · rw [he, hw] at hp
      cases hp
    · rw [hw] at hw'
      cases hw'
      obtain ⟨_, _, _, _, ho⟩ := hs'.openRound hr
      rw [he, ho] at hp
      cases hp
  | case3 h t rest h₁ new hp ih =>
    obtain ⟨k, new', hw, hs', hk⟩ := hs.toSound.work
    have hstep : Advance rules ⟨h, locks, t :: rest, held⟩ ⟨k, locks, new' ++ rest, held⟩ := .work hw
    have hsafe := (hs.step hstep).1
    rcases h.perform_cases t with he | ⟨k', hw', hr, he⟩
    · rw [he, hw] at hp
      cases hp
      obtain ⟨h', hd, hrun, hk'⟩ := ih hsafe
      refine ⟨h', ?_, .head hstep hrun, hk.trans hk'⟩
      rw [Heap.drain]
      split
      · next hp' =>
        rw [he, hw] at hp'
        cases hp'
      · next hp' =>
        rw [he, hw] at hp'
        cases hp'
        exact hd
    · rw [hw] at hw'
      cases hw'
      obtain ⟨k₂, roots, whites, hopen, ho⟩ := hs'.openRound hr
      have hp₂ := hp
      rw [he, ho] at hp
      cases hp
      have hstep₂ : Advance rules ⟨k, locks, [] ++ rest, held⟩ ⟨k₂, locks, _ ++ rest, held⟩ :=
        .openRound hr ho
      have hk₂ := hs'.kept_opened hr hopen
      obtain ⟨h', hd, hrun, hk'⟩ := ih (hsafe.step hstep₂).1
      refine ⟨h', ?_, .head hstep (.head hstep₂ hrun), (hk.trans hk₂).trans hk'⟩
      rw [Heap.drain]
      split
      · next hp' =>
        rw [hp₂] at hp'
        cases hp'
      · next hp' =>
        rw [hp₂] at hp'
        cases hp'
        exact hd

/-- Giving up the references in hand never fails, and keeps what the frame holds. -/
theorem settle_spec {E : Fault → Prop} (hh : Holding .calm rules locks frame h ins) :
    Ends E (settle ins h) fun _ h' => Run .calm rules locks frame h ins h' [] := by
  have hbegin : Advance rules ⟨h, locks, [], ins ++ frame⟩ ⟨h, locks, ins, frame⟩ := .begin hh.guarded
  obtain ⟨h', hd, hrun, hk⟩ := (hh.safe.step hbegin).1.drain
  have hsettle : settle ins h = .ok ((), h') := by
    simp only [settle, hd]
    rfl
  exact .of_ok hsettle ⟨.head hbegin hrun, hk⟩

/-! ### Loops -/

section Loops

variable {α β : Type} {E : Fault → Prop} {s : α → List Task} {t : β → List Task}

/-- An operation on each element of a list, in order. The references of the elements to come, and those of the
results so far, belong to the frame of the element that is worked on. -/
theorem mapM_spec {f : α → HeapM β} (J : List α → List β → Heap → Prop) {xs : List α} (hJ : J [] [] h)
    (hf : ∀ done a rest ys k, xs = done ++ a :: rest → J done ys k → h.Keeps manner frame k →
      Holding manner rules locks ((ys.flatMap t ++ rest.flatMap s) ++ frame) k (s a) →
      Ends E (f a k) fun b k' =>
        Run manner rules locks ((ys.flatMap t ++ rest.flatMap s) ++ frame) k (s a) k' (t b) ∧
          J (done ++ [a]) (ys ++ [b]) k')
    (hh : Holding manner rules locks frame h (xs.flatMap s)) :
    Ends E (xs.mapM f h) fun ys h' =>
      Run manner rules locks frame h (xs.flatMap s) h' (ys.flatMap t) ∧ J xs ys h' := by
  -- the results so far are carried along
  suffices hgen : ∀ (rest done : List α) (ys : List β) (k : Heap), xs = done ++ rest → J done ys k →
      Run manner rules locks frame h (xs.flatMap s) k (ys.flatMap t ++ rest.flatMap s) →
      Ends E (rest.mapM f k) fun zs h' =>
        Run manner rules locks frame h (xs.flatMap s) h' ((ys ++ zs).flatMap t) ∧
          J xs (ys ++ zs) h' from
    hgen xs [] [] h rfl hJ (.refl _ _ _ _)
  intro rest
  induction rest with
  | nil =>
    intro done ys k hxs hJk hr
    rw [List.append_nil] at hxs
    subst hxs
    rw [List.mapM_nil]
    exact ⟨by simpa using hr, by simpa using hJk⟩
  | cons a rest ih =>
    intro done ys k hxs hJk hr
    rw [List.mapM_cons]
    have hp : (ys.flatMap t ++ (a :: rest).flatMap s).Perm
        (s a ++ (ys.flatMap t ++ rest.flatMap s)) := by
      simp only [List.flatMap_cons, List.perm_iff_count, List.count_append]
      intro u
      omega
    refine .bind (hf done a rest ys k hxs hJk hr.keeps ((hh.run hr).focus hp)) fun b k' ⟨hr', hJ'⟩ => ?_
    refine .bind (ih (done ++ [a]) (ys ++ [b]) k' (by simpa using hxs) hJ' ?_) fun zs h' ⟨hr'', hJ''⟩ => ?_
    · refine (hr.andThen hp hr').perm (.refl _) ?_
      simp only [List.flatMap_append, List.flatMap_cons, List.flatMap_nil, List.append_nil,
        List.perm_iff_count, List.count_append]
      intro u
      omega
    · rw [List.append_assoc] at hr'' hJ''
      exact ⟨hr'', hJ''⟩

theorem forM_spec {f : α → HeapM PUnit} {t : α → List Task} {xs : List α}
    (hf : ∀ done a rest k, xs = done ++ a :: rest → h.Keeps manner frame k →
      Holding manner rules locks ((done.flatMap t ++ rest.flatMap s) ++ frame) k (s a) →
      Ends E (f a k) fun _ k' =>
        Run manner rules locks ((done.flatMap t ++ rest.flatMap s) ++ frame) k (s a) k' (t a))
    (hh : Holding manner rules locks frame h (xs.flatMap s)) :
    Ends E (xs.forM f h) fun _ h' =>
      Run manner rules locks frame h (xs.flatMap s) h' (xs.flatMap t) := by
  suffices hgen : ∀ (rest done : List α) (k : Heap), xs = done ++ rest →
      Run manner rules locks frame h (xs.flatMap s) k (done.flatMap t ++ rest.flatMap s) →
      Ends E (rest.forM f k) fun _ h' =>
        Run manner rules locks frame h (xs.flatMap s) h' (xs.flatMap t) from
    hgen xs [] h rfl (.refl _ _ _ _)
  intro rest
  induction rest with
  | nil =>
    intro done k hxs hr
    rw [List.append_nil] at hxs
    subst hxs
    exact hr.perm (.refl _) (by simp)
  | cons a rest ih =>
    intro done k hxs hr
    show Ends E ((f a >>= fun _ => rest.forM f) k) _
    have hp : (done.flatMap t ++ (a :: rest).flatMap s).Perm
        (s a ++ (done.flatMap t ++ rest.flatMap s)) := by
      simp only [List.flatMap_cons, List.perm_iff_count, List.count_append]
      intro u
      omega
    refine .bind (hf done a rest k hxs hr.keeps ((hh.run hr).focus hp)) fun _ k' hr' => ?_
    refine ih (done ++ [a]) k' (by simpa using hxs) ((hr.andThen hp hr').perm (.refl _) ?_)
    simp only [List.flatMap_append, List.flatMap_cons, List.flatMap_nil, List.append_nil,
      List.perm_iff_count, List.count_append]
    intro u
    omega

end Loops

end LazyHeap
