import LazyHeap.Proofs.Session.Bookkeeping
import LazyHeap.Proofs.Session.Objects
import LazyHeap.Proofs.Session.Weaks

/-!
Runs of a session. Between two operations there is a session, inside the requests that are under way: these hold the
lock of a field, or have bound clones to a label. Every operation that is performed there, and every beginning and end
of a request around others, keeps the books; so all runs do.
-/
namespace LazyHeap

variable {σ : Setting} {s s' : Session} {hand : List Task} {args : Args} {R : Session → Prop}

/-! ### One operation -/

/-- What an operation must mind for a run to keep its rules: headers are not changed by hand, and some rules restrict
direct work on labels, or on frozen objects. -/
def Op.Permitted (rules : Rules) (s : Session) (args : Args) : Op → Prop
  | .pointer op => op.Allowed rules
  | .object op => Attempt.Unfrozen rules args s op
  | .label op => op.Allowed rules args s
  | .header op => op ≠ .change
  | _ => True

/-- An operation ends no borrow that is reserved. -/
def Op.Leaves (free : Place → Bool) (args : Args) : Op → Prop
  | .object op => op.Leaves free args
  | _ => True

/-- What is permitted, and leaves the reserved borrows as they are. -/
def Setting.Allows (σ : Setting) (s : Session) (args : Args) (op : Op) : Prop :=
  op.Permitted σ.rules s args ∧ op.Leaves σ.free args

/-- Such an operation keeps the books, whether it succeeds or declines. -/
theorem Attempt.perform_ends {op : Op} {under : Bool} (ha : σ.At s []) (hunder : under = false → σ.locks = [])
    (hruns : under = true → op.runsLocked = true) (hargs : σ.Admits args) (hallowed : σ.Allows s args op) :
    σ.Ends (perform under args op) s := by
  obtain ⟨hop, hleaves⟩ := hallowed
  have hlocks : op.runsLocked = false → σ.locks = [] := fun hno => hunder <| by
    cases under with
    | false => rfl
    | true =>
      rw [hruns rfl] at hno
      cases hno
  cases op with
  | pointer op => exact pointers_ends ha hargs hop
  | object op =>
    refine objects_ends ha ?_ hargs hop hleaves
    by_cases he : op = .releaseRef
    · exact .inr he
    · exact .inl (hlocks (by simpa [Op.runsLocked] using he))
  | weak op => exact weaks_ends ha hargs
  | label op =>
    refine labels_ends ha ?_ hargs hop
    by_cases he : op = .spawn ∨ op = .drop
    · exact .inr he
    · exact .inl (hlocks (by simpa [Op.runsLocked] using he))
  | header op => exact headers_ends ha hop
  | collector op => exact collector_ends ha
  | view op => exact views_ends ha hargs

/-! ### What requests that are under way hold -/

/-- What a request around others holds: the lock of a field with the object borrowed, or a scope. -/
inductive Surround where
  | lock (object : CellId) (field : FieldName)
  | scope (label : Handle)

namespace Surround

def locks : Surround → List Lock
  | .lock o f => [(o, some f)]
  | .scope _ => []

def scopes : Surround → List Handle
  | .lock _ _ => []
  | .scope l => [l]

def tasks : Surround → List Task
  | .lock o _ => [.release o]
  | .scope _ => []

end Surround

/-- The circumstances inside some requests that are under way. -/
def Setting.within (σ : Setting) (around : List Surround) : Setting :=
  { σ with
    locks := around.flatMap Surround.locks ++ σ.locks
    scopes := around.flatMap Surround.scopes ++ σ.scopes
    outer := around.flatMap Surround.tasks ++ σ.outer
    fieldLocks := fun x hx => by
      rcases List.mem_append.1 hx with hx | hx
      · obtain ⟨y, -, hy⟩ := List.mem_flatMap.1 hx
        cases y with
        | lock o f => exact List.mem_singleton.1 hy ▸ nofun
        | scope _ => cases hy
      · exact σ.fieldLocks x hx
    guarded := fun x hx => by
      rcases List.mem_append.1 hx with hx | hx
      · obtain ⟨y, hm, hy⟩ := List.mem_flatMap.1 hx
        refine List.mem_append_left _ (List.mem_flatMap.2 ⟨y, hm, ?_⟩)
        cases y with
        | lock o f =>
          rw [List.mem_singleton.1 hy]
          exact List.mem_singleton.2 rfl
        | scope _ => cases hy
      · exact List.mem_append_right _ (σ.guarded x hx)
    anchored := fun t ht => List.mem_append_right _ (σ.anchored t ht)
    lentOuter := fun c hc => List.mem_append_right _ (σ.lentOuter c hc) }

private theorem Setting.held_lock {around : List Surround} {o : CellId} {f : FieldName} {h : Heap} :
    ((σ.within around).held s [.release o]).Perm ((σ.within (.lock o f :: around)).held (s.withHeap h) []) :=
  show ([Task.release o] ++ (s.tasks σ.free ++ (σ.within around).outer)).Perm
      (s.tasks σ.free ++ ([Task.release o] ++ (σ.within around).outer)) from List.perm_append_comm_assoc _ _ _

namespace Setting.At

variable {around around' : List Surround}

private theorem moves {s' : Session} {hand' : List Task} (ha : (σ.within around).At s hand)
    (hcourse : Course σ.rules ⟨s.heap, (σ.within around).locks, [], (σ.within around).held s hand⟩
      ⟨s'.heap, (σ.within around').locks, [], (σ.within around').held s' hand'⟩)
    (hsafe : Safe σ.rules ⟨s'.heap, (σ.within around').locks, [], (σ.within around').held s' hand'⟩)
    (hfits : s'.Fits σ.rules.sealed σ.free) (hscopes : s'.heap.scopes = (σ.within around').scopes)
    (hslots : s'.slots = s.slots) (hborrows : s'.borrows = s.borrows) (hfrozen : ∀ c, (s.heap.cell c).frozen = true → (s'.heap.cell c).frozen = true) : (σ.within around').At s' hand' where
  course := ha.course.trans hcourse
  safe := hsafe
  owned := hcourse.owned ha.safe.toFirm ha.owned
  fits := hfits
  scopes := hscopes
  anchors d hd := (ha.anchors d hd).course hcourse ha.safe.toFirm fun _ => mem_held_of_anchor (σ := σ.within around')
  fixed c hc :=
    have hf := ha.fixed c hc
    ((hcourse.lasts ha.safe.toFirm).frozen hc (Heap.lt_size_of_frozen hf)).trans hf
  kept := σ.keptReserved s s' ha.kept (fun _ _ => by rw [hslots]) fun _ _ => by rw [hborrows]
  lent c hc := (ha.lent c hc).imp ((hcourse.firm ha.safe.toFirm).2.object c) (hfrozen c)

end Setting.At

namespace Attempt

variable {around : List Surround}

private theorem lock_ends {o : CellId} {x : Object} {f : FieldName} {g : Field}
    (ha : (σ.within around).At s [.release o]) (hlocks : (σ.within around).locks = [])
    (hx : (s.heap.cell o).body = .object x) (hg : x.field? f = some g) :
    Ends (heap (lockField o f)) s R fun _ s' => (σ.within (.lock o f :: around)).At s' [] := by
  have hh : Holding (.sparing σ.rules.sealed) σ.rules (σ.within around).locks ((σ.within around).held s [.release o]) s.heap [] :=
    ha.holding (.refl _)
  have hfit := hh.safe.fits o
  rw [show (Moment.heap _).cell o = s.heap.cell o from rfl, hx] at hfit
  have hname := Object.name_of_field? hg
  refine .heap (lockField_spec (E := Fault.Misuse) hx hfit.1 hg fun _ => Fault.misuse_selfWait) fun _ h' _ ⟨_, _, hh'⟩ => ?_
  have hstep : Advance σ.rules ⟨s.heap, (σ.within around).locks, [], [] ++ (σ.within around).held s [.release o]⟩
      ⟨h', (o, some f) :: (σ.within around).locks, [], [] ++ (σ.within around).held s [.release o]⟩ := by
    rw [hh']
    refine hh.putField hx (g := g) (by rw [hname, hg]) (.source (.inl (by simp [Setting.held]))) (.inr rfl) (.refl _)
      (fun l hl => hfit.2 l (List.mem_flatMap.2 ⟨g, Object.mem_of_field? hg, hl⟩)) fun y => ?_
    rw [hlocks, ← hname]
    simp
  have hgrows : s.heap.Grows h' := hh' ▸ Heap.putField_grows hx
  have hcourse : Course σ.rules ⟨s.heap, (σ.within around).locks, [], (σ.within around).held s [.release o]⟩
      ⟨h', (σ.within (.lock o f :: around)).locks, [], (σ.within (.lock o f :: around)).held (s.withHeap h') []⟩ := by
    exact .tail (.single ⟨_, hstep⟩) ⟨σ.rules.opened, .arrange Setting.held_lock⟩
  exact ha.moves hcourse ((hh.safe.step hstep).1.step (.arrange Setting.held_lock)).1
    (ha.fits.grows hgrows) (by rw [hh']; exact ha.scopes) rfl rfl fun d hd => by
    rw [hh']
    exact (Heap.putField_frozen hx d).trans hd

/-- The lock is taken while the object is borrowed; whoever declines has neither. -/
theorem takeLock_ends (args : Args) (ha : (σ.within around).At s []) (hlocks : (σ.within around).locks = [])
    (hslot : ∀ name t o, args.a = some name → s.slots.get? name = some t → t.pointer.target = some o →
      s.heap.IsObject o ∧ .release o ∈ (σ.within around).held s []) :
    Ends (takeLock args) s (fun s' => (σ.within around).At s' []) fun r s' => match r with
      | none => (σ.within around).At s' []
      | some (o, f) => (σ.within (.lock o f :: around)).At s' [] := by
  refine .slotA ha fun name t hn ht => .need ha fun word _ => ?_
  cases htarget : t.pointer.target with
  | none => exact .pure ha
  | some o =>
    obtain ⟨hobj, hheld⟩ := hslot name t o hn ht htarget
    refine ha.run (I := []) (F := []) (M := .calm) (P := fun _ _ => True) (O := fun _ => [.release o]) (.refl _)
      (fun hh => ?_) fun _ h₁ _ hg ha₁ => ?_
    · exact (borrow_spec hh.calm (by simpa using hheld) (hh.calm.object_ne_root hobj)).imp fun _ _ hr => ⟨trivial, hr⟩
    obtain ⟨x, hx⟩ := hg.object o hobj
    refine .bind (Q := fun f s' => s' = s.withHeap h₁ ∧ (x.field? f).isSome = true)
      (.cleaning (C := fun s' => (σ.within around).At s' [.release o]) ?_ fun s' ha' => ?_) fun f s₁ ⟨hs₁, hfound⟩ => ?_
    · cases FieldName.ofText? word with
      | none => exact .throw (by simpa using ha₁)
      | some f =>
        refine .cell (.guard (by simpa using ha₁) fun hfield => .pure ⟨rfl, ?_⟩)
        rw [Cell.object?, show ((s.withHeap h₁).heap.cell o).body = .object x from hx, Option.bind_some] at hfield
        exact Option.isSome_iff_ne_none.2 (by simpa using hfield)
    · exact ha'.settleLast (I := [.release o]) (F := [])
    · subst hs₁
      obtain ⟨g, hget⟩ := Option.isSome_iff_exists.1 hfound
      exact .bind (lock_ends (by simpa using ha₁) hlocks hx hget) fun _ _ ha₂ => .pure ha₂

theorem unlock_ends {o : CellId} {f : FieldName} (ha : (σ.within (.lock o f :: around)).At s [])
    (hlocks : (σ.within around).locks = []) :
    Ends (do heap (unlockField o f); heap (endBorrow o)) s R fun _ s' => (σ.within around).At s' [] := by
  have hh : Holding (.sparing σ.rules.sealed) σ.rules ((o, some f) :: (σ.within around).locks)
      ((σ.within (.lock o f :: around)).held s []) s.heap [] := ha.holding (.refl _)
  -- the lock is that of a field
  obtain ⟨x, g, hx, hg, hlocked⟩ : ∃ x g, (s.heap.cell o).body = .object x ∧ x.field? f = some g ∧ g.locked = true := by
    have hmem : some f ∈ (s.heap.cell o).body.locks := (hh.safe.locks o (some f)).2 List.mem_cons_self
    have hfit := hh.safe.fits o
    rw [show (Moment.heap _).cell o = s.heap.cell o from rfl] at hfit
    cases hx : (s.heap.cell o).body with
    | object x =>
      rw [hx] at hmem hfit
      obtain ⟨g, hg, he⟩ := List.mem_map.1 hmem
      obtain ⟨hg, hl⟩ := List.mem_filter.1 hg
      cases he
      exact ⟨x, g, rfl, Object.field?_of_mem hfit.1 hg, hl⟩
    | label l =>
      rw [hx, Body.locks] at hmem
      split at hmem <;> simp at hmem
  have hfit := hh.safe.fits o
  rw [show (Moment.heap _).cell o = s.heap.cell o from rfl, hx] at hfit
  have hname := Object.name_of_field? hg
  refine .bind (.heap (Q := fun _ s' => (σ.within around).At s' [.release o])
    (unlockField_spec (E := Fault.Misuse) hx hfit.1 hg) fun _ h' _ hh' => ?_) fun _ s' ha' => ha'.settleLast (I := [.release o]) (F := [])
  have hstep : Advance σ.rules ⟨s.heap, (σ.within (.lock o f :: around)).locks, [], [] ++ (σ.within (.lock o f :: around)).held s []⟩
      ⟨h', (σ.within around).locks, [], [] ++ (σ.within (.lock o f :: around)).held s []⟩ := by
    rw [hh']
    refine hh.putField hx (g := g) (by rw [hname, hg]) (.source (.inl ?_)) (.inr rfl) (.refl _)
      (fun l hl => hfit.2 l (List.mem_flatMap.2 ⟨g, Object.mem_of_field? hg, hl⟩)) fun y => ?_
    · exact List.mem_append_right _ (List.mem_append_right _ List.mem_cons_self)
    · rw [show (σ.within (.lock o f :: around)).locks = (o, some f) :: (σ.within around).locks from rfl, hlocks, ← hname]
      simp
  have hgrows : s.heap.Grows h' := hh' ▸ Heap.putField_grows hx
  have hcourse : Course σ.rules ⟨s.heap, (σ.within (.lock o f :: around)).locks, [], (σ.within (.lock o f :: around)).held s []⟩
      ⟨h', (σ.within around).locks, [], (σ.within around).held (s.withHeap h') [.release o]⟩ :=
    .tail (.single ⟨_, hstep⟩) ⟨σ.rules.opened, .arrange Setting.held_lock.symm⟩
  refine ha.moves hcourse ((hh.safe.step hstep).1.step (.arrange Setting.held_lock.symm)).1
    (ha.fits.grows hgrows) (by rw [hh']; exact ha.scopes) rfl rfl fun d hd => ?_
  rw [hh']
  exact (Heap.putField_frozen hx d).trans hd

theorem takeScope_ends (args : Args) (ha : (σ.within around).At s []) (hlabels : ∀ n, σ.free (.label n) = true) :
    Ends (takeScope args) s (fun s' => (σ.within around).At s' []) fun _ s' =>
      ∃ l, (σ.within (.scope l :: around)).At s' [] := by
  refine .need ha fun name _ => .label ha fun l hl => ?_
  have hfree : (σ.within around).free (.label name) = true := hlabels name
  refine ha.cloneHandle (ha.fitsLabel hl hfree) (Setting.At.heldLabel hl hfree _) fun h₁ hfit hg ha₁ => ?_
  rw [List.append_nil] at ha₁
  have hh : Holding (.sparing σ.rules.sealed) σ.rules (σ.within around).locks ((σ.within around).held (s.withHeap h₁) l.tasks) h₁ [] :=
    ha₁.holding (by simp)
  refine .bind (Q := fun _ s' => (σ.within (.scope l :: around)).At s' l.tasks) (.heap
    (enterScope_spec (E := Fault.Misuse) hh.calm (hh.calm.usable hfit fun t ht => by simp [Setting.held, ht])) ?_)
      fun _ s' ha' => ?_
  · rintro - h' - ⟨h₂, hh', hkept, hsteps⟩
    have hcourse : Course σ.rules ⟨h₁, (σ.within around).locks, [], (σ.within around).held (s.withHeap h₁) l.tasks⟩
        ⟨h', (σ.within (.scope l :: around)).locks, [], (σ.within (.scope l :: around)).held (s.withHeap h') l.tasks⟩ :=
      .of_same hsteps
    have hgrows : h₁.Grows h' := (hcourse.firm ha₁.safe.toFirm).2
    refine ha₁.moves hcourse (ha₁.safe.steps hsteps).1 (ha₁.fits.grows hgrows)
      (by rw [hh']; exact congrArg (l :: ·) ha₁.scopes) rfl rfl fun d hd => ?_
    have hscoped : (h'.cell d).frozen = (h₂.cell d).frozen := by rw [hh']; rfl
    exact hscoped.trans ((hkept.fades.frozen d).trans hd)
  · rw [← List.append_nil l.tasks] at ha'
    exact (ha'.settleLast (R := fun _ => False)).mono (fun _ h => h.elim) fun _ _ h => ⟨l, h⟩

theorem leaveScope_ends {l : Handle} (ha : (σ.within (.scope l :: around)).At s []) :
    Ends (heap leaveScope) s R fun _ s' => (σ.within around).At s' [] := by
  have hh : Holding (.sparing σ.rules.sealed) σ.rules (σ.within around).locks ((σ.within around).held s []) s.heap [] :=
    ha.holding (.refl _)
  refine .heap (leaveScope_spec (E := Fault.Misuse) hh.calm ha.scopes fun y hy => .source (.inl ?_)) fun _ h' _ ⟨hkept, hsteps⟩ => ?_
  · exact List.mem_append_right _ (List.mem_append_right _ ((σ.within around).guarded y hy))
  · have hcourse : Course σ.rules ⟨s.heap, (σ.within (.scope l :: around)).locks, [], (σ.within (.scope l :: around)).held s []⟩
        ⟨h', (σ.within around).locks, [], (σ.within around).held (s.withHeap h') []⟩ :=
      .of_same hsteps
    exact ha.moves hcourse (ha.safe.steps hsteps).1 (ha.fits.grows (hcourse.firm ha.safe.toFirm).2)
      hkept.scopes rfl rfl fun d hd => (hkept.fades.frozen d).trans hd

end Attempt

/-! ### Runs -/

/-- A session between two operations, and the requests that are under way around them, the innermost first. -/
structure Situation where
  session : Session
  around : List Surround

def Surround.isLock : Surround → Bool
  | .lock _ _ => true
  | .scope _ => false

theorem Setting.admits_of_free (hfree : ∀ p : Place, p.isBorrow = false → σ.free p = true) (args : Args) : σ.Admits args :=
  have hopen (name : String) : σ.Open name := fun p _ => hfree p
  ⟨fun n _ => hopen n, fun n _ => hopen n, fun n _ => hopen n, fun n _ => hopen n, fun n _ => hopen n, fun n _ => hopen n,
    fun n _ => hopen n, fun n _ => hopen n⟩

theorem Setting.Admits.inside (hargs : σ.Admits args) (around : List Surround) : (σ.within around).Admits args :=
  ⟨hargs.a, hargs.b, hargs.dest, hargs.swapWith, hargs.keep, hargs.within, hargs.label, hargs.weak⟩

/-- Circumstances in which requests around others may begin and end: nothing is locked beforehand, no label is reserved,
and what a pointer leads to is held, whether the pointer is reserved or not. -/
structure Setting.Quiet (σ : Setting) : Prop where
  locks : σ.locks = []
  labels : ∀ n, σ.free (.label n) = true
  slots : ∀ around s name t o, (σ.within around).At s [] → s.slots.get? name = some t → t.pointer.target = some o →
    s.heap.IsObject o ∧ .release o ∈ (σ.within around).held s []

theorem Setting.quiet_of_free (hlocks : σ.locks = []) (hfree : ∀ p : Place, p.isBorrow = false → σ.free p = true) :
    σ.Quiet where
  locks := hlocks
  labels n := hfree (.label n) rfl
  slots around s name t o ha ht ho :=
    have hname : (σ.within around).free (.slot name) = true := hfree (.slot name) rfl
    ⟨(ha.fitsSlot ht hname).target o ho, Setting.At.heldSlot ht hname [] _ (List.mem_append_left _ (by simp [ho]))⟩

/-- Circumstances in which nothing is reserved, and nothing is locked beforehand. -/
structure Setting.Plain (σ : Setting) : Prop where
  locks : σ.locks = []
  free : ∀ p, σ.free p = true

namespace Setting.Plain

theorem quiet (hσ : σ.Plain) : σ.Quiet := Setting.quiet_of_free hσ.locks fun p _ => hσ.free p

theorem admits (hσ : σ.Plain) (args : Args) : σ.Admits args := Setting.admits_of_free (fun p _ => hσ.free p) args

theorem allows {op : Op} (hσ : σ.Plain) (hop : op.Permitted σ.rules s args) : σ.Allows s args op := by
  refine ⟨hop, ?_⟩
  cases op with
  | object op => cases op <;> first | exact trivial | exact fun n _ => hσ.free (.borrow n)
  | _ => exact trivial

end Setting.Plain

namespace Situation

variable {allows allows' : Session → Args → Op → Prop} {x y z : Situation}

def initial : Situation := ⟨.initial, []⟩

def locked (x : Situation) : Bool := x.around.any Surround.isLock

/-- A step of a run: an allowed operation, whether it succeeds or declines, or the beginning or the end of a request
around others. -/
inductive Step (allows : Session → Args → Op → Prop) : Situation → Situation → Prop where
  | perform {s s' around args op reply} : allows s args op → (locked ⟨s, around⟩ = true → op.runsLocked = true) →
    (Attempt.perform (locked ⟨s, around⟩) args op).reply s = .ok (reply, s') → Step allows ⟨s, around⟩ ⟨s', around⟩
  | lock {s s' around args o f} : locked ⟨s, around⟩ = false →
    (Attempt.takeLock args).run s = .ok (.ok (some (o, f)), s') → Step allows ⟨s, around⟩ ⟨s', .lock o f :: around⟩
  | noLock {s s' around args result} : locked ⟨s, around⟩ = false → (Attempt.takeLock args).run s = .ok (result, s') →
    (∀ x, result ≠ .ok (some x)) → Step allows ⟨s, around⟩ ⟨s', around⟩
  | unlock {s s' around o f} : locked ⟨s, around⟩ = false →
    (do Attempt.heap (unlockField o f); Attempt.heap (endBorrow o)).run s = .ok (.ok ⟨⟩, s') →
    Step allows ⟨s, .lock o f :: around⟩ ⟨s', around⟩
  | scope {s s' around args l} : locked ⟨s, around⟩ = false → (Attempt.takeScope args).run s = .ok (.ok ⟨⟩, s') →
    s'.heap.scopes = l :: s.heap.scopes → Step allows ⟨s, around⟩ ⟨s', .scope l :: around⟩
  | noScope {s s' around args why} : locked ⟨s, around⟩ = false → (Attempt.takeScope args).run s = .ok (.error why, s') →
    Step allows ⟨s, around⟩ ⟨s', around⟩
  | endScope {s s' around l} : (Attempt.heap leaveScope).run s = .ok (.ok ⟨⟩, s') →
    Step allows ⟨s, .scope l :: around⟩ ⟨s', around⟩

abbrev Runs (allows : Session → Args → Op → Prop) : Situation → Situation → Prop := Relation.ReflTransGen (Step allows)

theorem Step.mono (hallows : ∀ s args op, allows s args op → allows' s args op) (hstep : Step allows x y) : Step allows' x y := by
  cases hstep with
  | perform ha hl hr => exact .perform (hallows _ _ _ ha) hl hr
  | lock hl hr => exact .lock hl hr
  | noLock hl hr hn => exact .noLock hl hr hn
  | unlock hl hr => exact .unlock hl hr
  | scope hl hr hs => exact .scope hl hr hs
  | noScope hl hr => exact .noScope hl hr
  | endScope hr => exact .endScope hr

/-- The books are in order at a situation, under given circumstances around it. -/
def At (σ : Setting) (x : Situation) : Prop := (σ.within x.around).At x.session []

theorem locks_within (σ : Setting) (hσ : σ.locks = []) (hx : x.locked = false) : (σ.within x.around).locks = [] := by
  refine List.append_eq_nil_iff.2 ⟨List.flatMap_eq_nil_iff.2 fun y hy => ?_, hσ⟩
  cases y with
  | lock o f =>
    rw [locked, List.any_eq_false] at hx
    exact absurd rfl (hx _ hy)
  | scope l => rfl

theorem Step.at (hstep : Step allows x y) (hσ : σ.Quiet)
    (hallows : ∀ s args op, allows s args op → σ.Admits args ∧ σ.Allows s args op) (ha : x.At σ) : y.At σ := by
  cases hstep with
  | @perform s s' around args op reply hop hruns hrun =>
    have := Attempt.reply_ends (Attempt.perform_ends ha (locks_within σ hσ.locks (x := ⟨s, around⟩)) hruns
      ((hallows _ _ _ hop).1.inside around) (hallows _ _ _ hop).2)
    rwa [SessionM.Ends, hrun] at this
  | @lock s s' around args o f hlocked hrun =>
    have := Attempt.takeLock_ends args ha (locks_within σ hσ.locks hlocked)
      fun name t o _ => hσ.slots around s name t o ha
    rwa [Attempt.Ends, hrun] at this
  | @noLock s s' around args result hlocked hrun hnone =>
    have := Attempt.takeLock_ends args ha (locks_within σ hσ.locks hlocked)
      fun name t o _ => hσ.slots around s name t o ha
    rw [Attempt.Ends, hrun] at this
    rcases result with why | _ | p
    · exact this
    · exact this
    · exact absurd rfl (hnone p)
  | @unlock s s' around o f hlocked hrun =>
    have := Attempt.unlock_ends (R := fun _ => True) ha (locks_within σ hσ.locks (x := ⟨s, around⟩) hlocked)
    rwa [Attempt.Ends, hrun] at this
  | @scope s s' around args l _ hrun hscopes =>
    have := Attempt.takeScope_ends args ha hσ.labels
    rw [Attempt.Ends, hrun] at this
    obtain ⟨l', ha'⟩ := this
    have hl : l' :: (σ.within around).scopes = l :: (σ.within around).scopes :=
      ha'.scopes.symm.trans (hscopes.trans (congrArg (l :: ·) ha.scopes))
    rwa [(List.cons.inj hl).1] at ha'
  | @noScope s s' around args why _ hrun =>
    have := Attempt.takeScope_ends args ha hσ.labels
    rwa [Attempt.Ends, hrun] at this
  | @endScope s s' around l hrun =>
    have := Attempt.leaveScope_ends (R := fun _ => True) ha
    rwa [Attempt.Ends, hrun] at this

/-- A run keeps the books. -/
theorem Runs.keeps (hrun : Runs allows x y) (hσ : σ.Quiet)
    (hallows : ∀ s args op, allows s args op → σ.Admits args ∧ σ.Allows s args op) (ha : x.At σ) : y.At σ := by
  induction hrun with
  | refl => exact ha
  | tail _ hstep ih => exact hstep.at hσ hallows ih

theorem Runs.at (hrun : Runs allows x y) (hσ : σ.Plain) (hallows : ∀ s args op, allows s args op → op.Permitted σ.rules s args)
    (ha : x.At σ) : y.At σ := hrun.keeps hσ.quiet (fun s args op hop => ⟨hσ.admits args, hσ.allows (hallows s args op hop)⟩) ha

/-- What the heap goes through in a run of the session. -/
theorem Runs.course (hrun : Runs allows x y) (hσ : σ.Plain)
    (hallows : ∀ s args op, allows s args op → op.Permitted σ.rules s args) (ha : x.At σ) :
    Course σ.rules ⟨x.session.heap, (σ.within x.around).locks, [], (σ.within x.around).held x.session []⟩
      ⟨y.session.heap, (σ.within y.around).locks, [], (σ.within y.around).held y.session []⟩ := by
  let σ' : Setting := { σ with
    origin := ⟨x.session.heap, (σ.within x.around).locks, [], (σ.within x.around).held x.session []⟩ }
  have ha' : x.At σ' := ⟨.refl, ha.safe, ha.owned, ha.fits, ha.scopes, ha.anchors, ha.fixed, ha.kept, ha.lent⟩
  have hσ' : σ'.Plain := ⟨hσ.locks, hσ.free⟩
  exact (hrun.at hσ' hallows ha').course

end Situation

/-- The circumstances of a run from the start: no request is under way, and nothing is reserved. -/
def Setting.initial (careful apart closed : Bool) (lenient : Bool := false) : Setting where
  rules := { careful, apart, closed, lenient }
  origin := ⟨.initial, [], [], []⟩
  locks := []
  scopes := []
  outer := []
  anchor := []
  free _ := true
  kept _ := True
  lent _ := False
  settled _ := id
  unsteady _ := id
  rootFree := id
  fieldLocks := .nil
  guarded := nofun
  anchored := nofun
  keptReserved _ _ _ _ _ := trivial
  lentOuter _ := False.elim

namespace Situation

variable {careful apart closed lenient : Bool} {allows : Session → Args → Op → Prop} {x : Situation}

theorem plain_initial : (Setting.initial careful apart closed lenient).Plain := ⟨rfl, fun _ => rfl⟩

theorem at_initial : At (.initial careful apart closed lenient) initial where
  course := .refl
  safe := .initial fun _ => id
  owned := .initial
  fits := ⟨⟨List.nodup_nil, nofun⟩, ⟨List.nodup_nil, nofun⟩, ⟨List.nodup_nil, nofun⟩, ⟨List.nodup_nil, nofun⟩⟩
  scopes := rfl
  anchors _ := False.elim
  fixed _ := False.elim
  kept := trivial
  lent _ := False.elim

/-- In every run from the start the books are in order. -/
theorem at_of_runs (hallows : ∀ s args op, allows s args op → op.Permitted { careful, apart, closed, lenient } s args)
    (hrun : Runs allows initial x) : x.At (.initial careful apart closed lenient) :=
  hrun.at plain_initial hallows at_initial

/-! #### Runs of some operations at the start -/

/-- The situation after some operations, unless one of them ends with a fault. -/
def after (x : Situation) : List (Op × Args) → Option Situation
  | [] => some x
  | (op, args) :: ops =>
    match (Attempt.perform x.locked args op).reply x.session with
    | .ok (_, s) => after ⟨s, x.around⟩ ops
    | .error _ => none

/-- Allowed operations, one after the other, are steps, and requests around them go on. Under a lock it takes operations that
run there. -/
theorem steps_of_after {x y : Situation} {ops : List (Op × Args)}
    (hx : x.locked = true → ∀ p ∈ ops, p.1.runsLocked = true) (hy : x.after ops = some y)
    (hallows : ∀ s, ∀ p ∈ ops, allows s p.2 p.1) :
    Relation.ReflTransGen (fun x y => Step allows x y ∧ y.around = x.around) x y := by
  induction ops generalizing x with
  | nil => exact Option.some.inj hy ▸ .refl
  | cons p ops ih =>
    obtain ⟨op, args⟩ := p
    rw [after] at hy
    split at hy
    · next s hrun =>
      have hstep : Step allows x ⟨s, x.around⟩ :=
        .perform (hallows _ _ List.mem_cons_self) (fun hl => hx hl _ List.mem_cons_self) hrun
      exact .head ⟨hstep, rfl⟩ (ih (fun hl p hp => hx hl p (List.mem_cons_of_mem _ hp)) hy
        fun s p hp => hallows s p (List.mem_cons_of_mem _ hp))
    · cases hy

theorem runs_of_after {x y : Situation} (hx : x.locked = false) {ops : List (Op × Args)} (hy : x.after ops = some y)
    (hallows : ∀ s, ∀ p ∈ ops, allows s p.2 p.1) : Runs allows x y :=
  (steps_of_after (fun hl => absurd hl (by simp [hx])) hy hallows).lift id fun _ _ => And.left

theorem ok_of_toOption {ε α : Type} {r : Except ε α} {a : α} (hr : r.toOption = some a) : r = .ok a := by
  cases r with
  | error e => cases hr
  | ok b => exact congrArg _ (Option.some.inj hr)

end Situation

def Args.blank : Args :=
  ⟨none, none, none, none, none, none, none, none, none, none, none, none, none, none, none, none, none, none, none,
    none, none, none, none⟩

/-! ### Requests -/

theorem Attempt.Ends.known {α : Type} {x : Attempt α} {Q : α → Session → Prop} (hx : Ends x s R Q) :
    Ends x s (fun s' => R s' ∧ ∃ why, x.run s = .ok (.error why, s')) fun a s' => Q a s' ∧ x.run s = .ok (.ok a, s') := by
  unfold Ends at *
  rcases hr : x.run s with e | ⟨why | a, s'⟩ <;> rw [hr] at hx
  · exact hx
  · exact ⟨hx, why, rfl⟩
  · exact ⟨hx, rfl⟩

namespace Request

mutual

/-- All operations of a request are of some sort. -/
def Only (p : Args → Op → Prop) : Request → Prop
  | .plain op args => p args op
  | .compound _ _ body => OnlyAll p body
  | _ => True

def OnlyAll (p : Args → Op → Prop) : List Request → Prop
  | [] => True
  | r :: rs => r.Only p ∧ OnlyAll p rs

end

open Situation

variable {α : Type} {p : Args → Op → Prop} {around : List Surround}

/-- The circumstances of a run whose operations are always permitted. -/
structure Permits (σ : Setting) (p : Args → Op → Prop) : Prop extends σ.Plain where
  permits : ∀ s args op, p args op → op.Permitted σ.rules s args

private abbrev Goes (p : Args → Op → Prop) (around : List Surround) (x : SessionM α) (s : Session) : Prop :=
  SessionM.Ends x s fun _ s' => Runs (fun _ => p) ⟨s, around⟩ ⟨s', around⟩

private theorem plain_goes {op : Op} (hσ : Permits σ p) (ha : At σ ⟨s, around⟩) (hop : p args op)
    (hruns : locked ⟨s, around⟩ = true → op.runsLocked = true) :
    Goes p around (Attempt.perform (locked ⟨s, around⟩) args op).reply s := by
  have h := Attempt.reply_ends (Attempt.perform_ends ha (locks_within σ hσ.locks (x := ⟨s, around⟩)) hruns
    ((hσ.admits args).inside around) (hσ.allows (hσ.permits _ _ _ hop)))
  unfold Goes SessionM.Ends at *
  rcases hrun : (Attempt.perform (locked ⟨s, around⟩) args op).reply s with e | ⟨r, s'⟩
  · rwa [hrun] at h
  · exact .single (.perform hop hruns hrun)

theorem Permits.at_of_runs {x y : Situation} (hσ : Permits σ p) (ha : x.At σ) (hrun : Runs (fun _ => p) x y) : y.At σ :=
  hrun.at hσ.toPlain (fun s args op h => hσ.permits s args op h) ha

private theorem underLock_goes {body : SessionM (List Reply)} (hσ : Permits σ p) (ha : At σ ⟨s, around⟩)
    (hlocked : locked ⟨s, around⟩ = false)
    (hbody : ∀ s' o f, At σ ⟨s', .lock o f :: around⟩ → Goes p (.lock o f :: around) body s') :
    Goes p around (Attempt.underLock args body).reply s := by
  have hlocks := locks_within σ hσ.locks hlocked
  refine Attempt.reply_ends (.bind (Attempt.Ends.mono (Attempt.takeLock_ends args ha hlocks
      fun name t o _ => hσ.quiet.slots around s name t o ha).known
    (fun s' ⟨_, why, hrun⟩ => .single (.noLock hlocked hrun nofun)) fun _ _ h => h) fun r s₁ ⟨hr, hrun⟩ => ?_)
  rcases r with _ | ⟨o, f⟩
  · exact .pure (.single (.noLock hlocked hrun nofun))
  · have h₁ : Runs (fun _ => p) ⟨s, around⟩ ⟨s₁, .lock o f :: around⟩ := .single (.lock hlocked hrun)
    have ha₁ : At σ ⟨s₁, .lock o f :: around⟩ := hr
    refine .bind (.lift (hbody s₁ o f ha₁)) fun replies s₂ h₂ => ?_
    have ha₂ : (σ.within (.lock o f :: around)).At s₂ [] := hσ.at_of_runs ha₁ h₂
    rw [← bind_assoc]
    refine .bind (Attempt.Ends.mono (Attempt.unlock_ends (R := fun _ => False) ha₂ hlocks).known
      (fun _ h => h.1.elim) fun _ _ h => h) fun _ s₃ ⟨_, hrun₃⟩ => ?_
    exact .pure ((h₁.trans h₂).tail (.unlock hlocked hrun₃))

private theorem inScope_goes {body : SessionM (List Reply)} (hσ : Permits σ p) (ha : At σ ⟨s, around⟩)
    (hlocked : locked ⟨s, around⟩ = false)
    (hbody : ∀ s' l, At σ ⟨s', .scope l :: around⟩ → Goes p (.scope l :: around) body s') :
    Goes p around (Attempt.inScope args body).reply s := by
  refine Attempt.reply_ends (.bind (Attempt.Ends.mono (Attempt.takeScope_ends args ha hσ.quiet.labels).known
    (fun s' ⟨_, why, hrun⟩ => .single (.noScope hlocked hrun)) fun _ _ h => h) fun _ s₁ ⟨⟨l, ha₁⟩, hrun⟩ => ?_)
  have h₁ : Runs (fun _ => p) ⟨s, around⟩ ⟨s₁, .scope l :: around⟩ :=
    .single (.scope hlocked hrun (ha₁.scopes.trans (congrArg (l :: ·) ha.scopes.symm)))
  have ha₁ : At σ ⟨s₁, .scope l :: around⟩ := ha₁
  refine .bind (.lift (hbody s₁ l ha₁)) fun replies s₂ h₂ => ?_
  have ha₂ : (σ.within (.scope l :: around)).At s₂ [] := hσ.at_of_runs ha₁ h₂
  refine .bind (Attempt.Ends.mono (Attempt.leaveScope_ends (R := fun _ => False) ha₂).known
    (fun _ h => h.1.elim) fun _ _ h => h) fun _ s₃ ⟨_, hrun₃⟩ => ?_
  exact .pure ((h₁.trans h₂).tail (.endScope hrun₃))

private theorem times_goes {act : SessionM α} (hσ : Permits σ p)
    (hact : ∀ s', At σ ⟨s', around⟩ → Goes p around act s') (n : Nat) : ∀ (s : Session) (last : Option α),
    At σ ⟨s, around⟩ → Goes p around (Attempt.times act n last) s := by
  induction n with
  | zero => exact fun _ _ _ => .pure .refl
  | succ n ih =>
    intro s last ha
    refine .bind (hact s ha) fun a s₁ _ h₁ => ?_
    exact (ih s₁ (some a) (hσ.at_of_runs ha h₁)).imp fun _ _ h₂ => h₁.trans h₂

private theorem repeated_goes {body : SessionM (List Reply)} (hσ : Permits σ p) (ha : At σ ⟨s, around⟩)
    (hbody : ∀ s', At σ ⟨s', around⟩ → Goes p around body s') : Goes p around (Attempt.repeated args body).reply s := by
  refine Attempt.reply_ends (.need .refl fun n _ => .bind (.lift (times_goes hσ hbody n s none ha)) fun r s' h => ?_)
  cases r with
  | none => exact .pure h
  | some replies => exact .pure h

mutual

/-- Running a request is a run, and never ends with a fault other than a misuse. -/
theorem run_goes (hσ : Permits σ p) : ∀ (r : Request) {s : Session} {around : List Surround}, r.Only p →
    At σ ⟨s, around⟩ → Goes p around (r.run (locked ⟨s, around⟩)) s
  | .unnamed, _, _, _, _ => .pure .refl
  | .unknown, _, _, _, _ => .pure .refl
  | .plain op args, s, around, hop, ha => by
    unfold run
    split
    · exact .pure .refl
    · next hc => exact plain_goes hσ ha hop fun hl => by simpa [hl] using hc
  | .compound op args body, s, around, hbody, ha => by
    unfold run
    cases hl : locked ⟨s, around⟩ with
    | true => exact .pure .refl
    | false =>
      simp only [Bool.false_eq_true, if_false]
      cases op with
      | locked => exact underLock_goes hσ ha hl fun s' o f ha' => runAll_goes hσ body hbody ha'
      | scope =>
        refine inScope_goes hσ ha hl fun s' l ha' => ?_
        have hgoes := runAll_goes hσ body hbody ha'
        rwa [show locked ⟨s', .scope l :: around⟩ = false from hl] at hgoes
      | «repeat» =>
        refine repeated_goes hσ ha fun s' ha' => ?_
        have hgoes := runAll_goes hσ body hbody ha'
        rwa [show locked ⟨s', around⟩ = false from hl] at hgoes

theorem runAll_goes (hσ : Permits σ p) : ∀ (rs : List Request) {s : Session} {around : List Surround}, OnlyAll p rs →
    At σ ⟨s, around⟩ → Goes p around (runAll (locked ⟨s, around⟩) rs) s
  | [], _, _, _, _ => .pure .refl
  | r :: rs, s, around, ⟨hr, hrs⟩, ha => by
    unfold runAll
    refine .bind (run_goes hσ r hr ha) fun x s₁ _ h₁ => ?_
    refine .bind (runAll_goes hσ rs hrs (hσ.at_of_runs ha h₁)) fun xs s₂ _ h₂ => ?_
    exact .pure (h₁.trans h₂)

end

end Request

end LazyHeap
