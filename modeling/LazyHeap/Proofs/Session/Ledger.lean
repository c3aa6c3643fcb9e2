import LazyHeap.Proofs.Session.Runs
import LazyHeap.Proofs.Sweeping
import Mathlib

/-!
The ledgers. Between two operations of a run every count is the number of references of its sort: owning
references in the shared count, observers in the weak one. A cell whose owners are gone is destroyed, and one whose
observers are gone as well is given back, once and for all.
-/
namespace LazyHeap

/-! ### Observers -/

def Link.observed : Link → Option CellId
  | .weak w => w.target
  | _ => none

/-- The cells that a value observes: targets of weak pointers in its fields, or the sources in its memo. -/
def Cell.observed (x : Cell) : List CellId :=
  match x.body with
  | .object o => o.links.filterMap Link.observed
  | .label l => l.memo.entries.map (·.1)

namespace Heap

/-- How many objects that are there were made by a label. -/
def made (h : Heap) (c : CellId) : Nat :=
  h.total fun x => if x.destroyed then 0 else if x.object?.isSome ∧ x.owner = some c then 1 else 0

end Heap

def Surround.borrowed : Surround → List CellId
  | .lock o _ => [o]
  | .scope _ => []

namespace Situation

variable {σ : Setting} {x y : Situation} {c d : CellId}

/-- The owning references from outside of the cells: of whatever has a name, of the labels in scope, and of the
objects that are borrowed while one of their fields is locked. -/
def references (x : Situation) : List CellId :=
  x.session.starts ++ x.session.heap.scopes.flatMap (·.counted?.toList) ++ x.around.flatMap Surround.borrowed

/-- Everything shared is counted: a cell that is there has as many owners as its count says, the root has one that is
always there, and what is destroyed has none. -/
structure SharedLedger (x : Situation) : Prop where
  shared : ∀ c, c ≠ rootCell → (x.session.heap.cell c).destroyed = false →
    (x.session.heap.cell c).shared = x.references.count c + x.session.heap.owners c
  root : (x.session.heap.cell rootCell).shared = 1 ∧ (x.session.heap.cell rootCell).destroyed = false
  gone : ∀ c, (x.session.heap.cell c).destroyed = true →
    (x.session.heap.cell c).shared = 0 ∧ c ∉ x.references ∧ ∀ d, c ∉ (x.session.heap.cell d).edges

def moment (x : Situation) : Moment :=
  ⟨x.session.heap, x.around.flatMap Surround.locks, [], x.session.tasks (fun _ => true) ++ x.around.flatMap Surround.tasks⟩

theorem held_within {careful apart closed lenient : Bool} (x : Situation) :
    ((Setting.initial careful apart closed lenient).within x.around).held x.session [] = x.moment.held := by
  simp [Setting.held, Setting.within, Setting.initial, moment]

theorem locks_initial {careful apart closed lenient : Bool} (x : Situation) :
    ((Setting.initial careful apart closed lenient).within x.around).locks = x.moment.locks := List.append_nil _

private theorem count_owned {α : Type} {f : α → List Task} {t : Task} (n : α → Nat) (hf : ∀ a, (f a).count t = n a)
    (m : NameMap α) : (m.owned (fun _ => true) f).count t = (m.map fun e => n e.2).sum := by
  induction m with
  | nil => rfl
  | cons e m ih =>
    simp only [NameMap.owned, List.flatMap_cons, List.count_append, if_true, List.map_cons, List.sum_cons] at ih ⊢
    rw [hf, ih]

theorem count_starts (s : Session) (c : CellId) : (s.tasks fun _ => true).count (.release c) = s.starts.count c := by
  have hslots := count_owned (fun t : Slot => (Cell.linkEdges (.owned t.pointer)).count c)
    (fun t => Link.count_tasks (.owned t.pointer) c) s.slots
  have hweaks := count_owned (fun w : WeakSlot => (Cell.linkEdges (.weak w.pointer)).count c)
    (fun w => Link.count_tasks (.weak w.pointer) c) s.weaks
  have hlabels := count_owned (fun l : Handle => (Cell.linkEdges (.label l)).count c)
    (fun l => Link.count_tasks (.label l) c) s.labels
  have hborrows := count_owned (f := fun o => [Task.release o]) (t := .release c) (fun o : CellId => [o].count c)
    (fun o => by simp [List.count_singleton]) s.borrows
  simp only [Link.tasks] at hslots hweaks hlabels
  simp only [Session.tasks, Session.starts, List.count_append, hslots, hweaks, hlabels, hborrows, List.count_flatMap,
    List.map_eq_flatMap (l := s.borrows), Function.comp_def]
  omega

theorem count_held (x : Situation) (c : CellId) :
    x.moment.heap.standing.count (.release c) + x.moment.held.count (.release c) =
      x.references.count c + if c = rootCell then 1 else 0 := by
  have hscopes : (x.session.heap.scopes.flatMap Handle.tasks).count (.release c) =
      (x.session.heap.scopes.flatMap (·.counted?.toList)).count c := by
    induction x.session.heap.scopes with
    | nil => rfl
    | cons l ls ih =>
      simp only [List.flatMap_cons, List.count_append, ih]
      cases l <;> simp [Handle.tasks, Handle.counted?, List.count_singleton]
  have haround : (x.around.flatMap Surround.tasks).count (.release c) = (x.around.flatMap Surround.borrowed).count c := by
    induction x.around with
    | nil => rfl
    | cons a as ih =>
      simp only [List.flatMap_cons, List.count_append, ih]
      cases a <;> simp [Surround.tasks, Surround.borrowed, List.count_singleton]
  simp only [Heap.standing, moment, references, List.count_cons, List.count_append, count_starts, hscopes, haround,
    beq_iff_eq, Task.release.injEq, @eq_comm _ rootCell]
  omega

variable {careful apart closed lenient : Bool}

/-- In a run that keeps the books the moment between two operations is a firm one, at which it is known who made what. -/
theorem At.moment (ha : x.At (.initial careful apart closed lenient)) :
    Firm (fun _ => False) x.moment ∧ x.moment.Owned := by
  have hsafe := ha.safe
  have howned := ha.owned
  rw [held_within, locks_initial] at hsafe howned
  exact ⟨hsafe.toFirm, howned⟩

/-- What the heap goes through from the start to the moment between two operations. -/
theorem At.course_moment (ha : x.At (.initial careful apart closed lenient)) :
    Course { careful, apart, closed, lenient } ⟨.initial, [], [], []⟩ x.moment := by
  have hcourse := ha.course
  rwa [held_within, locks_initial] at hcourse

/-- A pointer that has a name is taken in hand while no lock is held; all else that is held becomes the frame. -/
theorem At.inHand (ha : x.At (.initial careful apart closed lenient)) (hx : x.locked = false) {name : String} {t : Slot}
    (ht : x.session.slots.get? name = some t) : ∃ frame, x.moment.held.Perm (t.pointer.tasks ++ frame) ∧
      Safe { careful, apart, closed, lenient } ⟨x.session.heap, [], [], t.pointer.tasks ++ frame⟩ ∧
      t.pointer.Fits (fun _ => False) x.session.heap := by
  have hsafe := ha.safe
  rw [held_within, locks_within _ rfl hx] at hsafe
  have hperm : (x.session.slots.owned (fun _ => true) (·.pointer.tasks)).Perm ((x.session.slots.get? name).toList.flatMap
      (·.pointer.tasks) ++ x.session.slots.owned (fun n => true && decide (n ≠ name)) (·.pointer.tasks)) :=
    ha.fits.slots.distinct.owned_reserve rfl
  rw [ht, Option.toList_some, List.flatMap_singleton] at hperm
  obtain ⟨others, hsplit⟩ : ∃ others, x.moment.held = x.session.slots.owned (fun _ => true) (·.pointer.tasks) ++ others :=
    ⟨_, List.append_assoc _ _ _⟩
  have hheld := hsplit ▸ (hperm.append_right others).trans (.of_eq (List.append_assoc _ _ _))
  exact ⟨_, hheld, (hsafe.step (.arrange hheld)).1, ha.fits.slots.get ht rfl⟩

theorem At.sharedLedger (ha : x.At (.initial careful apart closed lenient)) : x.SharedLedger := by
  obtain ⟨hs, -⟩ := ha.moment
  have hclaims : ∀ c, x.moment.claims (.release c) =
      x.references.count c + x.session.heap.owners c + if c = rootCell then 1 else 0 := fun c => by
    have := count_held x c
    have hown : x.session.heap.owners c = x.session.heap.inward c := hs.owners_eq c
    rw [Moment.claims, Heap.due_release, hown, show x.moment.pending.count (.release c) = 0 from rfl,
      show x.moment.heap.inward c = x.session.heap.inward c from rfl]
    omega
  have hroot : x.session.heap.Live rootCell := hs.live_of_held (.inr List.mem_cons_self)
  refine ⟨fun c hc hd => ?_, ⟨?_, hroot.destroyed⟩, fun c hd => ?_⟩
  · have hlive : x.session.heap.Live c := hs.live_of_not_destroyed rfl hd
    have := hs.shared c hlive.collected
    rwa [hclaims, if_neg hc] at this
  · have := hs.shared rootCell hroot.collected
    rwa [hs.root.1] at this
  · refine ⟨(hs.dead c hd).1, fun hm => ?_, fun d hm => ?_⟩
    · have hpos := List.count_pos_iff.2 hm
      have hheld : x.moment.heap.Held x.moment.held c := by
        have hpos : 0 < x.moment.heap.standing.count (.release c) + x.moment.held.count (.release c) := by
          rw [count_held]
          omega
        exact (Nat.add_pos_iff_pos_or_pos.1 hpos).symm.imp List.count_pos_iff.1 List.count_pos_iff.1
      have := (hs.live_of_held hheld).destroyed
      rw [show x.moment.heap.cell c = x.session.heap.cell c from rfl, hd] at this
      cases this
    · have hdd : (x.session.heap.cell d).destroyed = false := by
        rw [← Bool.not_eq_true]
        intro hdd
        rw [show (x.session.heap.cell d).edges = [] from hs.destroyed_edges hdd] at hm
        cases hm
      have := (hs.live_of_edge (hs.live_of_not_destroyed rfl hdd) hm).destroyed
      rw [show x.moment.heap.cell c = x.session.heap.cell c from rfl, hd] at this
      cases this

/-- No header is changed by hand: neither counts nor colours nor flags. -/
abbrev HeadersKept (_ : Session) (_ : Args) (op : Op) : Prop := op ≠ .header .change

theorem HeadersKept.permitted {s : Session} {args : Args} {op : Op} (hop : HeadersKept s args op) : op.Permitted {} s args := by
  cases op with
  | pointer op => cases op <;> first | exact trivial | exact rfl | exact ⟨rfl, rfl⟩
  | object op => exact Attempt.unfrozen_of_not_minds (by simp [Rules.Minds])
  | label op => cases op <;> first | exact trivial | exact nofun
  | header op => exact fun he => hop (congrArg _ he)
  | weak op => exact trivial
  | collector op => exact trivial
  | view op => exact trivial

theorem at_headersKept (hrun : Runs HeadersKept initial x) : x.At (.initial false false false) :=
  at_of_runs (fun _ _ _ => HeadersKept.permitted) hrun

/-- Whatever requests come next, none of them takes a count below zero, destroys a value twice or finds a pointer
without an owner: they come to an end, unless they look into an empty handle, or wait for a lock that they hold
themselves, or never finish. -/
theorem misuse_of_runAll (ha : x.At (.initial false false false)) {rs : List Request}
    (hrs : Request.OnlyAll (fun _ op => op ≠ .header .change) rs) {e : Fault}
    (he : Request.runAll x.locked rs x.session = .error e) : e.Misuse := by
  have hgoes : SessionM.Ends (Request.runAll x.locked rs) x.session _ := Request.runAll_goes
    (σ := .initial false false false) ⟨plain_initial, fun _ _ _ => HeadersKept.permitted⟩ rs hrs ha
  unfold SessionM.Ends at hgoes
  rwa [he] at hgoes

/-- In every run in which no header is changed by hand the shared counts are right between any two operations, and no
request that comes next runs into a count that is not. -/
theorem sharedLedger_of_runs (hrun : Runs HeadersKept initial x) : x.SharedLedger ∧
    ∀ rs, Request.OnlyAll (fun _ op => op ≠ .header .change) rs → ∀ e, Request.runAll x.locked rs x.session = .error e →
      e.Misuse :=
  have ha := at_headersKept hrun
  ⟨ha.sharedLedger, fun _ hrs _ he => misuse_of_runAll ha hrs he⟩

/-- A node under a new label, and two pointers to it. -/
def twoPointers : List (Op × Args) :=
  [(.label .spawn, { Args.blank with dest := some "l" }),
    (.pointer .new, { Args.blank with dest := some "p", value := some (.int 3), within := some "l" }),
    (.pointer .clone, { Args.blank with a := some "p", dest := some "q" })]

theorem sharedLedger_of_twoPointers :
    ∃ x, initial.after twoPointers = some x ∧ x.references = [2, 1, 2, 1, 1] ∧ x.SharedLedger ∧
      ∀ rs, Request.OnlyAll (fun _ op => op ≠ .header .change) rs → ∀ e, Request.runAll x.locked rs x.session = .error e →
        e.Misuse := by
  obtain ⟨x, hx, href⟩ : ∃ x, initial.after twoPointers = some x ∧ x.references = [2, 1, 2, 1, 1] :=
    Option.map_eq_some_iff.1 (by cbv)
  exact ⟨x, hx, href, sharedLedger_of_runs (runs_of_after rfl hx (by simp [twoPointers]))⟩

end Situation

end LazyHeap
