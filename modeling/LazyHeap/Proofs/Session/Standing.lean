import LazyHeap.Proofs.Finishing
import LazyHeap.Proofs.Session.Outcomes

/-!
Sessions between two steps of an operation. Everything that has a name owns references; an operation has some more in
hand, and requests that are under way around it hold what they borrow. Names can be reserved: what they stand
for is then no longer counted with the session, but is in hand or belongs to the outside.
-/
namespace LazyHeap

/-! ### What named things own -/

namespace NameMap

variable {α : Type} {m : NameMap α} {p : String → Bool} {f : α → List Task} {P P' : α → Prop} {name : String} {a : α}

/-- The references of what is under the names that `p` admits. -/
def owned (p : String → Bool) (f : α → List Task) (m : NameMap α) : List Task :=
  m.flatMap fun e => if p e.1 then f e.2 else []

/-- Each name stands for one thing, which satisfies `P` if `p` admits the name. -/
structure Fits (p : String → Bool) (P : α → Prop) (m : NameMap α) : Prop where
  distinct : m.Distinct
  each : ∀ e ∈ m, p e.1 = true → P e.2

theorem owned_erase (m : NameMap α) (name : String) : (m.erase name).owned p f = m.owned (fun n => p n && decide (n ≠ name)) f := by
  induction m with
  | nil => rfl
  | cons e m ih =>
    by_cases he : e.1 = name
    · have : NameMap.erase (e :: m) name = NameMap.erase m name := List.filter_cons_of_neg (by simpa using he)
      rw [this, ih]
      simp [owned, he]
    · have : NameMap.erase (e :: m) name = e :: NameMap.erase m name := List.filter_cons_of_pos (by simpa using he)
      rw [this]
      simp only [owned, List.flatMap_cons] at ih ⊢
      rw [ih]
      simp [he]

theorem Distinct.owned_reserve (hm : m.Distinct) (hp : p name = true) : (m.owned p f).Perm
    ((m.get? name).toList.flatMap f ++ m.owned (fun n => p n && decide (n ≠ name)) f) := by
  rw [← owned_erase]
  cases hg : m.get? name with
  | none =>
    rw [erase_of_none hg]
    exact .refl _
  | some a =>
    refine ((hm.perm_erase hg).flatMap_right _).trans ?_
    simp [owned, hp]

theorem owned_insert (m : NameMap α) (a : α) (hp : p name = true) :
    ((m.insert name a).owned p f).Perm (f a ++ m.owned (fun n => p n && decide (n ≠ name)) f) := by
  rw [← owned_erase]
  refine ((insert_perm m name a).flatMap_right _).trans ?_
  simp [owned, hp]

theorem mem_owned (hg : m.get? name = some a) (hp : p name = true) : ∀ t ∈ f a, t ∈ m.owned p f := fun _ ht =>
  List.mem_flatMap.2 ⟨_, mem_of_get? hg, by simpa [hp] using ht⟩

namespace Fits

theorem get (hm : m.Fits p P) (hg : m.get? name = some a) (hp : p name = true) : P a :=
  hm.each _ (mem_of_get? hg) hp

theorem imp (hm : m.Fits p P) (hP : ∀ a, P a → P' a) : m.Fits p P' :=
  ⟨hm.distinct, fun e he hp => hP _ (hm.each e he hp)⟩

theorem reserve (hm : m.Fits p P) (name : String) : m.Fits (fun n => p n && decide (n ≠ name)) P :=
  ⟨hm.distinct, fun e he hp => hm.each e he (Bool.and_eq_true_iff.1 hp).1⟩

theorem insert (hm : m.Fits (fun n => p n && decide (n ≠ name)) P) (ha : P a) : (m.insert name a).Fits p P := by
  refine ⟨hm.distinct.insert name a, fun e he hp => ?_⟩
  rcases List.mem_cons.1 ((insert_perm m name a).mem_iff.1 he) with rfl | he
  · exact ha
  · have := mem_erase.1 he
    exact hm.each e this.1 (by simp [hp, this.2])

theorem erase (hm : m.Fits (fun n => p n && decide (n ≠ name)) P) : (m.erase name).Fits p P := by
  refine ⟨hm.distinct.erase name, fun e he hp => ?_⟩
  have := mem_erase.1 he
  exact hm.each e this.1 (by simp [hp, this.2])

end Fits

end NameMap

/-- Where a session keeps a named thing. -/
inductive Place where
  | slot (name : String)
  | weak (name : String)
  | label (name : String)
  | borrow (name : String)
deriving DecidableEq

def Place.name : Place → String
  | .slot n => n
  | .weak n => n
  | .label n => n
  | .borrow n => n

def Place.isBorrow : Place → Bool
  | .borrow _ => true
  | _ => false

namespace Session

/-- The references of all that has a name, unless the name is reserved. -/
def tasks (free : Place → Bool) (s : Session) : List Task :=
  s.slots.owned (fun n => free (.slot n)) (·.pointer.tasks) ++
    (s.weaks.owned (fun n => free (.weak n)) (·.pointer.tasks) ++
      (s.labels.owned (fun n => free (.label n)) Handle.tasks ++
        s.borrows.owned (fun n => free (.borrow n)) fun c => [.release c]))

/-- Whatever has a name is of the right kind, unless the name is reserved. -/
structure Fits (sealed : CellId → Prop) (free : Place → Bool) (s : Session) : Prop where
  slots : s.slots.Fits (fun n => free (.slot n)) fun t => t.pointer.Fits sealed s.heap
  weaks : s.weaks.Fits (fun n => free (.weak n)) fun w => w.pointer.Fits sealed s.heap
  labels : s.labels.Fits (fun n => free (.label n)) fun l => l.Fits sealed s.heap
  borrows : s.borrows.Fits (fun n => free (.borrow n)) fun c => s.heap.IsObject c

theorem Fits.grows {sealed : CellId → Prop} {free : Place → Bool} {s : Session} {h' : Heap}
    (hs : s.Fits sealed free) (hg : s.heap.Grows h') : Fits sealed free (s.withHeap h') where
  slots := hs.slots.imp fun _ h => h.grows hg
  weaks := hs.weaks.imp fun _ h => h.grows hg
  labels := hs.labels.imp fun _ h => h.grows hg
  borrows := hs.borrows.imp fun _ h => hg.object _ h

end Session

/-- One of the four maps of a session. Whatever is put into its place, and whichever of its names are reserved, all the
other maps own what they owned. -/
structure Shelf (α : Type) where
  map : Session → NameMap α
  put : Session → NameMap α → Session
  place : String → Place
  tasks : α → List Task
  Fits : (CellId → Prop) → Heap → α → Prop
  put_map : ∀ s, put s (map s) = s
  heap_put : ∀ s m, (put s m).heap = s.heap
  slots_put : ∀ (s : Session) (m : NameMap α) n, (∀ k, place k = .slot n → m.get? k = (map s).get? k) →
    (put s m).slots.get? n = s.slots.get? n
  borrows_put : ∀ (s : Session) (m : NameMap α) n, (∀ k, place k = .borrow n → m.get? k = (map s).get? k) →
    (put s m).borrows.get? n = s.borrows.get? n
  place_inj : ∀ {n k : String}, place n = place k ↔ n = k
  split : ∀ (s : Session) (m : NameMap α) (free free' : Place → Bool), (∀ q, (∀ n, q ≠ place n) → free' q = free q) →
    ∃ others, (s.tasks free).Perm ((map s).owned (fun n => free (place n)) tasks ++ others) ∧
      ((put s m).tasks free').Perm (m.owned (fun n => free' (place n)) tasks ++ others)
  fits_map : ∀ {sealed free s}, s.Fits sealed free → (map s).Fits (fun n => free (place n)) (Fits sealed s.heap)
  fits_put : ∀ {sealed free free' s m}, Session.Fits sealed free s → (∀ q, (∀ n, q ≠ place n) → free' q = free q) →
    m.Fits (fun n => free' (place n)) (Fits sealed s.heap) → (put s m).Fits sealed free'

namespace Shelf

private theorem split_perm {a b c d : List Task} (h : a.Perm (b ++ c)) : (d ++ a).Perm (b ++ (d ++ c)) :=
  (h.append_left d).trans (List.perm_append_comm_assoc d b c)

def slots : Shelf Slot where
  map := (·.slots)
  put s m := { s with slots := m }
  place := .slot
  tasks := (·.pointer.tasks)
  Fits sealed h t := t.pointer.Fits sealed h
  put_map _ := rfl
  heap_put _ _ := rfl
  slots_put _ _ n h := h n rfl
  borrows_put _ _ _ _ := rfl
  place_inj := by simp
  split s m free free' h := by
    refine ⟨_, .refl _, ?_⟩
    simp [Session.tasks, h]
  fits_map h := h.slots
  fits_put h hq hm := ⟨hm, by simpa [hq] using h.weaks, by simpa [hq] using h.labels, by simpa [hq] using h.borrows⟩

def weaks : Shelf WeakSlot where
  map := (·.weaks)
  put s m := { s with weaks := m }
  place := .weak
  tasks := (·.pointer.tasks)
  Fits sealed h t := t.pointer.Fits sealed h
  put_map _ := rfl
  heap_put _ _ := rfl
  slots_put _ _ _ _ := rfl
  borrows_put _ _ _ _ := rfl
  place_inj := by simp
  split s m free free' h := by
    refine ⟨_, split_perm (.refl _), ?_⟩
    simpa [Session.tasks, h] using split_perm (.refl _)
  fits_map h := h.weaks
  fits_put h hq hm := ⟨by simpa [hq] using h.slots, hm, by simpa [hq] using h.labels, by simpa [hq] using h.borrows⟩

def labels : Shelf Handle where
  map := (·.labels)
  put s m := { s with labels := m }
  place := .label
  tasks := Handle.tasks
  Fits sealed h l := l.Fits sealed h
  put_map _ := rfl
  heap_put _ _ := rfl
  slots_put _ _ _ _ := rfl
  borrows_put _ _ _ _ := rfl
  place_inj := by simp
  split s m free free' h := by
    refine ⟨_, split_perm (split_perm (.refl _)), ?_⟩
    simpa [Session.tasks, h] using split_perm (split_perm (.refl _))
  fits_map h := h.labels
  fits_put h hq hm := ⟨by simpa [hq] using h.slots, by simpa [hq] using h.weaks, hm, by simpa [hq] using h.borrows⟩

def borrows : Shelf CellId where
  map := (·.borrows)
  put s m := { s with borrows := m }
  place := .borrow
  tasks c := [.release c]
  Fits _ h c := h.IsObject c
  put_map _ := rfl
  heap_put _ _ := rfl
  slots_put _ _ _ _ := rfl
  borrows_put _ _ n h := h n rfl
  place_inj := by simp
  split s m free free' h := by
    refine ⟨_, split_perm (split_perm (split_perm (.of_eq (List.append_nil _).symm))), ?_⟩
    simpa [Session.tasks, h] using split_perm (split_perm (split_perm (.of_eq (List.append_nil _).symm)))
  fits_map h := h.borrows
  fits_put h hq hm := ⟨by simpa [hq] using h.slots, by simpa [hq] using h.weaks, by simpa [hq] using h.labels, hm⟩

end Shelf

/-! ### Circumstances -/

/-- The circumstances under which operations are performed: the rules, the moment at which the run began, what the
requests around hold and have locked, what is held all along for the sake of what is left as it is, the names that are
not reserved, what is known all along of the slots and the borrows that are reserved, and the frozen objects that are
borrowed all along. -/
structure Setting where
  rules : Rules
  origin : Moment
  locks : List Lock
  scopes : List Handle
  outer : List Task
  anchor : List Task
  free : Place → Bool
  kept : Session → Prop
  lent : CellId → Prop
  settled : rules.Settled
  unsteady : ∀ c, ¬ rules.steady c
  rootFree : ¬ rules.sealed rootCell
  fieldLocks : FieldLocks locks
  guarded : ∀ x ∈ locks, .release x.1 ∈ outer
  anchored : ∀ t ∈ anchor, t ∈ outer
  keptReserved : ∀ s s' : Session, kept s → (∀ n, free (.slot n) = false → s'.slots.get? n = s.slots.get? n) →
    (∀ n, free (.borrow n) = false → s'.borrows.get? n = s.borrows.get? n) → kept s'
  lentOuter : ∀ c, lent c → .release c ∈ outer

namespace Setting

def reserve (σ : Setting) (p : Place) : Setting :=
  { σ with
    free := fun q => σ.free q && decide (q ≠ p)
    keptReserved := fun s s' hs hslots hborrows => σ.keptReserved s s' hs (fun n hn => hslots n (by simp [hn]))
      fun n hn => hborrows n (by simp [hn]) }

def held (σ : Setting) (s : Session) (hand : List Task) : List Task := hand ++ (s.tasks σ.free ++ σ.outer)

theorem mem_held_of_anchor {σ : Setting} {s : Session} {hand : List Task} {t : Task} (ht : t ∈ σ.anchor) :
    t ∈ σ.held s hand :=
  List.mem_append_right _ (List.mem_append_right _ (σ.anchored t ht))

/-- A session under these circumstances, with some references in hand. -/
structure At (σ : Setting) (s : Session) (hand : List Task) : Prop where
  course : Course σ.rules σ.origin ⟨s.heap, σ.locks, [], σ.held s hand⟩
  safe : Safe σ.rules ⟨s.heap, σ.locks, [], σ.held s hand⟩
  owned : Moment.Owned ⟨s.heap, σ.locks, [], σ.held s hand⟩
  fits : s.Fits σ.rules.sealed σ.free
  scopes : s.heap.scopes = σ.scopes
  anchors : σ.rules.Anchors s.heap σ.anchor
  fixed : ∀ c, σ.rules.fixed c → (s.heap.cell c).frozen = true
  kept : σ.kept s
  lent : ∀ c, σ.lent c → s.heap.IsObject c ∧ (s.heap.cell c).frozen = true

namespace At

variable {σ σ' : Setting} {s s' : Session} {hand hand' ins rest : List Task} {name : String}

private theorem rearrange (free : Place → Bool) (ha : σ.At s hand) (hheap : s'.heap = s.heap)
    (hperm : (hand ++ s.tasks σ.free).Perm (hand' ++ s'.tasks free)) (hfits : s'.Fits σ.rules.sealed free)
    (hreserved : ∀ s s' : Session, σ.kept s → (∀ n, free (.slot n) = false → s'.slots.get? n = s.slots.get? n) →
      (∀ n, free (.borrow n) = false → s'.borrows.get? n = s.borrows.get? n) → σ.kept s') (hkept : σ.kept s') :
    ({ σ with free := free, keptReserved := hreserved } : Setting).At s' hand' := by
  have hp : (σ.held s hand).Perm (hand' ++ (s'.tasks free ++ σ.outer)) := by
    simp only [held, ← List.append_assoc]
    exact hperm.append_right _
  have hstep : Advance σ.rules ⟨s.heap, σ.locks, [], σ.held s hand⟩
      ⟨s'.heap, σ.locks, [], hand' ++ (s'.tasks free ++ σ.outer)⟩ := by
    rw [hheap]
    exact .arrange hp
  exact {
    course := ha.course.tail ⟨_, hstep⟩
    safe := (ha.safe.step hstep).1
    owned := hstep.owned ha.safe.toFirm ha.owned
    fits := hfits
    scopes := hheap ▸ ha.scopes
    anchors := hheap ▸ ha.anchors
    fixed := hheap ▸ ha.fixed
    kept := hkept
    lent := hheap ▸ ha.lent }

theorem perm (ha : σ.At s hand) (hp : hand.Perm hand') : σ.At s hand' :=
  ha.rearrange σ.free rfl (hp.append_right _) ha.fits σ.keptReserved ha.kept

/-! #### Reserving a name, and putting something under it or nothing -/

section Shelves

variable {α : Type} (S : Shelf α) {a : α}

/-- What a name stands for comes into hand, and the name is reserved. -/
theorem take (ha : σ.At s hand) (hfree : σ.free (S.place name) = true) :
    (σ.reserve (S.place name)).At s (((S.map s).get? name).toList.flatMap S.tasks ++ hand) := by
  have hq : ∀ q, (∀ n, q ≠ S.place n) → (σ.reserve (S.place name)).free q = σ.free q := fun q hq => by
    simp [reserve, hq name]
  obtain ⟨others, h₁, h₂⟩ := S.split s (S.map s) σ.free _ hq
  have hm := S.fits_map ha.fits
  have hr : (fun n => (σ.reserve (S.place name)).free (S.place n)) = fun n => σ.free (S.place n) && decide (n ≠ name) :=
    funext fun n => by simp [reserve, S.place_inj]
  have hfits := S.fits_put ha.fits hq (m := S.map s) (by rw [hr]; exact hm.reserve name)
  rw [S.put_map] at h₂ hfits
  refine ha.rearrange (σ.reserve (S.place name)).free rfl ?_ hfits (σ.reserve (S.place name)).keptReserved ha.kept
  have hp := hm.distinct.owned_reserve (p := fun n => σ.free (S.place n)) (f := S.tasks) hfree
  rw [hr] at h₂
  refine List.perm_iff_count.2 fun t => ?_
  have := h₁.count_eq t
  have := h₂.count_eq t
  have := hp.count_eq t
  simp only [List.count_append] at *
  omega

private theorem giveBack {m : NameMap α} (ha : (σ.reserve (S.place name)).At s hand) (hfree : σ.free (S.place name) = true)
    (hothers : ∀ k, k ≠ name → m.get? k = (S.map s).get? k)
    (hm : m.Fits (fun n => σ.free (S.place n)) (S.Fits σ.rules.sealed s.heap))
    (hp : (hand ++ (S.map s).owned (fun n => σ.free (S.place n) && decide (n ≠ name)) S.tasks).Perm
      (hand' ++ m.owned (fun n => σ.free (S.place n)) S.tasks)) : σ.At (S.put s m) hand' := by
  have hq : ∀ q, (∀ n, q ≠ S.place n) → σ.free q = (σ.reserve (S.place name)).free q := fun q hq => by
    simp [reserve, hq name]
  obtain ⟨others, h₁, h₂⟩ := S.split s m _ σ.free hq
  have hr : (fun n => (σ.reserve (S.place name)).free (S.place n)) = fun n => σ.free (S.place n) && decide (n ≠ name) :=
    funext fun n => by simp [reserve, S.place_inj]
  rw [hr] at h₁
  -- what is kept has another name
  have hother : ∀ {k q}, S.place k = q → σ.free q = false → m.get? k = (S.map s).get? k := fun hk hq => hothers _ fun he => by
    rw [← he, hk, hq] at hfree
    cases hfree
  have hkept : σ.kept (S.put s m) := σ.keptReserved s _ ha.kept
    (fun n hn => S.slots_put s m n fun k hk => hother hk hn) fun n hn => S.borrows_put s m n fun k hk => hother hk hn
  refine ha.rearrange σ.free (S.heap_put s m) ?_ (S.fits_put ha.fits hq hm) σ.keptReserved hkept
  refine List.perm_iff_count.2 fun t => ?_
  have := h₁.count_eq t
  have := h₂.count_eq t
  have := hp.count_eq t
  simp only [List.count_append] at *
  omega

theorem fill (ha : (σ.reserve (S.place name)).At s (S.tasks a ++ hand)) (hfree : σ.free (S.place name) = true)
    (hfits : S.Fits σ.rules.sealed s.heap a) : σ.At (S.put s ((S.map s).insert name a)) hand := by
  have hm := S.fits_map ha.fits
  simp only [reserve, ne_eq, S.place_inj] at hm
  refine ha.giveBack S hfree (fun k hk => NameMap.get?_insert_of_ne _ _ hk) (hm.insert hfits) ?_
  refine List.perm_iff_count.2 fun t => ?_
  have := (NameMap.owned_insert (p := fun n => σ.free (S.place n)) (f := S.tasks) (S.map s) a hfree).count_eq t
  simp only [List.count_append] at *
  omega

theorem clear (ha : (σ.reserve (S.place name)).At s hand) (hfree : σ.free (S.place name) = true) : σ.At (S.put s ((S.map s).erase name)) hand := by
  have hm := S.fits_map ha.fits
  simp only [reserve, ne_eq, S.place_inj] at hm
  refine ha.giveBack S hfree (fun k hk => NameMap.get?_erase_of_ne _ hk) hm.erase ?_
  rw [NameMap.owned_erase]

/-- What a name stands for is no longer in hand, and the name is not reserved any more. -/
theorem untake (ha : (σ.reserve (S.place name)).At s (S.tasks a ++ hand)) (hget : (S.map s).get? name = some a)
    (hfree : σ.free (S.place name) = true) (hfits : S.Fits σ.rules.sealed s.heap a) : σ.At s hand := by
  have hm := S.fits_map ha.fits
  simp only [reserve, ne_eq, S.place_inj] at hm
  have hfull : (S.map s).Fits (fun n => σ.free (S.place n)) (S.Fits σ.rules.sealed s.heap) :=
    ⟨hm.distinct, fun e he hp => by
      rcases Decidable.em (e.1 = name) with hn | hn
      · have heq : (S.map s).get? e.1 = some e.2 := hm.distinct.get?_of_mem he
        rw [hn, hget] at heq
        exact Option.some.inj heq ▸ hfits
      · exact hm.each e he (by simp [hp, hn])⟩
  have hback : σ.At (S.put s (S.map s)) hand := ha.giveBack S hfree (fun _ _ => rfl) hfull ?_
  · rwa [S.put_map] at hback
  · refine List.perm_iff_count.2 fun t => ?_
    have := (hm.distinct.owned_reserve (p := fun n => σ.free (S.place n)) (f := S.tasks) hfree).count_eq t
    rw [hget] at this
    simp only [Option.toList_some, List.flatMap_singleton, List.count_append] at *
    omega

end Shelves

/-! #### Operations of the heap -/

theorem holding (ha : σ.At s hand) (hp : hand.Perm (ins ++ rest)) :
    Holding (.sparing σ.rules.sealed) σ.rules σ.locks (σ.held s rest) s.heap ins where
  safe := by
    have := ha.perm hp
    simpa only [held, List.append_assoc] using this.safe
  within x hx := .held (.inl (List.mem_append_right _ (List.mem_append_right _ (σ.guarded x hx))))

/-- Whatever an operation of the heap does, the session is as it was but for the heap. -/
theorem goes {h' : Heap} {outs : List Task} (ha : σ.At s hand) (hp : hand.Perm (ins ++ rest))
    (hscopes : h'.scopes = s.heap.scopes) (hpass : Passage σ.rules σ.locks (σ.held s rest) s.heap ins h' outs) :
    s.heap.Grows h' ∧ σ.At (s.withHeap h') (outs ++ rest) := by
  have hgrows := hpass.grows
  have hassoc : ∀ us : List Task, us ++ σ.held s rest = σ.held (s.withHeap h') (us ++ rest) := fun us => by
    simp [held, Session.tasks, Session.withHeap]
  have hcourse : Course σ.rules ⟨s.heap, σ.locks, [], σ.held s hand⟩
      ⟨h', σ.locks, [], σ.held (s.withHeap h') (outs ++ rest)⟩ := by
    refine .trans (.single ⟨σ.rules.opened, .arrange ?_⟩) (hassoc outs ▸ hpass.course)
    simpa only [held, List.append_assoc] using hp.append_right (s.tasks σ.free ++ σ.outer)
  refine ⟨hgrows, {
    course := ha.course.trans hcourse
    safe := hassoc outs ▸ hpass.safe
    owned := hcourse.owned ha.safe.toFirm ha.owned
    fits := ha.fits.grows hgrows
    scopes := hscopes.trans ha.scopes
    anchors := fun d hd => (ha.anchors d hd).course hcourse ha.safe.toFirm fun t ht => mem_held_of_anchor ht
    fixed := fun c hc => ?_
    kept := σ.keptReserved s _ ha.kept (fun _ _ => rfl) fun _ _ => rfl
    lent := fun c hc => (ha.lent c hc).imp (hgrows.object c) (hpass.lends.frozen c (ha.lent c hc).1
      (List.mem_append_right _ (List.mem_append_right _ (σ.lentOuter c hc)))) }⟩
  have hf := ha.fixed c hc
  exact ((hcourse.lasts ha.safe.toFirm).frozen hc (Heap.lt_size_of_frozen hf)).trans hf

end At

end Setting

end LazyHeap
