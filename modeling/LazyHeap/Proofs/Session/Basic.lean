import LazyHeap.Proofs.Session.Standing

/-! What all operations of a session have in common: looking operands up, and storing results. -/
namespace LazyHeap

variable {α β : Type} {σ : Setting} {s : Session} {hand hand' I F : List Task} {name : String}
variable {R : Session → Prop} {Q : α → Session → Prop} {Q' : β → Session → Prop}

namespace Attempt.Ends

/-! ### Operands -/

theorem need {operand : String} {x : Option α} {f : α → Attempt β} (hr : R s)
    (hf : ∀ a, x = some a → Ends (f a) s R Q') : Ends (Attempt.need operand x >>= f) s R Q' := by
  cases x with
  | none => exact .bind (.throw (Q := fun _ _ => False) hr) nofun
  | some a => exact .look (a := a) rfl (hf a rfl)

theorem cell {c : CellId} {f : Cell → Attempt β} (hf : Ends (f (s.heap.cell c)) s R Q') :
    Ends (Attempt.cell c >>= f) s R Q' := .look rfl hf

theorem serialOf {c : CellId} {f : Nat → Attempt β} (hf : ∀ n, Ends (f n) s R Q') :
    Ends (Attempt.serialOf c >>= f) s R Q' := .look rfl (hf _)

theorem serialOf? {c : Option CellId} {f : Option Nat → Attempt β} (hf : ∀ n, Ends (f n) s R Q') :
    Ends (Attempt.serialOf? c >>= f) s R Q' := by
  cases c with
  | none => exact .look rfl (hf none)
  | some c => exact .look rfl (hf _)

theorem slot {f : Slot → Attempt β} (hr : R s) (hf : ∀ t, s.slots.get? name = some t → Ends (f t) s R Q') :
    Ends (Attempt.slot name >>= f) s R Q' := by
  refine .bind (Q := fun t s' => s.slots.get? name = some t ∧ s' = s) (.get_bind ?_) fun t _ ⟨ht, hs⟩ => hs ▸ hf t ht
  split
  · next t ht => exact .pure ⟨ht, rfl⟩
  · exact .throw hr

theorem weak {f : WeakSlot → Attempt β} (hr : R s) (hf : ∀ t, s.weaks.get? name = some t → Ends (f t) s R Q') :
    Ends (Attempt.weak name >>= f) s R Q' := by
  refine .bind (Q := fun t s' => s.weaks.get? name = some t ∧ s' = s) (.get_bind ?_) fun t _ ⟨ht, hs⟩ => hs ▸ hf t ht
  split
  · next t ht => exact .pure ⟨ht, rfl⟩
  · exact .throw hr

theorem label {f : Handle → Attempt β} (hr : R s) (hf : ∀ t, s.labels.get? name = some t → Ends (f t) s R Q') :
    Ends (Attempt.label name >>= f) s R Q' := by
  refine .bind (Q := fun t s' => s.labels.get? name = some t ∧ s' = s) (.get_bind ?_) fun t _ ⟨ht, hs⟩ => hs ▸ hf t ht
  split
  · next t ht => exact .pure ⟨ht, rfl⟩
  · exact .throw hr

theorem borrowed {f : CellId → Attempt β} (hr : R s) (hf : ∀ t, s.borrows.get? name = some t → Ends (f t) s R Q') :
    Ends (Attempt.borrowed name >>= f) s R Q' := by
  refine .bind (Q := fun t s' => s.borrows.get? name = some t ∧ s' = s) (.get_bind ?_) fun t _ ⟨ht, hs⟩ => hs ▸ hf t ht
  split
  · next t ht => exact .pure ⟨ht, rfl⟩
  · exact .throw hr

variable {args : Args}

theorem slotA {f : String × Slot → Attempt β} (hr : R s)
    (hf : ∀ name t, args.a = some name → s.slots.get? name = some t → Ends (f (name, t)) s R Q') :
    Ends (Attempt.slotA args >>= f) s R Q' :=
  .bind (Q := fun x s' => args.a = some x.1 ∧ s.slots.get? x.1 = some x.2 ∧ s' = s)
    (.need hr fun _ ha => .slot hr fun _ ht => .pure ⟨ha, ht, rfl⟩) fun x _ ⟨ha, ht, hs⟩ => hs ▸ hf x.1 x.2 ha ht

theorem weakA {f : String × WeakSlot → Attempt β} (hr : R s)
    (hf : ∀ name t, args.a = some name → s.weaks.get? name = some t → Ends (f (name, t)) s R Q') :
    Ends (Attempt.weakA args >>= f) s R Q' :=
  .bind (Q := fun x s' => args.a = some x.1 ∧ s.weaks.get? x.1 = some x.2 ∧ s' = s)
    (.need hr fun _ ha => .weak hr fun _ ht => .pure ⟨ha, ht, rfl⟩) fun x _ ⟨ha, ht, hs⟩ => hs ▸ hf x.1 x.2 ha ht

theorem labelA {f : String × Handle → Attempt β} (hr : R s)
    (hf : ∀ name t, args.a = some name → s.labels.get? name = some t → Ends (f (name, t)) s R Q') :
    Ends (Attempt.labelA args >>= f) s R Q' :=
  .bind (Q := fun x s' => args.a = some x.1 ∧ s.labels.get? x.1 = some x.2 ∧ s' = s)
    (.need hr fun _ ha => .label hr fun _ ht => .pure ⟨ha, ht, rfl⟩) fun x _ ⟨ha, ht, hs⟩ => hs ▸ hf x.1 x.2 ha ht

theorem word {x : Attempt α} {f : α → Attempt β} (hx : Ends x s (· = s) fun _ s' => s' = s) (hr : R s)
    (hf : ∀ a, Ends (f a) s R Q') : Ends (x >>= f) s R Q' :=
  .bind (Q := fun _ s' => s' = s) (hx.mono (fun _ h => h ▸ hr) fun _ _ h => h) fun a _ hs => hs ▸ hf a

theorem objectKind {word : Option String} : Ends (Attempt.objectKind word) s (· = s) fun _ s' => s' = s := by
  unfold Attempt.objectKind
  split <;> first | exact .pure rfl | exact .throw rfl

theorem pointee {word : String} : Ends (Attempt.pointee word) s (· = s) fun _ s' => s' = s := by
  unfold Attempt.pointee
  split <;> first | exact .pure rfl | exact .throw rfl

end Attempt.Ends

/-! ### Operations of the heap -/

namespace Setting.At

/-- An operation of the heap uses some of the references in hand, and may exempt cells in its course. -/
theorem passage {x : HeapM α} {P : α → Heap → Prop} {O : α → List Task} {f : α → Attempt β} (ha : σ.At s hand)
    (hp : hand.Perm (I ++ F))
    (hx : Holding (.sparing σ.rules.sealed) σ.rules σ.locks (σ.held s F) s.heap I →
      LazyHeap.Ends Fault.Misuse (x s.heap) fun a h' => P a h' ∧ h'.scopes = s.heap.scopes ∧
        Passage σ.rules σ.locks (σ.held s F) s.heap I h' (O a))
    (hf : ∀ a h', x s.heap = .ok (a, h') → P a h' → s.heap.Grows h' → σ.At (s.withHeap h') (O a ++ F) →
      Attempt.Ends (f a) (s.withHeap h') R Q') : Attempt.Ends (Attempt.heap x >>= f) s R Q' := by
  refine .bind (Q := fun a s' => ∃ h', s' = s.withHeap h' ∧ x s.heap = .ok (a, h') ∧ P a h' ∧
      s.heap.Grows h' ∧ σ.At s' (O a ++ F)) (.heap (hx (ha.holding hp)) fun a h' hrun ⟨hP, hscopes, hpass⟩ => ?_)
    fun a _ ⟨h', hs', hrun, hP, hg, ha'⟩ => ?_
  · exact ⟨h', rfl, hrun, hP, (ha.goes hp hscopes hpass).1, (ha.goes hp hscopes hpass).2⟩
  · subst hs'
    exact hf a h' hrun hP hg ha'

theorem run {x : HeapM α} {M : Manner} {P : α → Heap → Prop} {O : α → List Task} {f : α → Attempt β}
    (ha : σ.At s hand) (hp : hand.Perm (I ++ F))
    (hx : Holding (.sparing σ.rules.sealed) σ.rules σ.locks (σ.held s F) s.heap I → LazyHeap.Ends Fault.Misuse (x s.heap)
      fun a h' => P a h' ∧ Run M σ.rules σ.locks (σ.held s F) s.heap I h' (O a))
    (hf : ∀ a h', P a h' → s.heap.Grows h' → σ.At (s.withHeap h') (O a ++ F) →
      Attempt.Ends (f a) (s.withHeap h') R Q') : Attempt.Ends (Attempt.heap x >>= f) s R Q' :=
  ha.passage hp (fun hh => (hx hh).imp fun _ _ ⟨hP, hr⟩ => ⟨hP, hr.keeps.scopes, .of_run hr hh.safe⟩)
    fun a h' _ => hf a h'

theorem whole {x : HeapM α} {M : Manner} {P : α → Heap → Prop} {O : α → List Task} {f : α → Attempt β}
    (ha : σ.At s hand)
    (hx : Holding (.sparing σ.rules.sealed) σ.rules σ.locks (σ.held s []) s.heap hand → LazyHeap.Ends Fault.Misuse (x s.heap)
      fun a h' => P a h' ∧ Run M σ.rules σ.locks (σ.held s []) s.heap hand h' (O a))
    (hf : ∀ a h', P a h' → s.heap.Grows h' → σ.At (s.withHeap h') (O a) →
      Attempt.Ends (f a) (s.withHeap h') R Q') : Attempt.Ends (Attempt.heap x >>= f) s R Q' :=
  ha.run (F := []) (.of_eq (List.append_nil _).symm) hx fun a h' hP hg ha' => hf a h' hP hg (by simpa using ha')

theorem settle {f : PUnit → Attempt β} (ha : σ.At s hand) (hp : hand.Perm (I ++ F))
    (hf : ∀ h', s.heap.Grows h' → σ.At (s.withHeap h') F → Attempt.Ends (f ⟨⟩) (s.withHeap h') R Q') :
    Attempt.Ends (Attempt.heap (LazyHeap.settle I) >>= f) s R Q' :=
  ha.run (P := fun _ _ => True) hp (fun hh => (settle_spec hh.calm).imp fun _ _ hr => ⟨trivial, hr⟩)
    fun _ h' _ hg => hf h' hg

theorem settleLast_fades (ha : σ.At s (I ++ F)) : Attempt.Ends (Attempt.heap (LazyHeap.settle I)) s R fun _ s' =>
    σ.At s' F ∧ ∃ h', s' = s.withHeap h' ∧ s.heap.Fades h' := by
  refine .heap (settle_spec (E := Fault.Misuse) (ha.holding (.refl _)).calm) fun _ h' _ hr => ?_
  have hkept : s.heap.Kept (σ.held s F) h' := hr.keeps
  exact ⟨(ha.goes (.refl _) hr.keeps.scopes (.of_run hr (ha.holding (.refl _)).safe)).2, h', rfl, hkept.fades⟩

theorem settleLast (ha : σ.At s (I ++ F)) :
    Attempt.Ends (Attempt.heap (LazyHeap.settle I)) s R fun _ s' => σ.At s' F :=
  ha.settleLast_fades.imp fun _ _ => And.left

/-! ### Storing -/

/-- What is in hand gets a name, and what had the name before comes into hand. -/
theorem put (S : Shelf α) {a : α} (ha : σ.At s (S.tasks a ++ hand)) (hfree : σ.free (S.place name) = true)
    (hfits : S.Fits σ.rules.sealed s.heap a) :
    σ.At (S.put s ((S.map s).insert name a)) (((S.map s).get? name).toList.flatMap S.tasks ++ hand) :=
  ((ha.take S hfree).perm (List.perm_append_comm_assoc _ _ _)).fill S hfree hfits

/-! A name stands for something in hand from now on: the new thing is in place before the old one is dropped. -/

theorem storeSlot_fades {t : Slot} (ha : σ.At s (t.pointer.tasks ++ hand)) (hfree : σ.free (.slot name) = true)
    (hfits : t.pointer.Fits σ.rules.sealed s.heap) : Attempt.Ends (Attempt.storeSlot name t) s R fun _ s' =>
      σ.At s' hand ∧ ∃ h', s' = { s with heap := h', slots := s.slots.insert name t } ∧ s.heap.Fades h' := by
  have hput := ha.put Shelf.slots hfree hfits
  refine .get_bind (.modify_bind ?_)
  split
  · next old h => exact settleLast_fades (I := old.pointer.tasks) (by simpa [Shelf.slots, h] using hput)
  · next h => exact .pure ⟨by simpa [Shelf.slots, Option.eq_none_iff_forall_ne_some.2 h] using hput, _, rfl, .refl _⟩

theorem storeSlot {t : Slot} (ha : σ.At s (t.pointer.tasks ++ hand)) (hfree : σ.free (.slot name) = true)
    (hfits : t.pointer.Fits σ.rules.sealed s.heap) : Attempt.Ends (Attempt.storeSlot name t) s R fun _ s' => σ.At s' hand :=
  (ha.storeSlot_fades hfree hfits).imp fun _ _ => And.left

theorem storeWeak {w : WeakSlot} (ha : σ.At s (w.pointer.tasks ++ hand)) (hfree : σ.free (.weak name) = true)
    (hfits : w.pointer.Fits σ.rules.sealed s.heap) : Attempt.Ends (Attempt.storeWeak name w) s R fun _ s' => σ.At s' hand := by
  have hput := ha.put Shelf.weaks hfree hfits
  refine .get_bind (.modify_bind ?_)
  split
  · next old h => exact settleLast (I := old.pointer.tasks) (by simpa [Shelf.weaks, h] using hput)
  · next h => exact .pure (by simpa [Shelf.weaks, Option.eq_none_iff_forall_ne_some.2 h] using hput)

theorem storeLabel {l : Handle} (ha : σ.At s (l.tasks ++ hand)) (hfree : σ.free (.label name) = true)
    (hfits : l.Fits σ.rules.sealed s.heap) : Attempt.Ends (Attempt.storeLabel name l) s R fun _ s' => σ.At s' hand := by
  have hput := ha.put Shelf.labels hfree hfits
  refine .get_bind (.modify_bind ?_)
  split
  · next old h => exact settleLast (I := old.tasks) (by simpa [Shelf.labels, h] using hput)
  · next h => exact .pure (by simpa [Shelf.labels, Option.eq_none_iff_forall_ne_some.2 h] using hput)

theorem storeBorrow {c : CellId} (ha : σ.At s (.release c :: hand)) (hfree : σ.free (.borrow name) = true)
    (hfits : s.heap.IsObject c) : Attempt.Ends (Attempt.storeBorrow name c) s R fun _ s' => σ.At s' hand := by
  have hput := ha.put Shelf.borrows hfree hfits
  refine .get_bind (.modify_bind ?_)
  split
  · next old h => exact settleLast (I := [.release old]) (by simpa [Shelf.borrows, h] using hput)
  · next h => exact .pure (by simpa [Shelf.borrows, Option.eq_none_iff_forall_ne_some.2 h] using hput)

end Setting.At

/-! ### Names -/

/-- No pointer and no label is reserved under the name. -/
def Setting.Open (σ : Setting) (name : String) : Prop := ∀ p : Place, p.name = name → p.isBorrow = false → σ.free p = true

theorem Setting.free_reserve {p q : Place} (hfree : σ.free q = true) (hne : q ≠ p) : (σ.reserve p).free q = true := by
  simp [reserve, hfree, hne]

/-- A request names no pointer and no label that is reserved. -/
structure Setting.Admits (σ : Setting) (args : Args) : Prop where
  a : ∀ n, args.a = some n → σ.Open n
  b : ∀ n, args.b = some n → σ.Open n
  dest : ∀ n, args.dest = some n → σ.Open n
  swapWith : ∀ n, args.swapWith = some n → σ.Open n
  keep : ∀ n, args.keep = some n → σ.Open n
  within : ∀ n, args.within = some n → σ.Open n
  label : ∀ n, args.label = some n → σ.Open n
  weak : ∀ n, args.weak = some n → σ.Open n

/-- An operation neither ends a reserved borrow nor puts another one in its place. -/
def ObjectOp.Leaves (free : Place → Bool) (args : Args) : ObjectOp → Prop
  | .releaseRef => ∀ n, args.a = some n → free (.borrow n) = true
  | .pull | .read | .get => ∀ n, args.keep = some n → free (.borrow n) = true
  | _ => True

/-- An operation between whose beginning and end all references that come into hand find a place. -/
def Setting.Ends (σ : Setting) (x : Attempt α) (s : Session) : Prop :=
  Attempt.Ends x s (fun s' => σ.At s' []) fun _ s' => σ.At s' []

namespace Setting.At

variable {args : Args}

theorem fitsSlot {t : Slot} (ha : σ.At s hand) (ht : s.slots.get? name = some t) (hfree : σ.free (.slot name) = true) :
    t.pointer.Fits σ.rules.sealed s.heap :=
  ha.fits.slots.get ht hfree

theorem fitsWeak {w : WeakSlot} (ha : σ.At s hand) (hw : s.weaks.get? name = some w) (hfree : σ.free (.weak name) = true) :
    w.pointer.Fits σ.rules.sealed s.heap :=
  ha.fits.weaks.get hw hfree

theorem fitsLabel {l : Handle} (ha : σ.At s hand) (hl : s.labels.get? name = some l) (hfree : σ.free (.label name) = true) :
    l.Fits σ.rules.sealed s.heap :=
  ha.fits.labels.get hl hfree

theorem fitsBorrow {c : CellId} (ha : σ.At s hand) (hc : s.borrows.get? name = some c) (hfree : σ.free (.borrow name) = true) :
    s.heap.IsObject c :=
  ha.fits.borrows.get hc hfree

theorem heldSlot {t : Slot} (ht : s.slots.get? name = some t) (hfree : σ.free (.slot name) = true) (F : List Task) :
    ∀ u ∈ t.pointer.tasks, u ∈ σ.held s F := fun u hu =>
  List.mem_append_right _ (List.mem_append_left _ (List.mem_append_left _
    (NameMap.mem_owned ht hfree u hu)))

theorem heldWeak {w : WeakSlot} (hw : s.weaks.get? name = some w) (hfree : σ.free (.weak name) = true) (F : List Task) :
    ∀ u ∈ w.pointer.tasks, u ∈ σ.held s F := fun u hu =>
  List.mem_append_right _ (List.mem_append_left _ (List.mem_append_right _ (List.mem_append_left _
    (NameMap.mem_owned hw hfree u hu))))

theorem heldLabel {l : Handle} (hl : s.labels.get? name = some l) (hfree : σ.free (.label name) = true) (F : List Task) :
    ∀ u ∈ l.tasks, u ∈ σ.held s F := fun u hu =>
  List.mem_append_right _ (List.mem_append_left _ (List.mem_append_right _ (List.mem_append_right _
    (List.mem_append_left _ (NameMap.mem_owned hl hfree u hu)))))

theorem heldBorrow {c : CellId} (hc : s.borrows.get? name = some c) (hfree : σ.free (.borrow name) = true) (F : List Task) :
    .release c ∈ σ.held s F :=
  List.mem_append_right _ (List.mem_append_left _ (List.mem_append_right _ (List.mem_append_right _
    (List.mem_append_right _ (NameMap.mem_owned hc hfree _ (by simp))))))

theorem anchored (ha : σ.At s hand) (rest : List Task) :
    ∀ c, σ.rules.fixed c → Heap.Via σ.rules.sealed s.heap (σ.held s rest) c := fun c hc =>
  (ha.anchors c hc).via.subset fun _ => mem_held_of_anchor

/-! ### Keeping results -/

theorem keepSlot {t : Slot} (ha : σ.At s (t.pointer.tasks ++ hand)) (hargs : σ.Admits args)
    (hfits : t.pointer.Fits σ.rules.sealed s.heap) :
    Attempt.Ends (Attempt.keepSlot args t) s (fun s' => σ.At s' hand) fun _ s' => σ.At s' hand := by
  unfold Attempt.keepSlot
  split
  · next name hd => exact ha.storeSlot (hargs.dest _ hd (.slot name) rfl rfl) hfits
  · exact ha.settle (.refl _) fun _ _ ha' => .throw ha'

theorem keepWeak {w : WeakSlot} (ha : σ.At s (w.pointer.tasks ++ hand)) (hargs : σ.Admits args)
    (hfits : w.pointer.Fits σ.rules.sealed s.heap) :
    Attempt.Ends (Attempt.keepWeak args w) s (fun s' => σ.At s' hand) fun _ s' => σ.At s' hand := by
  unfold Attempt.keepWeak
  split
  · next name hd => exact ha.storeWeak (hargs.dest _ hd (.weak name) rfl rfl) hfits
  · exact ha.settle (.refl _) fun _ _ ha' => .throw ha'

theorem keepLabel {l : Handle} (ha : σ.At s (l.tasks ++ hand)) (hargs : σ.Admits args)
    (hfits : l.Fits σ.rules.sealed s.heap) :
    Attempt.Ends (Attempt.keepLabel args l) s (fun s' => σ.At s' hand) fun _ s' => σ.At s' hand := by
  unfold Attempt.keepLabel
  split
  · next name hd => exact ha.storeLabel (hargs.dest _ hd (.label name) rfl rfl) hfits
  · exact ha.settle (.refl _) fun _ _ ha' => .throw ha'

/-! ### More pointers to what has a name -/

theorem usable {p : Pointer} (ha : σ.At s hand) (hf : p.Fits σ.rules.sealed s.heap)
    (hp : ∀ u ∈ p.tasks, u ∈ σ.held s hand) : p.Usable σ.rules.sealed s.heap :=
  ((ha.holding (.refl _) : Holding _ _ _ (σ.held s hand) _ []).calm).usable_pointer hf hp

theorem usableHandle {l : Handle} (ha : σ.At s hand) (hf : l.Fits σ.rules.sealed s.heap)
    (hl : ∀ u ∈ l.tasks, u ∈ σ.held s hand) : l.Usable σ.rules.sealed s.heap :=
  ((ha.holding (.refl _) : Holding _ _ _ (σ.held s hand) _ []).calm).usable hf hl

theorem clone {p : Pointer} {f : Pointer → Attempt β} (ha : σ.At s hand) (hf : p.Fits σ.rules.sealed s.heap)
    (hp : ∀ u ∈ p.tasks, u ∈ σ.held s hand)
    (hnext : ∀ q h', q.Fits σ.rules.sealed h' → s.heap.Grows h' → σ.At (s.withHeap h') (q.tasks ++ hand) →
      Attempt.Ends (f q) (s.withHeap h') R Q') : Attempt.Ends (Attempt.heap p.clone >>= f) s R Q' :=
  ha.run (I := []) (P := fun q _ => q = p.bound s.heap.scopes) (O := fun q => q.tasks) (.refl _)
    (fun hh => (Pointer.clone_spec hh.calm (ha.usable hf hp)).imp fun q h' ⟨hq, hr⟩ => ⟨hq, by simpa using hr⟩)
    fun q h' hq hg ha' => hnext q h' (hq ▸ (hf.bound ha.safe.scopes).grows hg) hg ha'

theorem cloneInPlace {p : Pointer} {f : Pointer → Attempt β} (ha : σ.At s hand) (hf : p.Fits σ.rules.sealed s.heap)
    (hp : ∀ u ∈ p.tasks, u ∈ σ.held s hand)
    (hnext : ∀ h', p.Fits σ.rules.sealed h' → s.heap.Grows h' → σ.At (s.withHeap h') (p.tasks ++ hand) →
      Attempt.Ends (f p) (s.withHeap h') R Q') : Attempt.Ends (Attempt.heap p.cloneInPlace >>= f) s R Q' :=
  ha.run (I := []) (P := fun q _ => q = p) (O := fun q => q.tasks) (.refl _)
    (fun hh => (Pointer.cloneInPlace_spec hh.calm (ha.usable hf hp)).imp fun q h' ⟨hq, hr⟩ => ⟨hq, by simpa using hr⟩)
    fun q h' hq hg ha' => by
      subst hq
      exact hnext h' (hf.grows hg) hg ha'

theorem cloneHandle {l : Handle} {f : Handle → Attempt β} (ha : σ.At s hand) (hf : l.Fits σ.rules.sealed s.heap)
    (hl : ∀ u ∈ l.tasks, u ∈ σ.held s hand)
    (hnext : ∀ h', l.Fits σ.rules.sealed h' → s.heap.Grows h' → σ.At (s.withHeap h') (l.tasks ++ hand) →
      Attempt.Ends (f l) (s.withHeap h') R Q') : Attempt.Ends (Attempt.heap l.clone >>= f) s R Q' :=
  ha.run (I := []) (P := fun q _ => q = l) (O := fun q => q.tasks) (.refl _)
    (fun hh => (Handle.clone_spec hh.calm (ha.usableHandle hf hl)).imp fun q h' ⟨hq, hr, _⟩ => ⟨hq, by simpa [hq] using hr⟩)
    fun q h' hq hg ha' => by
      subst hq
      exact hnext h' (hf.grows hg) hg ha'

/-! ### Taking things out of their places for a while -/

theorem takeSlot {t : Slot} (ha : σ.At s hand) (ht : s.slots.get? name = some t) (hfree : σ.free (.slot name) = true) :
    (σ.reserve (.slot name)).At s (t.pointer.tasks ++ hand) := by
  simpa [Shelf.slots, ht] using ha.take Shelf.slots hfree

theorem takeWeak {w : WeakSlot} (ha : σ.At s hand) (hw : s.weaks.get? name = some w)
    (hfree : σ.free (.weak name) = true) : (σ.reserve (.weak name)).At s (w.pointer.tasks ++ hand) := by
  simpa [Shelf.weaks, hw] using ha.take Shelf.weaks hfree

theorem takeLabel {l : Handle} (ha : σ.At s hand) (hl : s.labels.get? name = some l)
    (hfree : σ.free (.label name) = true) : (σ.reserve (.label name)).At s (l.tasks ++ hand) := by
  simpa [Shelf.labels, hl] using ha.take Shelf.labels hfree

theorem takeBorrow {c : CellId} (ha : σ.At s hand) (hc : s.borrows.get? name = some c)
    (hfree : σ.free (.borrow name) = true) : (σ.reserve (.borrow name)).At s (.release c :: hand) := by
  simpa [Shelf.borrows, hc] using ha.take Shelf.borrows hfree

theorem setSlot {t : Slot} {f : PUnit → Attempt β} (ha : (σ.reserve (.slot name)).At s (t.pointer.tasks ++ hand))
    (hfree : σ.free (.slot name) = true) (hfits : t.pointer.Fits σ.rules.sealed s.heap)
    (hf : ∀ s', s'.heap = s.heap → σ.At s' hand → Attempt.Ends (f ⟨⟩) s' R Q') :
    Attempt.Ends (Attempt.setSlot name t >>= f) s R Q' :=
  .modify_bind (hf _ rfl (ha.fill Shelf.slots hfree hfits))

theorem setWeak {w : WeakSlot} {f : PUnit → Attempt β} (ha : (σ.reserve (.weak name)).At s (w.pointer.tasks ++ hand))
    (hfree : σ.free (.weak name) = true) (hfits : w.pointer.Fits σ.rules.sealed s.heap)
    (hf : ∀ s', s'.heap = s.heap → σ.At s' hand → Attempt.Ends (f ⟨⟩) s' R Q') :
    Attempt.Ends (Attempt.setWeak name w >>= f) s R Q' :=
  .modify_bind (hf _ rfl (ha.fill Shelf.weaks hfree hfits))

theorem setLabel {l : Handle} {f : PUnit → Attempt β} (ha : (σ.reserve (.label name)).At s (l.tasks ++ hand))
    (hfree : σ.free (.label name) = true) (hfits : l.Fits σ.rules.sealed s.heap)
    (hf : ∀ s', s'.heap = s.heap → σ.At s' hand → Attempt.Ends (f ⟨⟩) s' R Q') :
    Attempt.Ends (Attempt.setLabel name l >>= f) s R Q' :=
  .modify_bind (hf _ rfl (ha.fill Shelf.labels hfree hfits))

end Setting.At

end LazyHeap
