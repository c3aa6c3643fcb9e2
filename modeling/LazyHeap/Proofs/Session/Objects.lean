import LazyHeap.Proofs.Cloning
import LazyHeap.Proofs.Session.Fields
import LazyHeap.Proofs.Session.Pointers

/-! What a session does through pointers to objects keeps the books. -/
namespace LazyHeap

variable {α β : Type} {σ : Setting} {s : Session} {hand : List Task} {name : String} {t : Slot} {m : Mode} {o : CellId}
variable {args : Args} {R : Session → Prop} {Q' : β → Session → Prop}

/-! ### Objects that are reached into -/

/-- Whether an operation puts links in the place of others that need not resolve to the same. -/
def ObjectOp.edits : ObjectOp → Bool
  | .link | .unlink => true
  | _ => false

/-- Runs that mind when an operation reaches into frozen objects: these keep their links, unless links may be resolved, or
some of them stay as they are. -/
def Rules.Minds (rules : Rules) (op : ObjectOp) : Prop :=
  (rules.closed = true ∧ (rules.lenient = true → op.edits = true)) ∨ ∃ c, rules.fixed c

namespace Setting.At

theorem anchorsAt (ha : σ.At s hand) (rest : List Task) : σ.rules.Anchors s.heap (σ.held s rest) := fun c hc =>
  (ha.anchors c hc).subset fun _ => mem_held_of_anchor

theorem editable {op : ObjectOp} (ha : σ.At s hand) (ho : σ.rules.Minds op → (s.heap.cell o).frozen = false)
    (hop : op.edits = true) : s.heap.Editable σ.rules o := by
  refine ⟨fun hfixed => ?_, fun hclosed hfr => ?_⟩
  · have := ha.fixed o hfixed
    rw [ho (.inr ⟨o, hfixed⟩)] at this
    cases this
  · rw [ho (.inl ⟨hclosed, fun _ => hop⟩)] at hfr
    cases hfr

theorem resolvable {op : ObjectOp} (ha : σ.At s hand) (ho : σ.rules.Minds op → (s.heap.cell o).frozen = false) :
    s.heap.Editable σ.rules.loosened o := by
  refine ⟨fun hfixed => ?_, fun hclosed hfr => ?_⟩
  · have := ha.fixed o hfixed
    rw [ho (.inr ⟨o, hfixed⟩)] at this
    cases this
  · obtain ⟨hclosed, hlenient⟩ := Rules.closed_of_loosened hclosed
    rw [ho (.inl ⟨hclosed, fun hl => nomatch hlenient.symm.trans hl⟩)] at hfr
    cases hfr

end Setting.At

theorem Setting.tiered {locks : List Lock} {held ins : List Task} {h h' : Heap} (σ : Setting)
    (hs : Safe σ.rules ⟨h, locks, [], ins⟩) (hs' : Safe σ.rules.loosened ⟨h', locks, [], held⟩)
    (ht : ∀ tolls, h.Tolled tolls (fun _ => False) → h'.Tolled tolls fun _ => False) :
    σ.rules.closed = true → σ.rules.lenient = true → h'.Tiered σ.rules.opened := fun hclosed _ => by
  have hnone : σ.rules.opened = fun _ => False := funext fun c => eq_false (σ.settled c)
  have htiered := hs.abides.tiered hclosed
  rw [hnone] at htiered
  obtain ⟨tolls, htolls, -⟩ := htiered.tolled
  exact (ht tolls htolls).tiered hs'.toSound

namespace Attempt

def NamesField (args : Args) (h : Heap) (o : CellId) : Prop :=
  ∃ word f, args.field = some word ∧ FieldName.ofText? word = some f ∧ ((h.cell o).object?.bind (·.field? f)).isSome = true

/-- The objects into which an operation reaches, to resolve their fields, to clone out of them or to change them, each in
the heap in which it does. -/
inductive Reaches (args : Args) (s : Session) : ObjectOp → CellId → Heap → Prop where
  | borrow {op : ObjectOp} {name : String} {t : Slot} {m : Mode} {o : CellId} {s' : Session} :
    op ∈ [.unlink, .follow] → args.a = some name → s.slots.get? name = some t →
    (mode args.mode .pull).run s = .ok (.ok m, s) → (borrowSlot name t m).run s = .ok (.ok (some o), s') →
    NamesField args s'.heap o → Reaches args s op o s'.heap
  | link {name b : String} {t : Slot} {m : Mode} {f : FieldName} {link : Link × Option Pointer} {o : CellId} {s₁ s' : Session} :
    args.a = some name → s.slots.get? name = some t → (mode args.mode .pull).run s = .ok (.ok m, s) →
    (linkFor f b).run s = .ok (.ok link, s₁) → (borrowSlot name t m).run s₁ = .ok (.ok (some o), s') →
    NamesField args s'.heap o → Reaches args s .link o s'.heap
  | finish {name : String} {t : Slot} {o : CellId} {h : Heap} : args.a = some name → s.slots.get? name = some t →
    t.pointer.Finishes s.heap o h → Reaches args s .finish o h

/-- The objects whose values an operation changes, each in the heap in which it does. -/
inductive Assigns (args : Args) (s : Session) : ObjectOp → CellId → Heap → Prop where
  | setValue {name : String} {t : Slot} {m : Mode} {o : CellId} {s' : Session} : args.a = some name →
    s.slots.get? name = some t → (mode args.mode .pull).run s = .ok (.ok m, s) →
    (borrowSlot name t m).run s = .ok (.ok (some o), s') → Assigns args s .setValue o s'.heap

/-- No operation reaches into an object that is frozen at that moment, if anybody minds; and the values of such objects
are not changed if some objects stay as they are. -/
def Unfrozen (rules : Rules) (args : Args) (s : Session) (op : ObjectOp) : Prop :=
  (rules.Minds op → ∀ o h, Reaches args s op o h → (h.cell o).frozen = false) ∧
    ∀ c, rules.fixed c → ∀ o h, Assigns args s op o h → (h.cell o).frozen = false

theorem unfrozen_of_not_minds {rules : Rules} {op : ObjectOp} (hm : ¬ rules.Minds op) : Unfrozen rules args s op :=
  ⟨fun h => absurd h hm, fun _ hc => absurd (.inr ⟨_, hc⟩) hm⟩

/-! ### Resolving -/

theorem mode_ends {word : Option String} {default : Mode} {f : Mode → Attempt β} (hr : R s)
    (hf : ∀ m, (mode word default).run s = .ok (.ok m, s) → Ends (f m) s R Q') : Ends (mode word default >>= f) s R Q' := by
  unfold mode at hf ⊢
  split
  · exact .look rfl (hf _ rfl)
  · split
    · exact .look rfl (hf _ (by simp_all; rfl))
    · exact .bind (.throw (Q := fun _ _ => False) hr) nofun

theorem resolveSlot_ends (ha : σ.At s hand) (ht : s.slots.get? name = some t) (hfree : σ.free (.slot name) = true) :
    Ends (resolveSlot name t m) s R fun o s' => ∃ p : Pointer, s'.slots.get? name = some { t with pointer := p } ∧
      p.target = o ∧ (∀ c, o = some c → s'.heap.IsObject c) ∧ s.heap.Grows s'.heap ∧ σ.At s' hand := by
  refine (ha.takeSlot ht hfree).run (M := .sparing σ.rules.sealed) (P := fun q h' => q.2 = q.1.target ∧ q.1.Fits σ.rules.sealed h')
    (O := fun q => q.1.tasks) (.refl _) (fun hh => ?_) fun q h' ⟨hq, hfit⟩ hg ha' => ?_
  · exact (Pointer.resolveBy_spec hh σ.fieldLocks (ha.fitsSlot ht hfree) σ.settled σ.unsteady
      ((ha.takeSlot ht hfree).anchorsAt _) Fault.misuse_selfWait).imp fun q h' ⟨h₁, h₂, h₃, _⟩ => ⟨⟨h₁, h₂⟩, h₃⟩
  · exact .modify_bind (.pure ⟨q.1, NameMap.get?_insert_self _ _ _, hq.symm, fun c hc => hfit.target c (hq ▸ hc), hg,
      ha'.fill Shelf.slots (a := { t with pointer := q.1 }) hfree hfit⟩)

theorem borrowSlot_ends (ha : σ.At s hand) (ht : s.slots.get? name = some t) (hfree : σ.free (.slot name) = true) :
    Ends (borrowSlot name t m) s R fun o s' => (∀ c, o = some c → s'.heap.IsObject c) ∧ s.heap.Grows s'.heap ∧
      σ.At s' (o.toList.map .release ++ hand) := by
  refine .bind (resolveSlot_ends ha ht hfree) fun o s' ⟨p, hp, ho, hobj, hg, ha'⟩ => ?_
  cases o with
  | none => exact .pure ⟨nofun, hg, ha'⟩
  | some o =>
    have hmem : .release o ∈ σ.held s' hand := Setting.At.heldSlot hp hfree _ _ (by simp [Pointer.tasks, ho])
    refine ha'.run (I := []) (F := hand) (M := .calm) (P := fun _ _ => True) (O := fun _ => [.release o]) (.refl _)
      (fun hh => ?_) fun _ h' _ hg' ha'' => ?_
    · exact (borrow_spec hh.calm hmem (hh.calm.object_ne_root (hobj o rfl))).imp fun _ _ hr => ⟨trivial, hr⟩
    · exact .pure ⟨fun c hc => hg'.object c (hobj c hc), hg.trans hg', ha''⟩

theorem resolveAndKeep_ends (ha : σ.At s []) (hargs : σ.Admits args)
    (hleaves : ∀ n, args.keep = some n → σ.free (.borrow n) = true) : σ.Ends (resolveAndKeep args m) s := by
  refine .slotA ha fun name t hn ht => ?_
  refine .bind (borrowSlot_ends ha ht (hargs.a _ hn (.slot name) rfl rfl)) fun o s' ⟨hobj, _, ha'⟩ => ?_
  cases o with
  | none => exact .pure ha'
  | some o =>
    refine .serialOf fun n => ?_
    dsimp only
    split
    · next keep hk => exact .bind (ha'.storeBorrow (hleaves keep hk) (hobj o rfl)) fun _ _ ha'' => .pure ha''
    · exact ha'.settle (.refl _) fun _ _ ha'' => .pure ha''

theorem releaseRef_ends (ha : σ.At s []) (hleaves : ∀ n, args.a = some n → σ.free (.borrow n) = true) :
    σ.Ends (releaseRef args) s := by
  refine .need ha fun name hn => .borrowed ha fun c hc => .modify_bind ?_
  exact ((ha.takeBorrow hc (hleaves name hn)).clear Shelf.borrows (hleaves name hn)).settle (.refl _) fun _ _ ha' => .pure ha'

/-! ### Values -/

theorem valueOf_bind {c : CellId} {f : Int → Attempt β} (hf : ∀ v, Ends (f v) s R Q') : Ends (valueOf c >>= f) s R Q' :=
  .look rfl (hf _)

theorem getValue_ends (ha : σ.At s []) (hargs : σ.Admits args) : σ.Ends (getValue args) s := by
  refine .slotA ha fun name t hn ht => mode_ends ha fun m _ => ?_
  refine .bind (borrowSlot_ends ha ht (hargs.a _ hn (.slot name) rfl rfl)) fun o s' ⟨_, _, ha'⟩ => ?_
  cases o with
  | none => exact .pure ha'
  | some o => exact valueOf_bind fun v => ha'.settle (.refl _) fun _ _ ha'' => .pure ha''

theorem setValue_ends (ha : σ.At s []) (hargs : σ.Admits args) (hun : Unfrozen σ.rules args s .setValue) :
    σ.Ends (setValue args) s := by
  refine .slotA ha fun name t hn ht => .word needInt_ends ha fun v => mode_ends ha fun m hm => ?_
  refine .bind_run (borrowSlot_ends ha ht (hargs.a _ hn (.slot name) rfl rfl)) fun o s' hrun ⟨hobj, _, ha'⟩ => ?_
  cases o with
  | none => exact .pure ha'
  | some o =>
    obtain ⟨x, hx⟩ := hobj o rfl
    have hfixed : ¬ σ.rules.fixed o := fun hfixed => by
      have := ha'.fixed o hfixed
      rw [hun.2 o hfixed _ _ (.setValue hn ht hm hrun)] at this
      cases this
    refine ha'.passage (I := []) (P := fun _ _ => True) (O := fun _ => []) (.refl _) (fun hh => ?_) fun _ h' _ _ _ ha'' => ?_
    · exact (LazyHeap.setValue_spec hh.calm hx (.source (.inl List.mem_cons_self)) hfixed).imp fun _ _ hr => ⟨trivial, hr⟩
    · exact .serialOf fun n => ha''.settle (.refl _) fun _ _ ha₃ => .pure ha₃

/-! ### Links -/

theorem linkFor_ends {f : FieldName} {b : String} (ha : σ.At s []) (hopen : σ.Open b) :
    Ends (linkFor f b) s (fun s' => σ.At s' []) fun x s' => x.1.Fits σ.rules.sealed s'.heap ∧ s'.slots = s.slots ∧
      σ.At s' (x.1.tasks ++ x.2.toList.flatMap Pointer.tasks) := by
  have hnode : ∀ {s' : Session} {t : Slot}, σ.At s' [] → s'.slots.get? b = some t → Ends (nodePointer t) s'
      (fun s' => σ.At s' []) fun p s₁ => p.Fits σ.rules.sealed s₁.heap ∧ s₁.slots = s'.slots ∧ σ.At s₁ p.tasks := fun {s' t} ha' ht =>
    (nodePointer_ends ha' (ha'.fitsSlot ht (hopen (.slot b) rfl rfl)) (Setting.At.heldSlot ht (hopen (.slot b) rfl rfl) _)).mono
      (fun _ hs => hs ▸ ha') fun p s₁ hp => ⟨hp.1, hp.2.2.1, by simpa using hp.2.2.2⟩
  have howned : Ends (do let p ← nodePointer (← slot b); return (Link.owned p, none) : Attempt (Link × Option Pointer)) s
      (fun s' => σ.At s' []) fun x s' => x.1.Fits σ.rules.sealed s'.heap ∧ s'.slots = s.slots ∧
        σ.At s' (x.1.tasks ++ x.2.toList.flatMap Pointer.tasks) :=
    .slot ha fun t ht => .bind (hnode ha ht) fun p s' hp => .pure ⟨hp.1, hp.2.1, by simpa [Link.tasks] using hp.2.2⟩
  unfold linkFor
  split
  · refine .label ha fun l hl => ?_
    exact ha.cloneHandle (ha.fitsLabel hl (hopen (.label b) rfl rfl)) (Setting.At.heldLabel hl (hopen (.label b) rfl rfl) _)
      fun h' hf _ ha' => .pure ⟨hf, rfl, by simpa [Link.tasks] using ha'⟩
  · refine .slot ha fun t ht => ?_
    have hfit := ha.fitsSlot ht (hopen (.slot b) rfl rfl)
    have hheld := Setting.At.heldSlot (σ := σ) ht (hopen (.slot b) rfl rfl) []
    dsimp only
    split
    · exact ha.clone hfit hheld fun q h' hq _ ha' => .pure ⟨hq, rfl, by simpa [Link.tasks] using ha'⟩
    · exact ha.cloneInPlace hfit hheld fun h' hq _ ha' => .pure ⟨hq, rfl, by simpa [Link.tasks] using ha'⟩
  · refine .slot ha fun t ht => .bind (hnode ha ht) ?_
    rintro p s' ⟨hp, hslots, ha'⟩
    refine ha'.run (I := []) (F := p.tasks) (M := .calm) (P := fun w _ => w = ⟨p.target, p.label⟩) (O := fun w => w.tasks) (.refl _)
      (fun hh => ?_) fun w h' hw hg ha'' => ?_
    · exact (WeakPointer.ofPointer_spec hh.calm (ha'.usable hp fun t ht => List.mem_append_left _ ht)).imp
        fun w _ hw => ⟨hw.1, by simpa using hw.2.1⟩
    · subst hw
      exact .pure ⟨⟨(hp.grows hg).target, (hp.grows hg).label⟩, hslots, by simpa [Link.tasks] using ha''⟩
  · exact howned

theorem dropOption {γ : Type} (x : Option γ) {d : γ → HeapM PUnit} {T : γ → List Task} {rest : List Task}
    {f : PUnit → Attempt β} (hd : ∀ a, d a = LazyHeap.settle (T a)) (ha : σ.At s hand)
    (hp : hand.Perm (x.toList.flatMap T ++ rest))
    (hf : ∀ h', s.heap.Grows h' → σ.At (s.withHeap h') rest → Ends (f ⟨⟩) (s.withHeap h') R Q') :
    Ends (heap (x.forM d) >>= f) s R Q' := by
  cases x with
  | none => exact .look rfl (hf s.heap (.refl _) (ha.perm (by simpa using hp)))
  | some a =>
    show Ends (heap (d a) >>= f) s R Q'
    rw [hd a]
    exact ha.settle (by simpa using hp) hf

/-- Editing a field of the object to which a slot is resolved. Whatever finds no place is dropped. -/
theorem edit_ends {op : ObjectOp} {field : Option FieldName} {link : Option Link} {late : Option Pointer} {how : FieldName → FieldEdit}
    (ha : σ.At s (link.toList.flatMap Link.tasks ++ late.toList.flatMap Pointer.tasks)) (hlocks : σ.locks = [])
    (ht : s.slots.get? name = some t) (hfree : σ.free (.slot name) = true)
    (hadds : ∀ f, (how f).adds.flatMap Link.tasks = link.toList.flatMap Link.tasks ∧
      ∀ h, s.heap.Grows h → ∀ l ∈ (how f).adds, l.Fits σ.rules.sealed h)
    (hnone : field = none → link = none ∧ late = none)
    (hun : ∀ o s' f, (borrowSlot name t m).run s = .ok (.ok (some o), s') → field = some f →
      ((s'.heap.cell o).object?.bind (·.field? f)).isSome = true → σ.rules.Minds op → (s'.heap.cell o).frozen = false)
    (hop : op.edits = true) : σ.Ends (edit name t m field link late how) s := by
  have hdropLink : ∀ l : Link, l.drop = LazyHeap.settle l.tasks := fun l => by cases l <;> rfl
  have hdropLate : ∀ p : Pointer, p.drop = LazyHeap.settle p.tasks := fun _ => rfl
  unfold edit
  refine .bind_run (borrowSlot_ends ha ht hfree) ?_
  rintro o s₁ hrun ⟨hobj, hg₁, ha₁⟩
  cases o with
  | none =>
    dsimp only
    refine dropOption link hdropLink ha₁ (.refl _) fun h₂ _ ha₂ => ?_
    exact dropOption late hdropLate ha₂ (.of_eq (List.append_nil _).symm) fun h₃ _ ha₃ => .pure ha₃
  | some o =>
    obtain ⟨x, hx⟩ := hobj o rfl
    cases field with
    | none =>
      obtain ⟨rfl, rfl⟩ := hnone rfl
      exact ha₁.settle (.refl _) fun _ _ ha₂ => .throw ha₂
    | some f =>
      refine .look (a := (((s₁.heap.cell o).object?.bind (·.field? f)).isSome)) rfl ?_
      split
      · next hfield =>
        obtain ⟨g, hg⟩ := Option.isSome_iff_exists.1 hfield
        rw [Cell.object?, hx, Option.bind_some] at hg
        refine ha₁.passage (I := (how f).adds.flatMap Link.tasks) (F := [.release o] ++ late.toList.flatMap Pointer.tasks)
          (P := fun _ _ => True) (O := fun _ => []) ?_ (fun hh => ?_) fun _ h₂ _ _ _ ha₂ => ?_
        · rw [(hadds f).1]
          exact List.perm_append_comm_assoc _ _ _
        · rw [hlocks] at hh ⊢
          exact (editField_spec hh.calm hx hg Fault.misuse_selfWait (.held (.inl List.mem_cons_self))
            (ha₁.editable (hun o s₁ f hrun rfl hfield) hop) ((hadds f).2 _ hg₁)).imp fun _ _ hp => ⟨trivial, hp⟩
        · refine ha₂.settle (.refl _) fun h₃ _ ha₃ => ?_
          exact dropOption late hdropLate ha₃ (.of_eq (List.append_nil _).symm) fun h₄ _ ha₄ => .pure ha₄
      · have hlast : ∀ {s' : Session}, σ.At s' (late.toList.flatMap Pointer.tasks) →
            Ends (heap (late.forM Pointer.drop) >>= fun _ => throw .noField) s'
              (fun s' => σ.At s' []) fun (_ : Reply) s' => σ.At s' [] := fun ha' =>
          dropOption late hdropLate ha' (.of_eq (List.append_nil _).symm) fun _ _ ha'' => .throw ha''
        by_cases hany : f = .any
        · simp only [hany, if_true, ne_eq, not_true, if_false]
          refine dropOption link hdropLink ha₁ (List.perm_append_comm_assoc _ _ _) fun h₂ _ ha₂ => ?_
          exact ha₂.settle (.refl _) fun h₃ _ ha₃ => hlast ha₃
        · simp only [hany, if_false, ne_eq, not_false_eq_true, if_true]
          refine ha₁.settle (.refl _) fun h₂ _ ha₂ => ?_
          exact dropOption link hdropLink ha₂ (.refl _) fun h₃ _ ha₃ => hlast ha₃

theorem fieldOf_ends {f : Option FieldName → Attempt β} (hr : R s)
    (hf : ∀ word, args.field = some word → Ends (f (FieldName.ofText? word)) s R Q') : Ends (fieldOf args >>= f) s R Q' := by
  unfold fieldOf
  rw [bind_assoc]
  refine .need hr fun word hword => ?_
  rw [pure_bind]
  exact hf word hword

theorem link_ends (ha : σ.At s []) (hlocks : σ.locks = []) (hargs : σ.Admits args) (hun : Unfrozen σ.rules args s .link) :
    σ.Ends (link args) s := by
  refine .slotA ha fun name t hn ht => fieldOf_ends ha fun word hword => .need ha fun b hb => mode_ends ha fun m hm => ?_
  have hfree := hargs.a _ hn (.slot name) rfl rfl
  cases hfield : FieldName.ofText? word with
  | none =>
    refine .bind (borrowSlot_ends ha ht hfree) ?_
    rintro o s' ⟨-, -, ha'⟩
    cases o with
    | none => exact .look (a := ()) rfl (.look (a := ()) rfl (.pure ha'))
    | some o => exact ha'.settle (.refl _) fun _ _ ha'' => .throw ha''
  | some f =>
    refine .bind_run (linkFor_ends ha (hargs.b _ hb)) ?_
    rintro x s₁ hlink ⟨hfit, hslots, ha₁⟩
    have hadds : ∀ edit : FieldEdit, edit.adds = [x.1] → edit.adds.flatMap Link.tasks = (some x.1).toList.flatMap Link.tasks ∧
        ∀ h, s₁.heap.Grows h → ∀ l ∈ edit.adds, l.Fits σ.rules.sealed h := by
      intro edit he
      refine ⟨congrArg (·.flatMap Link.tasks) he, fun h hg l hl => ?_⟩
      rw [he] at hl
      rw [List.mem_singleton.1 hl]
      exact hfit.grows hg
    exact edit_ends (by simpa using ha₁) hlocks (hslots ▸ ht) hfree (fun g => hadds _ (by cases g <;> rfl)) (by simp)
      (fun o s' g hrun hg hhas hminds => hun.1 hminds o _ (.link hn ht hm hlink hrun ⟨word, g, hword, hfield.trans hg, hhas⟩))
      rfl

theorem unlink_ends (ha : σ.At s []) (hlocks : σ.locks = []) (hargs : σ.Admits args) (hun : Unfrozen σ.rules args s .unlink) :
    σ.Ends (unlink args) s := by
  refine .slotA ha fun name t hn ht => fieldOf_ends ha fun word hword => mode_ends ha fun m hm => ?_
  -- what is put in the place of a link owns nothing
  have hadds : ∀ edit : FieldEdit, (∀ l ∈ edit.adds, l ∈ Link.blanks) → edit.adds.flatMap Link.tasks = [] ∧
      ∀ h, s.heap.Grows h → ∀ l ∈ edit.adds, l.Fits σ.rules.sealed h := by
    intro edit hblank
    refine ⟨List.flatMap_eq_nil_iff.2 fun l hl => ?_, fun h _ l hl => Link.fits_blank l (hblank l hl)⟩
    have := hblank l hl
    simp only [Link.blanks, List.mem_cons, List.not_mem_nil, or_false] at this
    rcases this with rfl | rfl | rfl <;> rfl
  exact edit_ends (by simpa using ha) hlocks ht (hargs.a _ hn (.slot name) rfl rfl)
    (fun g => hadds _ (by cases g <;> decide)) (fun _ => ⟨rfl, rfl⟩)
    (fun o s' g hrun hg hhas hminds => hun.1 hminds o _ (.borrow (by simp) hn ht hm hrun ⟨word, g, hword, hg, hhas⟩)) rfl

theorem follow_ends (ha : σ.At s []) (hlocks : σ.locks = []) (hargs : σ.Admits args) (hun : Unfrozen σ.rules args s .follow) :
    σ.Ends (follow args) s := by
  refine .slotA ha fun name t hn ht => fieldOf_ends ha fun word hword => mode_ends ha fun m hm => ?_
  refine mode_ends ha fun how _ => ?_
  refine .bind_run (borrowSlot_ends ha ht (hargs.a _ hn (.slot name) rfl rfl)) fun o s₁ hrun ⟨hobj, hg₁, ha₁⟩ => ?_
  cases o with
  | none => exact .pure ha₁
  | some o =>
    obtain ⟨x, hx⟩ := hobj o rfl
    refine .bind (Q := fun found s' => found.Fits σ.rules.sealed s'.heap ∧ σ.At s' (found.tasks ++ [.release o]))
      (.cleaning (C := fun s' => σ.At s' [.release o]) ?_ fun s' ha' => ?_) fun found s₂ ⟨hfit, ha₂⟩ => ?_
    · cases hfield : FieldName.ofText? word with
      | none => exact .throw ha₁
      | some f =>
        refine .look (a := (((s₁.heap.cell o).object?.bind (·.field? f)).isSome)) rfl (.guard ha₁ fun hmissing => ?_)
        have hhas := Bool.not_not_eq.mp fun h => hmissing (by rw [h])
        have hopen := ha₁.resolvable fun hminds =>
          hun.1 hminds o _ (.borrow (by simp) hn ht hm hrun ⟨word, f, hword, hfield, hhas⟩)
        obtain ⟨g, hg⟩ := Option.isSome_iff_exists.1 hhas
        rw [Cell.object?, hx, Option.bind_some] at hg
        have hfollow : ∀ index, Ends (heap (followField o f how index)) s₁ (fun s' => σ.At s' [.release o]) fun found s' =>
            found.Fits σ.rules.sealed s'.heap ∧ σ.At s' (found.tasks ++ [.release o]) := fun index => by
          rw [← bind_pure (heap _)]
          refine ha₁.passage (I := []) (F := [.release o]) (P := fun found h' => found.Fits σ.rules.sealed h')
            (O := Followed.tasks) (.refl _) (fun hh => ?_) fun found h' _ hfit _ ha₂ => .pure ⟨hfit, ha₂⟩
          have hanchor := ha₁.anchorsAt [.release o]
          rw [hlocks] at hh ⊢
          refine (followField_spec hh.loosen hx hg (.held (.inl List.mem_cons_self)) hopen σ.settled σ.unsteady hanchor.loosen
            Fault.misuse_selfWait).imp fun found h' ⟨hfit, hscopes, hp, ht⟩ => ⟨hfit, hscopes, hp.of_loosened ?_⟩
          exact σ.tiered hh.safe hp.safe ht
        dsimp only
        split
        · exact .need ha₁ fun index _ => hfollow index
        · exact .look (a := 0) rfl (hfollow 0)
    · exact (show σ.At s' ([.release o] ++ []) from ha').settleLast
    · refine ha₂.settle List.perm_append_comm fun h₃ hg₃ ha₃ => ?_
      cases found with
      | absent => exact .pure ha₃
      | label l =>
        exact .bind (Setting.At.keepLabel (by simpa [Followed.tasks] using ha₃) hargs (Handle.Fits.grows hfit hg₃)) fun _ _ ha₄ => .pure ha₄
      | pointer pt p =>
        refine .serialOf? fun n => ?_
        exact .bind (Setting.At.keepSlot (t := ⟨pt, p⟩) (by simpa [Followed.tasks] using ha₃) hargs (Pointer.Fits.grows hfit hg₃))
          fun _ _ ha₄ => .pure ha₄

/-! ### Whole graphs -/

theorem freeze_ends (ha : σ.At s []) (hlocks : σ.locks = []) (ht : s.slots.get? name = some t)
    (hfree : σ.free (.slot name) = true) : σ.Ends (do
      setSlot name { t with pointer := ← heap t.pointer.freeze }
      return Reply.nothing) s := by
  refine (ha.takeSlot ht hfree).passage (P := fun q h' => q.Fits σ.rules.sealed h') (O := Pointer.tasks) (.refl _) (fun hh => ?_)
    fun q h' _ hfit _ ha' => Setting.At.setSlot (t := { t with pointer := q }) ha' hfree hfit fun s' _ ha'' => .pure ha''
  have hfixed : ∀ d, (s.heap.cell d).frozen = false → ¬ σ.rules.fixed d := fun d hd hf => by
    rw [ha.fixed d hf] at hd
    cases hd
  rw [show (σ.reserve (.slot name)).locks = σ.locks from rfl, hlocks] at hh ⊢
  exact (Pointer.freeze_spec (R := fun _ _ _ => True) hh.calm (ha.fitsSlot ht hfree) hfixed fun _ _ _ _ _ _ _ _ _ => trivial).imp
    fun q h' ⟨_, hfit, hscopes, hp⟩ => ⟨hfit, hscopes, hp⟩

theorem finish_ends (ha : σ.At s []) (hlocks : σ.locks = []) (ht : s.slots.get? name = some t)
    (hfree : σ.free (.slot name) = true)
    (hun : σ.rules.Minds .finish → ∀ o h, t.pointer.Finishes s.heap o h → (h.cell o).frozen = false) : σ.Ends (do
      setSlot name { t with pointer := ← heap t.pointer.finish }
      return Reply.nothing) s := by
  have htake := ha.takeSlot ht hfree
  refine htake.passage (P := fun q h' => q.Fits σ.rules.sealed h') (O := Pointer.tasks) (.refl _) (fun hh => ?_)
    fun q h' _ hfit _ ha' => Setting.At.setSlot (t := { t with pointer := q }) ha' hfree hfit fun s' _ ha'' => .pure ha''
  have hanchor := htake.anchorsAt []
  have hs := hh.safe
  rw [show (σ.reserve (.slot name)).locks = σ.locks from rfl, hlocks] at hh hs ⊢
  have hh' : Holding (.sparing σ.rules.loosened.sealed) σ.rules.loosened [] _ s.heap t.pointer.tasks := hh.loosen
  refine (Pointer.finish_spec hh' (ha.fitsSlot ht hfree) σ.settled σ.unsteady hanchor.loosen Fault.misuse_selfWait
    Fault.misuse_endless fun c k q hlook hsteps => ⟨fun hfixed => ?_, fun hclosed hfr => ?_⟩).imp
      fun q h' ⟨hfit, hscopes, hp, htolled⟩ => ⟨hfit, hscopes, hp.of_loosened (σ.tiered hs hp.safe htolled)⟩
  · have hf := ha.fixed c hfixed
    have := ((Course.of_same hsteps).lasts hs.toFirm).frozen hfixed (Heap.lt_size_of_frozen hf)
    rw [hun (.inr ⟨c, hfixed⟩) c k hlook] at this
    exact absurd (hf.symm.trans this.symm) nofun
  · obtain ⟨hclosed, hlenient⟩ := Rules.closed_of_loosened hclosed
    rw [hun (.inl ⟨hclosed, fun hl => nomatch hlenient.symm.trans hl⟩) c k hlook] at hfr
    cases hfr

theorem deepClone_ends (ha : σ.At s []) (hlocks : σ.locks = []) (hargs : σ.Admits args) (ht : s.slots.get? name = some t)
    (hfree : σ.free (.slot name) = true) : σ.Ends (do
      let (p, q) ← heap t.pointer.deepClone
      setSlot name { t with pointer := p }
      keepSlot args { t with pointer := q }
      return Reply.nothing) s := by
  have htake := ha.takeSlot ht hfree
  refine htake.passage (P := fun q h' => q.1.Fits σ.rules.sealed h' ∧ q.2.Fits σ.rules.sealed h')
    (O := fun q => q.1.tasks ++ q.2.tasks) (.refl _) (fun hh => ?_) fun q h' _ ⟨hfit, hfit'⟩ _ ha' => ?_
  · have hfixed : ∀ d, (s.heap.cell d).frozen = false → ¬ σ.rules.fixed d := fun d hd hf => by
      rw [ha.fixed d hf] at hd
      cases hd
    rw [show (σ.reserve (.slot name)).locks = σ.locks from rfl, hlocks] at hh ⊢
    exact (Pointer.deepClone_spec (R := fun _ _ _ => True) hh.calm (ha.fitsSlot ht hfree)
      (fun c hc => ⟨Handle.Tip.unsealed (.inl hc) hh (ha.fitsSlot ht hfree).label, σ.unsteady c⟩) σ.settled hfixed
      fun _ _ _ _ _ _ _ _ _ => trivial).imp fun q h' ⟨hclones, h₁, h₂, hp⟩ => ⟨⟨h₁, h₂⟩, hclones.scopes, hp⟩
  · have ha₁ : (σ.reserve (.slot name)).At (s.withHeap h') (q.1.tasks ++ (q.2.tasks ++ [])) := by simpa using ha'
    refine Setting.At.setSlot (t := { t with pointer := q.1 }) ha₁ hfree hfit fun s' hs ha'' => ?_
    exact .bind (Setting.At.keepSlot (t := { t with pointer := q.2 }) ha'' hargs (hs ▸ hfit')) fun _ _ ha₃ => .pure ha₃

/-! ### All operations -/

/-- While fields are locked, only borrows are ended. -/
theorem objects_ends {op : ObjectOp} (ha : σ.At s []) (hlocks : σ.locks = [] ∨ op = .releaseRef) (hargs : σ.Admits args)
    (hun : Unfrozen σ.rules args s op) (hleaves : op.Leaves σ.free args) : σ.Ends (objects args op) s := by
  have hlocks : op ≠ .releaseRef → σ.locks = [] := fun hne => hlocks.resolve_right hne
  cases op with
  | pull => exact resolveAndKeep_ends ha hargs hleaves
  | read => exact resolveAndKeep_ends ha hargs hleaves
  | get => exact resolveAndKeep_ends ha hargs hleaves
  | releaseRef => exact releaseRef_ends ha hleaves
  | refValue => exact .need ha fun name _ => .borrowed ha fun o _ => valueOf_bind fun v => .pure ha
  | value => exact getValue_ends ha hargs
  | setValue => exact setValue_ends ha hargs hun
  | link => exact link_ends ha (hlocks nofun) hargs hun
  | unlink => exact unlink_ends ha (hlocks nofun) hargs hun
  | follow => exact follow_ends ha (hlocks nofun) hargs hun
  | rawPull =>
    refine .slotA ha fun name t hn ht => ?_
    exact .bind (resolveSlot_ends ha ht (hargs.a _ hn (.slot name) rfl rfl)) fun o s' ⟨_, _, _, _, _, ha'⟩ => .serialOf? fun _ => .pure ha'
  | rawResolve =>
    refine .slotA ha fun name t hn ht => ?_
    exact .bind (resolveSlot_ends ha ht (hargs.a _ hn (.slot name) rfl rfl)) fun o s' ⟨_, _, _, _, _, ha'⟩ => .serialOf? fun _ => .pure ha'
  | freeze => exact .slotA ha fun name t hn ht => freeze_ends ha (hlocks nofun) ht (hargs.a _ hn (.slot name) rfl rfl)
  | finish =>
    exact .slotA ha fun name t hn ht => finish_ends ha (hlocks nofun) ht (hargs.a _ hn (.slot name) rfl rfl)
      fun hminds o h hlook => hun.1 hminds o h (.finish hn ht hlook)
  | deepClone => exact .slotA ha fun name t hn ht => deepClone_ends ha (hlocks nofun) hargs ht (hargs.a _ hn (.slot name) rfl rfl)

end Attempt

end LazyHeap
