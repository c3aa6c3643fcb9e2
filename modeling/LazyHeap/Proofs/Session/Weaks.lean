import LazyHeap.Proofs.Session.Basic
import LazyHeap.Session.Weaks

/-! What a session does with weak pointers keeps the books. -/
namespace LazyHeap

variable {β : Type} {σ : Setting} {s : Session} {hand : List Task} {name : String} {w : WeakSlot}
variable {args : Args} {R : Session → Prop} {Q' : β → Session → Prop}

namespace Attempt

theorem makeNilWeak_bind {f : WeakPointer → Attempt β} (ha : σ.At s hand)
    (hf : ∀ h', s.heap.Grows h' → σ.At (s.withHeap h') hand → Ends (f .nil) (s.withHeap h') R Q') :
    Ends (heap WeakPointer.makeNil >>= f) s R Q' := by
  refine ha.run (I := []) (F := hand) (M := .calm) (P := fun w _ => w = .nil) (O := fun _ => []) (.refl _) (fun hh => ?_)
    fun w h' hw hg ha' => ?_
  · exact .bind (fixSettings_spec hh) fun _ h₁ ⟨hr, _⟩ => .pure ⟨rfl, hr⟩
  · subst hw
    exact hf h' hg ha'

theorem noted_of_weak {w : WeakPointer} {o : CellId} (ha : σ.At s hand) (hf : w.Fits σ.rules.sealed s.heap)
    (hheld : ∀ u ∈ w.tasks, u ∈ σ.held s hand) (ho : w.target = some o) : s.heap.Noted o :=
  ⟨hf.target o ho, (ha.holding (.refl _) : Holding _ _ _ (σ.held s hand) _ []).weak_of_mem
    (.inl (hheld _ (by simp [WeakPointer.tasks, ho])))⟩

/-- The weak pointer under a name comes to observe what is held, or observed, otherwise. -/
theorem assignWeak_bind {target : Option CellId} {l : Handle} (ha : σ.At s []) (hw : s.weaks.get? name = some w)
    (hfree : σ.free (.weak name) = true)
    (ht : ∀ o, target = some o → s.heap.IsObject o ∧
      (.unpin o ∈ (σ.reserve (.weak name)).held s [] ∨ .release o ∈ (σ.reserve (.weak name)).held s []))
    (hl : l.Fits σ.rules.sealed s.heap) (hsub : ∀ t ∈ l.tasks, t ∈ (σ.reserve (.weak name)).held s []) :
    σ.Ends (do
      setWeak name { w with pointer := ← heap (w.pointer.assign target l) }
      return Reply.nothing) s := by
  have htake := ha.takeWeak hw hfree
  refine htake.run (M := .calm) (P := fun v _ => v = ⟨target, l⟩) (O := fun v => v.tasks) (.refl _) (fun hh => ?_)
    fun v h' hv hg ha' => ?_
  · exact (WeakPointer.assign_spec hh.calm (fun o ho => (ht o ho).2)
      (hh.calm.usable hl fun t ht => List.mem_append_right _ (hsub t ht))).imp fun v h' ⟨hv, hr⟩ => ⟨hv, hr⟩
  · subst hv
    exact Setting.At.setWeak (w := { w with pointer := ⟨target, l⟩ }) ha' hfree
      ⟨fun o ho => hg.object o (ht o ho).1, hl.grows hg⟩ fun s' _ ha'' => .pure ha''

theorem assignWeak_ends (ha : σ.At s []) (hargs : σ.Admits args) : σ.Ends (assignWeak args) s := by
  refine .need ha fun dest hd => .need ha fun a haa => .guard ha fun hne => .weak ha fun w hw => .weak ha fun v hv => .guard ha fun _ => ?_
  have hfa := hargs.a _ haa (.weak a) rfl rfl
  have hfit := ha.fitsWeak hv hfa
  have hheld := Setting.At.heldWeak (σ := σ.reserve (.weak dest)) hv (Setting.free_reserve hfa (by simpa using Ne.symm hne)) []
  refine assignWeak_bind ha hw (hargs.dest _ hd (.weak dest) rfl rfl) (fun o ho => ⟨hfit.target o ho, .inl (hheld _ ?_)⟩) hfit.label
    fun t ht => hheld t ?_
  · simp [WeakPointer.tasks, ho]
  · exact List.mem_append_right _ ht

theorem assignTarget_ends (ha : σ.At s []) (hargs : σ.Admits args) : σ.Ends (assignTarget args) s := by
  refine .need ha fun dest hd => .weak ha fun w hw => .need ha fun a haa => .slot ha fun t ht => .guard ha fun _ => ?_
  have hfa := hargs.a _ haa (.slot a) rfl rfl
  have hfit := ha.fitsSlot ht hfa
  have hheld := Setting.At.heldSlot (σ := σ.reserve (.weak dest)) ht (Setting.free_reserve hfa (by simp)) []
  refine assignWeak_bind ha hw (hargs.dest _ hd (.weak dest) rfl rfl) (fun o ho => ⟨hfit.target o ho, .inr (hheld _ ?_)⟩) hfit.label
    fun t ht => hheld t ?_
  · simp [Pointer.tasks, ho]
  · exact List.mem_append_right _ ht

theorem pullWeak_ends (ha : σ.At s []) (hargs : σ.Admits args) : σ.Ends (pullWeak args) s := by
  refine .weakA ha fun name w hn hw => ?_
  have hfree := hargs.a _ hn (.weak name) rfl rfl
  refine (ha.takeWeak hw hfree).run (M := .calm) (P := fun q h' => q.1.Fits σ.rules.sealed h' ∧
      ∀ p, q.2 = some p → p.Fits σ.rules.sealed h') (O := fun q => q.1.tasks ++ q.2.toList.flatMap Pointer.tasks) (.refl _)
    (fun hh => ?_) fun ⟨v, p⟩ h' ⟨hv, hp⟩ _ ha' => ?_
  · exact (WeakPointer.pull_spec hh.calm (ha.fitsWeak hw hfree)).imp fun q h' ⟨h₁, h₂, h₃⟩ => ⟨⟨h₁, h₂⟩, h₃⟩
  have hleft : (σ.reserve (.weak name)).At (s.withHeap h') (v.tasks ++ p.toList.flatMap Pointer.tasks) := by
    simpa using ha'
  refine Setting.At.setWeak (w := { w with pointer := v }) hleft hfree hv
    fun s' hs ha'' => ?_
  cases p with
  | none => exact .pure ha''
  | some p =>
    have hfit : p.Fits σ.rules.sealed s'.heap := hs ▸ hp p rfl
    have ha₃ : σ.At s' (p.tasks ++ []) := by simpa using ha''
    refine .serialOf? fun n => ?_
    dsimp only
    split
    · next dest hd => exact .bind (Setting.At.storeSlot (t := ⟨w.pointee, p⟩) ha₃ (hargs.dest _ hd (.slot dest) rfl rfl) hfit) fun _ _ ha₄ => .pure ha₄
    · exact ha₃.settle (.refl _) fun _ _ ha₄ => .pure ha₄

theorem weaks_ends {op : WeakOp} (ha : σ.At s []) (hargs : σ.Admits args) : σ.Ends (weaks args op) s := by
  cases op with
  | nil =>
    exact makeNilWeak_bind ha fun h' _ ha' => .bind (Setting.At.keepWeak (w := ⟨.only .node, .nil⟩) ha' hargs
      ⟨nofun, Handle.fits_root⟩) fun _ _ ha'' => .pure ha''
  | downgrade =>
    refine .slotA ha fun name t hn ht => ?_
    have hfree := hargs.a _ hn (.slot name) rfl rfl
    have hfit := ha.fitsSlot ht hfree
    refine ha.run (I := []) (F := []) (M := .calm) (P := fun w _ => w = ⟨t.pointer.target, t.pointer.label⟩)
      (O := fun w => w.tasks) (.refl _) (fun hh => ?_) fun w h' hw hg ha' => ?_
    · exact (WeakPointer.ofPointer_spec hh.calm (ha.usable hfit (Setting.At.heldSlot ht hfree _))).imp
        fun w _ ⟨hw, hr, _⟩ => ⟨hw, by simpa using hr⟩
    · subst hw
      exact .bind (Setting.At.keepWeak (w := ⟨t.pointee, ⟨t.pointer.target, t.pointer.label⟩⟩) ha' hargs
        ⟨(hfit.grows hg).target, (hfit.grows hg).label⟩) fun _ _ ha'' => .pure ha''
  | pull => exact pullWeak_ends ha hargs
  | clone =>
    refine .weakA ha fun name w hn hw => ?_
    have hfree := hargs.a _ hn (.weak name) rfl rfl
    have hfit := ha.fitsWeak hw hfree
    have hheld := Setting.At.heldWeak (σ := σ) hw hfree []
    refine ha.run (I := []) (F := []) (M := .calm) (P := fun v _ => v = w.pointer.bound s.heap.scopes) (O := fun v => v.tasks)
      (.refl _) (fun hh => ?_) fun v h' hv hg ha' => ?_
    · exact (WeakPointer.clone_spec hh.calm (fun o ho => noted_of_weak ha hfit hheld ho)
        (ha.usableHandle hfit.label fun t ht => hheld t (List.mem_append_right _ ht))).imp fun v _ ⟨hv, hr⟩ => ⟨hv, by simpa using hr⟩
    · exact .bind (Setting.At.keepWeak (w := { w with pointer := v }) ha' hargs (hv ▸ (hfit.bound ha.safe.scopes).grows hg))
        fun _ _ ha'' => .pure ha''
  | query =>
    refine .weakA ha fun name w _ _ => ?_
    dsimp only
    split
    · exact .cell (.pure ha)
    · exact .pure ha
  | assign => exact assignWeak_ends ha hargs
  | assignPointer => exact assignTarget_ends ha hargs
  | take =>
    refine .weakA ha fun name w hn hw => ?_
    have hfree := hargs.a _ hn (.weak name) rfl rfl
    refine makeNilWeak_bind (ha.takeWeak hw hfree) fun h' hg ha' => ?_
    refine Setting.At.setWeak (w := { w with pointer := .nil }) ha' hfree ⟨nofun, Handle.fits_root⟩ fun s' hs ha'' => ?_
    exact .bind (Setting.At.keepWeak ha'' hargs (hs ▸ (ha.fitsWeak hw hfree).grows hg)) fun _ _ ha₃ => .pure ha₃
  | drop =>
    refine .weakA ha fun name w hn hw => .modify_bind ?_
    have hfree := hargs.a _ hn (.weak name) rfl rfl
    exact ((ha.takeWeak hw hfree).clear Shelf.weaks hfree).settle (.refl _) fun _ _ ha' => .pure ha'

end Attempt

end LazyHeap
