import LazyHeap.Proofs.Session.Basic
import LazyHeap.Session.Pointers

/-! What a session does with owning pointers keeps the books. -/
namespace LazyHeap

variable {β : Type} {rules : Rules} {sealed : CellId → Prop} {locks : List Lock} {frame hand rest : List Task} {h : Heap}
variable {c : CellId} {l : Handle} {E : Fault → Prop}
variable {σ : Setting} {s : Session} {args : Args} {R : Session → Prop} {Q' : β → Session → Prop}

/-! ### New objects -/

def Link.blanks : List Link := [.owned .nil, .weak .nil, .label .empty]

theorem Link.fits_blank : ∀ link ∈ Link.blanks, link.Fits sealed h := by
  simp only [blanks, List.mem_cons, List.not_mem_nil, or_false, forall_eq_or_imp, forall_eq]
  exact ⟨⟨nofun, Handle.fits_root⟩, ⟨nofun, Handle.fits_root⟩, Handle.fits_empty⟩

/-- An object whose fields have different names and hold nothing. -/
structure Object.Fresh (o : Object) : Prop where
  names : (o.fields.map (·.name)).Nodup
  links : ∀ link ∈ o.links, link ∈ Link.blanks
  locks : o.locked = false
  tasks : (Body.object o).tasks = []

theorem Object.Fresh.fits {o : Object} (ho : o.Fresh) : (Body.object o).Fits sealed h c :=
  ⟨ho.names, fun link hl => Link.fits_blank link (ho.links link hl)⟩

theorem Object.fresh_node (serial : Nat) (value : Int) : (Object.node serial value).Fresh :=
  ⟨show List.Nodup [FieldName.next, .alt, .kids, .any, .back, .ctx] by decide,
    show ∀ link ∈ [Link.owned .nil, .owned .nil, .weak .nil, .label .empty], link ∈ Link.blanks by decide, rfl, rfl⟩

theorem Object.fresh_leaf (serial : Nat) (value : Int) : (Object.leaf serial value).Fresh :=
  ⟨show List.Nodup [FieldName.pin, .lazy] by decide,
    show ∀ link ∈ [Link.owned .nil, .owned .nil], link ∈ Link.blanks by decide, rfl, rfl⟩

theorem Object.fresh_state (serial : Nat) (value : Int) : (Object.state serial value).Fresh :=
  ⟨show List.Nodup [FieldName.prev, .echo] by decide,
    show ∀ link ∈ [Link.owned .nil, .owned .nil], link ∈ Link.blanks by decide, rfl, rfl⟩

theorem Object.starts (o : Object) : (Body.object o).Starts h rules := ⟨fun _ => trivial, nofun, nofun⟩

private theorem allocateFresh_spec {o : Object} {serial : Nat} (ho : o.Fresh) (hh : Holding .calm rules locks frame h [])
    (hl : l.Fits rules.sealed h) (hsub : ∀ t ∈ l.tasks, t ∈ frame) :
    Ends E ((do
      let c ← allocate (.object o) l
      return (serial, ⟨some c, ← l.clone⟩) : HeapM (Nat × Pointer)) h) fun r h' =>
        r.2.Fits rules.sealed h' ∧ Run .adding rules locks frame h [] h' r.2.tasks := by
  have husable : l.Usable rules.sealed h := hh.usable hl hsub
  have hh₀ : Holding .calm rules locks frame h (Body.object o).tasks := by rwa [ho.tasks]
  refine .bind (allocate_spec hh₀ ho.fits
    (Object.locks_of_unlocked ho.locks) (Object.starts o) fun c hc =>
      ⟨⟨o, rfl⟩, (hl c hc).1.1, hh.weak_of_live (husable.live c hc)⟩)
    fun c h₁ ⟨hc, hadd, hr₁⟩ => ?_
  rw [ho.tasks] at hr₁
  have hh₁ := hh.runAdding hr₁
  refine .bind (Handle.clone_spec hh₁ (hh₁.usable (hl.grows hr₁.keeps.grows) fun t ht => List.mem_append_right _ (hsub t ht)))
    fun l' h₂ ⟨hl', hr₂, _⟩ => ?_
  subst hl' hc
  have hobj : h₁.IsObject h.size := ⟨o, by rw [hadd.new]; rfl⟩
  refine .pure ⟨⟨fun c hc => ?_, (hl.grows hr₁.keeps.grows).grows hr₂.keeps.grows⟩, ?_⟩
  · cases hc
    exact hr₂.keeps.grows.object _ hobj
  · exact hr₁.trans (hr₂.relax.perm (.refl _) (by simp [Pointer.tasks]))

theorem newObject_spec {kind : ObjectKind} {value : Int} (hh : Holding .calm rules locks frame h [])
    (hl : l.Fits rules.sealed h) (hsub : ∀ t ∈ l.tasks, t ∈ frame) :
    Ends E (newObject kind value l h) fun r h' => r.2.Fits rules.sealed h' ∧
      Run .adding rules locks frame h [] h' r.2.tasks := by
  unfold newObject
  refine .bind (fixSettings_spec hh) fun _ h₁ ⟨hr₁, _⟩ => ?_
  refine .bind (newSerial_spec (hh.run hr₁)) fun n h₂ ⟨_, _, hr₂⟩ => ?_
  have hh₂ := (hh.run hr₁).runAdding hr₂
  have hrest : ∀ {o : Object}, o.Fresh → Ends E ((do
      let c ← allocate (.object o) l
      return (n, ⟨some c, ← l.clone⟩) : HeapM (Nat × Pointer)) h₂) fun r h' => r.2.Fits rules.sealed h' ∧
        Run .adding rules locks frame h [] h' r.2.tasks := fun ho =>
    (allocateFresh_spec ho hh₂ ((hl.grows hr₁.keeps.grows).grows hr₂.keeps.grows) hsub).imp fun r h' ⟨hf, hr⟩ =>
      ⟨hf, (hr₁.relax.trans hr₂).trans hr⟩
  cases kind with
  | node => exact hrest (Object.fresh_node n value)
  | leaf => exact hrest (Object.fresh_leaf n value)
  | state => exact hrest (Object.fresh_state n value)

/-- Operations that resolve an object under another label, or copy it whatever the memo says. -/
def PointerOp.Allowed (rules : Rules) : PointerOp → Prop
  | .mapGet => rules.apart = false
  | .mapCopy => rules.careful = false ∧ rules.apart = false
  | _ => True

namespace Attempt

/-! ### Operations -/

theorem needInt_ends : Ends (needInt args) s (· = s) fun _ s' => s' = s := by
  refine .need rfl fun v _ => ?_
  split
  · exact .pure rfl
  · exact .throw rfl

theorem newObject_bind {kind : ObjectKind} {value : Int} {f : Nat × Pointer → Attempt β} (ha : σ.At s hand)
    (hl : l.Fits σ.rules.sealed s.heap) (hsub : ∀ t ∈ l.tasks, t ∈ σ.held s hand)
    (hf : ∀ n p h', p.Fits σ.rules.sealed h' → s.heap.Grows h' → σ.At (s.withHeap h') (p.tasks ++ hand) →
      Ends (f (n, p)) (s.withHeap h') R Q') : Ends (heap (newObject kind value l) >>= f) s R Q' :=
  ha.run (I := []) (F := hand) (P := fun r h' => r.2.Fits σ.rules.sealed h') (O := fun r => r.2.tasks) (.refl _)
    (fun hh => newObject_spec hh.calm hl hsub) fun r h' hr hg ha' => hf r.1 r.2 h' hr hg ha'

theorem withinLabel_ends (ha : σ.At s []) (hargs : σ.Admits args) : Ends (withinLabel args) s (fun s' => σ.At s' [])
    fun l s' => σ.At s' (l.getD .empty).tasks ∧ (l.getD .root).Fits σ.rules.sealed s'.heap ∧
      (l.getD .root).tasks = (l.getD .empty).tasks := by
  unfold withinLabel
  split
  · exact .pure ⟨ha, Handle.fits_root, rfl⟩
  · next name hn =>
    have hfree := hargs.within _ hn (.label name) rfl rfl
    exact .label ha fun l hl => ha.cloneHandle (ha.fitsLabel hl hfree) (Setting.At.heldLabel hl hfree _)
      fun h' hf hg ha' => .pure ⟨by simpa using ha', hf, rfl⟩

theorem new_ends (ha : σ.At s []) (hargs : σ.Admits args) : σ.Ends (new args) s := by
  refine .word needInt_ends ha fun v => .bind (withinLabel_ends ha hargs) fun l s₁ ⟨ha₁, hl, htasks⟩ => ?_
  refine .bind (Q := fun _ s' => s' = s₁) (.cleaning .objectKind fun s' hs => ?_) fun kind s₂ hs => ?_
  · subst hs
    exact (show σ.At s' (_ ++ []) from by simpa using ha₁).settleLast
  · subst hs
    refine newObject_bind ha₁ hl (fun t ht => List.mem_append_left _ (htasks ▸ ht)) fun n p h' hp _ ha₂ => ?_
    refine ha₂.settle List.perm_append_comm fun h₃ hg ha₃ => ?_
    exact .bind (Setting.At.keepSlot (t := ⟨.only kind, p⟩) (by simpa using ha₃) hargs (hp.grows hg)) fun _ _ ha₄ => .pure ha₄

theorem nodePointer_ends {t : Slot} (ha : σ.At s hand) (hf : t.pointer.Fits σ.rules.sealed s.heap)
    (hsub : ∀ u ∈ t.pointer.tasks, u ∈ σ.held s hand) : Ends (nodePointer t) s (· = s) fun p s' =>
      p.Fits σ.rules.sealed s'.heap ∧ s.heap.Grows s'.heap ∧ s'.slots = s.slots ∧ σ.At s' (p.tasks ++ hand) := by
  unfold nodePointer
  split
  · rw [← bind_pure (heap t.pointer.clone)]
    exact ha.clone hf hsub fun p h' hp hg ha' => .pure ⟨hp, hg, rfl, ha'⟩
  · split
    · refine .cell ?_
      split
      · rw [← bind_pure (heap t.pointer.cloneInPlace)]
        exact ha.cloneInPlace hf hsub fun h' hp hg ha' => .pure ⟨hp, hg, rfl, ha'⟩
      · exact .throw rfl
    · exact .throw rfl
  · exact .throw rfl

theorem rebind_bind (link : Link) {f : Link × Option CellId → Attempt β} (ha : σ.At s (link.tasks ++ hand))
    (hlink : link.Fits σ.rules.sealed s.heap) (hl : l.Fits σ.rules.sealed s.heap) (hsub : ∀ t ∈ l.tasks, t ∈ hand)
    (hf : ∀ h', (link.bound [l]).Fits σ.rules.sealed h' → s.heap.Grows h' →
      σ.At (s.withHeap h') ((link.bound [l]).tasks ++ hand) → Ends (f (link.bound [l], none)) (s.withHeap h') R Q') :
    Ends (heap (link.rebind l) >>= f) s R Q' := by
  refine ha.run (P := fun y _ => y = (link.bound [l], none)) (O := fun _ => (link.bound [l]).tasks) (.refl _)
    (fun hh => Link.rebind_spec hh.calm (hh.calm.usable hl fun t ht => ?_)) fun y h' hy hg ha' => ?_
  · exact List.mem_append_right _ (List.mem_append_left _ (hsub t ht))
  · subst hy
    exact hf h' ((hlink.bound hl).grows hg) hg ha'

private theorem linked_node (serial : Nat) (value : Int) (next back : Link) :
    let o := ((Object.node serial value).updateField .next fun f => { f with links := [next] }).updateField .back
      fun f => { f with links := [back] }
    (o.fields.map (·.name)).Nodup ∧ (Body.object o).locks = [] ∧ (Body.object o).tasks = next.tasks ++ back.tasks ∧
      ∀ link ∈ o.links, link = next ∨ link = back ∨ link ∈ Link.blanks := by
  refine ⟨show List.Nodup [FieldName.next, .alt, .kids, .any, .back, .ctx] by decide, rfl, ?_, ?_⟩
  · show [next, .owned .nil, back, .label .empty].flatMap Link.tasks = _
    simp [Link.tasks, Pointer.tasks, Pointer.nil, Handle.tasks, Handle.counted?]
  · show ∀ link ∈ [next, .owned .nil, back, .label .empty], _
    simp [Link.blanks]

theorem newRecycled_ends (ha : σ.At s []) (hargs : σ.Admits args) : σ.Ends (newRecycled args) s := by
  refine .need ha fun name hn => .label ha fun l hl => ?_
  have hfree := hargs.label _ hn (.label name) rfl rfl
  refine ha.cloneHandle (ha.fitsLabel hl hfree) (Setting.At.heldLabel hl hfree _) fun h₁ hl₁ hg₁ ha₁ => ?_
  -- until the pointer is there, whatever goes wrong drops the handle
  refine .bind (Q := fun x s' => s.slots.get? x.1 = some x.2 ∧ args.a = some x.1 ∧ s' = s.withHeap h₁)
    (.cleaning (C := (· = s.withHeap h₁)) ?_ fun s' hs => ?_) fun x s₁ ⟨hx, hxa, hs₁⟩ => ?_
  · rw [← bind_pure (slotA args)]
    exact .slotA rfl fun name t hn ht => .pure ⟨ht, hn, rfl⟩
  · subst hs
    exact ha₁.settleLast
  subst hs₁
  have hfx := hargs.a _ hxa (.slot x.1) rfl rfl
  refine .bind (.cleaning (nodePointer_ends ha₁ (ha₁.fitsSlot hx hfx) (Setting.At.heldSlot hx hfx _)) fun s' hs => ?_)
    fun p s₂ ⟨hp, hg₂, _, ha₂⟩ => ?_
  · subst hs
    exact ha₁.settleLast
  refine .bind (Q := fun _ s' => s' = s₂) (.cleaning needInt_ends fun s' hs => ?_) fun v s₃ hs₃ => ?_
  · subst hs
    exact .heap_bind (ha₂.settle (.refl _) fun _ _ ha' => ha'.settleLast)
  subst hs₃
  refine ha₂.whole (P := fun _ _ => True) (O := fun _ => p.tasks ++ (l.tasks ++ []))
    (fun hh => (newSerial_spec hh).imp fun _ _ ⟨_, _, hr⟩ => ⟨trivial, hr⟩) fun serial h₃ _ hg₃ ha₃ => ?_
  have hp₃ := hp.grows hg₃
  refine ha₃.whole (P := fun w _ => w = ⟨p.target, p.label⟩) (O := fun w => w.tasks ++ (p.tasks ++ (l.tasks ++ [])))
    (fun hh => (WeakPointer.ofPointer_spec hh.calm (hh.calm.usable_pointer hp₃ fun t ht => by simp [ht])).imp
      fun w _ ⟨hw, hr, _⟩ => ⟨hw, hr⟩) fun w h₄ hw hg₄ ha₄ => ?_
  subst hw
  have hl₄ := ((hl₁.grows hg₂).grows hg₃).grows hg₄
  refine rebind_bind (.owned p) (ha₄.perm (List.perm_append_comm_assoc _ _ _)) (hp₃.grows hg₄) hl₄
    (fun t ht => by simp [ht]) fun h₅ hnext hg₅ ha₅ => ?_
  refine rebind_bind (.weak ⟨p.target, p.label⟩) (ha₅.perm (List.perm_append_comm_assoc _ _ _))
    ⟨((hp₃.grows hg₄).grows hg₅).target, ((hp₃.grows hg₄).grows hg₅).label⟩ (hl₄.grows hg₅) (fun t ht => by simp [ht])
    fun h₆ hback hg₆ ha₆ => ?_
  obtain ⟨hnames, hlocks, htasks, hlinks⟩ := linked_node serial v ((Link.owned p).bound [l])
    ((Link.weak ⟨p.target, p.label⟩).bound [l])
  refine ha₆.settle (I := l.tasks)
    (F := ((Link.weak ⟨p.target, p.label⟩).bound [l]).tasks ++ ((Link.owned p).bound [l]).tasks) ?_ fun h₇ hg₇ ha₇ => ?_
  · rw [List.append_nil, ← List.append_assoc]
    exact List.perm_append_comm
  refine (ha₇.perm (List.perm_append_comm.trans (.of_eq htasks.symm))).whole (M := .adding)
    (P := fun o h' => h'.IsObject o) (O := fun o => [.release o]) (fun hh => ?_) fun o h₈ ho hg₈ ha₈ => ?_
  · refine (allocate_spec (l := .root) hh.calm ⟨hnames, fun link hl => ?_⟩ hlocks (Object.starts _) nofun).imp
      fun o h' ⟨ho, hadd, hr⟩ => ?_
    · rcases hlinks link hl with rfl | rfl | hb
      · exact (hnext.grows hg₆).grows hg₇
      · exact hback.grows hg₇
      · exact Link.fits_blank link hb
    · subst ho
      exact ⟨⟨_, congrArg Cell.body hadd.new⟩, hr⟩
  · exact .bind (Setting.At.keepSlot (t := ⟨.only .node, ⟨some o, .root⟩⟩) ha₈ hargs
      ⟨fun o' ho' => by cases ho'; exact ho, Handle.fits_root⟩) fun _ _ ha₉ => .pure ha₉

theorem make_ends (ha : σ.At s []) (hargs : σ.Admits args) : σ.Ends (make args) s := by
  refine .need ha fun word _ => ?_
  split
  · exact .pure ha
  · refine newObject_bind ha Handle.fits_root nofun fun n p h' hp _ ha' => ?_
    exact .bind (ha'.keepSlot hargs hp) fun _ _ ha'' => .pure ha''
  · exact .throw ha

/-! ### Casts -/

/-- A pointer of another type to the same target comes into hand, if the target allows it. -/
theorem castTo_ends {t : Pointee} {p : Pointer} (ha : σ.At s hand) (hf : p.Fits σ.rules.sealed s.heap)
    (hsub : ∀ u ∈ p.tasks, u ∈ σ.held s hand) : Ends (castTo t p) s R fun q s' => s'.slots = s.slots ∧
      s.heap.Grows s'.heap ∧ (∀ q', q = some q' → q' = p) ∧ σ.At s' (q.toList.flatMap Pointer.tasks ++ hand) := by
  have hnone : Ends (Pure.pure none : Attempt (Option Pointer)) s R fun q s' => s'.slots = s.slots ∧
      s.heap.Grows s'.heap ∧ (∀ q', q = some q' → q' = p) ∧ σ.At s' (q.toList.flatMap Pointer.tasks ++ hand) :=
    .pure ⟨rfl, .refl _, nofun, ha⟩
  unfold castTo
  split
  · exact hnone
  · refine .cell ?_
    split
    · split
      · exact ha.cloneInPlace hf hsub fun h' hp hg ha' =>
          .pure ⟨rfl, hg, fun q' hq => (Option.some.inj hq).symm, by simpa using ha'⟩
      · exact hnone
    · exact hnone

theorem keepCast_ends {t : Pointee} {p : Option Pointer} (ha : σ.At s (p.toList.flatMap Pointer.tasks))
    (hargs : σ.Admits args) (hf : ∀ q, p = some q → q.Fits σ.rules.sealed s.heap) : σ.Ends (keepCast args t p) s := by
  unfold keepCast
  split
  · next q => exact .bind (Setting.At.keepSlot (t := ⟨t, q⟩) (by simpa using ha) hargs (hf q rfl)) fun _ _ ha' => .pure ha'
  · exact .pure (by simpa using ha)

private theorem castSlot_ends {t : Pointee} {name : String} {x : Slot} (ha : σ.At s []) (hargs : σ.Admits args)
    (hx : s.slots.get? name = some x) (hfree : σ.free (.slot name) = true) :
    σ.Ends (do keepCast args t (← castTo t x.pointer)) s := by
  refine .bind (castTo_ends ha (ha.fitsSlot hx hfree) (Setting.At.heldSlot hx hfree _)) fun p s' ⟨_, hg, hp, ha'⟩ => ?_
  exact keepCast_ends (by simpa using ha') hargs fun q hq => hp q hq ▸ (ha.fitsSlot hx hfree).grows hg

theorem cast_ends (ha : σ.At s []) (hargs : σ.Admits args) : σ.Ends (cast args) s := by
  refine .slotA ha fun name x hn hx => .need ha fun word _ => .word .pointee ha fun t => ?_
  exact castSlot_ends ha hargs hx (hargs.a _ hn (.slot name) rfl rfl)

theorem castOptional_ends (ha : σ.At s []) (hargs : σ.Admits args) : σ.Ends (castOptional args) s := by
  unfold castOptional
  dsimp only
  split
  · next name hn =>
    refine .slot ha fun x hx => .need ha fun word _ => .word .pointee ha fun t => ?_
    exact castSlot_ends ha hargs hx (hargs.a _ hn (.slot name) rfl rfl)
  · exact .need ha fun word _ => .word .pointee ha fun t => .pure ha

/-! ### Assignments -/

theorem assignees_ends : Ends (assignees args) s (· = s) fun x s' => s' = s ∧ args.dest = some x.1 ∧
    s.slots.get? x.1 = some x.2.1 ∧ ∃ a, args.a = some a ∧ a ≠ x.1 ∧ s.slots.get? a = some x.2.2 := by
  refine .need rfl fun dest hd => .need rfl fun a ha => .guard rfl fun hne => ?_
  exact .slot rfl fun target ht => .slot rfl fun source hs => .pure ⟨rfl, hd, ht, a, ha, fun h => hne h.symm, hs⟩

theorem assign_ends (ha : σ.At s []) (hargs : σ.Admits args) : σ.Ends (assign args) s := by
  refine .bind (assignees_ends.mono (fun _ h => h ▸ ha) fun _ _ h => h) fun x s' ⟨hs, hd, ht, a, haa, hne, hx⟩ => ?_
  subst hs
  refine .guard ha fun _ => ?_
  have hfd := hargs.dest _ hd (.slot x.1) rfl rfl
  have hfa := hargs.a _ haa (.slot a) rfl rfl
  refine ((ha.takeSlot ht hfd).perm (.of_eq (List.append_nil _))).whole (M := .calm)
    (P := fun p _ => p = x.2.2.pointer) (O := fun p => p.tasks) (fun hh => ?_) fun p h' hp hg ha' => ?_
  · exact (Pointer.assign_spec hh.calm (ha.fitsSlot hx hfa) (Setting.At.heldSlot hx (Setting.free_reserve hfa (by simpa using hne)) _)).imp
      fun p h' ⟨hp, hr⟩ => ⟨hp, hp ▸ hr⟩
  · subst hp
    exact Setting.At.setSlot (t := { x.2.1 with pointer := x.2.2.pointer }) (by simpa using ha') hfd
      ((ha.fitsSlot hx hfa).grows hg) fun s' _ ha'' => .pure ha''

private theorem assignCast_ends {dest : String} {target : Slot} {q : Pointer} (ha : σ.At s q.tasks)
    (ht : s.slots.get? dest = some target) (hfree : σ.free (.slot dest) = true) (hq : q.Fits σ.rules.sealed s.heap) :
    σ.Ends (do
      setSlot dest { target with pointer := ← heap (target.pointer.assign q) }
      heap q.drop
      return Reply.flag true) s := by
  refine (ha.takeSlot ht hfree).run (M := .calm) (P := fun p _ => p = q) (O := fun p => p.tasks) (.refl _) (fun hh => ?_)
    fun p h' hp hg ha' => ?_
  · exact (Pointer.assign_spec hh.calm hq fun t ht => List.mem_append_left _ ht).imp fun p h' ⟨hp, hr⟩ => ⟨hp, hp ▸ hr⟩
  · subst hp
    refine Setting.At.setSlot (t := { target with pointer := p }) ha' hfree (hq.grows hg) fun s' _ ha'' => ?_
    exact ha''.settle (.of_eq (List.append_nil _).symm) fun _ _ ha₃ => .pure ha₃

private theorem assignNil_ends {dest : String} {target : Slot} {l : Handle} (ha : σ.At s [])
    (ht : s.slots.get? dest = some target) (hfree : σ.free (.slot dest) = true) (hl : l.Fits σ.rules.sealed s.heap)
    (hsub : ∀ t ∈ l.tasks, t ∈ (σ.reserve (.slot dest)).held s []) :
    σ.Ends (do
      if let some o := target.pointer.target then heap (LazyHeap.release o)
      let l ← heap (target.pointer.label.repoint l)
      setSlot dest { target with pointer := ⟨none, l⟩ }
      return Reply.flag true) s := by
  have hlast : ∀ s', s'.slots = s.slots → s.heap.Grows s'.heap →
      (σ.reserve (.slot dest)).At s' (target.pointer.label.tasks) → (∀ t ∈ l.tasks, t ∈ (σ.reserve (.slot dest)).held s' []) →
      σ.Ends (do
        let l ← heap (target.pointer.label.repoint l)
        setSlot dest { target with pointer := ⟨none, l⟩ }
        return Reply.flag true) s' := fun s' hslots hg ha' hsub' => by
    refine ha'.whole (M := .calm) (P := fun l' _ => l' = l) (O := fun l' => l'.tasks) (fun hh => ?_) fun l' h' hl' hg' ha'' => ?_
    · exact (Handle.repoint_spec hh.calm (hh.calm.usable (hl.grows hg) fun t ht => List.mem_append_right _ (hsub' t ht))).imp
        fun l' h' ⟨hl', hr⟩ => ⟨hl', hl' ▸ hr⟩
    · subst hl'
      exact Setting.At.setSlot (t := { target with pointer := ⟨none, l'⟩ }) (by simpa [Pointer.tasks] using ha'') hfree
        ⟨nofun, (hl.grows hg).grows hg'⟩ fun s' _ ha₃ => .pure ha₃
  have htake := ha.takeSlot ht hfree
  split
  · next o ho =>
    refine htake.settle (I := [.release o]) (F := target.pointer.label.tasks) (.of_eq (by simp [Pointer.tasks, ho]))
      fun h' hg ha' => ?_
    exact hlast (s.withHeap h') rfl hg ha' hsub
  · next hnone =>
    have : target.pointer.target = none := Option.eq_none_iff_forall_ne_some.2 hnone
    exact hlast s rfl (.refl _) (by simpa [Pointer.tasks, this] using htake) hsub

theorem assignFrom_ends (ha : σ.At s []) (hargs : σ.Admits args) : σ.Ends (assignFrom args) s := by
  refine .bind (assignees_ends.mono (fun _ h => h ▸ ha) fun _ _ h => h) fun x s' ⟨hs, hd, ht, a, haa, hne, hx⟩ => ?_
  subst hs
  have hfd := hargs.dest _ hd (.slot x.1) rfl rfl
  have hfa := hargs.a _ haa (.slot a) rfl rfl
  have hfits := ha.fitsSlot hx hfa
  refine .bind (castTo_ends ha hfits (Setting.At.heldSlot hx hfa _)) fun p s₁ ⟨hslots, hg, hp, ha₁⟩ => ?_
  cases p with
  | some q => exact assignCast_ends (by simpa using ha₁) (hslots ▸ ht) hfd (hp q rfl ▸ hfits.grows hg)
  | none =>
    dsimp only
    split
    · exact .pure (by simpa using ha₁)
    · refine assignNil_ends (by simpa using ha₁) (hslots ▸ ht) hfd (hfits.label.grows hg) fun t ht => ?_
      refine Setting.At.heldSlot (hslots ▸ hx) (Setting.free_reserve hfa (by simpa using hne)) _ t ?_
      exact List.mem_append_right _ ht

/-! ### Moves -/

theorem take_ends (ha : σ.At s []) (hargs : σ.Admits args) : σ.Ends (take args) s := by
  refine .slotA ha fun name x hn hx => ?_
  have hfree := hargs.a _ hn (.slot name) rfl rfl
  refine (ha.takeSlot hx hfree).run (I := []) (M := .calm) (P := fun p _ => p = .nil) (O := fun _ => []) (.refl _)
    (fun hh => ?_) fun p h' hp hg ha' => ?_
  · exact .bind (fixSettings_spec hh) fun _ h₁ ⟨hr, _⟩ => .pure ⟨rfl, hr⟩
  · subst hp
    refine Setting.At.setSlot (t := { x with pointer := .nil }) (by simpa [Pointer.tasks_nil] using ha') hfree
      ⟨nofun, Handle.fits_root⟩ fun s' hs ha'' => ?_
    exact .bind (Setting.At.keepSlot (by simpa using ha'') hargs (hs ▸ (ha.fitsSlot hx hfree).grows hg)) fun _ _ ha₃ => .pure ha₃

theorem replace_ends (ha : σ.At s []) (hargs : σ.Admits args) : σ.Ends (replace args) s := by
  refine .slotA ha fun name x hn hx => .need ha fun other ho => .slot ha fun next ht => .guard ha fun hne => .guard ha fun _ => ?_
  have hfn := hargs.a _ hn (.slot name) rfl rfl
  have hfo := hargs.swapWith _ ho (.slot other) rfl rfl
  have hput := ((ha.takeSlot ht hfo).clear Shelf.slots hfo).put Shelf.slots (a := next) hfn (ha.fitsSlot ht hfo)
  have hget : (s.slots.erase other).get? name = some x := (NameMap.get?_erase_of_ne _ (Ne.symm hne)).trans hx
  simp only [Shelf.slots, hget, Option.toList_some, List.flatMap_singleton] at hput
  refine .modify_bind (.modify_bind ?_)
  exact .bind (hput.keepSlot hargs (ha.fitsSlot hx hfn)) fun _ _ ha₃ => .pure ha₃

theorem bindTo_ends (ha : σ.At s []) (hargs : σ.Admits args) : σ.Ends (bindTo args) s := by
  refine .slotA ha fun name x hn hx => ?_
  have hfn := hargs.a _ hn (.slot name) rfl rfl
  dsimp only
  split
  · exact .throw ha
  · next o ho =>
    refine .need ha fun word hw => .label ha fun l hl => ?_
    have hfl := hargs.label _ hw (.label word) rfl rfl
    refine ha.whole (M := .calm) (P := fun p _ => p = ⟨some o, l⟩) (O := fun p => p.tasks) (fun hh => ?_)
      fun p h' hp hg ha' => ?_
    · have hu := ha.usable (ha.fitsSlot hx hfn) (Setting.At.heldSlot hx hfn _)
      refine (Pointer.make_spec hh.calm (hu.target o ho).1 (hu.target o ho).2
        (ha.usableHandle (ha.fitsLabel hl hfl) (Setting.At.heldLabel hl hfl _))).imp fun p h' ⟨hp, hr⟩ => ⟨hp, by simpa using hr⟩
    · subst hp
      exact .bind (Setting.At.keepSlot (t := ⟨x.pointee, ⟨some o, l⟩⟩) (by simpa using ha') hargs
        ⟨fun o' ho' => ((ha.fitsSlot hx hfn).grows hg).target o' (ho.trans ho'), (ha.fitsLabel hl hfl).grows hg⟩)
        fun _ _ ha'' => .pure ha''

/-! ### Resolving under another label -/

/-- What resolving an object of a slot under a label that is in hand has to come to. -/
def Maps (σ : Setting) (act : Handle → CellId → HeapM (Option CellId)) : Prop :=
  ∀ (s : Session) (l : Handle) (p : Pointer) (o : CellId), p.target = some o → l.Fits σ.rules.sealed s.heap →
    p.Fits σ.rules.sealed s.heap → (∀ c, σ.rules.fixed c → Heap.Via σ.rules.sealed s.heap (σ.held s []) c) →
    Holding (.sparing σ.rules.sealed) σ.rules σ.locks (σ.held s []) s.heap (p.tasks ++ l.tasks) →
    LazyHeap.Ends Fault.Misuse (act l o s.heap) fun found h' => (∀ r, found = some r → h'.IsObject r) ∧
      Run (.sparing σ.rules.sealed) σ.rules σ.locks (σ.held s []) s.heap (p.tasks ++ l.tasks) h'
        (found.toList.map .release ++ (p.tasks ++ l.tasks))

theorem mapThrough_ends {act : Handle → CellId → HeapM (Option CellId)} (ha : σ.At s []) (hargs : σ.Admits args)
    (hact : ∀ name, Maps (σ.reserve (.slot name)) act) : σ.Ends (mapThrough args act) s := by
  refine .need ha fun name hn => .label ha fun l hl => ?_
  have hfree := hargs.label _ hn (.label name) rfl rfl
  refine ha.cloneHandle (ha.fitsLabel hl hfree) (Setting.At.heldLabel hl hfree _) fun h₁ hl₁ hg₁ ha₁ => ?_
  refine .bind (Q := fun x s' => ∃ n, args.a = some n ∧ s.slots.get? n = some x.1 ∧ x.1.pointer.target = some x.2 ∧
      s' = s.withHeap h₁) (.cleaning (C := (· = s.withHeap h₁)) ?_ fun s' hs => ?_) fun x s₁ ⟨n, hna, hx, ho, hs₁⟩ => ?_
  · refine .slotA rfl fun n x hna hx => ?_
    dsimp only
    split
    · next o ho => exact .pure ⟨n, hna, hx, ho, rfl⟩
    · exact .throw rfl
  · subst hs
    exact ha₁.settleLast
  subst hs₁
  have hfn := hargs.a _ hna (.slot n) rfl rfl
  have hx₁ : (s.withHeap h₁).slots.get? n = some x.1 := hx
  have htake := ha₁.takeSlot hx₁ hfn
  rw [List.append_nil] at htake
  refine htake.whole (M := .sparing σ.rules.sealed) (P := fun found h' => ∀ r, found = some r → h'.IsObject r)
    (O := fun found => found.toList.map .release ++ (x.1.pointer.tasks ++ l.tasks)) (fun hh => ?_) fun found h₂ hobj hg₂ ha₂ => ?_
  · exact hact n (s.withHeap h₁) l x.1.pointer x.2 ho hl₁ (ha₁.fitsSlot hx₁ hfn) (htake.anchored _) hh
  -- the slot still has what it had
  have hx₂ : ((s.withHeap h₁).withHeap h₂).slots.get? n = some x.1 := hx
  have ha₃ : σ.At ((s.withHeap h₁).withHeap h₂) (found.toList.map .release ++ l.tasks) :=
    (ha₂.perm (List.perm_append_comm_assoc _ _ _)).untake Shelf.slots hx₂ hfn ((ha₁.fitsSlot hx₁ hfn).grows hg₂)
  cases found with
  | none => exact (show σ.At _ (l.tasks ++ []) by simpa using ha₃).settle (.refl _) fun _ _ ha₄ => .pure ha₄
  | some r =>
    refine .serialOf fun serial => ?_
    have hp : Pointer.Fits σ.rules.sealed h₂ ⟨some r, l⟩ :=
      ⟨fun o ho => by cases ho; exact hobj r rfl, hl₁.grows hg₂⟩
    have ha₄ : σ.At ((s.withHeap h₁).withHeap h₂) (Pointer.tasks ⟨some r, l⟩ ++ []) := by
      simpa [Pointer.tasks] using ha₃
    split
    · next dest hd =>
      exact .bind (Setting.At.storeSlot (t := ⟨x.1.pointee, ⟨some r, l⟩⟩) ha₄ (hargs.dest _ hd (.slot dest) rfl rfl) hp)
        fun _ _ ha₅ => .pure ha₅
    · exact ha₄.settle (.refl _) fun _ _ ha₅ => .pure ha₅

theorem maps_mapGet (hapart : σ.rules.apart = false) : Maps σ fun l o => return some (← mapGet l o) := by
  intro s l p o ho hl hp hfixed hh
  refine .bind (mapGet_spec hh σ.fieldLocks (hp.target o ho) (by simp [Pointer.tasks, ho]) hl
    (fun t ht => List.mem_append_left _ (List.mem_append_right _ ht)) (fun c hc => (hl c hc).1.2)
    (fun c _ _ hc => absurd hc (σ.unsteady c)) (fun c _ hc => hc.elim (hfixed c) fun hc => absurd hc (σ.unsteady c))
    (fun h => nomatch hapart.symm.trans h) fun _ _ _ _ _ _ => Fault.misuse_selfWait) fun r h' ⟨_, _, hobj, hr⟩ => ?_
  exact .pure ⟨fun r' hr' => by cases hr'; exact hobj, hr⟩

/-- An operation that needs nothing in hand may be performed with something in hand. -/
private theorem aside {manner : Manner} {h h' : Heap} {ins outs : List Task}
    (hr : Run manner rules locks (ins ++ frame) h [] h' outs) : Run manner rules locks frame h ins h' (outs ++ ins) :=
  hr.widen

theorem maps_mapPull : Maps σ mapPull := by
  intro s l p o ho hl hp _ hh
  refine (mapPull_spec (hh.focus (.of_eq (List.nil_append _).symm)).calm hl (fun t ht => List.mem_append_left _
    (List.mem_append_right _ ht)) (hp.target o ho)).imp fun found h' ⟨r, _, hobj, hfound, hr⟩ => ⟨fun r' hr' => ?_, ?_⟩
  · rcases hfound with hf | ⟨hf, _⟩
    · rw [hf] at hr'
      cases hr'
      exact hr.keeps.grows.object _ hobj
    · rw [hf] at hr'
      cases hr'
  · exact (aside hr).relax

theorem maps_mapCopy (hcareful : σ.rules.careful = false) (hapart : σ.rules.apart = false) :
    Maps σ fun l o => return some (← mapCopy l o) := by
  intro s l p o ho hl hp _ hh
  refine .bind (mapCopy_spec (hh.focus (.of_eq (List.nil_append _).symm)) (hp.target o ho)
    (List.mem_append_left _ (by simp [Pointer.tasks, ho])) hl (fun t ht => List.mem_append_left _ (List.mem_append_right _ ht))
    (fun c hc => ⟨(hl c hc).1.2, σ.unsteady c⟩) (fun h => nomatch hcareful.symm.trans h) (fun h => nomatch hapart.symm.trans h)
    Fault.misuse_selfWait) fun r h' ⟨hobj, hr⟩ => ?_
  exact .pure ⟨fun r' hr' => by cases hr'; exact hobj, aside hr⟩

/-! ### All operations -/

theorem pointers_ends {op : PointerOp} (ha : σ.At s []) (hargs : σ.Admits args) (hallowed : op.Allowed σ.rules) :
    σ.Ends (pointers args op) s := by
  cases op with
  | new => exact new_ends ha hargs
  | newRecycled => exact newRecycled_ends ha hargs
  | make => exact make_ends ha hargs
  | nil =>
    refine .word .pointee ha fun t => ?_
    refine ha.whole (M := .calm) (P := fun p _ => p = .nil) (O := fun _ => []) (fun hh => ?_) fun p h' hp _ ha' => ?_
    · exact .bind (fixSettings_spec hh) fun _ h₁ ⟨hr, _⟩ => .pure ⟨rfl, hr⟩
    · subst hp
      exact .bind (Setting.At.keepSlot (t := ⟨t, .nil⟩) ha' hargs ⟨nofun, Handle.fits_root⟩) fun _ _ ha₂ => .pure ha₂
  | clone =>
    refine .slotA ha fun name x hn hx => ?_
    have hfn := hargs.a _ hn (.slot name) rfl rfl
    refine ha.clone (ha.fitsSlot hx hfn) (Setting.At.heldSlot hx hfn _) fun q h' hq _ ha' => ?_
    exact .bind (Setting.At.keepSlot (t := { x with pointer := q }) ha' hargs hq) fun _ _ ha₂ => .pure ha₂
  | erase =>
    refine .slotA ha fun name x hn hx => .guard ha fun _ => ?_
    have hfn := hargs.a _ hn (.slot name) rfl rfl
    refine ha.cloneInPlace (ha.fitsSlot hx hfn) (Setting.At.heldSlot hx hfn _) fun h' hq _ ha' => ?_
    exact .bind (Setting.At.keepSlot (t := ⟨.any, x.pointer⟩) ha' hargs hq) fun _ _ ha₂ => .pure ha₂
  | cast => exact cast_ends ha hargs
  | castOptional => exact castOptional_ends ha hargs
  | drop =>
    refine .slotA ha fun name x hn hx => .modify_bind ?_
    have hfree := hargs.a _ hn (.slot name) rfl rfl
    have hclear := (ha.takeSlot hx hfree).clear Shelf.slots hfree
    exact hclear.settle (.refl _) fun _ _ ha' => .pure ha'
  | assign => exact assign_ends ha hargs
  | assignFrom => exact assignFrom_ends ha hargs
  | take => exact take_ends ha hargs
  | replace => exact replace_ends ha hargs
  | query => exact .slotA ha fun _ _ _ _ => .pure ha
  | isFrozen =>
    refine .slotA ha fun name x _ _ => ?_
    dsimp only
    split
    · exact .cell (.pure ha)
    · exact .pure ha
  | sameTarget => exact .slotA ha fun _ _ _ _ => .need ha fun _ _ => .slot ha fun _ _ => .pure ha
  | count =>
    refine .slotA ha fun name x _ _ => ?_
    dsimp only
    split
    · exact .cell (.pure ha)
    · exact .pure ha
  | bind => exact bindTo_ends ha hargs
  | mapGet =>
    have hapart : σ.rules.apart = false := hallowed
    show σ.Ends (mapThrough args fun l o => return some (← LazyHeap.mapGet l o)) s
    exact mapThrough_ends ha hargs fun _ => maps_mapGet hapart
  | mapPull =>
    show σ.Ends (mapThrough args LazyHeap.mapPull) s
    exact mapThrough_ends ha hargs fun _ => maps_mapPull
  | mapCopy =>
    have hboth : σ.rules.careful = false ∧ σ.rules.apart = false := hallowed
    show σ.Ends (mapThrough args fun l o => return some (← LazyHeap.mapCopy l o)) s
    exact mapThrough_ends ha hargs fun _ => maps_mapCopy hboth.1 hboth.2

end Attempt

end LazyHeap
