import LazyHeap.Proofs.Cloning
import LazyHeap.Proofs.Session.Basic
import LazyHeap.Session.Labels

/-! What a session does with label handles keeps the books. -/
namespace LazyHeap

variable {α β : Type} {σ : Setting} {s s' : Session} {hand : List Task} {name : String} {l : Handle} {c : CellId}
variable {args : Args} {R : Session → Prop} {Q' : β → Session → Prop}

/-! ### Showing -/

/-- Nothing has changed but which labels have been shown. -/
def Session.Shows (s s' : Session) : Prop := ∃ shown, s' = { s with shown }

namespace Session.Shows

protected theorem refl (s : Session) : s.Shows s := ⟨s.shown, rfl⟩

protected theorem trans {s'' : Session} (h₁ : s.Shows s') (h₂ : s'.Shows s'') : s.Shows s'' := by
  obtain ⟨x, rfl⟩ := h₁
  obtain ⟨y, rfl⟩ := h₂
  exact ⟨y, rfl⟩

end Session.Shows

theorem Setting.At.shows (ha : σ.At s hand) (hs : s.Shows s') : σ.At s' hand := by
  obtain ⟨x, rfl⟩ := hs
  exact ⟨ha.course, ha.safe, ha.owned, ⟨ha.fits.slots, ha.fits.weaks, ha.fits.labels, ha.fits.borrows⟩, ha.scopes,
    ha.anchors, ha.fixed, σ.keptReserved s _ ha.kept (fun _ _ => rfl) fun _ _ => rfl, ha.lent⟩

/-- A computation on the session that does nothing but show labels. -/
def SessionM.Looks (x : SessionM α) : Prop := ∀ s, x.Ends s fun _ s' => s.Shows s'

namespace SessionM.Looks

theorem pure (a : α) : Looks (Pure.pure a : SessionM α) := fun s => .refl s

theorem get : Looks (MonadState.get : SessionM Session) := fun s => .refl s

theorem bind {x : SessionM α} {f : α → SessionM β} (hx : Looks x) (hf : ∀ a, Looks (f a)) : Looks (x >>= f) := fun s =>
  (hx s).bind fun a s' _ hs => (hf a s').imp fun _ _ hs' => hs.trans hs'

theorem mapM {f : α → SessionM β} (hf : ∀ a, Looks (f a)) (as : List α) : Looks (as.mapM f) := by
  induction as with
  | nil =>
    rw [List.mapM_nil]
    exact pure _
  | cons a as ih =>
    rw [List.mapM_cons]
    exact bind (hf a) fun _ => bind ih fun _ => pure _

theorem filterMapM {f : α → SessionM (Option β)} (hf : ∀ a, Looks (f a)) (as : List α) : Looks (as.filterMapM f) := by
  induction as with
  | nil =>
    rw [List.filterMapM_nil]
    exact pure _
  | cons a as ih =>
    rw [List.filterMapM_cons]
    refine bind (hf a) fun b => ?_
    cases b with
    | none => exact ih
    | some b => exact bind ih fun _ => pure _

end SessionM.Looks

theorem labelName_looks (l : Handle) : (labelName l).Looks := by
  cases l with
  | empty => exact .pure _
  | root => exact .pure _
  | counted c =>
    intro s
    refine SessionM.Ends.bind (Q := fun t s' => t = s ∧ s' = s) ⟨rfl, rfl⟩ ?_
    rintro _ _ - ⟨rfl, rfl⟩
    split
    · exact .refl _
    · exact ⟨_, rfl⟩

/-- Labels are forked and copied only when they are frozen, if what belongs to one label is to stay apart from the
others. -/
def LabelOp.Allowed (rules : Rules) (args : Args) (s : Session) : LabelOp → Prop
  | .fork | .copy => rules.apart = true → ∀ name l c, args.a = some name → s.labels.get? name = some l → l.cell? = some c →
    (s.heap.label c).frozen = true
  | _ => True

namespace Attempt

theorem labelName_bind {f : String → Attempt β} (ha : σ.At s hand)
    (hf : ∀ n s', s.Shows s' → σ.At s' hand → Ends (f n) s' R Q') : Ends ((labelName l : Attempt String) >>= f) s R Q' :=
  .bind (.lift (labelName_looks l s)) fun n s' hs => hf n s' hs (ha.shows hs)

/-! ### Holding a label -/

theorem holding_ends {act : CellId → HeapM α} {P : α → Heap → Prop} {O : α → List Task} (ha : σ.At s [])
    (hl : l.Fits σ.rules.sealed s.heap) (hsub : ∀ t ∈ l.tasks, t ∈ σ.held s [])
    (hmono : ∀ a h h', h.Grows h' → P a h → P a h')
    (hact : ∀ c h, l.cell? = some c → h.label c = s.heap.label c → h.Held (l.tasks ++ σ.held s []) c →
      (Handle.Fits σ.rules.sealed h l) → σ.At (s.withHeap h) l.tasks →
      Holding (.sparing σ.rules.sealed) σ.rules σ.locks (l.tasks ++ σ.held s []) h [] →
      LazyHeap.Ends Fault.Misuse (act c h) fun a h' => P a h' ∧ h'.scopes = h.scopes ∧
        Passage σ.rules σ.locks (l.tasks ++ σ.held s []) h [] h' (O a)) :
    Ends (holding l act) s (fun s' => σ.At s' []) fun a s' => P a s'.heap ∧ σ.At s' (O a) := by
  unfold holding
  cases hc : l.cell? with
  | none => exact .heap (P := fun _ _ => False) Fault.misuse_emptyHandle nofun
  | some c =>
    refine .heap_bind ?_
    refine ha.run (I := []) (F := []) (M := .calm) (P := fun q h' => q = l ∧ h'.label c = s.heap.label c) (O := fun _ => l.tasks)
      (.refl _) (fun hh => ?_) fun q h₁ ⟨hq, hlabel⟩ hg₁ ha₁ => ?_
    · refine (Handle.clone_spec hh.calm (ha.usableHandle hl hsub)).imp fun q h' ⟨hq, hr, _⟩ =>
        ⟨⟨hq, Heap.label_of_kept hr.keeps (.source ?_)⟩, by simpa using hr⟩
      have hheld : s.heap.Held (l.tasks ++ []) c := Handle.held_of_cell? hc
      exact hheld.imp (fun hm => hsub _ (by simpa using hm)) id
    subst hq
    rw [List.append_nil] at ha₁
    refine .heap_bind ?_
    have hheld : h₁.Held (q.tasks ++ σ.held s []) c := Handle.held_of_cell? hc
    refine ha₁.passage (I := []) (F := q.tasks) (P := P) (O := O) (.refl _) (fun hh => ?_) fun a h₂ _ hP hg₂ ha₂ => ?_
    · exact hact c h₁ hc hlabel hheld (hl.grows hg₁) ha₁ hh
    · refine .heap_bind (ha₂.settle List.perm_append_comm fun h₃ hg₃ ha₃ => ?_)
      exact .pure ⟨hmono a _ _ hg₃ hP, ha₃⟩

/-! ### Operations -/

private theorem label_of_handle {h : Heap} {frame : List Task} (hh : Holding (.sparing σ.rules.sealed) σ.rules σ.locks frame h [])
    (hl : l.Fits σ.rules.sealed h) (hc : l.cell? = some c) : ¬ σ.rules.sealed c ∧ (h.cell c).body = .label (h.label c) := by
  obtain ⟨_, t, ht⟩ := Handle.label_of_cell? hh hl hc
  refine ⟨?_, ht.trans (congrArg Body.label (Heap.label_eq ht).symm)⟩
  cases l with
  | empty => cases hc
  | root =>
    cases hc
    exact σ.rootFree
  | counted d =>
    cases hc
    exact (hl c rfl).1.2

theorem fork_ends (ha : σ.At s []) (hargs : σ.Admits args) (hallowed : LabelOp.Allowed σ.rules args s .fork) :
    σ.Ends (labels args .fork) s := by
  refine .labelA ha fun name l hn hl => ?_
  have hfree := hargs.a _ hn (.label name) rfl rfl
  refine .bind (holding_ends (P := fun d h' => d.Fits σ.rules.sealed h') (O := Handle.tasks) ha (ha.fitsLabel hl hfree)
    (Setting.At.heldLabel hl hfree _) (fun _ _ _ hg hd => hd.grows hg) fun c h hc hlabel hheld hfit _ hh => ?_)
    fun d s' ⟨hfit, ha'⟩ => .bind (Setting.At.keepLabel (by simpa using ha') hargs hfit) fun _ _ ha'' => .pure ha''
  obtain ⟨hsealed, hb⟩ := label_of_handle hh hfit hc
  refine (fork_spec hh hb hheld hsealed hsealed (σ.unsteady c) fun hap => ⟨?_, σ.settled c⟩).imp fun d h' ⟨_, _, _, _, _, hd, _, _, hr⟩ =>
    ⟨hd, hr.keeps.scopes, .of_run hr hh.safe⟩
  rw [hlabel]
  exact hallowed hap name l c hn hl hc

theorem copy_ends (ha : σ.At s []) (hlocks : σ.locks = []) (hargs : σ.Admits args) (hallowed : LabelOp.Allowed σ.rules args s .copy) :
    σ.Ends (labels args .copy) s := by
  refine .labelA ha fun name l hn hl => ?_
  have hfree := hargs.a _ hn (.label name) rfl rfl
  refine .bind (holding_ends (P := fun d h' => d.Fits σ.rules.sealed h') (O := Handle.tasks) ha (ha.fitsLabel hl hfree)
    (Setting.At.heldLabel hl hfree _) (fun _ _ _ hg hd => hd.grows hg) fun c h hc hlabel hheld hfit _ hh => ?_)
    fun d s' ⟨hfit, ha'⟩ => .bind (Setting.At.keepLabel (by simpa using ha') hargs hfit) fun _ _ ha'' => .pure ha''
  obtain ⟨hsealed, hb⟩ := label_of_handle hh hfit hc
  rw [hlocks] at hh ⊢
  refine (copyLabel_spec (hh.safe.holding (.refl _)) hb hheld fun hap => ⟨?_, σ.settled c⟩).imp fun d h' ⟨hd, hr⟩ =>
    ⟨hd, hr.keeps.scopes, .of_run hr hh.safe⟩
  rw [hlabel]
  exact hallowed hap name l c hn hl hc

theorem freezeLabel_ends (ha : σ.At s []) (hlocks : σ.locks = []) (hargs : σ.Admits args) : σ.Ends (labels args .freeze) s := by
  refine .labelA ha fun name l hn hl => ?_
  have hfree := hargs.a _ hn (.label name) rfl rfl
  refine .bind (holding_ends (P := fun _ _ => True) (O := fun _ => []) ha (ha.fitsLabel hl hfree)
    (Setting.At.heldLabel hl hfree _) (fun _ _ _ _ _ => trivial) fun c h hc hlabel hheld hfit ha₁ hh => ?_)
    fun _ s' ⟨_, ha'⟩ => .pure ha'
  obtain ⟨hsealed, hb⟩ := label_of_handle hh hfit hc
  rw [hlocks] at hh ⊢
  refine (freezeLabel_spec hh.calm hb hheld hsealed (σ.unsteady c) fun d hd hfixed => ?_).imp fun _ h' ⟨hst, hcourse, hs, _⟩ =>
    ⟨trivial, hst.scopes, hcourse, hs, (hcourse.firm hh.safe.toFirm).2, fun d _ _ => hst.frozen d⟩
  exact absurd (ha₁.fixed d hfixed) (by simpa [Session.withHeap] using hd)

theorem labelInfo_ends (ha : σ.At s []) (hl : l.Fits σ.rules.sealed s.heap) (hsub : ∀ t ∈ l.tasks, t ∈ σ.held s []) :
    σ.Ends (holding l labelInfo) s :=
  have hinfo : Ends (holding l labelInfo) s (fun s' => σ.At s' []) fun _ s' => True ∧ σ.At s' [] :=
    holding_ends (P := fun _ _ => True) (O := fun _ => []) ha hl hsub (fun _ _ _ _ _ => trivial) fun _ _ _ _ _ _ _ hh =>
      .get_bind (.pure ⟨trivial, rfl, .refl hh.safe⟩)
  hinfo.imp fun _ _ ⟨_, ha'⟩ => ha'

theorem emptyLabel_bind {f : PUnit → Attempt β} (ha : σ.At s hand) (hl : s.labels.get? name = some l)
    (hfree : σ.free (.label name) = true) (hf : ∀ s', s'.heap = s.heap → σ.At s' (l.tasks ++ hand) → Ends (f ⟨⟩) s' R Q') :
    Ends (setLabel name .empty >>= f) s R Q' :=
  have htake : (σ.reserve (.label name)).At s (Handle.empty.tasks ++ (l.tasks ++ hand)) := ha.takeLabel hl hfree
  htake.setLabel hfree Handle.fits_empty hf

theorem replaceLabel_ends (ha : σ.At s []) (hargs : σ.Admits args) : σ.Ends (replaceLabel args) s := by
  refine .need ha fun dest hd => .need ha fun a haa => .label ha fun old hold => .label ha fun new hnew => ?_
  have hfd := hargs.dest _ hd (.label dest) rfl rfl
  have hfa := hargs.a _ haa (.label a) rfl rfl
  -- the handle moves on to a label of which a count is held besides
  have hmove : ∀ {s' : Session} {rest : List Task} {f : Handle → Attempt Reply} {Q : Reply → Session → Prop},
      (σ.reserve (.label dest)).At s' (old.tasks ++ rest) → new.Fits σ.rules.sealed s'.heap →
      (∀ t ∈ new.tasks, t ∈ (σ.reserve (.label dest)).held s' rest) →
      (∀ h', new.Fits σ.rules.sealed h' → (σ.reserve (.label dest)).At (s'.withHeap h') (new.tasks ++ rest) →
        Ends (f new) (s'.withHeap h') (fun s' => σ.At s' []) Q) →
      Ends (heap (old.repoint new) >>= f) s' (fun s' => σ.At s' []) Q := fun {s' rest f Q} ha' hfit hsub hnext => by
    refine ha'.run (F := rest) (M := .calm) (P := fun l _ => l = new) (O := fun l => l.tasks) (.refl _) (fun hh => ?_)
      fun l h' hl hg ha'' => ?_
    · exact (Handle.repoint_spec hh.calm (hh.calm.usable hfit fun t ht => List.mem_append_right _ (hsub t ht))).imp
        fun l _ ⟨hl, hr⟩ => ⟨hl, hl ▸ hr⟩
    · subst hl
      exact hnext h' (hfit.grows hg) ha''
  dsimp only
  split
  · next heq =>
    subst heq
    refine ha.cloneHandle (ha.fitsLabel hnew hfa) (Setting.At.heldLabel hnew hfa _) fun h₁ hf₁ _ ha₁ => ?_
    refine hmove (ha₁.takeLabel hold hfd) hf₁ (fun t ht => List.mem_append_left _ (List.mem_append_left _ ht)) fun h₂ hf₂ ha₂ => ?_
    refine Setting.At.setLabel ha₂ hfd hf₂ fun s' _ ha₃ => ?_
    exact ha₃.settle (.refl _) fun _ _ ha₄ => .pure ha₄
  · next hne =>
    refine hmove (ha.takeLabel hold hfd) (ha.fitsLabel hnew hfa)
      (Setting.At.heldLabel hnew (Setting.free_reserve hfa (by simpa using Ne.symm hne)) _) fun h₂ hf₂ ha₂ => ?_
    exact Setting.At.setLabel ha₂ hfd hf₂ fun s' _ ha₃ => .pure ha₃

theorem initLabel_ends (ha : σ.At s []) (hargs : σ.Admits args) : σ.Ends (initLabel args) s := by
  refine .labelA ha fun name l hn hl => ?_
  have hfree := hargs.a _ hn (.label name) rfl rfl
  refine ha.cloneHandle (ha.fitsLabel hl hfree) (Setting.At.heldLabel hl hfree _) fun h₁ hf₁ _ ha₁ => ?_
  refine .bind (Q := fun x s' => s' = s.withHeap h₁ ∧ args.dest = some x.1 ∧ s'.labels.get? x.1 = some x.2)
    (.cleaning (C := (· = s.withHeap h₁)) ?_ fun s' hs => ?_) fun x s' ⟨hs, hd, hx⟩ => ?_
  · exact .need rfl fun dest hd => .bind (Q := fun x s' => s' = s.withHeap h₁ ∧ s'.labels.get? dest = some x)
      (by rw [← bind_pure (label dest)]; exact .label rfl fun x hx => .pure ⟨rfl, hx⟩) fun x s' ⟨hs, hx⟩ => .pure ⟨hs, hd, hx⟩
  · subst hs
    exact ha₁.settleLast
  subst hs
  have hfd := hargs.dest _ hd (.label x.1) rfl rfl
  dsimp only
  split
  · next hempty =>
    have htake := ha₁.takeLabel hx hfd
    rw [hempty] at htake
    exact Setting.At.setLabel (by simpa [Handle.tasks, Handle.counted?] using htake) hfd hf₁ fun s' _ ha₂ => .pure ha₂
  · exact ha₁.settle (.refl _) fun _ _ ha₂ => .pure ha₂

theorem followChain_ends {act : Handle → HeapM Handle} (ha : σ.At s []) (hargs : σ.Admits args)
    (hact : ∀ (frame : List Task) l, l.Usable σ.rules.sealed s.heap → (∀ t ∈ l.tasks, t ∈ frame) →
      Holding (.sparing σ.rules.sealed) σ.rules σ.locks frame s.heap [] →
      LazyHeap.Ends Fault.Misuse (act l s.heap) fun l' h' => l'.Fits σ.rules.sealed h' ∧
        Run (.sparing σ.rules.sealed) σ.rules σ.locks frame s.heap [] h' l'.tasks) :
    σ.Ends (followChain args act) s := by
  refine .labelA ha fun name l hn hl => ?_
  have hfree := hargs.a _ hn (.label name) rfl rfl
  have hheld := Setting.At.heldLabel (σ := σ) hl hfree []
  refine ha.whole (M := .sparing σ.rules.sealed) (P := fun l' h' => l'.Fits σ.rules.sealed h') (O := Handle.tasks)
    (fun hh => hact _ l (ha.usableHandle (ha.fitsLabel hl hfree) hheld) hheld hh) fun l' h' hfit _ ha' => ?_
  have ha₁ : σ.At (s.withHeap h') (l'.tasks ++ []) := by simpa using ha'
  split
  · next dest hd => exact .bind (ha₁.storeLabel (hargs.dest _ hd (.label dest) rfl rfl) hfit) fun _ _ ha'' => .pure ha''
  · exact labelName_bind ha₁ fun n s' _ ha₂ => ha₂.settle (.refl _) fun _ _ ha₃ => .pure ha₃

theorem holdLabel_ends (ha : σ.At s []) (hargs : σ.Admits args) : σ.Ends (holdLabel args) s := by
  refine .labelA ha fun name l hn hl => ?_
  have hfree := hargs.a _ hn (.label name) rfl rfl
  cases hc : l.cell? with
  | none =>
    simp only [hc]
    exact .heap (P := fun _ _ => False) Fault.misuse_emptyHandle nofun
  | some c =>
    simp only [hc]
    refine ha.cloneHandle (ha.fitsLabel hl hfree) (Setting.At.heldLabel hl hfree _) fun h₁ hf₁ _ ha₁ => ?_
    refine emptyLabel_bind ha₁ hl hfree fun s' _ ha₂ => ?_
    refine ha₂.settle (.refl _) fun h₃ _ ha₃ => .look (a := .list [.flag (h₃.label c).frozen, .ofNat (h₃.label c).memo.size]) rfl ?_
    exact ha₃.settle (.refl _) fun _ _ ha₄ => .pure ha₄

theorem labels_ends {op : LabelOp} (ha : σ.At s []) (hlocks : σ.locks = [] ∨ op = .spawn ∨ op = .drop) (hargs : σ.Admits args)
    (hallowed : op.Allowed σ.rules args s) : σ.Ends (labels args op) s := by
  have hlocks : op ≠ .spawn → op ≠ .drop → σ.locks = [] := fun h₁ h₂ => hlocks.resolve_right (·.elim h₁ h₂)
  cases op with
  | spawn =>
    refine ha.whole (M := .adding) (P := fun l h' => l.Fits σ.rules.sealed h') (O := Handle.tasks) (fun hh => ?_)
      fun l h' hfit _ ha' => ?_
    · exact (spawn_spec hh.calm).imp fun l h' ⟨_, hf, _, hr⟩ => ⟨hf, hr⟩
    · exact .bind (Setting.At.keepLabel (by simpa using ha') hargs hfit) fun _ _ ha'' => .pure ha''
  | root =>
    refine ha.whole (M := .calm) (P := fun _ _ => True) (O := fun _ => []) (fun hh => ?_) fun _ h' _ _ ha' => ?_
    · exact (fixSettings_spec hh).imp fun _ _ ⟨hr, _⟩ => ⟨trivial, hr⟩
    · exact .bind (Setting.At.keepLabel (l := .root) ha' hargs Handle.fits_root) fun _ _ ha'' => .pure ha''
  | none => exact .bind (Setting.At.keepLabel (l := .empty) ha hargs Handle.fits_empty) fun _ _ ha'' => .pure ha''
  | ofSlot =>
    refine .slotA ha fun name t hn ht => ?_
    have hfree := hargs.a _ hn (.slot name) rfl rfl
    exact ha.cloneHandle (ha.fitsSlot ht hfree).label (fun u hu => Setting.At.heldSlot ht hfree _ u (List.mem_append_right _ hu))
      fun h' hf _ ha' => .bind (ha'.keepLabel hargs hf) fun _ _ ha'' => .pure ha''
  | clone =>
    refine .labelA ha fun name l hn hl => ?_
    have hfree := hargs.a _ hn (.label name) rfl rfl
    exact ha.cloneHandle (ha.fitsLabel hl hfree) (Setting.At.heldLabel hl hfree _)
      fun h' hf _ ha' => .bind (ha'.keepLabel hargs hf) fun _ _ ha'' => .pure ha''
  | replace => exact replaceLabel_ends ha hargs
  | release =>
    refine .labelA ha fun name l hn hl => ?_
    have hfree := hargs.a _ hn (.label name) rfl rfl
    exact emptyLabel_bind ha hl hfree fun s' _ ha' =>
      ha'.settle (.refl _) fun _ _ ha'' => .pure ha''
  | take =>
    refine .labelA ha fun name l hn hl => ?_
    have hfree := hargs.a _ hn (.label name) rfl rfl
    exact emptyLabel_bind ha hl hfree fun s' hs ha' =>
      .bind (ha'.keepLabel hargs (hs ▸ ha.fitsLabel hl hfree)) fun _ _ ha'' => .pure ha''
  | init => exact initLabel_ends ha hargs
  | drop =>
    refine .labelA ha fun name l hn hl => .modify_bind ?_
    have hfree := hargs.a _ hn (.label name) rfl rfl
    exact ((ha.takeLabel hl hfree).clear Shelf.labels hfree).settle (.refl _) fun _ _ ha' => .pure ha'
  | fork => exact fork_ends ha hargs hallowed
  | freeze => exact freezeLabel_ends ha (hlocks nofun nofun) hargs
  | copy => exact copy_ends ha (hlocks nofun nofun) hargs hallowed
  | getForward =>
    refine followChain_ends ha hargs fun frame l hl hsub hh => ?_
    exact (Handle.getForward_spec σ.settled hh hl.fits hsub fun c hc _ =>
      ⟨(Handle.Tip.unsealed (.inl hc) hh hl.fits), σ.unsteady c⟩).imp
      fun l' h' ⟨hf, _, hr⟩ => ⟨hf, hr⟩
  | existingForward =>
    refine followChain_ends ha hargs fun frame l hl hsub hh => ?_
    exact (Handle.existingForward_spec hh.calm hl.fits hsub).imp fun l' h' ⟨_, hf, hr⟩ => ⟨hf, hr.relax⟩
  | same => exact .labelA ha fun _ _ _ _ => .need ha fun _ _ => .label ha fun _ _ => .pure ha
  | query => exact .labelA ha fun _ _ _ _ => .pure ha
  | isRoot =>
    refine .labelA ha fun name l hn hl => ?_
    refine ha.whole (M := .calm) (P := fun _ _ => True) (O := fun _ => []) (fun hh => ?_) fun _ h' _ _ ha' => .pure ha'
    exact (fixSettings_spec hh).imp fun _ _ ⟨hr, _⟩ => ⟨trivial, hr⟩
  | info =>
    refine .labelA ha fun name l hn hl => ?_
    have hfree := hargs.a _ hn (.label name) rfl rfl
    dsimp only
    split
    · exact .pure ha
    · exact labelInfo_ends ha (ha.fitsLabel hl hfree) (Setting.At.heldLabel hl hfree _)
  | hold => exact holdLabel_ends ha hargs

end Attempt

end LazyHeap
