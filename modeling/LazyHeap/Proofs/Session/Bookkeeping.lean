import LazyHeap.Proofs.Session.Labels
import LazyHeap.Proofs.Sweeping
import LazyHeap.Session.Collector
import LazyHeap.Session.Describe
import LazyHeap.Session.Graph
import LazyHeap.Session.Headers
import LazyHeap.Session.Run

/-! What a session does with the collector, and how it shows what it holds: all of this keeps the books. -/
namespace LazyHeap

variable {α β : Type} {σ : Setting} {s s' : Session} {hand : List Task} {name : String} {l : Handle} {c : CellId}
variable {args : Args} {R : Session → Prop} {Q' : β → Session → Prop}

namespace Attempt

/-! ### The collector -/

theorem fixSettings_bind {f : PUnit → Attempt β} (ha : σ.At s hand)
    (hf : ∀ h', σ.At (s.withHeap h') hand → Ends (f ⟨⟩) (s.withHeap h') R Q') : Ends (heap fixSettings >>= f) s R Q' :=
  ha.run (I := []) (F := hand) (M := .calm) (P := fun _ _ => True) (O := fun _ => []) (.refl _)
    (fun hh => (fixSettings_spec hh).imp fun _ _ ⟨hr, _⟩ => ⟨trivial, hr⟩) fun _ h' _ _ ha' => hf h' ha'

theorem installSettings_ends (ha : σ.At s []) (settings : Settings) :
    Ends (heap (installSettings settings)) s R fun _ s' => σ.At s' [] := by
  rw [← bind_pure (heap _)]
  refine ha.whole (M := .calm) (P := fun _ _ => True) (O := fun _ => []) (fun hh => ?_) fun _ h' _ _ ha' => .pure ha'
  unfold installSettings
  rcases settings.validate with e | ⟨⟨⟩⟩
  · exact .pure ⟨trivial, .refl _ _ _ _⟩
  · refine .get_bind ?_
    cases hset : s.heap.settings with
    | some _ => exact .pure ⟨trivial, .refl _ _ _ _⟩
    | none =>
      have hstep : Advance σ.rules ⟨s.heap, σ.locks, [], [] ++ σ.held s []⟩
          ⟨{ s.heap with settings := some settings }, σ.locks, [], [] ++ σ.held s []⟩ := .clerical rfl (Nat.le_refl _)
      refine .set_bind (.pure ⟨trivial, .of_step hstep ?_⟩)
      exact ⟨fun _ _ => rfl, ⟨fun _ => rfl, fun _ => id, fun _ => .inl rfl⟩, Heap.grows_of_cells rfl, rfl, rfl, rfl⟩

theorem collector_ends {op : CollectorOp} (ha : σ.At s []) : σ.Ends (collector args op) s := by
  cases op with
  | collect =>
    refine ha.whole (M := .calm) (P := fun _ _ => True) (O := fun _ => []) (fun hh => ?_) fun _ h' _ _ ha' => .pure ha'
    exact (collectCycles_spec hh.calm).imp fun _ _ ⟨_, hr⟩ => ⟨trivial, hr⟩
  | collectIfDue =>
    refine ha.whole (M := .calm) (P := fun _ _ => True) (O := fun _ => []) (fun hh => ?_) fun o h' _ _ ha' => ?_
    · exact (collectIfDue_spec hh.calm).imp fun _ _ hr => ⟨trivial, hr⟩
    · cases o <;> exact .pure ha'
  | candidates => exact .get_bind (.pure ha)
  | totals => exact .get_bind (.pure ha)
  | due => exact .need ha fun _ _ => .pure ha
  | settingsFrom => exact .pure ha
  | configure => exact .bind (installSettings_ends ha _) fun _ _ ha' => .pure ha'
  | settings => exact fixSettings_bind ha fun h' ha' => .get_bind (.pure ha')

/-! ### The bookkeeping of one cell -/

theorem subject_ends : Ends (subject args) s (· = s) fun _ s' => s' = s := by
  unfold subject
  dsimp only
  split
  · refine .weak rfl fun w _ => .look rfl ?_
    cases w.pointer.target with
    | none => exact .throw rfl
    | some c => exact .pure rfl
  · refine .label rfl fun l _ => .look rfl ?_
    cases l.cell? with
    | none => exact .throw rfl
    | some c => exact .pure rfl
  · refine .slotA rfl fun _ t _ _ => .look rfl ?_
    cases t.pointer.target with
    | none => exact .throw rfl
    | some c => exact .pure rfl

theorem census_ends {finishing tolerant : Bool} (ha : σ.At s []) : σ.Ends (census finishing tolerant c) s := by
  refine .cell ?_
  split
  · exact .pure ha
  · split
    · exact .bind (Q := fun _ _ => False) (.heap (P := fun _ _ => False) Fault.misuse_selfWait nofun) nofun
    · exact .pure ha

theorem owner_ends (ha : σ.At s []) : σ.Ends (owner c) s := by
  refine .cell ?_
  split
  · exact .pure ha
  · split
    · exact fixSettings_bind ha fun h' ha' => labelName_bind ha' fun n s' _ ha'' => .pure ha''
    · next l hl =>
      obtain ⟨-, hroot, -⟩ := ha.owned c l hl
      refine ha.whole (M := .calm) (P := fun _ _ => True) (O := fun found => if found then [.release l] else [])
        (fun hh => (retainIfAlive_spec hh.calm hroot).imp fun found _ ⟨_, hr⟩ => ⟨trivial, by simpa using hr⟩)
        fun found h' _ _ ha' => ?_
      cases found with
      | false => exact .pure (by simpa using ha')
      | true =>
        refine labelName_bind (by simpa using ha') fun n s' _ ha'' => ?_
        exact ha''.settle (.refl _) fun _ _ ha₃ => .pure ha₃

theorem headers_ends {op : HeaderOp} {under : Bool} (ha : σ.At s []) (hop : op ≠ .change) : σ.Ends (headers under args op) s := by
  cases op with
  | view => exact .word subject_ends ha fun c => .cell (.get_bind (.pure ha))
  | change => exact absurd rfl hop
  | owner => exact .word subject_ends ha fun c => owner_ends ha
  | census => exact .word subject_ends ha fun c => census_ends ha
  | censusFinish => exact .word subject_ends ha fun c => census_ends ha
  | censusPointer => exact .slotA ha fun _ _ _ _ => .pure ha

end Attempt

/-! ### Pictures -/

open SessionM (Looks)

theorem shownCell_looks (c : CellId) : (shownCell c).Looks := .bind .get fun _ => .pure _

theorem linkLine_looks (o : Option CellId) (l : Handle) (weak : Bool) : (linkLine o l weak).Looks := by
  cases o with
  | none => exact .bind (labelName_looks l) fun _ => .pure _
  | some o => exact .bind (shownCell_looks o) fun _ => .bind (labelName_looks l) fun _ => .pure _

theorem labelLine_looks (l : Handle) : (labelLine l).Looks := by
  have hlabel : ∀ c, (do return (← get).heap.label c : SessionM Label).Looks := fun c => .bind .get fun _ => .pure _
  refine .bind (labelName_looks l) fun _ => ?_
  cases l with
  | empty => exact .pure _
  | root => exact .bind (hlabel _) fun _ => .pure _
  | counted c => exact .bind (shownCell_looks c) fun _ => .bind (hlabel c) fun _ => .pure _

theorem fieldView_looks (f : Field) : (fieldView f).Looks := by
  have hone : ∀ o l weak, (do return some (.one (← linkLine o l weak)) : SessionM (Option FieldView)).Looks :=
    fun o l weak => .bind (linkLine_looks o l weak) fun _ => .pure _
  unfold fieldView
  split
  · exact .pure _
  · split
    · refine .bind (.filterMapM (fun link => ?_) _) fun _ => .pure _
      split
      · exact .bind (linkLine_looks _ _ _) fun _ => .pure _
      · exact .pure _
    · exact hone _ _ _
    · split
      · exact .pure _
      · exact hone _ _ _
    · split
      · exact .pure _
      · exact hone _ _ _
    · split
      · exact .pure _
      · exact .bind (labelName_looks _) fun _ => .pure _
    · exact .pure _

theorem nodeView_looks (x : Cell) (o : Object) : (nodeView x o).Looks := by
  unfold nodeView
  dsimp only
  split
  · exact .bind (.pure _) fun _ => .pure _
  · exact .bind (.filterMapM (fun f => .bind (fieldView_looks f) fun _ => .pure _) _) fun _ => .pure _

theorem labelView_looks (c : CellId) : (labelView c).Looks :=
  .bind (labelLine_looks _) fun _ => .bind .get fun _ => .bind (labelName_looks _) fun _ => .pure _

theorem labelViews_looks (reached : List CellId) (fuel n : Nat) : (labelViews reached fuel n).Looks := by
  induction fuel generalizing n with
  | zero => exact .pure _
  | succ fuel ih =>
    refine .bind .get fun s => ?_
    split
    · exact .pure _
    · split
      · exact .bind (labelView_looks _) fun _ => .bind (ih _) fun _ => .pure _
      · exact ih _

namespace Attempt

theorem drawGraph_ends (ha : σ.At s []) : σ.Ends (views args .graph) s := by
  refine .bind (Q := fun _ s' => σ.At s' []) (.lift ?_) fun _ _ ha' => .pure ha'
  -- the settings are fixed first, and the rest only looks
  have hfixed : σ.At (s.withHeap s.heap.fixSettings) [] := by
    have hh : Holding _ σ.rules σ.locks (σ.held s []) s.heap [] := ha.holding (.refl _)
    obtain ⟨hr, -⟩ : Run .calm σ.rules σ.locks (σ.held s []) s.heap [] s.heap.fixSettings [] ∧ _ :=
      (fixSettings_spec hh.calm : LazyHeap.Ends Fault.Misuse (fixSettings s.heap) _)
    have hpass : Passage σ.rules σ.locks (σ.held s []) s.heap [] s.heap.fixSettings [] := .of_run hr hh.safe
    have hscopes : s.heap.fixSettings.scopes = s.heap.scopes := rfl
    exact (ha.goes (.refl _) hscopes hpass).2
  have hpicture : ∀ (look : Cell × Object → SessionM NodeView) (reached : List CellId) (n : Nat)
      (objects : List (Cell × Object)), (∀ p, (look p).Looks) → (do
        let nodes ← objects.mapM look
        let labels ← labelViews reached n 0
        return ⟨nodes, labels⟩ : SessionM GraphView).Looks := fun look reached n objects hlook =>
    .bind (.mapM hlook _) fun _ => .bind (labelViews_looks _ _ _) fun _ => .pure _
  refine .bind (Q := fun t s' => t = s ∧ s' = s) ⟨rfl, rfl⟩ ?_
  rintro _ _ - ⟨rfl, rfl⟩
  dsimp only
  split
  · exact .bind (Q := fun _ s' => σ.At s' []) hfixed fun _ s' _ ha' =>
      (hpicture _ _ _ _ (fun p => nodeView_looks p.1 p.2) s').imp fun _ _ hs => ha'.shows hs
  · exact (hpicture _ _ _ _ (fun p => nodeView_looks p.1 p.2) _).imp fun _ _ hs => ha.shows hs

theorem castValue_ends (ha : σ.At s []) : σ.Ends (castValue args) s := by
  unfold castValue
  refine .need ha fun source _ => ?_
  split
  · exact .throw ha
  · exact .guard ha fun _ => .need ha fun type _ => .guard ha fun _ => .pure ha

theorem describe_ends (ha : σ.At s []) (hargs : σ.Admits args) : σ.Ends (describe args) s := by
  unfold describe
  refine .need ha fun kind _ => ?_
  dsimp only
  split
  · exact .slotA ha fun _ _ _ _ => .look rfl (.pure ha)
  · exact .slotA ha fun _ _ _ _ => .look rfl (.pure ha)
  · refine .slotA ha fun _ t _ _ => ?_
    cases t.pointer.target with
    | none => exact .look rfl (.pure ha)
    | some o => exact .cell (.look rfl (.pure ha))
  · refine .weakA ha fun _ w _ _ => ?_
    cases w.pointer.target with
    | none => exact .look rfl (.look rfl (.pure ha))
    | some o => exact .cell (.look rfl (.look rfl (.pure ha)))
  · exact .weakA ha fun _ _ _ _ => .look rfl (.pure ha)
  · exact .labelA ha fun _ _ _ _ => fixSettings_bind ha fun _ ha' => .look rfl (.pure ha')
  · refine .labelA ha fun name l hn hl => ?_
    have hfree := hargs.a _ hn (.label name) rfl rfl
    cases l.cell? with
    | none => exact .look rfl (.pure ha)
    | some c =>
      exact ha.cloneHandle (ha.fitsLabel hl hfree) (Setting.At.heldLabel hl hfree _) fun _ _ _ ha₁ =>
        .get_bind (ha₁.settle (.refl _) fun _ _ ha₂ => .look rfl (.pure ha₂))
  · exact .need ha fun _ _ => .borrowed ha fun _ _ => .look rfl (.pure ha)
  · exact .look rfl (.pure ha)
  · exact .look rfl (.pure ha)
  · exact .bind (Q := fun _ _ => False) (.throw ha) nofun

theorem views_ends {op : ViewOp} (ha : σ.At s []) (hargs : σ.Admits args) : σ.Ends (views args op) s := by
  cases op with
  | graph => exact drawGraph_ends ha
  | debug => exact describe_ends ha hargs
  | castValue => exact castValue_ends ha
  | program => exact .need ha fun _ _ => .pure ha

end Attempt

end LazyHeap
