import LazyHeap.Proofs.Run
import LazyHeap.Session.Basic

/-!
Outcomes of what a session is asked to do. An operation that declines leaves a session in which the next one
can be performed, just as one that succeeds; a fault ends the run.
-/
namespace LazyHeap

/-- Faults that have nothing to do with counts: an empty handle that is looked into, and work that never ends. -/
def Fault.Misuse (e : Fault) : Prop := e = .emptyHandle ∨ e = .selfWait ∨ e = .endless

theorem Fault.misuse_emptyHandle : Misuse .emptyHandle := .inl rfl

theorem Fault.misuse_selfWait : Misuse .selfWait := .inr (.inl rfl)

theorem Fault.misuse_endless : Misuse .endless := .inr (.inr rfl)

def Session.withHeap (s : Session) (h : Heap) : Session := { s with heap := h }

namespace SessionM

variable {α β : Type} {s : Session} {Q : α → Session → Prop} {Q' : β → Session → Prop}

/-- The computation ends with `Q`, or in a misuse. -/
def Ends (x : SessionM α) (s : Session) (Q : α → Session → Prop) : Prop :=
  match x s with
  | .ok (a, s') => Q a s'
  | .error e => e.Misuse

theorem Ends.pure {a : α} (hq : Q a s) : Ends (Pure.pure a) s Q := hq

theorem Ends.bind {x : SessionM α} {f : α → SessionM β} (hx : Ends x s Q)
    (hf : ∀ a s', x s = .ok (a, s') → Q a s' → Ends (f a) s' Q') : Ends (x >>= f) s Q' := by
  have heq : (x >>= f) s = (x s).bind fun r => f r.1 r.2 := by
    simp only [Bind.bind, StateT.bind]
  unfold Ends at hx ⊢
  rw [heq]
  rcases hr : x s with e | ⟨a, s'⟩
  · rw [hr] at hx
    exact hx
  · rw [hr] at hx
    exact hf a s' hr hx

theorem Ends.imp {x : SessionM α} {Q' : α → Session → Prop} (hx : Ends x s Q) (hq : ∀ a s', Q a s' → Q' a s') :
    Ends x s Q' := by
  unfold Ends at *
  rcases hr : x s with e | ⟨a, s'⟩ <;> rw [hr] at hx
  · exact hx
  · exact hq _ _ hx

end SessionM

namespace Attempt

variable {α β : Type} {s : Session} {R R' : Session → Prop} {Q : α → Session → Prop} {Q' : β → Session → Prop}

/-- The operation succeeds with `Q`, or declines at `R`, or ends in a misuse. -/
def Ends (x : Attempt α) (s : Session) (R : Session → Prop) (Q : α → Session → Prop) : Prop :=
  match x.run s with
  | .ok (.ok a, s') => Q a s'
  | .ok (.error _, s') => R s'
  | .error e => e.Misuse

theorem heap_run (act : HeapM α) (s : Session) : (heap act).run s = match act s.heap with
    | .ok (a, h') => .ok (.ok a, (s.withHeap h'))
    | .error e => .error e := by
  show (ExceptT.run (ExceptT.lift (onHeap act))) s = _
  simp only [ExceptT.run, ExceptT.lift, ExceptT.mk, Functor.map, StateT.map, onHeap]
  rcases act s.heap with e | ⟨a, h'⟩ <;> rfl

theorem run_bind (x : Attempt α) (f : α → Attempt β) (s : Session) : (x >>= f).run s = match x.run s with
    | .ok (.ok a, s') => (f a).run s'
    | .ok (.error why, s') => .ok (.error why, s')
    | .error e => .error e := by
  show (ExceptT.run (ExceptT.bind x f)) s = _
  simp only [ExceptT.run, ExceptT.bind, ExceptT.mk, Bind.bind, StateT.bind]
  rcases hr : (x : SessionM _) s with e | ⟨_ | a, s'⟩ <;> rfl

namespace Ends

theorem pure {a : α} (hq : Q a s) : Ends (Pure.pure a) s R Q := hq

theorem throw {why : Refusal} (hr : R s) : Ends (MonadExcept.throw why : Attempt α) s R Q := hr

theorem bind_run {x : Attempt α} {f : α → Attempt β} (hx : Ends x s R Q)
    (hf : ∀ a s', x.run s = .ok (.ok a, s') → Q a s' → Ends (f a) s' R Q') : Ends (x >>= f) s R Q' := by
  unfold Ends at hx ⊢
  rw [run_bind]
  rcases hr : x.run s with e | ⟨why | a, s'⟩
  · simpa [hr] using hx
  · simpa [hr] using hx
  · simpa [hr, Ends] using hf a s' hr (by simpa [hr] using hx)

theorem bind {x : Attempt α} {f : α → Attempt β} (hx : Ends x s R Q) (hf : ∀ a s', Q a s' → Ends (f a) s' R Q') :
    Ends (x >>= f) s R Q' :=
  hx.bind_run fun a s' _ => hf a s'

theorem mono {x : Attempt α} {Q' : α → Session → Prop} (hx : Ends x s R Q) (hr : ∀ s', R s' → R' s')
    (hq : ∀ a s', Q a s' → Q' a s') : Ends x s R' Q' := by
  unfold Ends at *
  rcases h : x.run s with e | ⟨_ | a, s'⟩ <;> rw [h] at hx
  · exact hx
  · exact hr _ hx
  · exact hq _ _ hx

theorem imp {x : Attempt α} {Q' : α → Session → Prop} (hx : Ends x s R Q) (hq : ∀ a s', Q a s' → Q' a s') :
    Ends x s R Q' :=
  hx.mono (fun _ => id) hq

theorem guard {c : Prop} [Decidable c] {why : Refusal} {f : PUnit → Attempt β} (hr : R s)
    (hf : ¬ c → Ends (f ⟨⟩) s R Q') : Ends (if c then MonadExcept.throw why >>= f else f ⟨⟩) s R Q' := by
  split
  · exact bind (Q := fun _ _ => False) (throw hr) nofun
  · next hc => exact hf hc

theorem look {x : Attempt α} {a : α} {f : α → Attempt β} (hx : x.run s = .ok (.ok a, s)) (hf : Ends (f a) s R Q') :
    Ends (x >>= f) s R Q' :=
  bind_run (Q := fun b s' => b = a ∧ s' = s) (by simp [Ends, hx]) fun _ _ _ ⟨hb, hs⟩ => hb ▸ hs ▸ hf

theorem get_bind {f : Session → Attempt β} (hf : Ends (f s) s R Q') : Ends (get >>= f) s R Q' :=
  look (a := s) rfl hf

theorem modify_bind {g : Session → Session} {f : PUnit → Attempt β} (hf : Ends (f ⟨⟩) (g s) R Q') :
    Ends (modify g >>= f) s R Q' :=
  bind_run (Q := fun _ s' => s' = g s) (by exact rfl) fun _ _ _ hs => hs ▸ hf

theorem heap {act : HeapM α} {P : α → Heap → Prop} (hact : LazyHeap.Ends Fault.Misuse (act s.heap) P)
    (hq : ∀ a h', act s.heap = .ok (a, h') → P a h' → Q a (s.withHeap h')) : Ends (Attempt.heap act) s R Q := by
  unfold Ends
  unfold LazyHeap.Ends at hact
  rw [heap_run]
  rcases hr : act s.heap with e | ⟨a, h'⟩
  · simpa [hr] using hact
  · simpa [hr] using hq a h' hr (by simpa [hr] using hact)

theorem heap_bind {act : HeapM α} {f : α → HeapM β} {R : Session → Prop} {Q : β → Session → Prop}
    (hx : Ends (Attempt.heap act >>= fun a => Attempt.heap (f a)) s R Q) : Ends (Attempt.heap (act >>= f)) s R Q := by
  have heq : (Attempt.heap (act >>= f)).run s = (Attempt.heap act >>= fun a => Attempt.heap (f a)).run s := by
    rw [ExceptT.run_bind]
    show _ = ((Attempt.heap act).run >>= fun r => _) s
    simp only [Bind.bind, StateT.bind, heap_run]
    rcases act s.heap with e | ⟨a, h'⟩
    · rfl
    · exact (heap_run (f a) (s.withHeap h')).symm
  simpa only [Ends, heq] using hx

theorem lift {x : SessionM α} (hx : SessionM.Ends x s Q) : Ends (x : Attempt α) s R Q := by
  have heq : (x : Attempt α).run s = match x s with
      | .ok (a, s') => .ok (.ok a, s')
      | .error e => .error e := by
    show (ExceptT.run (ExceptT.lift x)) s = _
    simp only [ExceptT.run, ExceptT.lift, ExceptT.mk, Functor.map, StateT.map]
    rcases x s with e | ⟨a, s'⟩ <;> rfl
  unfold Ends
  unfold SessionM.Ends at hx
  rw [heq]
  rcases hr : x s with e | ⟨a, s'⟩
  · simpa [hr] using hx
  · simpa [hr] using hx

theorem cleaning {C : Session → Prop} {cleanup : HeapM Unit} {act : Attempt α} (hact : Ends act s C Q)
    (hclean : ∀ s', C s' → Ends (Attempt.heap cleanup) s' R fun _ s'' => R s'') :
    Ends (Attempt.cleaning cleanup act) s R Q := by
  have heq : (Attempt.cleaning cleanup act).run s = match act.run s with
      | .ok (.ok a, s') => .ok (.ok a, s')
      | .ok (.error why, s') => (Attempt.heap cleanup >>= fun _ => MonadExcept.throw why : Attempt α).run s'
      | .error e => .error e := by
    show ExceptT.run (ExceptT.tryCatch act _) s = _
    simp only [ExceptT.run, ExceptT.tryCatch, ExceptT.mk, Bind.bind, StateT.bind]
    rcases (act : SessionM _) s with e | ⟨_ | a, s'⟩ <;> rfl
  unfold Ends at hact ⊢
  rw [heq]
  rcases hr : act.run s with e | ⟨why | a, s'⟩
  · simpa [hr] using hact
  · have : Ends (Attempt.heap cleanup >>= fun _ => MonadExcept.throw why : Attempt α) s' R Q :=
      bind (hclean s' (by simpa [hr] using hact)) fun _ _ h => throw h
    simpa [Ends] using this
  · simpa [hr] using hact

end Ends

theorem reply_ends {act : Attempt Reply} {P : Session → Prop} (hact : Ends act s P fun _ s' => P s') :
    SessionM.Ends (reply act) s fun _ s' => P s' := by
  have heq : reply act s = match act.run s with
      | .ok (.ok r, s') => .ok (r, s')
      | .ok (.error why, s') => .ok (.refused why, s')
      | .error e => .error e := by
    simp only [reply, Bind.bind, StateT.bind]
    rcases act.run s with e | ⟨_ | a, s'⟩ <;> rfl
  unfold SessionM.Ends
  unfold Ends at hact
  rw [heq]
  rcases hr : act.run s with e | ⟨why | a, s'⟩ <;> simpa [hr] using hact

end Attempt

end LazyHeap
