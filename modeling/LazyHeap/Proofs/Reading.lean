import LazyHeap.Proofs.Forwards
import LazyHeap.Resolve

/-!
Resolving for reading. The entries of a memo lead to younger cells, so following them comes to an end; what a
label sees in the place of an object that is held is held as well. Resolving changes nothing but counts and the
pointer that is resolved.
-/
namespace LazyHeap

variable {manner : Manner} {rules : Rules} {locks : List Lock} {frame ins outs : List Task}
variable {h h' : Heap} {c d o r : CellId} {l : Handle} {m : Memo} {E : Fault → Prop}

/-! ### Looking an object up -/

theorem Holding.sees_object {s : Label} (hh : Holding manner rules locks frame h ins)
    (hb : (h.cell c).body = .label s) (ho : h.IsObject o) (hs : h.Stands s.memo o r) : h.IsObject r := by
  rcases hs.mem with rfl | hr
  · exact ho
  · obtain ⟨e, he, rfl⟩ := List.mem_map.1 hr
    exact ((hh.fits_label hb).entries e he).2.1

theorem standIn_spec {s : Label} (hh : Holding manner rules locks frame h ins)
    (hb : (h.cell c).body = .label s) :
    Ends E (standIn c o h) fun r h' => h.Stands s.memo o r ∧ h' = h := by
  obtain ⟨r, hr, hs⟩ := h.walk_ok (fun e he => ((hh.fits_label hb).entries e he).2.2) s.memo.size o
    (List.length_filter_le _ _)
  unfold standIn
  refine .get_bind ?_
  rw [Heap.standIn, h.label_eq hb, hr]
  exact ⟨hs, rfl⟩

theorem Holding.live_of_alive (hh : Holding manner rules locks frame h ins) (hc : (h.cell c).alive = true) :
    h.Live c := by
  simp only [Cell.alive, Bool.and_eq_true, Bool.not_eq_true'] at hc
  exact hh.safe.live_of_not_destroyed rfl hc.2

theorem retainIfAlive_spec (hh : Holding .calm rules locks frame h ins) (hroot : o ≠ rootCell) :
    Ends E (retainIfAlive o h) fun found h' => found = (h.cell o).alive ∧
      Run .calm rules locks frame h ins h' ((if found then [.release o] else []) ++ ins) := by
  unfold retainIfAlive
  refine .readCell_bind ?_
  cases ha : (h.cell o).alive with
  | true =>
    simp only [if_true]
    exact .bind (retain_spec hh (hh.live_of_alive ha) hroot) fun _ h' ⟨hr, _⟩ => ⟨rfl, hr⟩
  | false => exact ⟨rfl, .refl _ _ _ _⟩

theorem Handle.reach_of_tasks {hold : List Task} (hsub : ∀ t ∈ l.tasks, t ∈ hold) :
    ∀ c, l = .counted c → h.Reach (h.Held hold) c := fun c hc =>
  .source (.inl (hsub _ (by simp [hc, Handle.tasks_counted])))

theorem mapPull_spec (hh : Holding .calm rules locks frame h []) (hl : l.Fits rules.sealed h)
    (hsub : ∀ t ∈ l.tasks, t ∈ frame) (ho : h.IsObject o) :
    Ends E (mapPull l o h) fun found h' => ∃ r, h.Sees l o r ∧ h.IsObject r ∧
      (found = some r ∨ found = none ∧ ¬ h.Live r) ∧
      Run .calm rules locks frame h [] h' (found.toList.map .release) := by
  unfold mapPull
  have hmissing : ∀ {k : Heap} {r : CellId}, (k.cell r).alive = false → ¬ k.Live r := fun ha hlive => by
    rw [hlive.alive] at ha
    cases ha
  have hother : Ends E ((do return if ← retainIfAlive o then some o else none) h) fun found h' =>
      ∃ r, r = o ∧ h.IsObject r ∧ (found = some r ∨ found = none ∧ ¬ h.Live r) ∧
        Run .calm rules locks frame h [] h' (found.toList.map Task.release) :=
    .bind (retainIfAlive_spec hh (hh.object_ne_root ho)) fun found h' ⟨hf, hr⟩ => by
      subst hf
      refine ⟨o, rfl, ho, ?_, ?_⟩ <;> cases ha : (h.cell o).alive
      · exact .inr ⟨rfl, hmissing ha⟩
      · exact .inl rfl
      · simpa [ha] using hr
      · simpa [ha] using hr
  cases l with
  | empty => exact hother
  | root => exact hother
  | counted c =>
    simp only
    obtain ⟨-, hlt, s, hb⟩ := hl c rfl
    have hu : (Handle.counted c).Usable rules.sealed h := hh.usable hl fun t ht =>
      List.mem_append_right _ (hsub t ht)
    refine .bind (Handle.clone_spec hh hu) fun own h₁ ⟨hown, hr₁, hlives⟩ => ?_
    subst hown
    have hh₁ := hh.run hr₁
    have hb₁ : (h₁.cell c).body = .label s :=
      (Heap.Kept.body hr₁.keeps (Handle.reach_of_tasks hsub c rfl)).trans hb
    refine .bind (standIn_spec hh₁ hb₁) fun r h₂ ⟨hs, heq⟩ => ?_
    subst heq
    have hs' : h.Stands s.memo o r := hs.congr fun d => ((Heap.Kept.fades hr₁.keeps).frozen d).symm
    refine .bind (retainIfAlive_spec hh₁ (hh₁.object_ne_root (hh₁.sees_object hb₁ (hr₁.keeps.grows.object o ho) hs)))
      fun found h₃ ⟨hf, hr₃⟩ => ?_
    subst hf
    have hr := hr₁.trans hr₃
    have hswap : ((if (h₂.cell r).alive then [Task.release r] else []) ++ ((Handle.counted c).tasks ++ [])).Perm
        ((Handle.counted c).tasks ++ (if (h₂.cell r).alive then [Task.release r] else [])) := by
      rw [List.append_nil]
      exact List.perm_append_comm
    refine .bind (Handle.drop_spec ((hh.run hr).focus hswap)) fun _ h₄ hr₄ => ?_
    refine ⟨r, (show h.Stands _ _ _ from (h.label_eq hb).symm ▸ hs'), hh.sees_object hb ho hs', ?_, ?_⟩
    · cases ha : (h₂.cell r).alive with
      | true => exact .inl rfl
      | false => exact .inr ⟨rfl, fun hlive => hmissing ha (hlives.live r hlive)⟩
    · have := hr.andDrop hswap hr₄
      cases ha : (h₂.cell r).alive <;> simpa [ha] using this

/-! ### Pointers -/

/-- What resolving a pointer for reading makes of it. -/
inductive Pointer.Reads (h : Heap) : Pointer → Pointer → Prop where
  | nil {l : Handle} : Reads h ⟨none, l⟩ ⟨none, l⟩
  | target {o r : CellId} {l l' : Handle} : l.Leads h l' → h.Sees l' o r → Reads h ⟨some o, l⟩ ⟨some r, l'⟩

theorem Handle.moveOn_spec {β : Type} {Q : β → Heap → Prop} {next : Handle → HeapM β} {old : Handle}
    (hh : Holding .calm rules locks frame h old.tasks) (hl : l.Usable rules.sealed h)
    (hnext : ∀ h', Run .calm rules locks frame h old.tasks h' l.tasks → Ends E (next l h') Q) :
    Ends E ((if l = old then pure old >>= next else old.repoint l >>= next) h) Q := by
  by_cases he : l = old
  · rw [if_pos he, ← he]
    exact hnext h (he ▸ .refl _ _ _ _)
  · rw [if_neg he]
    exact .bind (repoint_spec hh hl) fun own h' ⟨hown, hr⟩ => hown ▸ hnext h' hr

theorem Handle.catchUp_spec {β : Type} {Q : β → Heap → Prop} {next : Handle → Handle → HeapM β}
    (hh : Holding .calm rules locks frame h (l.tasks ++ ins)) (hl : l.Fits rules.sealed h)
    (hnext : ∀ l' h', l.Leads h l' → l'.Fits rules.sealed h' →
      (∀ o r, h'.Sees l' o r → h.Sees l' o r) →
      Run .calm rules locks frame h (l.tasks ++ ins) h' (l'.tasks ++ (l'.tasks ++ ins)) →
      Ends E (next l' l' h') Q) :
    Ends E ((do
      let l' ← l.existingForward
      let own ← if l' = l then pure l else l.repoint l'
      next l' own) h) Q := by
  have hh₀ : Holding .calm rules locks ((l.tasks ++ ins) ++ frame) h [] := hh.focus (.refl _)
  have hsub : ∀ t ∈ l.tasks, t ∈ (l.tasks ++ ins) ++ frame := fun t ht =>
    List.mem_append_left _ (List.mem_append_left _ ht)
  refine .bind (existingForward_spec hh₀ hl hsub) fun l' h₁ ⟨hlead, hf, hr₁⟩ => ?_
  have hr : Run .calm rules locks frame h (l.tasks ++ ins) h₁ (l'.tasks ++ (l.tasks ++ ins)) := hr₁.widen
  have hswap : (l'.tasks ++ (l.tasks ++ ins)).Perm (l.tasks ++ (l'.tasks ++ ins)) := by
    simp only [List.perm_iff_count, List.count_append]
    intro t
    omega
  have hh₁ := (hh.run hr).focus hswap
  have hsub' : ∀ t ∈ l'.tasks, t ∈ (l'.tasks ++ ins) ++ frame := fun t ht =>
    List.mem_append_left _ (List.mem_append_left _ ht)
  refine moveOn_spec hh₁ (hh₁.usable hf fun t ht => List.mem_append_right _ (hsub' t ht)) fun h₂ hr₂ => ?_
  refine hnext l' h₂ hlead (hf.grows hr₂.keeps.grows) (fun o r hs => ?_) (hr.andThen hswap hr₂)
  have hreach : ∀ c, l.cell? = some c → h.Reach (h.Held ((l.tasks ++ ins) ++ frame)) c := fun c hc =>
    .source ((held_of_cell? hc : h.Held (l.tasks ++ frame) c).imp_left fun hm =>
      (List.mem_append.1 hm).elim (hsub _) (List.mem_append_right _))
  refine (hs.of_kept hr₂.keeps (reach_of_tasks hsub')).of_kept hr₁.keeps fun c hc => ?_
  exact hlead.reach hreach c (by rw [hc]; rfl)

namespace Pointer

/-- Resolving for reading never fails: what the label sees of an object that is held is there. -/
theorem resolve_spec {p : Pointer} (hh : Holding .calm rules locks frame h p.tasks)
    (hp : p.Fits rules.sealed h) :
    Ends E (p.resolve h) fun q h' => p.Reads h q.1 ∧ q.2 = q.1.target ∧ q.1.Fits rules.sealed h' ∧
      Run .calm rules locks frame h p.tasks h' q.1.tasks := by
  unfold resolve
  obtain ⟨target, l⟩ := p
  cases target with
  | none => exact ⟨.nil, rfl, hp, .refl _ _ _ _⟩
  | some o =>
    simp only
    have hstart : (Pointer.mk (some o) l).tasks.Perm (l.tasks ++ [.release o]) :=
      (List.perm_append_singleton _ _).symm
    refine Handle.catchUp_spec (hh.perm hstart) hp.label fun l' h₁ hlead hf hsees hr₁ => ?_
    have hr₁ := hr₁.perm hstart (.refl _)
    have hh₁ : Holding .calm rules locks ((l'.tasks ++ (l'.tasks ++ [.release o])) ++ frame) h₁ [] :=
      (hh.run hr₁).focus (.refl _)
    have ho := hp.target o rfl
    refine .bind (mapPull_spec hh₁ hf (fun t ht => List.mem_append_left _ (List.mem_append_left _ ht))
      (hr₁.keeps.grows.object o ho)) fun found h₂ ⟨r, hs, hobj, hfound, hr₂⟩ => ?_
    have hlive : h₁.Live r := hh₁.safe.live_of_reach <| hs.reach (.source (.inl (by simp)))
      (Handle.reach_of_tasks (by simp +contextual))
    obtain rfl | ⟨-, hgone⟩ := hfound
    swap
    · exact absurd hlive hgone
    simp only
    have hr := hr₁.trans hr₂.widen
    have hswap : ([Task.release r] ++ (l'.tasks ++ (l'.tasks ++ [Task.release o]))).Perm
        ([Task.release o] ++ ((Pointer.mk (some r) l').tasks ++ l'.tasks)) := by
      simp only [tasks_some, List.perm_iff_count, List.count_append, List.count_cons, List.count_nil]
      intro t
      omega
    have hadopt : Holding .calm rules locks (((Pointer.mk (some r) l').tasks ++ l'.tasks) ++ frame) h₂
        ((some o).toList.map .release) := (hh.run hr).focus hswap
    refine .bind (adopt_spec hadopt (List.mem_append_left _ List.mem_cons_self)) fun _ h₃ hr₃ => ?_
    have hr' := hr.andDrop hswap hr₃
    have hh₃ := hh.run hr'
    refine .bind (Handle.drop_spec (hh₃.focus List.perm_append_comm)) fun _ h₄ hr₄ => ?_
    have hrun := hr'.andDrop List.perm_append_comm hr₄
    have hgrows := hr₂.keeps.grows.trans (hr₃.keeps.grows.trans hr₄.keeps.grows)
    refine ⟨.target hlead (hsees o r hs), rfl, ⟨fun d hd => ?_, hf.grows hgrows⟩, hrun⟩
    cases hd
    exact hgrows.object r hobj

end Pointer

/-- Resolving a weak pointer gives an owning pointer to what its label sees, if that is still there. -/
theorem WeakPointer.pull_spec {w : WeakPointer} (hh : Holding .calm rules locks frame h w.tasks)
    (hw : w.Fits rules.sealed h) :
    Ends E (w.pull h) fun q h' => q.1.Fits rules.sealed h' ∧ (∀ p, q.2 = some p → p.Fits rules.sealed h') ∧
      Run .calm rules locks frame h w.tasks h' (q.1.tasks ++ q.2.toList.flatMap Pointer.tasks) := by
  unfold pull
  have hnone : ∀ {k : Heap} {v : WeakPointer}, v.Fits rules.sealed k →
      Run .calm rules locks frame h w.tasks k v.tasks →
      v.Fits rules.sealed k ∧ (∀ p, (none : Option Pointer) = some p → p.Fits rules.sealed k) ∧
        Run .calm rules locks frame h w.tasks k
          (v.tasks ++ (none : Option Pointer).toList.flatMap Pointer.tasks) := fun hv hr =>
    ⟨hv, nofun, hr.perm (.refl _) (by simp)⟩
  obtain ⟨target, l⟩ := w
  cases target with
  | none => exact hnone hw (.refl _ _ _ _)
  | some o =>
    refine .readCell_bind ?_
    cases ha : (h.cell o).alive with
    | false => exact hnone hw (.refl _ _ _ _)
    | true =>
      simp only [Bool.not_true, Bool.false_eq_true, if_false]
      have hstart : (WeakPointer.mk (some o) l).tasks.Perm (l.tasks ++ [.unpin o]) :=
        (List.perm_append_singleton _ _).symm
      refine Handle.catchUp_spec (hh.perm hstart) hw.label fun l' h₁ _ hf _ hr₁ => ?_
      have hr₁ := hr₁.perm hstart (.refl _)
      have hh₁ : Holding .calm rules locks ((l'.tasks ++ (l'.tasks ++ [.unpin o])) ++ frame) h₁ [] :=
        (hh.run hr₁).focus (.refl _)
      have ho := hr₁.keeps.grows.object o (hw.target o rfl)
      refine .bind (mapPull_spec hh₁ hf (fun t ht => List.mem_append_left _ (List.mem_append_left _ ht)) ho)
        fun found h₂ ⟨r, hs, hobj, hfound, hr₂⟩ => ?_
      have hr := hr₁.trans hr₂.widen
      have hg₂ := hr₂.keeps.grows
      obtain rfl | ⟨rfl, -⟩ := hfound
      · simp only
        have hswap : ([Task.release r] ++ (l'.tasks ++ (l'.tasks ++ [Task.unpin o]))).Perm
            ((some o).toList.map Task.unpin ++ (l'.tasks ++ (Pointer.mk (some r) l').tasks)) := by
          simp only [Pointer.tasks_some, Option.toList_some, List.map_cons, List.map_nil, List.perm_iff_count,
            List.count_append, List.count_cons, List.count_nil]
          intro t
          omega
        have hdone : ∀ {k : Heap}, h₂.Grows k → Run .calm rules locks frame h (WeakPointer.mk (some o) l).tasks k
              ((some r).toList.map .unpin ++ (l'.tasks ++ (Pointer.mk (some r) l').tasks)) →
            (WeakPointer.mk (some r) l').Fits rules.sealed k ∧
              (∀ p, some (Pointer.mk (some r) l') = some p → p.Fits rules.sealed k) ∧
              Run .calm rules locks frame h (WeakPointer.mk (some o) l).tasks k
                ((WeakPointer.mk (some r) l').tasks ++
                  (some (Pointer.mk (some r) l')).toList.flatMap Pointer.tasks) := fun {k} hg hrun => by
          have htarget : k.IsObject r := hg.object r (hg₂.object r hobj)
          have hlabel := hf.grows (hg₂.trans hg)
          refine ⟨⟨?_, hlabel⟩, ?_, hrun.perm (.refl _) (by simp [WeakPointer.tasks])⟩
          · rintro d ⟨⟩
            exact htarget
          · rintro p ⟨⟩
            refine ⟨?_, hlabel⟩
            rintro d ⟨⟩
            exact htarget
        by_cases hro : r = o
        · subst hro
          simp only [ne_eq, not_true_eq_false, if_false]
          exact hdone (.refl _) (hr.perm (.refl _) hswap)
        · simp only [ne_eq, hro, not_false_eq_true, if_true]
          refine .bind (retarget_spec ((hh.run hr).focus hswap) ?_) fun _ h₃ hr₃ =>
            hdone hr₃.keeps.grows (hr.andThen hswap hr₃)
          rintro d ⟨⟩
          exact (hh.run hr).weak_of_mem (.inr (by simp))
      · simp only
        have hswap : (([] : List Task) ++ (l'.tasks ++ (l'.tasks ++ [Task.unpin o]))).Perm
            (l'.tasks ++ (WeakPointer.mk (some o) l').tasks) := by
          simp only [WeakPointer.tasks, Option.toList_some, List.map_cons, List.map_nil, List.perm_iff_count,
            List.count_append, List.count_cons, List.count_nil]
          intro t
          omega
        refine .bind (Handle.drop_spec ((hh.run hr).focus hswap)) fun _ h₃ hr₃ =>
          hnone ⟨?_, hf.grows (hg₂.trans hr₃.keeps.grows)⟩ (hr.andDrop hswap hr₃)
        rintro d ⟨⟩
        exact (hg₂.trans hr₃.keeps.grows).object o ho

end LazyHeap
