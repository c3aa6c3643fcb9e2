import LazyHeap.Proofs.Changing

/-!
Pointers that are resolved for change. What resolving comes to is known from what the pointer, its label and the
frame hold; what happens before and after, without touching any of that, makes no difference.
-/
namespace LazyHeap

variable {manner : Manner} {kept : CellId → Prop} {rules : Rules} {locks : List Lock}
variable {frame ins outs hold hold' : List Task} {h h' k : Heap} {c o r : CellId} {x : Object} {l : Handle}
variable {E : Fault → Prop}

/-! ### Results of a lookup, in context -/

namespace Heap

theorem Kept.reach_without {d : CellId} (hk : h.Kept hold' k) (hsub : ∀ t ∈ hold, t ∈ hold')
    (hd : (h.without c).Reach ((h.without c).Held hold) d) : (k.without c).Reach ((k.without c).Held hold) d := by
  have hreach : ∀ {y}, (h.without c).Reach ((h.without c).Held hold) y → h.Reach (h.Held hold') y := fun hy =>
    hy.without.subset fun _ => Or.imp_left (hsub _)
  refine hd.mono (fun _ hd => .source (hd.imp_right fun hm => ?_)) fun y e hy he hy' => .edge hy' ?_
  · rwa [Heap.standing, show (k.without c).scopes = h.scopes from hk.scopes]
  · by_cases hyc : y = c
    · subst hyc
      rw [Heap.edges_without_self] at he
      cases he
    · rw [h.cell_without_ne hyc] at he
      rwa [k.cell_without_ne hyc, hk.edges (hreach hy)]

namespace Recycled

theorem subset (hr : h.Recycled h' l x c hold') (hsub : ∀ t ∈ hold, t ∈ hold') : h.Recycled h' l x c hold :=
  { hr with others := fun d hdc hd => hr.others d hdc (hd.subset fun _ => Or.imp_left (hsub _)) }

theorem of_kept (hk : h.Kept hold' k) (hsub : ∀ t ∈ hold, t ∈ hold') (hc : h.Reach (h.Held hold') c)
    (hr : k.Recycled h' l x c hold) : h.Recycled h' l x c hold where
  core := hr.core.trans (congrArg (fun y : Cell =>
    { y.thaw with body := .object (if x.kind.rebinds then x.bound [l] else x) }) (hk.cell c hc) :)
  others d hdc hd := (hr.others d hdc (hk.reach_without hsub hd)).trans
    (hk.cell d (hd.without.subset fun _ => Or.imp_left (hsub _)))
  size := hr.size.trans hk.size
  grows := hk.grows.trans hr.grows
  scopes := hr.scopes.trans hk.scopes
  nextSerial := hr.nextSerial.trans hk.nextSerial

theorem keep (hr : h.Recycled k l x c hold) (hk : k.Kept hold' h') (hsub : ∀ t ∈ hold, t ∈ hold')
    (hc : .release c ∈ hold') : h.Recycled h' l x c hold where
  core := (hk.cell c (.source (.inl hc))).trans hr.core
  others d hdc hd := (hk.cell d ((hr.reach hd).subset fun _ => Or.imp_left (hsub _))).trans (hr.others d hdc hd)
  size := hk.size.trans hr.size
  grows := hr.grows.trans hk.grows
  scopes := hk.scopes.trans hr.scopes
  nextSerial := hk.nextSerial.trans hr.nextSerial

end Recycled

namespace Copied

theorem of_kept (hk : h.Kept hold k) (hc : k.Copied h' l x c) : h.Copied h' l x c :=
  ⟨hc.new.trans hk.size, by rw [hc.size, hk.size], hc.unlocked, by rw [hc.core, hk.nextSerial]⟩

theorem keep (hc : h.Copied k l x c) (hk : k.Kept hold h') (hm : .release c ∈ hold) : h.Copied h' l x c :=
  ⟨hc.new, by rw [hk.size, hc.size], hc.unlocked, (hk.cell c (.source (.inl hm))).trans hc.core⟩

end Copied

namespace Got

theorem subset (hg : h.Got l o hold' h' r) (hsub : ∀ t ∈ hold, t ∈ hold') : h.Got l o hold h' r := by
  cases hg with
  | found hs hf hk => exact .found hs hf (hk.subset hsub)
  | recycled hl hs hst hf hx hr hv => exact .recycled hl hs hst hf hx (hr.subset hsub) hv
  | copied hl hs hst hf hx hc hk he hv => exact .copied hl hs hst hf hx hc (hk.subset hsub) he hv

theorem of_kept (hk : h.Kept hold' k) (hg : k.Got l o hold h' r) (hsub : ∀ t ∈ hold, t ∈ hold')
    (ho : h.Reach (h.Held hold') o) (hl : ∀ t ∈ l.tasks, t ∈ hold') : h.Got l o hold h' r := by
  have hreach : ∀ {r}, h.Sees l o r → h.Reach (h.Held hold') r := fun hs => hs.reach ho (Handle.reach_of_tasks hl)
  have hlabel : ∀ {label s}, l = .counted label → (k.cell label).body = .label s →
      (h.cell label).body = .label s := fun he hs => by
    rwa [← hk.body (.source (.inl (hl _ (he ▸ List.mem_cons_self))))]
  have hsees : ∀ {label s r}, l = .counted label → (h.cell label).body = .label s →
      h.Stands s.memo o r → h.Sees l o r := fun he hs hst => by
    subst he
    show h.Stands (h.label _).memo o _
    rwa [h.label_eq hs]
  cases hg with
  | found hs hf hk' =>
    have hs := hs.of_kept hk (Handle.reach_of_tasks hl)
    exact .found hs (fun c hc => by rw [← hk.fades.frozen]; exact hf c hc) ((hk.subset hsub).trans hk')
  | recycled he hs hst hf hx hr hv =>
    have hs := hlabel he hs
    have hst := hst.congr fun d => (hk.fades.frozen d).symm
    have hseen := hreach (hsees he hs hst)
    exact .recycled he hs hst ((hk.fades.frozen _).symm.trans hf) ((hk.body hseen).symm.trans hx)
      (hr.of_kept hk hsub hseen) (hk.leaves.trans hv)
  | copied he hs hst hf hx hc hk' hsole hv =>
    have hs := hlabel he hs
    have hst := hst.congr fun d => (hk.fades.frozen d).symm
    have hseen := hreach (hsees he hs hst)
    refine .copied he hs hst ((hk.fades.frozen _).symm.trans hf) ((hk.body hseen).symm.trans hx)
      (hc.of_kept hk) (Spares.trans (hk.subset hsub).spares hk') (hsole.imp_left fun hsole => ⟨?_, hsole.2⟩)
      (hk.leaves.trans hv)
    exact (congrArg (fun y : Cell => y.flags.frozenSole) (hk.cell _ hseen) :).symm.trans hsole.1

theorem keep (hg : h.Got l o hold k r) (hk : k.Kept hold' h') (hsub : ∀ t ∈ hold, t ∈ hold')
    (hr : .release r ∈ hold') (hl : ∀ t ∈ l.tasks, t ∈ hold') : h.Got l o hold h' r := by
  cases hg with
  | found hs hf hk' => exact .found hs hf (hk'.trans (hk.subset hsub))
  | recycled he hs hst hf hx hrec hv => exact .recycled he hs hst hf hx (hrec.keep hk hsub hr) (hv.trans hk.leaves)
  | copied he hs hst hf hx hc hk' hsole hv =>
    subst he
    have hlabel := hk.body (.source (.inl (hl _ List.mem_cons_self)))
    exact .copied rfl hs hst hf hx (hc.keep hk hr) (Spares.trans hk' (hk.subset hsub).spares)
      (hsole.imp (And.imp_right hlabel.trans) (And.imp_right hlabel.trans)) (hv.trans hk.leaves)

end Got

end Heap

/-! ### Waiting

A copy waits for the locks of its source. Whoever holds locks of objects that are not frozen never waits. -/

/-- What is locked is not frozen, or waiting is tolerated. -/
def Heap.Unwaiting (h : Heap) (E : Fault → Prop) (locks : List Lock) : Prop :=
  E .selfWait ∨ ∀ y ∈ locks, (h.cell y.1).frozen = false

theorem Holding.waits (hh : Holding manner rules locks frame h ins) (hw : h.Unwaiting E locks)
    (hx : (h.cell c).body = .object x) (hf : (h.cell c).frozen = true) (hl : x.locked = true) : E .selfWait := by
  refine hw.elim id fun hw => ?_
  obtain ⟨f, hf', hlocked⟩ := List.any_eq_true.1 hl
  have hkey : some f.name ∈ ((Moment.heap ⟨h, locks, [], ins ++ frame⟩).cell c).body.locks := by
    show some f.name ∈ (h.cell c).body.locks
    rw [hx]
    exact List.mem_map.2 ⟨f, List.mem_filter.2 ⟨hf', hlocked⟩, rfl⟩
  have := hw _ ((hh.safe.locks c _).1 hkey)
  rw [hf] at this
  cases this

theorem Holding.locked_object (hh : Holding manner rules locks frame h ins) (hmemo : FieldLocks locks) {y : Lock}
    (hy : y ∈ locks) : h.IsObject y.1 := by
  have hkey : y.2 ∈ (h.cell y.1).body.locks := (hh.safe.locks y.1 y.2).2 hy
  cases hb : (h.cell y.1).body with
  | object x => exact ⟨x, hb⟩
  | label s =>
    rw [hb, Body.locks] at hkey
    split at hkey
    · exact absurd (List.mem_singleton.1 hkey) (hmemo y hy)
    · cases hkey

theorem Heap.Unwaiting.run (hw : h.Unwaiting E locks) (hh : Holding manner rules locks frame h ins)
    (hmemo : FieldLocks locks) (hk : h.Keeps manner frame k) : k.Unwaiting E locks :=
  hw.imp_right fun hw y hy => by
    rw [Cell.frozen_of_core (hk.core (hh.within y hy) (hh.locked_object hmemo hy))]
    exact hw y hy

/-! ### Copies by hand -/

/-- An object is copied whatever the memo says, and one count of the copy is taken. -/
theorem mapCopy_spec (hh : Holding (.sparing kept) rules locks frame h []) (ho : h.IsObject o)
    (hheld : .release o ∈ frame) (hl : l.Fits rules.sealed h) (hsub : ∀ t ∈ l.tasks, t ∈ frame)
    (hfree : ∀ c, l = .counted c → ¬ kept c ∧ ¬ rules.steady c)
    (hcareful : rules.careful = true → (h.cell o).frozen = true)
    (hapart : rules.apart = true → ∀ c, l = .counted c → (h.label c).frozen = false) (hwait : E .selfWait) :
    Ends E (mapCopy l o h) fun r h' => h'.IsObject r ∧
      Run (.sparing kept) rules locks frame h [] h' [.release r] := by
  unfold mapCopy
  have hother : (∀ c, l ≠ .counted c) → Ends E ((do retain o; return o : HeapM CellId) h) fun r h' =>
      h'.IsObject r ∧ Run (.sparing kept) rules locks frame h [] h' [.release r] := fun _ =>
    .bind (retain_spec hh.calm (hh.live (List.mem_append_right _ hheld)) (hh.calm.object_ne_root ho))
      fun _ h' ⟨hr, _⟩ => ⟨hr.keeps.grows.object o ho, hr.relax⟩
  cases l with
  | empty => exact hother nofun
  | root => exact hother nofun
  | counted label =>
    obtain ⟨-, -, s, hs⟩ := hl label rfl
    have hlabel : .release label ∈ frame := hsub _ List.mem_cons_self
    refine .bind (Handle.clone_spec hh.calm (hh.calm.usable hl fun t ht => List.mem_append_right _ (hsub t ht)))
      fun l' h₁ ⟨hl', hr₁, _⟩ => ?_
    subst hl'
    have hk₁ : h.Kept frame h₁ := hr₁.keeps
    have hreach : h.Reach (h.Held frame) o := .source (.inl hheld)
    have hs₁ : (h₁.cell label).body = .label s := (hk₁.body (.source (.inl hlabel))).trans hs
    have hh₁ : Holding (.sparing kept) rules locks ([.release label] ++ frame) h₁ [] :=
      Holding.focus (hh.run hr₁.relax) (.refl _)
    obtain ⟨x, hx⟩ := ho
    have hapart : rules.apart = true → s.frozen = false := fun hap => by
      have := hapart hap label rfl
      rwa [h.label_eq hs] at this
    refine .bind (copyIntoMemo_spec hh₁ ((hk₁.body hreach).trans hx) (.source (.inl (List.mem_append_right _ hheld)))
      hs₁ (hl.grows hk₁.grows) (List.mem_append_right _ hlabel) (hfree label rfl).1 (hfree label rfl).2
      (fun hc => (hk₁.fades.frozen o).trans (hcareful hc)) hapart fun _ => hwait) fun c h₂ ⟨hr₂, hcases⟩ => ?_
    have hr₁₂ : Run (.sparing kept) rules locks frame h [] h₂ ([.release c] ++ [.release label]) :=
      hr₁.relax.trans hr₂.widen
    have hobj : h₂.IsObject c := by
      rcases hcases with ⟨hc, -⟩ | ⟨hc, -⟩ | ⟨hget, -⟩
      · exact ⟨_, Cell.body_of_core hc.core⟩
      · exact ⟨_, Cell.body_of_core hc.core⟩
      · exact hr₂.keeps.grows.object c ((hh₁.fits_label hs₁).entries _ (Memo.mem_of_get? hget)).2.1
    have hh₂ := hh.run hr₁₂
    refine .bind (Handle.drop_spec (hh₂.focus List.perm_append_comm).calm) fun _ h₃ hr₃ => ?_
    exact ⟨hr₃.keeps.grows.object c hobj, hr₁₂.andDrop List.perm_append_comm hr₃.relax⟩

/-! ### Resolving for change -/

namespace Pointer

variable {p q : Pointer}

/-- What resolving for change makes of a pointer. -/
inductive Pulls (hold : List Task) (h h' : Heap) : Pointer → Pointer → Prop where
  | same {p : Pointer} : (∀ o, p.target = some o → (h.cell o).frozen = false) → h' = h → Pulls hold h h' p p
  | moved {k : Heap} {o r : CellId} {l l' : Handle} : (h.cell o).frozen = true →
    l.Forwards (tasks ⟨some o, l⟩ ++ hold) h k l' → (∀ r, k.Sees l' o r ∨ l' = .counted r → k.Live r) →
    k.Got l' o (l'.tasks ++ hold) h' r → Pulls hold h h' ⟨some o, l⟩ ⟨some r, l'⟩

/-- Resolving for change follows the chain of the label, and looks the target up under the label at its end. Only labels
at the end of the chain change. -/
theorem pull_spec (hh : Holding (.sparing kept) rules locks frame h p.tasks) (hmemo : FieldLocks locks)
    (hp : p.Fits rules.sealed h) (hset : rules.Settled) (hwait : h.Unwaiting E locks)
    (hfree : ∀ c, p.label.Tip h c → ¬ kept c ∧ ¬ rules.steady c)
    (hfixed : ∀ q r, p.Reads h q → q.target = some r → rules.fixed r ∨ rules.steady r → Heap.Via kept h frame r) :
    Ends E (p.pull h) fun q h' => Pulls frame h h' p q.1 ∧ q.2 = q.1.target ∧ q.1.Fits rules.sealed h' ∧
      Run (.sparing kept) rules locks frame h p.tasks h' q.1.tasks := by
  unfold pull
  obtain ⟨target, l⟩ := p
  cases target with
  | none => exact ⟨.same nofun rfl, rfl, hp, .refl _ _ _ _⟩
  | some o =>
    refine .readCell_bind ?_
    cases hf : (h.cell o).frozen with
    | false =>
      refine ⟨.same (fun o' ho' => ?_) rfl, rfl, hp, .refl _ _ _ _⟩
      cases ho'
      exact hf
    | true =>
      simp only [Bool.not_true, Bool.false_eq_true, if_false]
      have hhold : Holding (.sparing kept) rules locks (tasks ⟨some o, l⟩ ++ frame) h [] := hh.focus (.refl _)
      refine .bind (Handle.getForward_spec hset hhold hp.label (fun t ht => List.mem_append_left _ (.tail _ ht))
        fun c hc _ => hfree c (.inl hc)) fun l' h₁ ⟨hfits, hP, hr₁⟩ => ?_
      have hheld₀ : ∀ c, l.cell? = some c → h.Reach (h.Held (tasks ⟨some o, l⟩ ++ frame)) c := fun c hc => .source <|
        (Handle.held_of_cell? hc : h.Held (l.tasks ++ frame) c).imp_left fun hm => (List.mem_append.1 hm).elim
          (fun hm => List.mem_append_left _ (.tail _ hm)) (List.mem_append_right _)
      have ho : h.Reach (h.Held (tasks ⟨some o, l⟩ ++ frame)) o := .source (.inl List.mem_cons_self)
      have hopen : ∀ c, l' = .counted c → (h₁.label c).frozen = false ∧ ¬ kept c ∧ ¬ rules.steady c := fun c hc =>
        ⟨hP.unfrozen hheld₀ c hc, hfree c (Handle.Forwards.tip (hc ▸ hP))⟩
      have hr₁ : Run (.sparing kept) rules locks frame h (tasks ⟨some o, l⟩) h₁
          (l'.tasks ++ .release o :: l.tasks) := hr₁.widen
      have hh₁ := hh.run hr₁
      have hobj : h₁.IsObject o := hr₁.keeps.grows.object o (hp.target o rfl)
      have hsplit : (l'.tasks ++ .release o :: l.tasks).Perm (l.tasks ++ (l'.tasks ++ [.release o])) := by
        simp only [List.perm_iff_count, List.count_append, List.count_cons, List.count_nil]
        intro t
        omega
      have hmid : Holding .calm rules locks ((l'.tasks ++ [.release o]) ++ frame) h₁ l.tasks :=
        (hh₁.focus hsplit).calm
      refine Handle.moveOn_spec hmid (hmid.usable hfits fun t ht => List.mem_append_right _
        (List.mem_append_left _ (List.mem_append_left _ ht))) fun h₂ hr₂ => ?_
      have hk₂ : h₁.Kept ((l'.tasks ++ [.release o]) ++ frame) h₂ := hr₂.keeps
      have hr₁₂ := hr₁.andThen hsplit hr₂.relax
      have hall : (l'.tasks ++ (l'.tasks ++ [Task.release o])).Perm ([Task.release o] ++ (l'.tasks ++ l'.tasks)) := by
        simp only [List.perm_iff_count, List.count_append, List.count_cons, List.count_nil]
        intro t
        omega
      have hh₂ := (hh.run hr₁₂).focus hall
      have hheld : ∀ c, l' = .counted c → h₁.Reach (h₁.Held ((l'.tasks ++ [.release o]) ++ frame)) c :=
        Handle.reach_of_tasks fun t ht => List.mem_append_left _ (List.mem_append_left _ ht)
      have hwait₂ : h₂.Unwaiting E locks := hwait.run hh hmemo hr₁₂.keeps
      refine .bind (mapGet_spec hh₂ hmemo (hk₂.grows.object o hobj) List.mem_cons_self (hfits.grows hk₂.grows)
        (fun t ht => List.mem_append_right _ (List.mem_append_left _ (List.mem_append_left _ ht)))
        (fun c hc => (hopen c hc).2.1) (fun c _ hc hst => absurd hst (hopen c hc).2.2) (fun seen hsees hseen => ?_)
        (fun _ c hc => ?_) fun seen x _ hfs hx hlocked =>
          hh₂.waits hwait₂ hx hfs hlocked) fun r h₃ ⟨hg, _, hobj₃, hr₃⟩ => ?_
      · obtain ⟨e, hlead, hsees⟩ := hP.sees hhold (hsees.of_kept hk₂ hheld) hheld₀ (hp.target o rfl) ho
        exact (Heap.Spares.via hr₁₂.keeps (hfixed _ seen (.target hlead hsees) rfl hseen)).subset fun _ =>
          List.mem_append_right _
      · rw [Heap.label_of_kept hk₂ (hheld c hc)]
        exact (hopen c hc).1
      have hr₁₂₃ := hr₁₂.andThen hall hr₃
      have hdrop : ([Task.release r, .release o] ++ (l'.tasks ++ l'.tasks)).Perm
          ([.release o] ++ (l'.tasks ++ (.release r :: l'.tasks))) := by
        simp only [List.perm_iff_count, List.count_append, List.count_cons, List.count_nil]
        intro t
        omega
      have hh₃ := hh.run hr₁₂₃
      refine .bind (adopt_spec (hh₃.focus hdrop).calm (List.mem_append_left _ (List.mem_append_right _
        List.mem_cons_self))) fun _ h₄ hr₄ => ?_
      have hr₁₄ := hr₁₂₃.andDrop hdrop hr₄.relax
      refine .bind (Handle.drop_spec ((hh.run hr₁₄).focus (.refl _)).calm) fun _ h₅ hr₅ => ?_
      have hk₄ : h₃.Kept _ h₄ := hr₄.keeps
      have hk₅ : h₄.Kept _ h₅ := hr₅.keeps
      have hkeep : h₃.Kept ((.release r :: l'.tasks) ++ frame) h₅ :=
        (hk₄.subset fun t ht => (List.mem_append.1 ht).elim
          (fun ht => List.mem_append_left _ (List.mem_append_right _ ht)) (List.mem_append_right _)).trans hk₅
      have hg : h₂.Got l' o (l'.tasks ++ frame) h₃ r := hg.subset fun t ht => (List.mem_append.1 ht).elim
        (fun ht => List.mem_append_right _ (List.mem_append_left _ (List.mem_append_left _ ht)))
        (fun ht => List.mem_append_right _ (List.mem_append_right _ ht))
      have hg : h₁.Got l' o (l'.tasks ++ frame) h₃ r := hg.of_kept hk₂
        (fun t ht => (List.mem_append.1 ht).elim (fun ht => List.mem_append_left _ (List.mem_append_left _ ht))
          (List.mem_append_right _))
        (.source (.inl (List.mem_append_left _ (List.mem_append_right _ List.mem_cons_self))))
        fun t ht => List.mem_append_left _ (List.mem_append_left _ ht)
      have hg : h₁.Got l' o (l'.tasks ++ frame) h₅ r := hg.keep hkeep
        (fun t ht => (List.mem_append.1 ht).elim (fun ht => List.mem_append_left _ (.tail _ ht))
          (List.mem_append_right _)) List.mem_cons_self fun t ht => List.mem_append_left _ (.tail _ ht)
      have hgrows : h₁.Grows h₅ := hk₂.grows.trans (hr₃.keeps.grows.trans hkeep.grows)
      have hlabel : ∀ c, l' = .counted c → h₁.Reach (h₁.Held ((l'.tasks ++ .release o :: l.tasks) ++ frame)) c :=
        Handle.reach_of_tasks fun t ht => List.mem_append_left _ (List.mem_append_left _ ht)
      have hlive : ∀ r, h₁.Sees l' o r ∨ l' = .counted r → h₁.Live r := fun r hr => hh₁.safe.live_of_reach <|
        hr.elim (fun hr => hr.reach (.source (.inl (List.mem_append_left _ (List.mem_append_right _ List.mem_cons_self))))
          hlabel) (hlabel r)
      refine ⟨.moved hf hP hlive hg, rfl, ⟨fun d hd => ?_, hfits.grows hgrows⟩, hr₁₄.andDrop (.refl _) hr₅.relax⟩
      cases hd
      exact hkeep.grows.object r hobj₃

end Pointer

end LazyHeap
