import LazyHeap.Proofs.Recycling

/-!
Resolving for change. What a label sees is taken if it is not frozen, recycled if nobody else can see it, and
copied otherwise. Only the label that resolves changes, and no object that the frame reaches.
-/
namespace LazyHeap

variable {manner : Manner} {kept : CellId → Prop} {rules : Rules} {locks : List Lock}
variable {frame ins outs hold : List Task} {h h' k : Heap} {c o r label seen : CellId} {x : Object} {l : Handle}
variable {s : Label} {E : Fault → Prop}

/-! ### The lock of a memo -/

/-- Locks of fields only: no memo is held for writing. -/
def FieldLocks (locks : List Lock) : Prop := ∀ y ∈ locks, y.2 ≠ none

theorem FieldLocks.nil : FieldLocks [] := fun _ hy => nomatch hy

theorem FieldLocks.cons (hl : FieldLocks locks) (c : CellId) (name : FieldName) :
    FieldLocks ((c, some name) :: locks) := fun _ hy => by
  rcases List.mem_cons.1 hy with rfl | hy
  · exact nofun
  · exact hl _ hy

theorem FieldLocks.unlocked (hl : FieldLocks locks) (hh : Holding manner rules locks frame h ins)
    (hs : (h.cell c).body = .label s) : s.locked = false := by
  rw [← Bool.not_eq_true]
  intro hlocked
  have := hh.safe.locks c none
  rw [show (Moment.heap _).cell c = h.cell c from rfl, hs] at this
  exact hl _ (this.1 (by simp [Body.locks, hlocked])) rfl

theorem Heap.edges_putLabel {t : Label} (hs : (h.cell label).body = .label s) (hlt : label < h.size)
    (hmemo : t.memo = s.memo) (hforward : t.forward = s.forward) (d : CellId) :
    ((h.putLabel label t).cell d).edges = (h.cell d).edges := by
  by_cases hd : d = label
  · subst hd
    simp only [Cell.edges, h.putLabel_body hs hlt, hs, hmemo, hforward]
  · rw [(h.putLabel_differs label t).others d hd]

theorem setMemoLock_spec (hs : (h.cell label).body = .label s) (b : Bool) :
    Ends E (setMemoLock label b h) fun _ h' => h' = h.putLabel label { s with locked := b } :=
  h.update_label_eq hs fun l => { l with locked := b }

theorem Holding.memoLock (locks' : List Lock) (hh : Holding .calm rules locks frame h ins)
    (hs : (h.cell label).body = .label s) (hl : (Handle.counted label).Fits rules.sealed h)
    (hlabel : .release label ∈ frame) (b : Bool)
    (hlock : ∀ y, y ∈ locks' ↔ if y = (label, none) then b = true else y ∈ locks) :
    Advance rules ⟨h, locks, [], ins ++ frame⟩ ⟨h.putLabel label { s with locked := b }, locks', [], ins ++ frame⟩ ∧
      Holding .calm rules locks' frame (h.putLabel label { s with locked := b }) ins := by
  obtain ⟨⟨hroot, hsealed⟩, hlt, -⟩ := hl label rfl
  have hstep : Advance rules ⟨h, locks, [], ins ++ frame⟩
      ⟨h.putLabel label { s with locked := b }, locks', [], ins ++ frame⟩ :=
    hh.putLabel hs (.source (.inl hlabel)) ⟨fun _ he => .inl he, fun _ he => .inl he, id, fun _ => .inl,
      .inl rfl, hsealed, fun _ => ⟨rfl, rfl, rfl⟩⟩ { hh.fits_label hs with } (fun he => absurd he hroot) (.refl _) hlock
  refine ⟨hstep, (hh.safe.step hstep).1, fun y hy => ?_⟩
  have hy := (hlock y).1 hy
  by_cases he : y = (label, none)
  · subst he
    exact .source (.inl hlabel)
  · rw [if_neg he] at hy
    exact Heap.reach_congr (hh.within y hy) rfl (h.edges_putLabel hs hlt rfl rfl)

/-! ### Objects with one owner -/

/-- An object whose only owner is in hand, or a label that may change, is not seen from the frame. -/
theorem not_via_of_lone {m : Moment} {sealed : CellId → Prop} (hs : Sound sealed m) (hm : m.held = ins ++ frame)
    (hone : (m.heap.cell c).shared ≤ 1) (hcol : (m.heap.cell c).flags.collected = false)
    (hown : .release c ∈ ins ∨ (m.heap.cell label).body = .label s ∧ c ∈ s.memo.copies ∧ ¬ kept label) :
    ¬ Heap.Via kept m.heap frame c := by
  intro hv
  obtain ⟨hsame, hnone⟩ := hs.lone_of_unique hone hcol
  have hshared := hs.shared c hcol
  cases hv with
  | held hc =>
    have hframe : 0 < m.heap.standing.count (.release c) + frame.count (.release c) := by
      rcases hc with hc | hc
      · exact Nat.add_pos_right _ (List.count_pos_iff.2 hc)
      · exact Nat.add_pos_left (List.count_pos_iff.2 hc) _
    have htwo : 0 < ins.count (.release c) + m.heap.due (.release c) := by
      rcases hown with hown | ⟨hl, hc, -⟩
      · exact Nat.add_pos_left (List.count_pos_iff.2 hown) _
      · rw [Heap.due_release]
        exact Nat.add_pos_right _ (Heap.inward_pos (Heap.mem_edges_of_copy hl hc))
    simp only [Moment.claims, hm, List.count_append] at hshared
    omega
  | @edge y _ hy hobj he =>
    rcases hown with hown | ⟨hl, hc, hfree⟩
    · exact hnone (.inl (hm ▸ List.mem_append_left _ hown)) y he
    · have := hsame y label he (Heap.mem_edges_of_copy hl hc)
      subst this
      rcases hobj with ⟨x, hx⟩ | hk
      · rw [hl] at hx
        cases hx
      · exact hfree hk

theorem Heap.Via.reach_without {d : CellId} (hc : ¬ Via kept h frame c) (hd : Via kept h frame d) :
    (h.without c).Reach ((h.without c).Held frame) d := by
  induction hd with
  | held hd => exact .source hd
  | edge hy _ he ih =>
    refine .edge ih ?_
    rwa [h.cell_without_ne fun heq => hc (by rwa [← heq])]

/-- An object has become a label's own. -/
structure Heap.Recycled (h h' : Heap) (l : Handle) (x : Object) (c : CellId) (hold : List Task) : Prop where
  core : (h'.cell c).core =
    { (h.cell c).thaw with body := .object (if x.kind.rebinds then x.bound [l] else x) }.core
  others : ∀ d, d ≠ c → (h.without c).Reach ((h.without c).Held hold) d → (h'.cell d).core = (h.cell d).core
  size : h'.size = h.size
  grows : h.Grows h'
  scopes : h'.scopes = h.scopes
  nextSerial : h'.nextSerial = h.nextSerial

/-- Recycling under the lock of the memo, from the moment at which that is held until it is given back. -/
private theorem recycleLocked_spec {β : Type} {Q : β → Heap → Prop} {next : HeapM β}
    (hh : Holding .calm rules locks hold h []) (hmemo : FieldLocks locks)
    (hs : (h.cell label).body = .label s) (hl : (Handle.counted label).Fits rules.sealed h)
    (hlabel : .release label ∈ hold) (hx : (h.cell c).body = .object x) (hu : (h.cell c).unique = true)
    (hc : h.Reach (h.Held hold) c) (hloose : h.Loose rules hold c) (hfixed : ¬ rules.fixed c)
    (hsteady : ¬ rules.steady c) (hlocks : ∀ y ∈ locks, (h.without c).Reach ((h.without c).Held hold) y.1)
    (hwait : x.locked = true → E .selfWait)
    (hnext : ∀ h', Steps rules ⟨h, locks, [], hold⟩ ⟨h', locks, [], .release c :: hold⟩ →
      h.Recycled h' (.counted label) x c hold → (h'.cell c).owner = some label → Ends E (next h') Q) :
    Ends E ((do
      recycle c (.counted label)
      retain c
      setMemoLock label false
      next) (h.putLabel label { s with locked := true })) Q := by
  have hun := hmemo.unlocked hh hs
  have hnot : (label, none) ∉ locks := fun hm => hmemo _ hm rfl
  have hlt : label < h.size := (hl label rfl).2.1
  have hcl : c ≠ label := fun he => by
    rw [he, hs] at hx
    cases hx
  -- the lock is held
  obtain ⟨hstep₂, hh₂⟩ := hh.memoLock ((label, none) :: locks) hs hl hlabel true fun y => by
    by_cases hy : y = (label, none) <;> simp [hy]
  have hedges₂ := h.edges_putLabel (t := { s with locked := true }) hs hlt rfl rfl
  have hs₂ : ((h.putLabel label { s with locked := true }).cell label).body = .label { s with locked := true } :=
    h.putLabel_body hs hlt
  have hd₂ := h.putLabel_differs label { s with locked := true }
  have hlabel₂ := h.putLabel_self hs hlt { s with locked := true }
  have hg₂ : h.Grows (h.putLabel label { s with locked := true }) :=
    hd₂.grows (by rintro ⟨o, ho⟩; rw [hs] at ho; cases ho) fun _ => ⟨_, hs₂⟩
  have hserial₂ : (h.putLabel label { s with locked := true }).nextSerial = h.nextSerial := rfl
  generalize h.putLabel label { s with locked := true } = h₂ at *
  have hcell₂ : h₂.cell c = h.cell c := hd₂.others c hcl
  have hreach₂ : ∀ d, (h.without c).Reach ((h.without c).Held hold) d →
      (h₂.without c).Reach ((h₂.without c).Held hold) d := fun d hd => by
    refine Heap.reach_congr hd hd₂.scopes fun e => ?_
    by_cases he : e = c
    · subst he
      rw [Heap.edges_without_self, Heap.edges_without_self]
    · rw [Heap.cell_without_ne _ he, Heap.cell_without_ne _ he, hedges₂]
  have hlocks₂ : ∀ y ∈ (label, none) :: locks, (h₂.without c).Reach ((h₂.without c).Held hold) y.1 := fun y hy => by
    rcases List.mem_cons.1 hy with rfl | hy
    · exact .source (.inl hlabel)
    · exact hreach₂ _ (hlocks y hy)
  have hloose₂ : h₂.Loose rules hold c := by
    refine hloose.imp_right ?_
    rintro ⟨y, t, ht, hct, hse, hap⟩
    by_cases hy : y = label
    · subst hy
      cases hs.symm.trans ht
      exact ⟨y, _, hs₂, hct, hse, hap⟩
    · exact ⟨y, t, by rw [hd₂.others y hy, ht], hct, hse, hap⟩
  refine .bind (recycle_spec hh₂ (by rw [hcell₂, hx]) (by rw [hcell₂, hu])
    (Heap.reach_congr hc hd₂.scopes hedges₂) hloose₂ hfixed hsteady hlocks₂ (hl.grows hg₂) hlabel hwait) ?_
  rintro - h₃ ⟨hsteps₃, hk₃, hg₃, hown₃, hcore₃⟩
  -- whatever is reached without the object is kept
  have hthaw : ∀ d, (h₂.without c).Reach ((h₂.without c).Held hold) d →
      ((h₂.update c Cell.thaw).without c).Reach (((h₂.update c Cell.thaw).without c).Held hold) d := fun d hd => by
    refine Heap.reach_congr hd rfl fun e => ?_
    by_cases he : e = c
    · subst he
      rw [Heap.edges_without_self, Heap.edges_without_self]
    · rw [Heap.cell_without_ne _ he, Heap.cell_without_ne _ he, h₂.cell_update_ne _ he]
  have hothers₃ : ∀ d, d ≠ c → (h.without c).Reach ((h.without c).Held hold) d →
      (h₃.cell d).core = (h₂.cell d).core := fun d hdc hd => by
    have := hk₃.cell d (hthaw d (hreach₂ d hd))
    rwa [Heap.cell_without_ne _ hdc, Heap.cell_without_ne _ hdc, h₂.cell_update_ne _ hdc] at this
  have hreach_label : (h.without c).Reach ((h.without c).Held hold) label := .source (.inl hlabel)
  have hs₃ : (h₃.cell label).body = .label { s with locked := true } :=
    (Cell.body_of_core (hothers₃ label (Ne.symm hcl) hreach_label)).trans hs₂
  have hh₃ : Holding .calm rules ((label, none) :: locks) hold h₃ [] :=
    ⟨(hh₂.safe.steps hsteps₃).1, fun y hy => Heap.Reach.without (hk₃.reach (hthaw _ (hlocks₂ y hy)))⟩
  have hself : (h.without c).Reach ((h.without c).Held hold) c := hc.without_self
  have hc₃ : h₃.Reach (h₃.Held hold) c := Heap.Reach.without
    (hk₃.reach (hthaw c (hreach₂ c hself)))
  have hobj₃ : h₃.IsObject c := hg₃.object c ⟨x, by rw [hcell₂, hx]⟩
  have hlive : h₃.Live c := hh₃.safe.live_of_reach hc₃
  -- a count of the object is taken, and the lock is given back
  let h₄ := h₃.update c fun y => { y with shared := y.shared + 1 }
  have hcore₄ : ∀ d, (h₄.cell d).core = (h₃.cell d).core := h₃.core_update fun _ => rfl
  refine .updateCell_bind (show Ends E _ _ from ?_)
  have hstep₄ : Advance rules ⟨h₃, (label, none) :: locks, [], hold⟩ ⟨h₄, (label, none) :: locks, [], .release c :: hold⟩ :=
    .retain hlive (hh₃.object_ne_root hobj₃)
  have hh₄ : Holding .calm rules ((label, none) :: locks) hold h₄ [.release c] :=
    ⟨(hh₃.safe.step hstep₄).1, fun y hy => Heap.reach_update (fun _ => rfl) (hh₃.within y hy)⟩
  have hs₄ : (h₄.cell label).body = .label { s with locked := true } := (Cell.body_of_core (hcore₄ label)).trans hs₃
  refine .bind (setMemoLock_spec hs₄ false) fun _ h₅ heq => ?_
  subst heq
  have hg₄ : h₃.Grows h₄ := h₃.grows_update_of_body c fun _ => rfl
  have hl₄ : (Handle.counted label).Fits rules.sealed h₄ := ((hl.grows hg₂).grows hg₃).grows hg₄
  have hlt₄ := (hl₄ label rfl).2.1
  obtain ⟨hstep₅, -⟩ := hh₄.memoLock locks hs₄ hl₄ hlabel false fun y => by
    by_cases hy : y = (label, none) <;> simp [hy, hnot]
  have hsame : ({ ({ s with locked := true } : Label) with locked := false } : Label) = s := by rw [← hun]
  rw [hsame] at hstep₅ ⊢
  have hd₅ := h₄.putLabel_differs label s
  have hlabel₅ := h₄.putLabel_self hs₄ hlt₄ s
  have hcell₅ : ∀ d, d ≠ label → ((h₄.putLabel label s).cell d).core = (h₃.cell d).core := fun d hd => by
    rw [hd₅.others d hd, hcore₄]
  have hsize₃ : h₃.size = h₂.size := by simpa only [Heap.without, Heap.size_update] using hk₃.size
  refine hnext _ (((Relation.ReflTransGen.single hstep₂).trans hsteps₃).tail hstep₄ |>.tail hstep₅)
    ⟨?_, fun d hdc hd => ?_, ?_, ?_, ?_, ?_⟩ (by
      rw [hd₅.others c hcl, h₃.cell_update_self _ hlive.lt_size]
      exact hown₃)
  · rw [hcell₅ c hcl, hcore₃, hcell₂]
  · by_cases hdl : d = label
    · subst hdl
      rw [hlabel₅]
      have h₄₃ := (hcore₄ d).trans (hothers₃ d hdc hd)
      have := (congrArg (fun y : Cell => { y with body := Body.label s }) h₄₃ :)
      rw [hlabel₂] at this
      have hback : { h.cell d with body := Body.label s } = h.cell d := by rw [← hs]
      exact this.trans (congrArg Cell.core hback)
    · rw [hcell₅ d hdl, hothers₃ d hdc hd, hd₂.others d hdl]
  · rw [hd₅.size, Heap.size_update, hsize₃, hd₂.size]
  · exact ((hg₂.trans hg₃).trans hg₄).trans (hd₅.grows (by rintro ⟨o, ho⟩; rw [hs₄] at ho; cases ho)
      fun _ => ⟨s, by rw [hlabel₅]⟩)
  · exact hd₅.scopes.trans (hk₃.scopes.trans hd₂.scopes)
  · exact hk₃.nextSerial.trans hserial₂

/-! ### Looking up for change -/

/-- What resolving an object for change comes to. The references `hold` are held besides the result. -/
inductive Heap.Got (h : Heap) (l : Handle) (o : CellId) (hold : List Task) (h' : Heap) : CellId → Prop where
  | found {r : CellId} : h.Sees l o r → (∀ c, l = .counted c → (h.cell r).frozen = false) → h.Kept hold h' →
      Got h l o hold h' r
  | recycled {label r : CellId} {s : Label} {x : Object} : l = .counted label →
      (h.cell label).body = .label s → h.Stands s.memo o r → (h.cell r).frozen = true →
      (h.cell r).body = .object x → h.Recycled h' l x r hold → h.Leaves (· ≠ r) h' → Got h l o hold h' r
  | copied {label seen r : CellId} {s : Label} {x : Object} : l = .counted label →
      (h.cell label).body = .label s → h.Stands s.memo o seen → (h.cell seen).frozen = true →
      (h.cell seen).body = .object x → h.Copied h' l x r → h.Spares (· ≠ label) hold h' →
      ((h.cell seen).flags.frozenSole = true ∧ (h'.cell label).body = .label s ∨
        s.memo.get? seen = none ∧
          (h'.cell label).body = .label { s with written := true, memo := s.memo.put seen r }) →
      h.Leaves (· ≠ label) h' → Got h l o hold h' r

private theorem returned_spec (hh : Holding manner rules locks hold h [])
    (hr : Run manner rules locks hold h [] k [.release r, .release label]) :
    Ends E ((do (Handle.counted label).drop; return r : HeapM CellId) k) fun c h' => c = r ∧
      Run manner rules locks hold h [] h' [.release r] ∧ k.Kept ([.release r] ++ hold) h' := by
  have hswap : [Task.release r, .release label].Perm ([.release label] ++ [.release r]) := .swap _ _ _
  exact .bind (Handle.drop_spec (l := .counted label) ((hh.run hr).focus hswap).calm) fun _ h' hr' =>
    ⟨rfl, hr.andDrop hswap hr'.relax, hr'.keeps⟩

theorem Heap.Recycled.reach {d : CellId} (hr : h.Recycled h' l x c hold)
    (hd : (h.without c).Reach ((h.without c).Held hold) d) : h'.Reach (h'.Held hold) d := by
  refine hd.mono (fun _ hd => .source (hd.imp_right fun hm => ?_)) fun y e hy he hy' => .edge hy' ?_
  · rwa [Heap.standing, hr.scopes]
  · by_cases hyc : y = c
    · subst hyc
      rw [Heap.edges_without_self] at he
      cases he
    · rw [h.cell_without_ne hyc] at he
      rwa [show (h'.cell y).edges = _ from (congrArg Cell.edges (hr.others y hyc hy) :)]

private theorem recycled_spec (hh : Holding (.sparing kept) rules locks frame h ins) (hmemo : FieldLocks locks)
    (hs : (h.cell label).body = .label s) (hl : (Handle.counted label).Fits rules.sealed h)
    (hlabel : .release label ∈ ins ++ frame) (hx : (h.cell c).body = .object x)
    (hu : (h.cell c).unique = true) (hc : h.Reach (h.Held (ins ++ frame)) c)
    (hown : .release c ∈ ins ∨ c ∈ s.memo.copies)
    (hfixed : rules.fixed c ∨ rules.steady c → Heap.Via kept h frame c) (hfree : ¬ kept label)
    (hapart : rules.apart = true → s.frozen = false) (hwait : x.locked = true → E .selfWait)
    (hr₁ : Run .calm rules locks (ins ++ frame) h [] k [.release label])
    (hkc : k.cell c = h.cell c) (hcore : ∀ d, (k.cell d).core = (h.cell d).core) {next : HeapM CellId} :
    Ends E ((do
      recycle c (.counted label)
      retain c
      setMemoLock label false
      let y ← readCell c
      if !y.frozen then
        (Handle.counted label).drop
        return c
      else next) (k.putLabel label { s with locked := true })) fun r h' => r = c ∧
        h.Recycled h' (.counted label) x c (ins ++ frame) ∧ (h'.cell c).owner = some label ∧
        Run (.sparing kept) rules locks frame h ins h' (.release c :: ins) := by
  have hone : (h.cell c).shared ≤ 1 := by
    simp only [Cell.unique, Bool.and_eq_true, decide_eq_true_eq] at hu
    omega
  have hhold : Holding .calm rules locks (ins ++ frame) h [] := hh.calm.focus (.refl _)
  have hlive : h.Live c := hh.safe.live_of_reach hc
  have hown' : .release c ∈ ins ∨ (h.cell label).body = .label s ∧ c ∈ s.memo.copies ∧ ¬ kept label :=
    hown.imp_right fun hm => ⟨hs, hm, hfree⟩
  have hnot : ¬ Heap.Via kept h frame c := not_via_of_lone hh.safe.toSound rfl hone hlive.collected hown'
  have hk : h.Kept (ins ++ frame) k := hr₁.keeps
  have hedges : ∀ d, (k.cell d).edges = (h.cell d).edges := fun d => (congrArg Cell.edges (hcore d) :)
  have hhk := hhold.run hr₁
  have hwithout : ∀ {d}, (h.without c).Reach ((h.without c).Held (ins ++ frame)) d →
      (k.without c).Reach ((k.without c).Held ([.release label] ++ (ins ++ frame))) d := fun {d} hd => by
    have hd : (k.without c).Reach ((k.without c).Held (ins ++ frame)) d := by
      refine Heap.reach_congr hd hk.scopes fun e => ?_
      by_cases he : e = c
      · subst he
        rw [Heap.edges_without_self, Heap.edges_without_self]
      · rw [Heap.cell_without_ne _ he, Heap.cell_without_ne _ he, hedges]
    exact hd.subset fun _ => Or.imp_left (List.mem_append_right _)
  have hvia : ∀ {d}, Heap.Via kept h frame d →
      d ≠ c ∧ (h.without c).Reach ((h.without c).Held (ins ++ frame)) d := fun {d} hd =>
    ⟨fun he => hnot (by rwa [← he]), (Heap.Via.reach_without hnot hd).subset fun _ =>
      Or.imp_left (List.mem_append_right _)⟩
  have hsk : (k.cell label).body = .label s := (Cell.body_of_core (hcore label)).trans hs
  have hloose : k.Loose rules ([.release label] ++ (ins ++ frame)) c := by
    rcases hown with hown | hown
    · exact .inl (List.mem_append_right _ (List.mem_append_left _ hown))
    · exact .inr ⟨label, s, hsk, hown, (hl label rfl).1.2, hapart⟩
  refine recycleLocked_spec (hhk.focus (.refl _)) hmemo hsk (hl.grows hk.grows)
    (List.mem_append_left _ List.mem_cons_self) (by rw [hkc, hx]) (by rw [hkc, hu])
    ((hk.reach hc).subset fun _ => Or.imp_left (List.mem_append_right _)) hloose (fun hf => hnot (hfixed (.inl hf)))
    (fun hst => hnot (hfixed (.inr hst))) (fun y hy => hwithout (hvia (hh.within y hy)).2) hwait
    fun h₅ hsteps hrec hown₅ => .readCell_bind ?_
  have hthawed : (h₅.cell c).frozen = false := by
    rw [Cell.frozen_of_core hrec.core]
    rfl
  simp only [hthawed, Bool.not_false, if_true]
  have hsteps₅ : Steps rules ⟨h, locks, [], ins ++ frame⟩
      ⟨h₅, locks, [], [.release label] ++ (.release c :: (ins ++ frame))⟩ :=
    (hr₁.steps.trans hsteps).tail (.arrange (.swap _ _ _))
  have hreach₅ : ∀ {d}, (h.without c).Reach ((h.without c).Held (ins ++ frame)) d →
      h₅.Reach (h₅.Held (.release c :: (ins ++ frame))) d := fun hd =>
    (hrec.reach (hwithout hd)).subset fun _ => Or.imp_left fun hm => List.mem_cons_of_mem _ <|
      (List.mem_append.1 hm).elim (fun hm => List.mem_singleton.1 hm ▸ hlabel) id
  have hh₅ : Holding .calm rules locks (.release c :: (ins ++ frame)) h₅ [.release label] :=
    ⟨(hh.safe.steps hsteps₅).1, fun y hy => hreach₅ (hvia (hh.within y hy)).2⟩
  refine .bind ((Handle.drop_spec (l := .counted label) hh₅).and
    (Handle.drop_spec (l := .counted label) (hh₅.leaving rules.fixed (· = c)))) ?_
  rintro - h₆ ⟨hr₆, hr₆'⟩
  have hlive₆ := (hh₅.run hr₆).live (c := c) List.mem_cons_self
  have hown₆ : (h₆.cell c).owner = some label := ((Course.of_same hr₆'.steps).maker
    (hh₅.leaving rules.fixed (· = c)).safe.toFirm rfl rfl (by
      rw [show Heap.size _ = h₅.size from rfl, ← show h₆.size = h₅.size from Heap.Kept.size hr₆.keeps]
      exact hlive₆.lt_size) hlive₆.destroyed).trans hown₅
  have hk₆ : h₅.Kept (.release c :: (ins ++ frame)) h₆ := hr₆.keeps
  have hothers : ∀ d, d ≠ c → (h.without c).Reach ((h.without c).Held (ins ++ frame)) d →
      (h₆.cell d).core = (h.cell d).core := fun d hdc hd => by
    rw [hk₆.cell d (hreach₅ hd), hrec.others d hdc (hwithout hd), hcore]
  have hsize : h₆.size = h.size := by rw [hk₆.size, hrec.size, hk.size]
  have hscopes : h₆.scopes = h.scopes := by rw [hk₆.scopes, hrec.scopes, hk.scopes]
  have hserial : h₆.nextSerial = h.nextSerial := by rw [hk₆.nextSerial, hrec.nextSerial, hk.nextSerial]
  have hgrows := (hk.grows.trans hrec.grows).trans hk₆.grows
  refine .pure ⟨rfl, ⟨?_, hothers, hsize, hgrows, hscopes, hserial⟩, hown₆, ⟨hsteps₅.trans hr₆.steps, ?_⟩⟩
  · rw [hk₆.cell c (.source (.inl List.mem_cons_self)), hrec.core, hkc]
  · exact ⟨fun d hd _ => hothers d (hvia hd).1 (hvia hd).2, hgrows, hscopes, Nat.le_of_eq hserial.symm⟩

private theorem unique_spec (hh : Holding .calm rules locks hold h []) (hmemo : FieldLocks locks)
    (hs : (h.cell label).body = .label s) (hl : (Handle.counted label).Fits rules.sealed h)
    (hlabel : .release label ∈ hold) (hx : (h.cell c).body = .object x) (hc : h.Reach (h.Held hold) c)
    {β : Type} {Q : β → Heap → Prop} {next : HeapM β}
    (hnext : ∀ h', Run .calm rules locks hold h [] h' [.release c] → Ends E (next h') Q) :
    Ends E ((do retain c; setMemoLock label false; next) (h.putLabel label { s with locked := true })) Q := by
  have hun := hmemo.unlocked hh hs
  have hnot : (label, none) ∉ locks := fun hm => hmemo _ hm rfl
  have hlt : label < h.size := (hl label rfl).2.1
  obtain ⟨hstep₂, hh₂⟩ := hh.memoLock ((label, none) :: locks) hs hl hlabel true fun y => by
    by_cases hy : y = (label, none) <;> simp [hy]
  have hd₂ := h.putLabel_differs label { s with locked := true }
  have hlabel₂ := h.putLabel_self hs hlt { s with locked := true }
  have hedges₂ := h.edges_putLabel (t := { s with locked := true }) hs hlt rfl rfl
  have hcl : c ≠ label := fun he => by
    rw [he, hs] at hx
    cases hx
  have hobj : (h.putLabel label { s with locked := true }).IsObject c := ⟨x, by rw [hd₂.others c hcl, hx]⟩
  have hlive := hh₂.safe.live_of_reach (Heap.reach_congr hc hd₂.scopes hedges₂)
  have hg₂ : h.Grows (h.putLabel label { s with locked := true }) :=
    hd₂.grows (fun ⟨o, ho⟩ => by rw [hs] at ho; cases ho) fun _ => ⟨_, by rw [hlabel₂]⟩
  have hserial₂ : (h.putLabel label { s with locked := true }).nextSerial = h.nextSerial := rfl
  generalize h.putLabel label { s with locked := true } = h₂ at *
  let h₃ := h₂.update c fun y => { y with shared := y.shared + 1 }
  have hcore₃ := h₂.core_update (c := c) (g := fun y => { y with shared := y.shared + 1 }) fun _ => rfl
  refine .updateCell_bind (show Ends E _ _ from ?_)
  have hstep₃ : Advance rules ⟨h₂, (label, none) :: locks, [], hold⟩ ⟨h₃, (label, none) :: locks, [], .release c :: hold⟩ :=
    .retain hlive (hh₂.object_ne_root hobj)
  have hh₃ : Holding .calm rules ((label, none) :: locks) hold h₃ [.release c] :=
    ⟨(hh₂.safe.step hstep₃).1, fun y hy => Heap.reach_update (fun _ => rfl) (hh₂.within y hy)⟩
  have hs₃ : (h₃.cell label).body = .label { s with locked := true } :=
    (Cell.body_of_core (hcore₃ label)).trans (by rw [hlabel₂])
  have hg₃ : h.Grows h₃ := hg₂.trans (h₂.grows_update_of_body c fun _ => rfl)
  have hl₃ := hl.grows hg₃
  obtain ⟨hstep₄, -⟩ := hh₃.memoLock locks hs₃ hl₃ hlabel false fun y => by
    by_cases hy : y = (label, none) <;> simp [hy, hnot]
  refine .bind (setMemoLock_spec hs₃ false) fun _ h₄ heq => ?_
  subst heq
  have hsame : ({ ({ s with locked := true } : Label) with locked := false } : Label) = s := by rw [← hun]
  rw [hsame] at hstep₄ ⊢
  have hd₄ := h₃.putLabel_differs label s
  have hcore : ∀ d, ((h₃.putLabel label s).cell d).core = (h.cell d).core := fun d => by
    by_cases hdl : d = label
    · subst hdl
      rw [h₃.putLabel_self hs₃ (hl₃ d rfl).2.1 s]
      have hback : { h.cell d with body := Body.label s } = h.cell d := by rw [← hs]
      have := (congrArg (fun y : Cell => { y with body := Body.label s }) (hcore₃ d) :)
      rw [hlabel₂] at this
      exact this.trans (congrArg Cell.core hback)
    · rw [hd₄.others d hdl, hcore₃, hd₂.others d hdl]
  have hsize : (h₃.putLabel label s).size = h.size := by rw [hd₄.size, Heap.size_update, hd₂.size]
  exact hnext _ ⟨((Relation.ReflTransGen.single hstep₂).tail hstep₃).tail hstep₄,
    Heap.kept_of_core hcore hsize (hd₄.scopes.trans hd₂.scopes) hserial₂⟩

private theorem copied_spec (hh : Holding (.sparing kept) rules locks hold h []) (hfree : ∀ c, kept c → c ≠ label)
    (hsteady : ¬ rules.steady label)
    (hs : (h.cell label).body = .label s) (hl : (Handle.counted label).Fits rules.sealed h)
    (hlabel : .release label ∈ hold) (hst : h.Stands s.memo o seen) (hfs : (h.cell seen).frozen = true)
    (hx : (h.cell seen).body = .object x) (hseen : h.Reach (h.Held hold) seen)
    (hapart : rules.apart = true → s.frozen = false) (hwait : x.locked = true → E .selfWait)
    (hr₁ : Run .calm rules locks hold h [] k [.release seen, .release label]) :
    Ends E ((do
      let copy ← copyIntoMemo (.counted label) label seen
      release seen
      (Handle.counted label).drop
      return copy : HeapM CellId) k) fun r h' =>
        h.Got (.counted label) o hold h' r ∧ r = h.size ∧ h'.IsObject r ∧
          Run (.sparing kept) rules locks hold h [] h' [.release r] := by
  have hk₁ : h.Kept hold k := hr₁.keeps
  have hheld : ∀ {k : Heap}, k.Held hold label := .inl hlabel
  have hwide : Holding (.sparing (· ≠ label)) rules locks hold h [] :=
    ⟨hh.safe, fun y hy => Heap.Via.relax (hh.within y hy) hfree⟩
  have hkhold : Holding (.sparing (· ≠ label)) rules locks ([.release seen, .release label] ++ hold) k [] :=
    (hwide.run hr₁.relax).focus (.refl _)
  have hx₁ := (hk₁.body hseen).trans hx
  have hs₁ := (hk₁.body (.source hheld)).trans hs
  have hfs₁ : (k.cell seen).frozen = true := (hk₁.fades.frozen seen).trans hfs
  have hnone := hst.stops hfs
  have hk' := hkhold.leaving (· ≠ label) (· ≠ label)
  have hmem : Task.release label ∈ [Task.release seen, .release label] ++ hold := .tail _ List.mem_cons_self
  refine .bind ((copyIntoMemo_spec hkhold hx₁ (.source (.inl List.mem_cons_self)) hs₁ (hl.grows hk₁.grows) hmem
    (fun hne => hne rfl) hsteady (fun _ => hfs₁) hapart hwait).and (copyIntoMemo_spec hk' hx₁ (.source (.inl List.mem_cons_self))
    hs₁ (hl.grows hk₁.grows) hmem (fun hne => hne rfl) (fun hne => hne rfl) (fun _ => hfs₁) hapart hwait))
    fun c h₂ ⟨⟨hr₂, hcases⟩, hr₂', _⟩ => ?_
  have hr₁₂ : Run (.sparing (· ≠ label)) rules locks hold h [] h₂ [.release c, .release seen, .release label] :=
    hr₁.relax.trans hr₂.widen
  have hswap : [Task.release c, .release seen, .release label].Perm
      ([.release seen] ++ [.release c, .release label]) := .swap _ _ _
  refine .bind (release_spec ((hwide.run hr₁₂).focus hswap).calm) fun _ h₃ hr₃ => ?_
  refine (returned_spec hwide (hr₁₂.andDrop hswap hr₃.relax)).imp fun r h' ⟨hr, hrun, hk₄⟩ => ?_
  subst hr
  have hk₃ : h₂.Kept ([.release r, .release label] ++ hold) h₃ := hr₃.keeps
  have hlabel' : (h'.cell label).body = (h₂.cell label).body :=
    (hk₄.body (.source (.inl (List.mem_append_right _ hlabel)))).trans
      (hk₃.body (.source (.inl (List.mem_append_right _ hlabel))))
  have hleaves : h.Leaves (· ≠ label) h' := hk₁.leaves.trans (((Course.of_same hr₂'.steps).leaves
    hk'.safe.toFirm).trans (hk₃.leaves.trans hk₄.leaves))
  have hcore : (h'.cell r).core = (h₂.cell r).core :=
    (hk₄.cell r (.source (.inl List.mem_cons_self))).trans (hk₃.cell r (.source (.inl List.mem_cons_self)))
  have hcopied : k.Copied h₂ (.counted label) x r → h.Copied h' (.counted label) x r := fun hc =>
    ⟨hc.new.trans hk₁.size, by rw [hk₄.size, hk₃.size, hc.size, hk₁.size], hc.unlocked,
      by rw [hcore, hc.core, hk₁.nextSerial]⟩
  have hobj : h.Copied h' (.counted label) x r → h'.IsObject r := fun hc => ⟨_, Cell.body_of_core hc.core⟩
  rcases hcases with ⟨hc, hsole, hs₂⟩ | ⟨hc, -, hs₂⟩ | ⟨hget, -⟩
  · have hsame : (k.cell seen).flags.frozenSole = (h.cell seen).flags.frozenSole :=
      (congrArg (fun y : Cell => y.flags.frozenSole) (hk₁.cell seen hseen) :)
    have hsole := hsame.symm.trans hsole
    exact ⟨.copied rfl hs hst hfs hx (hcopied hc) hrun.keeps (.inl ⟨hsole, hlabel'.trans hs₂⟩) hleaves, (hcopied hc).new,
      hobj (hcopied hc), hrun.spare hfree⟩
  · exact ⟨.copied rfl hs hst hfs hx (hcopied hc) hrun.keeps (.inr ⟨hnone, hlabel'.trans hs₂⟩) hleaves, (hcopied hc).new,
      hobj (hcopied hc), hrun.spare hfree⟩
  · rw [hnone] at hget
    cases hget

private theorem frozen_spec (hh : Holding (.sparing kept) rules locks frame h ins) (hmemo : FieldLocks locks)
    (hs : (h.cell label).body = .label s) (hl : (Handle.counted label).Fits rules.sealed h)
    (hlabel : .release label ∈ ins ++ frame) (hfree : ∀ c, kept c → c ≠ label)
    (hsteady : rules.steady label → (h.cell seen).unique = true)
    (hfixed : rules.fixed seen ∨ rules.steady seen → Heap.Via kept h frame seen) (hst : h.Stands s.memo o seen)
    (hfs : (h.cell seen).frozen = true) (hx : (h.cell seen).body = .object x) (hseen : h.Reach (h.Held (ins ++ frame)) seen)
    (hins : .release o ∈ ins)
    (hapart : rules.apart = true → s.frozen = false) (hwait : x.locked = true → E .selfWait)
    (hr₁ : ∀ rules, Run .calm rules locks (ins ++ frame) h [] k [.release label])
    (hcell : k.cell seen = h.cell seen) (hcore : ∀ d, (k.cell d).core = (h.cell d).core) :
    Ends E ((do
      if (← readCell seen).unique then recycle seen (.counted label)
      retain seen
      setMemoLock label false
      if !(← readCell seen).frozen then
        (Handle.counted label).drop
        return seen
      let copy ← copyIntoMemo (.counted label) label seen
      release seen
      (Handle.counted label).drop
      return copy : HeapM CellId) (k.putLabel label { s with locked := true })) fun r h' =>
        h.Got (.counted label) o (ins ++ frame) h' r ∧
          ((h.cell r).frozen = true → (h.cell r).unique = true ∧ (h'.cell r).owner = some label) ∧ h'.IsObject r ∧
          Run (.sparing kept) rules locks frame h ins h' (.release r :: ins) := by
  have hsl : seen ≠ label := fun he => by
    rw [he, hs] at hx
    cases hx
  have hhold : Holding .calm rules locks (ins ++ frame) h [] := hh.calm.focus (.refl _)
  have hk : h.Kept (ins ++ frame) k := (hr₁ rules).keeps
  have hsk : (k.cell label).body = .label s := (Cell.body_of_core (hcore label)).trans hs
  have hown : .release seen ∈ ins ∨ seen ∈ s.memo.copies := hst.mem.imp_left fun he => by rwa [he]
  refine .readCell_bind ?_
  rw [(k.putLabel_differs label _).others seen hsl, hcell]
  cases hu : (h.cell seen).unique with
  | true =>
    have hh' := hh.leaving (· ≠ seen) (· ≠ seen)
    refine ((recycled_spec hh hmemo hs hl hlabel hx hu hseen hown hfixed (fun hk => hfree label hk rfl) hapart hwait (hr₁ _)
      hcell hcore).and (recycled_spec hh' hmemo hs hl hlabel hx hu hseen hown (fun hne => absurd rfl (hne.elim id id : seen ≠ seen))
      (fun hk => hfree label hk rfl) hapart hwait (hr₁ _) hcell hcore)).imp
        fun r h' ⟨⟨hr, hrec, hown, hrun⟩, _, _, _, hrun'⟩ => ?_
    subst hr
    exact ⟨.recycled rfl hs hst hfs hx hrec ((Course.of_same hrun'.steps).leaves hh'.safe.toFirm), fun _ => ⟨hu, hown⟩,
      hrec.grows.object _ ⟨x, hx⟩, hrun⟩
  | false =>
    refine unique_spec ((hhold.run (hr₁ rules)).focus (.refl _)) hmemo hsk (hl.grows hk.grows)
      (List.mem_append_left _ List.mem_cons_self) (hcell ▸ hx)
      ((hk.reach hseen).subset fun _ => Or.imp_left (List.mem_append_right _)) fun h₂ hr₂ => .readCell_bind ?_
    have hr₁₂ := (hr₁ rules).andThen (.refl _) hr₂
    have hfs₂ : (h₂.cell seen).frozen = true := (Heap.Kept.fades hr₁₂.keeps).frozen seen |>.trans hfs
    simp only [hfs₂, Bool.not_true, Bool.false_eq_true, if_false]
    have hsteady : ¬ rules.steady label := fun hst => by
      rw [hsteady hst] at hu
      cases hu
    refine (copied_spec (hh.focus (.refl _)) hfree hsteady hs hl hlabel hst hfs hx hseen hapart hwait hr₁₂).imp
      fun r h' ⟨hgot, hr, hobj, hrun⟩ => ⟨hgot, fun hf => ?_, hobj, hrun.widen⟩
    rw [hr, h.cell_of_size_le (Nat.le_refl _)] at hf
    cases hf

/-- An object is resolved for change, and one count of the result is taken. -/
theorem mapGet_spec (hh : Holding (.sparing kept) rules locks frame h ins) (hmemo : FieldLocks locks)
    (ho : h.IsObject o) (hins : .release o ∈ ins) (hl : l.Fits rules.sealed h)
    (hsub : ∀ t ∈ l.tasks, t ∈ ins ++ frame) (hfree : ∀ c, l = .counted c → ¬ kept c)
    (hsteady : ∀ c seen, l = .counted c → rules.steady c → h.Sees l o seen → (h.cell seen).frozen = true →
      (h.cell seen).unique = true)
    (hfixed : ∀ seen, h.Sees l o seen → rules.fixed seen ∨ rules.steady seen → Heap.Via kept h frame seen)
    (hapart : rules.apart = true → ∀ c, l = .counted c → (h.label c).frozen = false)
    (hwait : ∀ seen x, h.Sees l o seen → (h.cell seen).frozen = true → (h.cell seen).body = .object x →
      x.locked = true → E .selfWait) :
    Ends E (mapGet l o h) fun r h' => h.Got l o (ins ++ frame) h' r ∧
      (∀ c, l = .counted c → (h.cell r).frozen = true → (h.cell r).unique = true ∧ (h'.cell r).owner = some c) ∧
      h'.IsObject r ∧ Run (.sparing kept) rules locks frame h ins h' (.release r :: ins) := by
  have hhold : Holding .calm rules locks (ins ++ frame) h [] := hh.calm.focus (.refl _)
  have hlive : h.Live o := hh.live (List.mem_append_left _ hins)
  have hreach : h.Reach (h.Held (ins ++ frame)) o := .source (.inl (List.mem_append_left _ hins))
  -- what is held throughout may be counted as in hand in the end
  have hwiden : ∀ {r h'}, Run (.sparing kept) rules locks (ins ++ frame) h [] h' [.release r] →
      Run (.sparing kept) rules locks frame h ins h' (.release r :: ins) := fun hr => hr.widen
  unfold mapGet
  have hother : h.Sees l o o → (∀ c, l ≠ .counted c) → Ends E ((do retain o; return o : HeapM CellId) h)
      fun r h' => h.Got l o (ins ++ frame) h' r ∧
        (∀ c, l = .counted c → (h.cell r).frozen = true → (h.cell r).unique = true ∧ (h'.cell r).owner = some c) ∧
        h'.IsObject r ∧ Run (.sparing kept) rules locks frame h ins h' (.release r :: ins) := fun hs hl =>
    .bind (retain_spec hhold hlive (hhold.object_ne_root ho)) fun _ h' ⟨hr, _⟩ =>
      ⟨.found hs (fun c hc => absurd hc (hl c)) hr.keeps, fun c hc => absurd hc (hl c), hr.keeps.grows.object o ho, hwiden hr.relax⟩
  cases l with
  | empty => exact hother rfl nofun
  | root => exact hother rfl nofun
  | counted label =>
    obtain ⟨⟨hroot, hsealed⟩, hlt, s, hs⟩ := hl label rfl
    have hlabel : .release label ∈ ins ++ frame := hsub _ List.mem_cons_self
    have hlabel_live : h.Live label := hh.live hlabel
    let h₁ := h.update label fun y => { y with shared := y.shared + 1 }
    have hr : ∀ rules, Run .calm rules locks (ins ++ frame) h [] h₁ [.release label] := fun _ =>
      .of_step (.retain hlabel_live hroot) (h.kept_update _ label fun _ => rfl)
    have hr₁ := hr rules
    refine .bind (Q := fun l' h' => l' = .counted label ∧ h' = h₁) ⟨rfl, rfl⟩ fun l' h' ⟨hl', hh'⟩ => ?_
    subst hl' hh'
    have hh₁ := hhold.run hr₁
    have hk₁ : h.Kept (ins ++ frame) h₁ := hr₁.keeps
    have hfrozen : ∀ d, (h₁.cell d).frozen = (h.cell d).frozen := hk₁.fades.frozen
    have hs₁ : (h₁.cell label).body = .label s := (hk₁.body (.source (.inl hlabel))).trans hs
    have hsees : ∀ {r}, h.Stands s.memo o r → h.Sees (.counted label) o r := fun hr => by
      show h.Stands (h.label label).memo o _
      rwa [h.label_eq hs]
    have htake : ∀ {r}, h₁.Live r → h.IsObject r → h.Stands s.memo o r → (h.cell r).frozen = false →
        Ends E ((do retain r; (Handle.counted label).drop; return r : HeapM CellId) h₁) fun r h' =>
          h.Got (.counted label) o (ins ++ frame) h' r ∧
          (∀ c, Handle.counted label = .counted c → (h.cell r).frozen = true →
            (h.cell r).unique = true ∧ (h'.cell r).owner = some c) ∧ h'.IsObject r ∧
            Run (.sparing kept) rules locks frame h ins h' (.release r :: ins) := fun {r} hr hobj hst hf => by
      have hobj₁ := hk₁.grows.object r hobj
      refine .bind (retain_spec hh₁ hr (hh₁.object_ne_root hobj₁)) fun _ h₂ ⟨hr₂, _⟩ => ?_
      refine (returned_spec hhold (hr₁.trans hr₂)).imp fun r' h' ⟨hr', hrun, _⟩ => ?_
      subst hr'
      exact ⟨.found (hsees hst) (fun _ _ => hf) hrun.keeps, fun _ _ hfr => (nomatch hf.symm.trans hfr),
        hrun.keeps.grows.object _ hobj, hwiden hrun.relax⟩
    refine .readCell_bind ?_
    rw [hfrozen]
    cases hfo : (h.cell o).frozen with
    | false =>
      exact htake (hh₁.live (List.mem_append_right _ (List.mem_append_left _ hins))) ho
        (.stop fun hf => by rw [hfo] at hf; cases hf) hfo
    | true =>
      simp only [Bool.not_true, Bool.false_eq_true, if_false]
      refine .bind (standIn_spec hh₁ hs₁) fun seen h₂ ⟨hst₁, heq⟩ => .readCell_bind ?_
      subst heq
      have hst : h.Stands s.memo o seen := hst₁.congr fun d => (hfrozen d).symm
      have hobj := hh.sees_object hs ho hst
      have hseen : h.Reach (h.Held (ins ++ frame)) seen := (hsees hst).reach hreach
        (Handle.reach_of_tasks hsub)
      have hlive₁ : h₁.Live seen := hh₁.safe.live_of_reach
        ((hk₁.reach hseen).subset fun _ => Or.imp_left (List.mem_append_right _))
      rw [hfrozen]
      cases hfs : (h.cell seen).frozen with
      | false => exact htake hlive₁ hobj hst hfs
      | true =>
        simp only [Bool.not_true, Bool.false_eq_true, if_false]
        obtain ⟨x, hx⟩ := hobj
        have hcell₁ : h₁.cell seen = h.cell seen := h.cell_update_ne _ fun he => by
          rw [he, hs] at hx
          cases hx
        have hapart : rules.apart = true → s.frozen = false := fun hap => by
          have := hapart hap label rfl
          rwa [h.label_eq hs] at this
        exact .bind (setMemoLock_spec hs₁ true) fun _ _ heq => heq ▸ (frozen_spec hh hmemo hs hl hlabel
          (fun c hc he => hfree label rfl (he ▸ hc)) (fun hst' => hsteady label seen rfl hst' (hsees hst) hfs)
          (hfixed seen (hsees hst)) hst hfs hx hseen hins hapart (hwait seen x (hsees hst) hfs hx) hr hcell₁
          (h.core_update fun _ => rfl)).imp fun r h' ⟨hgot, hown, hobj, hrun⟩ => ⟨hgot, fun c hc hf => by
            cases hc
            exact hown hf, hobj, hrun⟩

end LazyHeap
