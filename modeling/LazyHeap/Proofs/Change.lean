import LazyHeap.Proofs.Moment

/-!
Changes that keep a moment sound. A recount changes counts and flags of one cell, together with references
outside of the cells; an exchange moves references between the value of one cell and the outside; an addition
is a new cell.
-/
namespace LazyHeap

/-- A heap that differs from another in at most one cell, and in what has nothing to do with cells. -/
structure Heap.Differs (h h' : Heap) (c : CellId) : Prop where
  size : h'.size = h.size
  others : ∀ d, d ≠ c → h'.cell d = h.cell d
  scopes : h'.scopes = h.scopes

namespace Heap.Differs

variable {h h' : Heap} {c : CellId}

theorem update (h : Heap) (c : CellId) (f : Cell → Cell) : h.Differs (h.update c f) c :=
  ⟨h.size_update c f, fun _ hd => h.cell_update_ne f hd, rfl⟩

protected theorem refl (h : Heap) (c : CellId) : h.Differs h c := ⟨rfl, fun _ _ => rfl, rfl⟩

protected theorem trans {h'' : Heap} (h₁ : h.Differs h' c) (h₂ : h'.Differs h'' c) :
    h.Differs h'' c :=
  ⟨h₂.size.trans h₁.size, fun d hd => (h₂.others d hd).trans (h₁.others d hd),
    h₂.scopes.trans h₁.scopes⟩

theorem due (hd : h.Differs h' c) (hc : c < h.size) (t : Task) :
    h'.due t + (h.cell c).dues.count t = h.due t + (h'.cell c).dues.count t := by
  have hsum : h'.due t = (h.update c fun _ => h'.cell c).due t := by
    simp only [Heap.due, Heap.total_eq_range, hd.size, Heap.size_update]
    congr 1
    refine List.map_congr_left fun d _ => ?_
    by_cases hdc : d = c
    · subst hdc
      rw [h.cell_update_self _ hc]
    · rw [hd.others d hdc, h.cell_update_ne _ hdc]
  rw [hsum]
  exact h.due_update t _ hc

theorem grows (hd : h.Differs h' c)
    (hbody : (∃ o, (h.cell c).body = .object o) → ∃ o, (h'.cell c).body = .object o)
    (hbody' : (∃ l, (h.cell c).body = .label l) → ∃ l, (h'.cell c).body = .label l) :
    h.Grows h' where
  size := Nat.le_of_eq hd.size.symm
  object d ho := by
    by_cases hdc : d = c
    · exact hdc ▸ hbody (hdc ▸ ho)
    · rwa [Heap.IsObject, hd.others d hdc]
  label d hl := by
    refine ⟨hd.size.symm ▸ hl.1, ?_⟩
    by_cases hdc : d = c
    · exact hdc ▸ hbody' (hdc ▸ hl.2)
    · rw [hd.others d hdc]
      exact hl.2

theorem grows_of_body (hd : h.Differs h' c) (hbody : (h'.cell c).body = (h.cell c).body) :
    h.Grows h' := hd.grows (by rw [hbody]; exact id) (by rw [hbody]; exact id)

end Heap.Differs

variable {sealed : CellId → Prop} {h h' : Heap} {locks locks' : List Lock}
variable {ts ts' held held' : List Task} {c : CellId}

/-- A change of counts and flags. What it must respect is stated for the cell that changes and for the
references outside of the cells; all else follows. -/
theorem Sound.recount (hs : Sound sealed ⟨h, locks, ts, held⟩) (hd : h.Differs h' c) (hc : c < h.size)
    (hbody : (h'.cell c).body = (h.cell c).body) (howner : (h'.cell c).owner = (h.cell c).owner)
    (hcol : (h'.cell c).flags.collected = (h.cell c).flags.collected)
    (hshared : (h.cell c).flags.collected = false → (h'.cell c).shared + (ts ++ held).count (.release c) =
      (h.cell c).shared + (ts' ++ held').count (.release c))
    (hrel : ∀ d, d ≠ c → (ts ++ held).count (.release d) = (ts' ++ held').count (.release d))
    (hweak : (h'.cell c).weak + (ts ++ held).count (.unpin c) + h.candidates.toList.count c +
        (if (h.cell c).destroyed then 0 else 1) =
      (h.cell c).weak + (ts' ++ held').count (.unpin c) + h'.candidates.toList.count c +
        (if (h'.cell c).destroyed then 0 else 1))
    (hpin : ∀ d, d ≠ c → (ts ++ held).count (.unpin d) + h.candidates.toList.count d =
      (ts' ++ held').count (.unpin d) + h'.candidates.toList.count d)
    (hdead : (h'.cell c).destroyed = true → (h'.cell c).shared = 0 ∧ (h'.cell c).body.tasks = [])
    (hlive : (h'.cell c).destroyed = false → (h'.cell c).flags.collected = false →
      0 < (h'.cell c).shared)
    (hkeep : (h.cell c).destroyed = true → (h'.cell c).destroyed = true)
    (hheld : ∀ d, (h.cell d).flags.collected = true → .release d ∈ held' → .release d ∈ held)
    (hperish : ts'.count (.perish c) =
      if (h'.cell c).flags.collected && !(h'.cell c).destroyed then 1 else 0)
    (hperish' : ∀ d, d ≠ c → ts'.count (.perish d) = ts.count (.perish d))
    (hbuf : h'.Buffered) (horder : Orderly h'.inRound ts')
    (href : ∀ t ∈ held', t.isReference = true)
    (hroot : (ts' ++ held').count (.release rootCell) = (ts ++ held).count (.release rootCell))
    (hcov : ∀ d, (Moment.mk h locks ts held).Source d → (h'.cell d).destroyed = false →
      h'.Reach (Moment.mk h' locks ts' held').Source d) :
    Sound sealed ⟨h', locks, ts', held'⟩ := by
  have hdues : (h'.cell c).dues = (h.cell c).dues := by simp only [Cell.dues, hbody, howner]
  have hdue : ∀ t, h'.due t = h.due t := fun t => by
    have := hd.due hc t
    rw [hdues] at this
    omega
  have hscope : h'.standing = h.standing := by simp only [Heap.standing, hd.scopes]
  have hclaims : ∀ t, (Moment.mk h' locks ts' held').claims t + (ts ++ held).count t =
      (Moment.mk h locks ts held).claims t + (ts' ++ held').count t := fun t => by
    simp only [Moment.claims, hdue, hscope, List.count_append]
    omega
  have hedges : ∀ d, (h'.cell d).edges = (h.cell d).edges := fun d => by
    by_cases hdc : d = c
    · subst hdc
      simp only [Cell.edges, hbody]
    · rw [hd.others d hdc]
  have hbody' : ∀ d, (h'.cell d).body = (h.cell d).body := fun d => by
    by_cases hdc : d = c
    · exact hdc ▸ hbody
    · rw [hd.others d hdc]
  have hcol' : ∀ d, (h'.cell d).flags.collected = (h.cell d).flags.collected := fun d => by
    by_cases hdc : d = c
    · exact hdc ▸ hcol
    · rw [hd.others d hdc]
  have hgrows := hd.grows_of_body hbody
  exact {
    shared := fun d hd' => by
      have hd' : (h'.cell d).flags.collected = false := hd'
      have h₁ := hs.shared d (hcol' d ▸ hd')
      have h₂ := hclaims (.release d)
      by_cases hdc : d = c
      · subst hdc
        have := hshared (hcol' d ▸ hd')
        simp only at h₁ ⊢
        omega
      · have := hrel d hdc
        rw [show (h'.cell d).shared = (h.cell d).shared by rw [hd.others d hdc]]
        simp only at h₁
        omega
    weak := fun d => by
      have h₁ := hs.weak d
      have h₂ := hclaims (.unpin d)
      by_cases hdc : d = c
      · subst hdc
        simp only at h₁ ⊢
        omega
      · have := hpin d hdc
        simp only [hd.others d hdc] at h₁ ⊢
        omega
    dead := fun d hd' => by
      by_cases hdc : d = c
      · exact hdc ▸ hdead (hdc ▸ hd')
      · simp only [hd.others d hdc] at hd' ⊢
        exact hs.dead d hd'
    live := fun d hd' hcd => by
      by_cases hdc : d = c
      · exact hdc ▸ hlive (hdc ▸ hd') (hdc ▸ hcd)
      · simp only [hd.others d hdc] at hd' hcd ⊢
        exact hs.live d hd' hcd
    collected := fun d hcd => by
      have hcd : (h.cell d).flags.collected = true := hcol' d ▸ hcd
      obtain ⟨hh, he⟩ := hs.collected d hcd
      refine ⟨fun hh' => hh ?_, fun x hx => ?_⟩
      · exact hh'.imp (hheld d hcd) fun h => hscope ▸ h
      · exact (hcol' x).trans (he x (hedges x ▸ hx))
    perish := fun d => by
      by_cases hdc : d = c
      · exact hdc ▸ hperish
      · simp only [hd.others d hdc, hperish' d hdc]
        exact hs.perish d
    buffered := hbuf
    orderly := horder
    held := href
    fits := fun d => by
      rw [show ((Moment.mk h' locks ts' held').heap.cell d).body = _ from hbody' d]
      exact (hs.fits d).grows hgrows
    scopes := fun l hl => (hs.scopes l (hd.scopes ▸ hl)).grows hgrows
    locks := fun d k => by
      rw [show ((Moment.mk h' locks ts' held').heap.cell d).body = _ from hbody' d]
      exact hs.locks d k
    root := by
      have h₁ := hs.root.1
      have := hclaims (.release rootCell)
      exact ⟨by omega, hgrows.label _ hs.root.2⟩
    covered := by
      -- the way to a cell that is there leads through no destroyed cell
      have key : ∀ d, h.Reach (Moment.mk h locks ts held).Source d → (h'.cell d).destroyed = false →
          h'.Reach (Moment.mk h' locks ts' held').Source d := by
        intro d hr
        induction hr with
        | source hsrc => exact hcov _ hsrc
        | @edge x d _ he ih =>
          intro _
          refine .edge (ih ?_) (hedges x ▸ he)
          rw [← Bool.not_eq_true]
          intro hx
          have hnone : (h.cell x).body.tasks = [] := by
            by_cases hxc : x = c
            · subst hxc
              rw [← hbody]
              exact (hdead hx).2
            · rw [hd.others x hxc] at hx
              exact (hs.dead x hx).2
          have := Cell.release_mem_tasks.2 he
          rw [hnone] at this
          cases this
      intro d hd' hcd
      have hd'' : (h.cell d).destroyed = false := by
        by_cases hdc : d = c
        · subst hdc
          rw [← Bool.not_eq_true]
          intro hx
          have hd' : (h'.cell d).destroyed = false := hd'
          rw [hkeep hx] at hd'
          cases hd'
        · exact hd.others d hdc ▸ hd'
      exact key d (hs.covered d hd'' (hcol' d ▸ hcd)) hd' }

/-- An exchange of references between the value of a cell, its owner, and the outside. -/
theorem Sound.exchange (hs : Sound sealed ⟨h, locks, ts, held⟩) (hd : h.Differs h' c) (hc : c < h.size)
    {b : Body} {w : Option CellId} (hcell : h'.cell c = { h.cell c with body := b, owner := w })
    (hcand : h'.candidates = h.candidates) (hround : h'.inRound = h.inRound)
    (hgrows : h.Grows h') (hfits : b.Fits sealed h' c)
    (hcount : ∀ t, (∀ d, t ≠ .disown d) →
      ((h.cell c).dues ++ ts ++ held).count t = ((h'.cell c).dues ++ ts' ++ held').count t)
    (hdead : (h.cell c).destroyed = true → b.tasks = [])
    (hheld : ∀ d, (h.cell d).flags.collected = true → .release d ∈ held' → .release d ∈ held)
    (hedges : ∀ d, (h.cell d).flags.collected = true → d ∈ (h'.cell c).edges →
      (h.cell c).flags.collected = true)
    (horder : Orderly h.inRound ts') (href : ∀ t ∈ held', t.isReference = true)
    (hlocks : ∀ k, k ∈ b.locks ↔ (c, k) ∈ locks')
    (hlocks' : ∀ d, d ≠ c → ∀ k, (d, k) ∈ locks' ↔ (d, k) ∈ locks)
    (hcov : ∀ d, (Moment.mk h locks ts held).Source d → (h.cell d).destroyed = false →
      h'.Reach (Moment.mk h' locks' ts' held').Source d)
    (hcov' : ∀ d ∈ (h.cell c).edges, d ∈ (h'.cell c).edges ∨
      (Moment.mk h' locks' ts' held').Source d) :
    Sound sealed ⟨h', locks', ts', held'⟩ := by
  have hscope : h'.standing = h.standing := by simp only [Heap.standing, hd.scopes]
  have hclaims : ∀ t, (∀ d, t ≠ .disown d) → (Moment.mk h' locks' ts' held').claims t =
      (Moment.mk h locks ts held).claims t := fun t ht => by
    have h₁ := hd.due hc t
    have h₂ := hcount t ht
    simp only [Moment.claims, hscope, List.count_append] at h₁ h₂ ⊢
    omega
  have hflags : ∀ d, (h'.cell d).flags = (h.cell d).flags ∧ (h'.cell d).shared = (h.cell d).shared ∧
      (h'.cell d).weak = (h.cell d).weak := fun d => by
    by_cases hdc : d = c
    · subst hdc
      rw [hcell]
      exact ⟨rfl, rfl, rfl⟩
    · rw [hd.others d hdc]
      exact ⟨rfl, rfl, rfl⟩
  have hdest : ∀ d, (h'.cell d).destroyed = (h.cell d).destroyed := fun d =>
    congrArg (·.destroyed) (hflags d).1
  have hcol : ∀ d, (h'.cell d).flags.collected = (h.cell d).flags.collected := fun d =>
    congrArg (·.collected) (hflags d).1
  exact {
    shared := fun d hcd => by
      rw [hclaims _ (by simp)]
      exact (hflags d).2.1.trans (hs.shared d (hcol d ▸ hcd))
    weak := fun d => by
      have := hs.weak d
      simp only [hclaims (.unpin d) (by simp), (hflags d).2.2, hdest, hcand] at this ⊢
      exact this
    dead := fun d hdd => by
      have hdd : (h.cell d).destroyed = true := hdest d ▸ hdd
      refine ⟨(hflags d).2.1.trans (hs.dead d hdd).1, ?_⟩
      by_cases hdc : d = c
      · subst hdc
        show (h'.cell d).body.tasks = []
        rw [hcell]
        exact hdead hdd
      · show (h'.cell d).body.tasks = []
        rw [hd.others d hdc]
        exact (hs.dead d hdd).2
    live := fun d hdd hcd => by
      have := hs.live d (hdest d ▸ hdd) (hcol d ▸ hcd)
      exact (hflags d).2.1 ▸ this
    collected := fun d hcd => by
      have hcd : (h.cell d).flags.collected = true := hcol d ▸ hcd
      obtain ⟨hh, he⟩ := hs.collected d hcd
      refine ⟨fun hh' => hh (hh'.imp (hheld d hcd) fun h => hscope ▸ h), fun x hx => ?_⟩
      refine (hcol x).trans ?_
      by_cases hxc : x = c
      · exact hxc ▸ hedges d hcd (hxc ▸ hx)
      · have hx : d ∈ (h'.cell x).edges := hx
        rw [hd.others x hxc] at hx
        exact he x hx
    perish := fun d => by
      have h₁ := hcount (.perish d) (by simp)
      have h₂ : ∀ x : Cell, x.dues.count (.perish d) = 0 := fun x => Cell.count_dues_perish x d
      have h₃ : ∀ l : List Task, (∀ t ∈ l, t.isReference = true) → l.count (.perish d) = 0 :=
        fun l hl => List.count_eq_zero.2 fun hm => Bool.false_ne_true (hl _ hm)
      have h₄ := hs.perish d
      simp only [List.count_append, h₂, h₃ held hs.held, h₃ held' href] at h₁
      simp only [hcol, hdest] at h₄ ⊢
      omega
    buffered := by
      obtain ⟨h₁, h₂, h₃⟩ := hs.buffered
      refine ⟨fun d => ?_, fun d => ?_, ?_⟩
      · show (h'.cell d).flags.colour = _
        rw [(hflags d).1]
        exact h₁ d
      · show d ∈ h'.candidates.toList ↔ _
        rw [hcand, (hflags d).1]
        exact h₂ d
      · show h'.candidates.toList.Nodup
        rw [hcand]
        exact h₃
    orderly := hround ▸ horder
    held := href
    fits := fun d => by
      by_cases hdc : d = c
      · subst hdc
        show (h'.cell d).body.Fits sealed h' d
        rw [hcell]
        exact hfits
      · show (h'.cell d).body.Fits sealed h' d
        rw [hd.others d hdc]
        exact (hs.fits d).grows hgrows
    scopes := fun l hl => (hs.scopes l (hd.scopes ▸ hl)).grows hgrows
    locks := fun d k => by
      by_cases hdc : d = c
      · subst hdc
        show k ∈ (h'.cell d).body.locks ↔ _
        rw [hcell]
        exact hlocks k
      · show k ∈ (h'.cell d).body.locks ↔ _
        rw [hd.others d hdc]
        exact (hs.locks d k).trans (hlocks' d hdc k).symm
    root := ⟨(hclaims _ (by simp)).trans hs.root.1, hgrows.label _ hs.root.2⟩
    covered := by
      have key : ∀ d, h.Reach (Moment.mk h locks ts held).Source d → (h.cell d).destroyed = false →
          h'.Reach (Moment.mk h' locks' ts' held').Source d := by
        intro d hr
        induction hr with
        | source hsrc => exact hcov _ hsrc
        | @edge x d _ he ih =>
          intro _
          have hx : (h.cell x).destroyed = false := by
            rw [← Bool.not_eq_true]
            intro hx
            rw [hs.destroyed_edges hx] at he
            cases he
          by_cases hxc : x = c
          · subst hxc
            exact (hcov' d he).elim (.edge (ih hx)) .source
          · exact .edge (ih hx) (by rwa [hd.others x hxc])
      intro d hdd hcd
      have hdd : (h.cell d).destroyed = false := hdest d ▸ hdd
      exact key d (hs.covered d hdd (hcol d ▸ hcd)) hdd }

theorem Sound.add {b : Body} {w : Option CellId}
    (hs : Sound sealed ⟨h, locks, ts, b.tasks ++ w.toList.map .unpin ++ held⟩) (hfits : b.Fits sealed h h.size)
    (hlocks : b.locks = []) :
    Sound sealed ⟨h.push (.fresh b w), locks, ts, .release h.size :: held⟩ := by
  have hdues : (Cell.fresh b w).dues = b.tasks ++ w.toList.map .unpin := rfl
  have hself := h.cell_push_self (.fresh b w)
  have hother : ∀ c, c ≠ h.size → (h.push (.fresh b w)).cell c = h.cell c := fun c hc => by
    rcases Nat.lt_or_gt_of_ne hc with hlt | hgt
    · exact h.cell_push_of_lt _ hlt
    · rw [h.cell_of_size_le (Nat.le_of_lt hgt),
        Heap.cell_of_size_le _ (by rw [h.size_push]; exact hgt)]
  have hvoid : h.cell h.size = .void := h.cell_of_size_le (Nat.le_refl _)
  have hclaims : ∀ t, (Moment.mk (h.push (.fresh b w)) locks ts (.release h.size :: held)).claims t =
      (Moment.mk h locks ts (b.tasks ++ w.toList.map .unpin ++ held)).claims t +
        (if t = .release h.size then 1 else 0) := fun t => by
    have hscope : (h.push (.fresh b w)).standing = h.standing := rfl
    simp only [Moment.claims, h.due_push, hdues, hscope, List.count_append, List.count_cons,
      beq_iff_eq, eq_comm (a := t)]
    omega
  -- nothing refers to a cell that was not there
  have hnone := hs.shared h.size (by rw [show (Moment.heap _).cell _ = _ from hvoid]; rfl)
  have hnone' := hs.weak h.size
  simp only [hvoid, Cell.void, Cell.destroyed] at hnone hnone'
  have hgrows : h.Grows (h.push (.fresh b w)) := {
    size := by rw [h.size_push]; exact Nat.le_succ _
    object := fun c hc => by rwa [Heap.IsObject, h.cell_push_of_lt _ hc.lt_size]
    label := fun c hc => ⟨by rw [h.size_push]; exact Nat.lt_succ_of_lt hc.1,
      by rw [h.cell_push_of_lt _ hc.1]; exact hc.2⟩ }
  have hsub : ∀ t ∈ held, t ∈ b.tasks ++ w.toList.map .unpin ++ held := fun t ht =>
    List.mem_append_right _ ht
  exact {
    shared := fun c hcol => by
      rw [hclaims]
      by_cases hc : c = h.size
      · subst hc
        rw [if_pos rfl, ← hnone]
        exact congrArg Cell.shared hself
      · rw [if_neg (by simpa using hc)]
        have hcol : ((h.push (.fresh b w)).cell c).flags.collected = false := hcol
        rw [hother c hc] at hcol
        exact (congrArg Cell.shared (hother c hc)).trans (hs.shared c hcol)
    weak := fun c => by
      rw [hclaims, if_neg (by simp)]
      by_cases hc : c = h.size
      · subst hc
        have : ((h.push (.fresh b w)).cell h.size).weak = 1 := congrArg Cell.weak hself
        have hd : ((h.push (.fresh b w)).cell h.size).destroyed = false :=
          congrArg Cell.destroyed hself
        have hcand : (h.push (.fresh b w)).candidates = h.candidates := rfl
        simp only [hd, this, hcand]
        simp only [if_true] at hnone'
        simp only [Bool.false_eq_true, if_false]
        omega
      · simp only [hother c hc]
        exact hs.weak c
    dead := fun c hd => by
      by_cases hc : c = h.size
      · subst hc
        rw [show (Moment.heap _).cell _ = _ from hself] at hd
        cases hd
      · simp only [hother c hc] at hd ⊢
        exact hs.dead c hd
    live := fun c hd hcol => by
      by_cases hc : c = h.size
      · subst hc
        simp only [hself]
        exact Nat.one_pos
      · simp only [hother c hc] at hd hcol ⊢
        exact hs.live c hd hcol
    collected := fun c hcol => by
      by_cases hc : c = h.size
      · subst hc
        rw [show (Moment.heap _).cell _ = _ from hself] at hcol
        cases hcol
      · simp only [hother c hc] at hcol
        obtain ⟨hh, he⟩ := hs.collected c hcol
        refine ⟨fun hh' => hh ?_, fun x hx => ?_⟩
        · exact hh'.imp_left fun hm => hsub _ ((List.mem_cons.1 hm).resolve_left
            fun he => hc (Task.release.inj he))
        · by_cases hx' : x = h.size
          · subst hx'
            rw [show (Moment.heap _).cell _ = _ from hself] at hx
            exact absurd (.inl (List.mem_append_left _ (List.mem_append_left _
              (Cell.release_mem_tasks.2 hx)))) hh
          · simp only [hother x hx'] at hx ⊢
            exact he x hx
    perish := fun c => by
      have := hs.perish c
      by_cases hc : c = h.size
      · subst hc
        simp only [hvoid] at this
        simp only [hself]
        exact this
      · simp only [hother c hc]
        exact this
    buffered := by
      obtain ⟨h₁, h₂, h₃⟩ := hs.buffered
      refine ⟨fun c => ?_, fun c => ?_, h₃⟩
      · by_cases hc : c = h.size
        · subst hc
          simp only [hself]
          rfl
        · simp only [hother c hc]
          exact h₁ c
      · by_cases hc : c = h.size
        · subst hc
          have := h₂ h.size
          simp only [hvoid] at this
          simp only [hself]
          exact this
        · simp only [hother c hc]
          exact h₂ c
    orderly := hs.orderly
    held := fun t ht => by
      rcases List.mem_cons.1 ht with rfl | ht
      · rfl
      · exact hs.held t (hsub t ht)
    fits := fun c => by
      by_cases hc : c = h.size
      · subst hc
        simp only [hself]
        exact hfits.grows hgrows
      · simp only [hother c hc]
        exact (hs.fits c).grows hgrows
    scopes := fun l hl => (hs.scopes l hl).grows hgrows
    locks := fun c k => by
      by_cases hc : c = h.size
      · subst hc
        have := hs.locks h.size k
        simp only [hvoid] at this
        simp only [hself]
        rw [← this, show (Cell.fresh b w).body.locks = [] from hlocks]
        simp [Cell.void, Body.locks, Label.blank, Label.ofMemo]
      · simp only [hother c hc]
        exact hs.locks c k
    root := by
      have hne : rootCell ≠ h.size := Nat.ne_of_lt hs.root.2.1
      refine ⟨?_, hgrows.label _ hs.root.2⟩
      rw [hclaims, if_neg (by simpa using hne)]
      exact hs.root.1
    covered := by
      let m' : Moment := ⟨h.push (.fresh b w), locks, ts, .release h.size :: held⟩
      have hnew : m'.heap.Reach m'.Source h.size := .source (.inl (.inl List.mem_cons_self))
      intro c hd hcol
      by_cases hc : c = h.size
      · rw [hc]
        exact hnew
      · simp only [hother c hc] at hd hcol
        refine (hs.covered c hd hcol).mono (fun d hsrc => ?_) fun x d hx he hx' => ?_
        · rcases hsrc with (hh | hh) | hsrc
          · rcases List.mem_append.1 hh with hh | hh
            · rcases List.mem_append.1 hh with hh | hh
              · refine .edge hnew ?_
                rw [show m'.heap.cell h.size = _ from hself]
                exact Cell.release_mem_tasks.1 hh
              · obtain ⟨_, -, he⟩ := List.mem_map.1 hh
                cases he
            · exact .source (.inl (.inl (List.mem_cons_of_mem _ hh)))
          · exact .source (.inl (.inr hh))
          · exact .source (.inr hsrc)
        · refine .edge hx' ?_
          have hxs : x ≠ h.size := fun hxe => by
            rw [hxe, show (Moment.heap _).cell _ = _ from hvoid] at he
            cases he
          rwa [show m'.heap.cell x = _ from hother x hxs] }

end LazyHeap
