import LazyHeap.Proofs.Session.Laws

/-!
Chains of labels in the course of a run. A label that is not frozen has no forward; once it has one, it keeps it for good,
and the forward is younger. So chains do not go round, and only grow at their ends: a label that may change stays at the
end of every chain that leads to it until it is frozen itself.
-/
namespace LazyHeap

variable {h h' : Heap} {rules : Rules} {m m' : Moment} {c d : CellId} {s : Label} {l e : Handle}

theorem Safe.course (hs : Safe {} m) (hrun : Course {} m m') : Safe {} m' := (hs.steps hrun.lawless).1

/-! ### Forwards -/

/-- Only frozen labels have a forward. -/
def Heap.Forwarded (h : Heap) : Prop :=
  ∀ c s, (h.cell c).body = .label s → s.frozen = false → s.forward = .empty

theorem Heap.Forwarded.initial : Heap.initial.Forwarded := fun c s hs _ => by
  cases (Heap.body_initial c).symm.trans hs
  rfl

private theorem Sound.forward_empty {sealed : CellId → Prop} (hs : Sound sealed m) (hb : (m.heap.cell c).body = .label s)
    (hlast : m.heap.size ≤ c + 1) : s.forward = .empty := by
  have hfits : s.Fits sealed m.heap c := by
    have := hs.fits c
    rwa [hb] at this
  cases hf : s.forward with
  | empty => rfl
  | root => exact absurd hf hfits.rootless
  | counted d =>
    have hlater : c + 1 ≤ d := hfits.later d hf
    exact absurd (hfits.forward d hf).2.1 (Nat.not_lt.2 (Nat.le_trans hlast hlater))

private theorem Sound.forward_destroyed {sealed : CellId → Prop} (hs : Sound sealed m)
    (hb : (m.heap.cell c).body = .label s) (hd : (m.heap.cell c).destroyed = true) : s.forward = .empty := by
  have htasks := (hs.dead c hd).2
  have hfits := hs.fits c
  rw [hb] at htasks hfits
  cases hf : s.forward with
  | empty => rfl
  | root => exact absurd hf hfits.rootless
  | counted d => simp [Body.tasks, hf, Handle.tasks, Handle.counted?] at htasks

/-- A label that a step added has no forward, unless its cell is the last one. -/
private theorem Heap.Effect.forward_new (he : h.Effect rules h') (hc : h.size ≤ c) (hb : (h'.cell c).body = .label s) :
    s.forward = .empty ∨ h'.size ≤ c + 1 := by
  have hnone : ∀ {k : Heap}, k.size = h.size → (k.cell c).body = .label s → s.forward = .empty := fun hsize hb => by
    rw [Heap.cell_of_size_le _ (hsize.le.trans hc)] at hb
    cases hb
    rfl
  rcases he with hw | @⟨b, w, -, -, -⟩ | ⟨-, -, -⟩ | ⟨-, -⟩ | ⟨-, -⟩
  · obtain ⟨s₀, hb₀, rfl | rfl⟩ := hw.label hb
    · exact .inl (hnone rfl hb₀)
    · exact .inl rfl
  · exact .inr ((h.size_push _).le.trans (Nat.succ_le_succ hc))
  all_goals exact .inl (hnone (h.size_update _ _) hb)

private theorem Advance.forwarded (hstep : Advance rules m m') (hs : Firm rules.sealed m) (hf : m.heap.Forwarded) :
    m'.heap.Forwarded := fun c s' hb' hopen => by
  obtain ⟨hs', hgrows⟩ := hstep.firm hs
  have he := hstep.effect hs
  rcases Nat.lt_or_ge c m.heap.size with hlt | hge
  · cases hd : (m'.heap.cell c).destroyed with
    | true => exact hs'.toSound.forward_destroyed hb' hd
    | false =>
      cases hb : (m.heap.cell c).body with
      | object o =>
        obtain ⟨o', ho'⟩ := hgrows.object c ⟨o, hb⟩
        rw [hb'] at ho'
        cases ho'
      | label s =>
        obtain ⟨s₁, hb₁, heq | hev⟩ := he.label hb hlt hd
        · rw [hb'] at hb₁
          cases hb₁
          exact hf c s' (heq ▸ hb) hopen
        · rw [hb'] at hb₁
          cases hb₁
          have hopen₀ : s.frozen = false := Bool.eq_false_iff.2 fun hfz => by
            rw [hev.frozen hfz] at hopen
            cases hopen
          rcases hev.forward with hfw | ⟨-, hfz⟩
          · exact hfw.trans (hf c s hb hopen₀)
          · rw [hfz] at hopen₀
            cases hopen₀
  · exact (he.forward_new hge hb').elim id (hs'.toSound.forward_empty hb')

namespace Course

theorem forwarded (hrun : Course rules m m') (hs : Firm rules.sealed m) (hf : m.heap.Forwarded) : m'.heap.Forwarded := by
  induction hrun with
  | refl => exact hf
  | tail hrun hstep ih =>
    obtain ⟨opened, hadv⟩ := hstep
    exact hadv.forwarded (firm hrun hs).1 ih

theorem forward (hrun : Course rules m m') (hs : Firm rules.sealed m) (hb : (m.heap.cell c).body = .label s)
    (hf : s.forward ≠ .empty) (hlt : c < m.heap.size) (hd : (m'.heap.cell c).destroyed = false) :
    ∃ s', (m'.heap.cell c).body = .label s' ∧ s'.forward = s.forward ∧ (s.frozen = true → s'.frozen = true) := by
  induction hrun with
  | refl => exact ⟨s, hb, rfl, id⟩
  | @tail m₁ m₂ hrun hstep ih =>
    obtain ⟨hs₁, hg₁⟩ := firm hrun hs
    have hlt₁ := Nat.lt_of_lt_of_le hlt hg₁.size
    obtain ⟨s₁, hb₁, hfw₁, hfz₁⟩ := ih (destroyed (.single hstep) hs₁ hlt₁ hd)
    obtain ⟨opened, hadv⟩ := hstep
    obtain ⟨s₂, hb₂, rfl | hev⟩ := (hadv.effect hs₁).label hb₁ hlt₁ hd
    · exact ⟨s₂, hb₂, hfw₁, hfz₁⟩
    · rcases hev.forward with hfw | ⟨hempty, -⟩
      · exact ⟨s₂, hb₂, hfw.trans hfw₁, fun hfz => hev.frozen (hfz₁ hfz)⟩
      · exact absurd (hfw₁.symm.trans hempty) hf

end Course

/-! ### Chains -/

/-- The labels on a chain: the one at its start, and those to which the forwards that exist lead from there. -/
inductive Handle.OnChain (h : Heap) (l : Handle) : Handle → Prop where
  | start : OnChain h l l
  | next {d : Handle} {c : CellId} : OnChain h l d → d.cell? = some c → (h.label c).frozen = true →
    (h.label c).forward ≠ .empty → OnChain h l (h.label c).forward

/-- Changes go through the root, through the empty handle, or through a label that is not frozen. -/
def Handle.Resting (h : Heap) (l : Handle) : Prop := ∀ c, l = .counted c → (h.label c).frozen = false

/-- A handle that is somewhere in use: its label is reached from what is held. -/
structure Moment.Uses (m : Moment) (l : Handle) : Prop where
  fits : l.Fits (fun _ => False) m.heap
  reached : ∀ c, l.cell? = some c → m.heap.Reach (m.heap.Held m.held) c

/-- Nothing is pending, and objects whose locks are held are held without labels. -/
structure Moment.Quiet (m : Moment) : Prop where
  pending : m.pending = []
  locks : ∀ x ∈ m.locks, Heap.Via (fun _ => False) m.heap m.held x.1

namespace Handle

theorem OnChain.leads {d : Handle} (hd : l.OnChain h d) (hl : l.Leads h e) : d.Leads h e := by
  induction hd with
  | start => exact hl
  | next _ hc hf hne ih =>
    cases ih with
    | stop hstop => exact absurd (hstop _ hc hf) hne
    | next hc' _ _ hnext =>
      rw [hc] at hc'
      cases hc'
      exact hnext

theorem OnChain.leads_of {d : Handle} (hd : l.OnChain h d) (he : d.Leads h e) : l.Leads h e := by
  induction hd with
  | start => exact he
  | next _ hc hf hne ih => exact ih (.next hc hf hne he)

theorem Leads.onChain (hl : l.Leads h e) : l.OnChain h e := by
  induction hl with
  | stop _ => exact .start
  | @next l e c hc hf hne _ ih =>
    clear * - ih hc hf hne
    induction ih with
    | start => exact .next .start hc hf hne
    | next _ hc' hf' hne' ih => exact .next ih hc' hf' hne'

end Handle

theorem Heap.body_of_forward (hf : (h.label c).forward ≠ .empty) : ∃ s, (h.cell c).body = .label s ∧ h.label c = s := by
  unfold Heap.label Cell.label? at *
  split at hf
  · exact absurd rfl hf
  · next s hs => exact ⟨s, hs, by simp⟩

theorem Safe.root_last (hs : Safe rules m) : (m.heap.label rootCell).forward = .empty := by
  by_contra hne
  obtain ⟨s, hb, hlabel⟩ := Heap.body_of_forward hne
  rw [hlabel] at hne
  have hfits := hs.fits rootCell
  rw [hb] at hfits
  cases hf : s.forward with
  | empty => exact hne hf
  | root => exact hfits.rootless hf
  | counted d =>
    have := Heap.mem_edges_of_forward hb hf
    rw [hs.abides.root] at this
    cases this

namespace Moment.Uses

theorem forward (hu : m.Uses l) (hs : Safe {} m) (hc : l.cell? = some c) : m.Uses (m.heap.label c).forward where
  fits := by
    by_cases hf : (m.heap.label c).forward = .empty
    · rw [hf]
      exact Handle.fits_empty
    · obtain ⟨s, hb, hlabel⟩ := Heap.body_of_forward hf
      have hfits := hs.fits c
      rw [hb] at hfits
      exact hlabel ▸ hfits.forward
  reached _ hd := Handle.reach_label (hu.reached c hc) hd

theorem onChain {d : Handle} (hu : m.Uses l) (hs : Safe {} m) (hd : l.OnChain m.heap d) : m.Uses d := by
  induction hd with
  | start => exact hu
  | next _ hc _ _ ih => exact ih.forward hs hc

end Moment.Uses

namespace Handle

theorem Resting.leads (he : e.Resting m.heap) (hs : Safe {} m) : e.Leads m.heap e := by
  refine .stop fun c hc hf => ?_
  cases e with
  | empty => cases hc
  | root =>
    cases hc
    exact hs.root_last
  | counted _ =>
    cases hc
    rw [he c rfl] at hf
    cases hf

theorem OnChain.course {d : Handle} (hd : l.OnChain m.heap d) (hrun : Course {} m m') (hs : Safe {} m) (hs' : Safe {} m')
    (hu : m'.Uses l) : l.OnChain m'.heap d := by
  induction hd with
  | start => exact .start
  | @next d c _ hc hf hne ih =>
    obtain ⟨s, hb, hlabel⟩ := Heap.body_of_forward hne
    rw [hlabel] at hf hne ⊢
    have hlt : c < m.heap.size := Heap.lt_size_of_cell_ne fun hv => by
      rw [hv] at hb
      cases hb
      cases hf
    have hlive := hs'.live_of_reach ((hu.onChain hs' ih).reached c hc)
    obtain ⟨s', hb', hforward, hfrozen⟩ := hrun.forward hs.toFirm hb hne hlt hlive.destroyed
    have hlabel' := m'.heap.label_eq hb'
    have hnext := ih.next hc (by rw [hlabel']; exact hfrozen hf) (by rwa [hlabel', hforward])
    rwa [hlabel', hforward] at hnext

end Handle

/-! ### Following chains -/

namespace Moment.Quiet

theorem holding (hq : m.Quiet) (hs : Safe {} m) : Holding (.sparing fun _ => False) {} m.locks m.held m.heap [] := by
  obtain ⟨h, locks, ts, held⟩ := m
  obtain ⟨rfl, hlocks⟩ := hq
  exact ⟨hs, hlocks⟩

theorem existingForward (hq : m.Quiet) (hs : Safe {} m) (hu : m.Uses l) :
    ∃ e k, l.existingForward m.heap = .ok (e, k) ∧ l.Leads m.heap e ∧ k.size = m.heap.size := by
  obtain ⟨e, k, hrun, hlead, -, hr⟩ :=
    (Handle.existingForward_reached (E := fun _ => False) (hq.holding hs).calm hu.fits hu.reached).exists_ok
  exact ⟨e, k, hrun, hlead, Heap.Kept.size hr.keeps⟩

/-- Following a chain for change ends, and whoever does it holds a label that may change, to which the chain leads. -/
theorem getForward (hq : m.Quiet) (hs : Safe {} m) (hu : m.Uses l) :
    ∃ e k, l.getForward m.heap = .ok (e, k) ∧ e.Resting k ∧ l.Forwards m.held m.heap k e ∧
      Course {} m ⟨k, m.locks, [], e.tasks ++ m.held⟩ ∧ Quiet ⟨k, m.locks, [], e.tasks ++ m.held⟩ := by
  have hh := hq.holding hs
  obtain ⟨e, k, hrun, hfits, hfor, hr⟩ := (Handle.getForward_reached (E := fun _ => False) (fun _ => id) hh hu.fits hu.reached
    fun _ _ _ => ⟨id, id⟩).exists_ok
  refine ⟨e, k, hrun, fun c hc => hfor.unfrozen hu.reached c hc, hfor, ?_, rfl, fun x hx => ?_⟩
  · obtain ⟨h, locks, ts, held⟩ := m
    obtain ⟨rfl, -⟩ := hq
    exact .of_same hr.steps
  · exact ((hh.run hr).within x hx).subset fun _ ht => List.mem_append_right _ ht

/-- Whoever has followed a chain for change comes to the same label again, for as long as the chain is in use and the label
may change. -/
theorem getForward_settles (hq : m.Quiet) (hs : Safe {} m) (hu : m.Uses l) :
    ∃ e k, l.getForward m.heap = .ok (e, k) ∧ e.Resting k ∧ Course {} m ⟨k, m.locks, [], e.tasks ++ m.held⟩ ∧
      Quiet ⟨k, m.locks, [], e.tasks ++ m.held⟩ ∧
      ∀ m', Course {} ⟨k, m.locks, [], e.tasks ++ m.held⟩ m' → m'.Uses l → e.Resting m'.heap → l.Leads m'.heap e := by
  obtain ⟨e, k, hrun, hrest, hfor, hcourse, hquiet⟩ := hq.getForward hs hu
  refine ⟨e, k, hrun, hrest, hcourse, hquiet, fun m' hm' hu' hrest' => ?_⟩
  have hs' := hs.course (hcourse.trans hm')
  suffices hon : l.OnChain m'.heap e from hon.leads_of (Handle.Resting.leads hrest' hs')
  cases hfor with
  | stop hlead _ _ => exact hlead.onChain.course (hcourse.trans hm') hs hs' hu'
  | @fork c s _ hlead hforked =>
    -- the chain up to the fork was there before, and the new forward stays
    have hon := hlead.onChain.course (hcourse.trans hm') hs hs' hu'
    have hlt : c < k.size := Heap.lt_size_of_cell_ne fun hv => by
      have hbad := hforked.old
      rw [hv] at hbad
      exact nomatch congrArg Label.forward (Body.label.inj hbad)
    have hlive := hs'.live_of_reach ((hu'.onChain hs' hon).reached c rfl)
    obtain ⟨s', hb', hforward, hfrozen⟩ :=
      hm'.forward (hs.course hcourse).toFirm hforked.old nofun hlt hlive.destroyed
    have hlabel := m'.heap.label_eq hb'
    have hnext := hon.next rfl (by rw [hlabel]; exact hfrozen hforked.frozen) (by rw [hlabel, hforward]; nofun)
    rwa [hlabel, hforward] at hnext

theorem getForward_again (hq : m.Quiet) (hs : Safe {} m) (hu : m.Uses l) (hl : l.Leads m.heap e) (hrest : e.Resting m.heap) :
    ∃ k₁ k₂, l.getForward m.heap = .ok (e, k₁) ∧ k₁.size = m.heap.size ∧
      l.existingForward m.heap = .ok (e, k₂) ∧ k₂.size = m.heap.size := by
  obtain ⟨e₁, k₁, hrun₁, -, hfor, -, -⟩ := hq.getForward hs hu
  obtain ⟨e₂, k₂, hrun₂, hlead, hsize₂⟩ := hq.existingForward hs hu
  cases hlead.unique hl
  have ⟨he, hsize₁⟩ : e₁ = e ∧ k₁.size = m.heap.size := by
    cases hfor with
    | stop hlead _ hkept => exact ⟨hlead.unique hl, hkept.size⟩
    | fork hlead hforked =>
      cases hlead.unique hl
      have hfrozen := hforked.frozen
      rw [← m.heap.label_eq hforked.body, hrest _ rfl] at hfrozen
      cases hfrozen
  exact ⟨k₁, k₂, he ▸ hrun₁, hsize₁, hrun₂, hsize₂⟩

end Moment.Quiet

/-! ### Runs -/

namespace Situation

variable {x : Situation}

theorem At.quiet {careful apart closed : Bool} (ha : x.At (.initial careful apart closed)) : x.moment.Quiet :=
  ⟨rfl, (ha.holding (fun _ => False) fun _ => False).within⟩

/-- In every run in which no header is changed by hand, at any moment: a label that is not frozen has no forward, and a
forward is a younger label. A forward stays for as long as the label is there. When nothing is pending, the forwards that
exist are followed to the same end from every label on a chain; and following a chain for change always comes to the root,
to the empty handle or to a label that is not frozen. Until that label is frozen, it is found again in both ways, and
nothing is made. -/
theorem forwards_of_runs (hrun : Runs HeadersKept initial x) (hm : Course {} x.moment m) :
    (∀ c s, (m.heap.cell c).body = .label s →
      (s.frozen = false → s.forward = .empty) ∧ s.forward ≠ .root ∧ ∀ d, s.forward = .counted d → c < d) ∧
    (∀ m', Course {} m m' → ∀ c s, (m.heap.cell c).body = .label s → s.forward ≠ .empty →
      (m'.heap.cell c).destroyed = false → ∃ s', (m'.heap.cell c).body = .label s' ∧ s'.forward = s.forward) ∧
    (m.Quiet → ∀ l, m.Uses l →
      (∃ e k, l.existingForward m.heap = .ok (e, k) ∧
        ∀ d, l.OnChain m.heap d → ∃ k', d.existingForward m.heap = .ok (e, k')) ∧
      ∃ e k, l.getForward m.heap = .ok (e, k) ∧ e.Resting k ∧ Course {} m ⟨k, m.locks, [], e.tasks ++ m.held⟩ ∧
        Moment.Quiet ⟨k, m.locks, [], e.tasks ++ m.held⟩ ∧
        ∀ m', Course {} ⟨k, m.locks, [], e.tasks ++ m.held⟩ m' → m'.Quiet → m'.Uses l → e.Resting m'.heap →
          ∃ k₁ k₂, l.getForward m'.heap = .ok (e, k₁) ∧ k₁.size = m'.heap.size ∧
            l.existingForward m'.heap = .ok (e, k₂) ∧ k₂.size = m'.heap.size) := by
  have hstart : Course {} ⟨.initial, [], [], []⟩ m := (at_headersKept hrun).course_moment.trans hm
  have hinitial : Safe {} ⟨.initial, [], [], []⟩ := .initial fun _ => id
  have hs := hinitial.course hstart
  refine ⟨fun c s hb => ⟨hstart.forwarded hinitial.toFirm .initial c s hb, ?_⟩, fun m' hm' c s hb hne hd => ?_,
    fun hq l hu => ⟨?_, ?_⟩⟩
  · have hfits := hs.fits c
    rw [hb] at hfits
    exact ⟨hfits.rootless, hfits.later⟩
  · have hlt : c < m.heap.size := Heap.lt_size_of_cell_ne fun hv => by
      rw [hv] at hb
      cases hb
      exact hne rfl
    obtain ⟨s', hb', hforward, -⟩ := hm'.forward hs.toFirm hb hne hlt hd
    exact ⟨s', hb', hforward⟩
  · obtain ⟨e, k, hfollow, hlead, -⟩ := hq.existingForward hs hu
    refine ⟨e, k, hfollow, fun d hd => ?_⟩
    obtain ⟨e', k', hfollow', hlead', -⟩ := hq.existingForward hs (hu.onChain hs hd)
    cases hlead'.unique (hd.leads hlead)
    exact ⟨k', hfollow'⟩
  · obtain ⟨e, k, hfollow, hrest, hcourse, hquiet, hagain⟩ := hq.getForward_settles hs hu
    exact ⟨e, k, hfollow, hrest, hcourse, hquiet, fun m' hm' hq' hu' hrest' =>
      hq'.getForward_again (hs.course (hcourse.trans hm')) hu' (hagain m' hm' hu' hrest') hrest'⟩

/-- A label that was frozen. -/
def frozenLabel : List (Op × Args) :=
  [(.label .spawn, { Args.blank with dest := some "l" }), (.label .freeze, { Args.blank with a := some "l" })]

theorem forwards_of_frozenLabel : ∃ x, initial.after frozenLabel = some x ∧ (x.session.heap.label 1).frozen = true ∧
    ∃ e k, (Handle.counted 1).getForward x.session.heap = .ok (e, k) ∧ e = .counted 2 ∧ e.Resting k ∧
      ∀ m', Course {} ⟨k, x.moment.locks, [], e.tasks ++ x.moment.held⟩ m' → m'.Quiet → m'.Uses (.counted 1) →
        e.Resting m'.heap → ∃ k₁, (Handle.counted 1).getForward m'.heap = .ok (e, k₁) ∧ k₁.size = m'.heap.size := by
  obtain ⟨x, hx, h⟩ : ∃ x, initial.after frozenLabel = some x ∧ ((x.session.heap.label 1).frozen,
      (x.session.heap.cell 1).label?.isSome, x.session.heap.size, x.moment.held,
      ((Handle.counted 1).getForward x.session.heap).toOption.map (·.1)) =
        (true, true, 2, [.release 1], some (.counted 2)) :=
    Option.map_eq_some_iff.1 (by cbv)
  simp only [Prod.mk.injEq] at h
  obtain ⟨hfrozen, hlabel, hsize, hheld, hend⟩ := h
  have hruns : Runs HeadersKept initial x := runs_of_after rfl hx (by simp [frozenLabel])
  have hu : x.moment.Uses (.counted 1) := by
    refine ⟨fun c hc => ?_, fun c hc => ?_⟩ <;> cases hc
    · refine ⟨⟨by decide, id⟩, hsize ▸ by decide, ?_⟩
      obtain ⟨s, hs⟩ := Option.isSome_iff_exists.1 hlabel
      exact ⟨s, Cell.body_of_label? hs⟩
    · exact .source (.inl (hheld ▸ List.mem_singleton.2 rfl))
  obtain ⟨-, e, k, hrun, hrest, -, -, hagain⟩ := (forwards_of_runs hruns .refl).2.2 (at_headersKept hruns).quiet _ hu
  rw [show x.moment.heap = x.session.heap from rfl] at hrun
  rw [hrun] at hend
  refine ⟨x, hx, hfrozen, e, k, hrun, Option.some.inj hend, hrest, fun m' hm' hq' hu' hrest' => ?_⟩
  obtain ⟨k₁, -, hrun₁, hsize₁, -⟩ := hagain m' hm' hq' hu' hrest'
  exact ⟨k₁, hrun₁, hsize₁⟩

end Situation

end LazyHeap
