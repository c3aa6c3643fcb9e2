import LazyHeap.Proofs.Fields
import LazyHeap.Proofs.Lasting
import LazyHeap.Proofs.Walking
import LazyHeap.Forward

/-!
Labels and their chains. A fork starts with the entries whose sources are still there; a frozen label gets its
forward once. Going along a chain gives up one handle and takes another, and comes to an end because every label
forwards to a younger one.
-/
namespace LazyHeap

/-! ### Labels with one part replaced -/

def Heap.putLabel (h : Heap) (c : CellId) (s : Label) : Heap := h.update c (·.mapLabel fun _ => s)

variable {manner : Manner} {kept : CellId → Prop} {rules : Rules} {locks locks' : List Lock}
variable {frame ins outs : List Task} {h : Heap} {c : CellId} {s t : Label} {l : Handle} {m : Memo} {E : Fault → Prop}

namespace Heap

theorem putLabel_differs (h : Heap) (c : CellId) (s : Label) : h.Differs (h.putLabel c s) c :=
  .update h c _

theorem putLabel_self (hb : (h.cell c).body = .label s) (hc : c < h.size) (t : Label) :
    (h.putLabel c t).cell c = { h.cell c with body := .label t } := by
  rw [putLabel, h.cell_update_self _ hc, Cell.mapLabel, hb]

theorem update_label_eq (hb : (h.cell c).body = .label s) (f : Label → Label) :
    h.update c (·.mapLabel f) = h.putLabel c (f s) :=
  h.update_congr c (by simp only [Cell.mapLabel, hb])

theorem putLabel_keeps (hb : (h.cell c).body = .label s) (hc : c < h.size) (t : Label) (hold : List Task)
    (hfree : ¬ kept c) : h.Keeps (.sparing kept) hold (h.putLabel c t) where
  cell d _ hd := by
    have hdc : d ≠ c := fun he => by
      rcases hd with ⟨o, ho⟩ | hd
      · rw [he, hb] at ho
        cases ho
      · exact hfree (he ▸ hd)
    rw [(putLabel_differs h c t).others d hdc]
  grows := (putLabel_differs h c t).grows (fun ⟨o, ho⟩ => by
    rw [hb] at ho
    cases ho) fun _ => ⟨t, by rw [putLabel_self hb hc]⟩
  scopes := rfl
  nextSerial := Nat.le_refl _

end Heap

theorem Holding.putLabel (hh : Holding manner rules locks frame h ins)
    (hb : (h.cell c).body = .label s) (hr : h.Reach (h.Held frame) c) (hev : s.Evolves h rules c t)
    (hfits : (Body.label t).Fits rules.sealed h c)
    (hroot : c = rootCell → ∀ u ∈ (Body.label t).tasks, u ∈ (Body.label s).tasks)
    (hperm : ((Body.label s).tasks ++ ins).Perm ((Body.label t).tasks ++ outs))
    (hlock : ∀ x, x ∈ locks' ↔ if x = (c, none) then t.locked = true else x ∈ locks) :
    Advance rules ⟨h, locks, [], ins ++ frame⟩ ⟨h.putLabel c t, locks', [], outs ++ frame⟩ := by
  have heq : h.putLabel c t = h.update c fun x => { x with body := .label t, owner := (h.cell c).owner } :=
    h.update_congr c (by simp only [Cell.mapLabel, hb])
  rw [heq]
  have hlocks := hh.safe.locks c
  simp only [hb] at hlocks
  refine .rewrite ⟨hr, by rw [hb]; exact hev, hfits, by rw [hb]; exact hroot, fun _ => .inl, fun _ => rfl, ?_,
    fun k => ?_, fun d hd k => ?_⟩
  · simp only [Cell.dues, hb, List.perm_iff_count, List.count_append] at hperm ⊢
    intro u
    have := hperm u
    omega
  · have hnone : ∀ u : Label, k ≠ none → k ∉ (Body.label u).locks := fun u hk hm => by
      simp only [Body.locks] at hm
      split at hm
      · exact hk (List.mem_singleton.1 hm)
      · cases hm
    rw [hlock]
    by_cases hk : k = none
    · subst hk
      simp [Body.locks]
    · rw [if_neg fun he => hk (Prod.mk.inj he).2, ← hlocks]
      exact iff_of_false (hnone t hk) (hnone s hk)
  · rw [hlock, if_neg fun he => hd (Prod.mk.inj he).1]

theorem Holding.locks_same (hh : Holding manner rules locks frame h ins)
    (hb : (h.cell c).body = .label s) (ht : t.locked = s.locked) (x : Lock) :
    x ∈ locks ↔ if x = (c, none) then t.locked = true else x ∈ locks := by
  by_cases hx : x = (c, none)
  · subst hx
    have := hh.safe.locks c none
    simp only [hb] at this
    rw [if_pos rfl, ht, ← this]
    cases hl : s.locked <;> simp [Body.locks, hl]
  · rw [if_neg hx]

theorem Holding.fits_label (hh : Holding manner rules locks frame h ins)
    (hb : (h.cell c).body = .label s) : s.Fits rules.sealed h c := by
  have := hh.safe.fits c
  rwa [show (Moment.heap _).cell c = h.cell c from rfl, hb] at this

theorem Heap.mem_edges_of_forward {d : CellId} (hb : (h.cell c).body = .label s)
    (hf : s.forward = .counted d) : d ∈ (h.cell c).edges := by
  rw [Cell.edges, hb]
  exact List.mem_append_right _ (by simp [hf, Handle.counted?])

/-! ### Forks -/

theorem Holding.live_held (hh : Holding manner rules locks frame h ins) (hc : h.Held frame c) : h.Live c :=
  hh.safe.live_of_held (hc.imp_left (List.mem_append_right _))

private theorem memo_ready (hh : Holding manner rules locks frame h ins) (hc : h.Held frame c)
    (hb : (h.cell c).body = .label s) : ∀ e ∈ s.memo.entries,
      h.Noted e.1 ∧ h.IsObject e.2 ∧ h.Live e.2 := fun e he => by
  obtain ⟨h₁, h₂, -⟩ := (hh.fits_label hb).entries e he
  exact ⟨⟨h₁, hh.safe.weak_pos (.inr (Sound.claims_pos_of_due (Heap.mem_dues_of_key hb he)))⟩, h₂,
    hh.safe.live_of_edge (hh.live_held hc) (Heap.mem_edges_of_copy hb (List.mem_map_of_mem he))⟩

theorem Memo.retain_spec (hh : Holding .calm rules locks frame h ins) (hc : h.Held frame c)
    (hb : (h.cell c).body = .label s) :
    Ends E (s.memo.retain h) fun _ h' => Run .calm rules locks frame h ins h' (s.memo.tasks ++ ins) := by
  have hp : ins.Perm ([] ++ ins) := .refl _
  refine (forM_spec (f := fun e : CellId × CellId => do retainWeak e.1; LazyHeap.retain e.2)
    (s := fun _ => []) (t := fun e => [.release e.2, .unpin e.1])
    (fun done e rest k hd hk hhk => ?_) ((hh.focus hp).perm (by simp))).imp fun _ h' hr => ?_
  · -- the label is as it was, since it is held
    have hk : h.Kept (ins ++ frame) k := hk
    have hck : h.Held (ins ++ frame) c := hc.imp_left (List.mem_append_right _)
    have hframe : k.Held ((done.flatMap (fun e => [Task.release e.2, .unpin e.1]) ++ rest.flatMap fun _ => []) ++
        (ins ++ frame)) c := (hk.held.2 hck).imp_left (List.mem_append_right _)
    obtain ⟨h₁, h₂, hlive⟩ := memo_ready hhk hframe ((hk.body (.source hck)).trans hb) e
      (hd ▸ List.mem_append_right _ List.mem_cons_self)
    refine .bind (retainWeak_spec hhk h₁.weak) fun _ k' ⟨hr, hgains⟩ => ?_
    exact (LazyHeap.retain_spec (hhk.run hr) (hgains.live _ hlive) ((hhk.run hr).object_ne_root
      (hr.keeps.grows.object e.2 h₂))).imp fun _ k'' hr' => hr.trans hr'.1
  · have hr' : Run .calm rules locks frame h (s.memo.entries.flatMap (fun _ => []) ++ ins) h'
        (s.memo.tasks ++ ins) := hr.widen
    have hnil : s.memo.entries.flatMap (fun _ => ([] : List Task)) = [] := by simp
    rwa [hnil] at hr'

theorem Heap.putLabel_body (hb : (h.cell c).body = .label s) (hc : c < h.size) :
    ((h.putLabel c t).cell c).body = .label t := by rw [putLabel_self hb hc]

theorem Label.tasks_ofMemo (m : Memo) : (Body.label (.ofMemo m)).tasks = m.tasks := List.append_nil _

/-- No cell is exempt. -/
def Rules.Settled (rules : Rules) : Prop := ∀ c, ¬ rules.opened c

theorem Holding.frozen_copies (hh : Holding manner rules locks frame h ins) (hb : (h.cell c).body = .label s)
    (hshut : rules.apart = true → s.frozen = true ∧ ¬ rules.opened c) (hap : rules.apart = true) :
    ∀ v ∈ s.memo.copies, (h.cell v).frozen = true :=
  (hh.safe.abides.apart hap).shut c s hb (hshut hap).1 (hshut hap).2

private theorem starts_ofMemo (hh : Holding manner rules locks frame h ins) (hb : (h.cell c).body = .label s)
    (hshut : rules.apart = true → s.frozen = true ∧ ¬ rules.opened c) :
    (Body.label (.ofMemo s.memo)).Starts h rules where
  careful hcar := by
    have := hh.safe.abides.keys hcar c
    rw [show (Moment.heap _).cell c = h.cell c from rfl, hb] at this
    exact this
  apart hap l hl := by
    have hcopies := hh.frozen_copies hb hshut hap
    cases hl
    exact hcopies
  closed hcl l hl v hv ho := by
    cases hl
    exact of_decide_eq_false ((hh.safe.abides.tiered hcl).copies c s hb v hv ho)

private theorem fits_ofMemo {d : CellId} (hh : Holding manner rules locks frame h ins)
    (hb : (h.cell c).body = .label s) : (Body.label (.ofMemo s.memo)).Fits rules.sealed h d := by
  have hfits := hh.fits_label hb
  refine ⟨hfits.entries, hfits.distinct, Handle.fits_empty, nofun, nofun, fun hw => ?_⟩
  have hw : decide (0 < s.memo.size) = false := hw
  exact List.length_eq_zero_iff.1 (Nat.eq_zero_of_not_pos (of_decide_eq_false hw))

/-- A fork is a new label with the entries whose sources are still there; the others leave the memo. -/
theorem fork_spec (hh : Holding (.sparing kept) rules locks frame h []) (hb : (h.cell c).body = .label s)
    (hc : h.Held frame c) (hfree : ¬ kept c) (hsealed : ¬ rules.sealed c) (hsteady : ¬ rules.steady c)
    (hshut : rules.apart = true → s.frozen = true ∧ ¬ rules.opened c) :
    Ends E (fork c h) fun l h' => ∃ d, l = .counted d ∧ d = h.size ∧ h'.size = h.size + 1 ∧
      (∀ x, d ∉ (h'.cell x).edges) ∧ l.Fits rules.sealed h' ∧ (h'.cell d).body = .label (.ofMemo (h.current s.memo)) ∧
      (h'.cell c).body = .label { s with memo := h.current s.memo } ∧
      Run (.sparing kept) rules locks frame h [] h' l.tasks := by
  unfold fork
  refine .get_bind ?_
  rw [h.label_eq hb]
  simp only [List.partition_eq_filter_filter]
  have hlive := hh.live_held hc
  have hlt := hlive.lt_size
  have hfits := hh.fits_label hb
  let alive := h.current s.memo
  let dead : Memo := ⟨s.memo.entries.filter (not ∘ fun e => (h.cell e.1).alive)⟩
  let s' : Label := { s with memo := alive }
  have hmem : ∀ e ∈ alive.entries, e ∈ s.memo.entries := fun e he => (List.mem_filter.1 he).1
  have hfits' : (Body.label s').Fits rules.sealed h c :=
    ⟨fun e he => hfits.entries e (hmem e he), hfits.distinct.sublist (List.filter_sublist.map _), hfits.forward,
      hfits.rootless, hfits.later, fun hw => List.eq_nil_iff_forall_not_mem.2 fun e he => by
        have := hmem e he
        rw [hfits.written hw] at this
        cases this⟩
  -- the entries without a source leave the memo
  have hperm : ((Body.label s).tasks ++ []).Perm ((Body.label s').tasks ++ dead.tasks) := by
    have hperm : (alive.entries ++ dead.entries).Perm s.memo.entries := List.filter_append_perm _ _
    have htasks := hperm.flatMap_right fun e => [Task.release e.2, .unpin e.1]
    rw [List.flatMap_append] at htasks
    simp only [Body.tasks, Memo.tasks, s', List.append_nil, List.perm_iff_count, List.count_append]
      at htasks ⊢
    intro u
    have := htasks u
    omega
  have hev : s.Evolves h rules c s' := by
    refine ⟨fun e he => ?_, fun e he => .inl (hmem e he), id, fun _ => .inl, .inl rfl, hsealed,
      fun hst => absurd hst hsteady⟩
    cases ha : (h.cell e.1).alive with
    | true => exact .inl (List.mem_filter.2 ⟨he, ha⟩)
    | false => exact .inr rfl
  have hstep : Advance rules ⟨h, locks, [], [] ++ frame⟩ ⟨h.putLabel c s', locks, [], dead.tasks ++ frame⟩ :=
    hh.putLabel hb (.source hc) hev hfits'
      (fun _ u hu => by
        have := hperm.mem_iff.2 (List.mem_append_left _ hu)
        rwa [List.append_nil] at this)
      hperm (hh.locks_same hb rfl)
  have hr₁ : Run (.sparing kept) rules locks frame h [] (h.putLabel c s') dead.tasks :=
    .of_step hstep (h.putLabel_keeps hb hlt s' frame hfree)
  have hb₁ : ((h.putLabel c s').cell c).body = .label s' := h.putLabel_body hb hlt
  have hh₁ := hh.run hr₁
  have hheld : ∀ {k : Heap}, k.scopes = h.scopes → k.Held frame c := fun hk =>
    hc.imp_right fun hs => by rwa [Heap.standing, hk]
  have hupdate : h.update c (·.mapLabel fun l => { l with memo := ⟨s.memo.entries.filter
      fun e => (h.cell e.1).alive⟩ }) = h.putLabel c s' :=
    h.update_label_eq hb fun l => { l with memo := alive }
  refine .updateCell_bind ?_
  rw [hupdate]
  refine .bind (Memo.retain_spec hh₁.calm (hheld rfl) hb₁) fun _ h₂ hr₂ => ?_
  have hreach : (h.putLabel c s').Within .calm frame c := .held (hheld rfl)
  have hb₂ : (h₂.cell c).body = .label s' := (Heap.Kept.body hr₂.keeps hreach).trans hb₁
  have hr₁₂ := hr₁.trans hr₂.relax
  have hswap : (alive.tasks ++ dead.tasks).Perm (dead.tasks ++ alive.tasks) := List.perm_append_comm
  refine .bind (settle_spec ((hh.run hr₁₂).focus hswap).calm) fun _ h₃ hr₃ => ?_
  have hr := hr₁₂.andDrop hswap hr₃.relax
  have hh₃ := hh.run hr
  have hreach₂ : h₂.Within .calm (alive.tasks ++ frame) c :=
    .held ((hheld (hr₁₂.keeps.scopes)).imp_left (List.mem_append_right _))
  have hb₃ : (h₃.cell c).body = .label s' := (Heap.Kept.body hr₃.keeps hreach₂).trans hb₂
  have hsize : h₃.size = h.size :=
    ((Heap.Kept.size hr₃.keeps).trans (Heap.Kept.size hr₂.keeps)).trans (h.size_update c _)
  refine (newLabel_spec (s := .ofMemo alive) ((Label.tasks_ofMemo alive).symm ▸ hh₃.calm)
    (fits_ofMemo hh₃ hb₃) rfl (starts_ofMemo hh₃ hb₃ hshut)).imp ?_
  rintro l h' ⟨hl, hf, hadds, hr'⟩
  have hlt₃ : c < h₃.size := (hh₃.live_held (hheld hr.keeps.scopes)).lt_size
  refine ⟨h₃.size, hl, hsize, by rw [hadds.size, hsize], ?_, hf, by rw [hadds.new]; rfl, ?_, hr.trans ?_⟩
  · -- the only count of the new label is in hand
    have hs' := (hh₃.safe.steps (Label.tasks_ofMemo alive ▸ hr'.steps)).1.toSound
    exact (hs'.lone_of_unique (by rw [hadds.new]; exact Nat.le_refl 1) (by rw [hadds.new]; rfl)).2
      (.inl (List.mem_append_left _ (hl ▸ List.mem_cons_self)))
  · exact (Cell.body_of_core (hadds.old c hlt₃)).trans hb₃
  · rw [Label.tasks_ofMemo] at hr'
    exact hr'.spare fun _ _ => True.intro

/-- A copy of a label has the same memo, whatever became of the sources. -/
theorem copyLabel_spec (hh : Holding .adding rules locks frame h []) (hb : (h.cell c).body = .label s)
    (hc : h.Held frame c) (hshut : rules.apart = true → s.frozen = true ∧ ¬ rules.opened c) :
    Ends E (copyLabel c h) fun l h' => l.Fits rules.sealed h' ∧ Run .adding rules locks frame h [] h' l.tasks := by
  unfold copyLabel
  refine .get_bind ?_
  rw [h.label_eq hb]
  refine .bind (Memo.retain_spec hh.calm hc hb) fun _ h₁ hr₁ => ?_
  rw [List.append_nil] at hr₁
  have hh₁ := hh.run hr₁.relax
  have hb₁ : (h₁.cell c).body = .label s :=
    (Heap.Kept.body hr₁.keeps (.source hc)).trans hb
  refine (newLabel_spec (s := .ofMemo s.memo) ((Label.tasks_ofMemo s.memo).symm ▸ hh₁.calm)
    (fits_ofMemo hh₁ hb₁) rfl (starts_ofMemo hh₁ hb₁ hshut)).imp fun l h' ⟨_, hf, _, hr'⟩ => ⟨hf, ?_⟩
  rw [Label.tasks_ofMemo] at hr'
  exact hr₁.relax.trans hr'

/-! ### Chains -/

/-- Where the forwards that exist lead. -/
inductive Handle.Leads (h : Heap) : Handle → Handle → Prop where
  | stop {l : Handle} : (∀ c, l.cell? = some c → (h.label c).frozen = true →
      (h.label c).forward = .empty) → Leads h l l
  | next {l l' : Handle} {c : CellId} : l.cell? = some c → (h.label c).frozen = true →
      (h.label c).forward ≠ .empty → Leads h (h.label c).forward l' → Leads h l l'

namespace Handle

variable {h' : Heap} {hold : List Task} {l' : Handle}

theorem held_of_cell? (hc : l.cell? = some c) : h.Held (l.tasks ++ frame) c := by
  cases l with
  | empty => cases hc
  | root =>
    cases hc
    exact .inr List.mem_cons_self
  | counted d =>
    cases hc
    exact .inl List.mem_cons_self

theorem reach_forward {d : CellId} (hb : (h.cell c).body = .label s)
    (hr : h.Reach (h.Held hold) c) (hd : s.forward.cell? = some d) : h.Reach (h.Held hold) d := by
  cases hf : s.forward with
  | empty =>
    rw [hf] at hd
    cases hd
  | root =>
    rw [hf] at hd
    cases hd
    exact .source (.inr List.mem_cons_self)
  | counted e =>
    rw [hf] at hd
    cases hd
    exact .edge hr (Heap.mem_edges_of_forward hb hf)

theorem reach_label (hr : h.Reach (h.Held hold) c) {d : CellId}
    (hd : (h.label c).forward.cell? = some d) : h.Reach (h.Held hold) d := by
  cases hb : (h.cell c).body with
  | object o =>
    rw [Heap.label, Cell.label?, hb] at hd
    cases hd
  | label s =>
    rw [h.label_eq hb] at hd
    exact reach_forward hb hr hd

theorem Leads.of_kept (hk : h.Kept hold h') (hl : l.Leads h' l')
    (hr : ∀ c, l.cell? = some c → h.Reach (h.Held hold) c) : l.Leads h l' := by
  have hsame : ∀ c, h.Reach (h.Held hold) c → h'.label c = h.label c := fun c hc => by
    have : (h'.cell c).body = (h.cell c).body := hk.body hc
    simp only [Heap.label, Cell.label?, this]
  induction hl with
  | stop hs =>
    refine .stop fun c hc hf => ?_
    rw [← hsame c (hr c hc)] at hf ⊢
    exact hs c hc hf
  | @next l l' c hc hf hne _ ih =>
    have hsc := hsame c (hr c hc)
    rw [hsc] at hf hne ih
    exact .next hc hf hne (ih fun d hd => reach_label (hr c hc) hd)

theorem Leads.reach (hl : l.Leads h l') (hr : ∀ c, l.cell? = some c → h.Reach (h.Held hold) c) :
    ∀ c, l'.cell? = some c → h.Reach (h.Held hold) c := by
  induction hl with
  | stop _ => exact hr
  | next hc _ _ _ ih => exact ih fun d hd => reach_label (hr _ hc) hd

theorem label_of_cell? (hh : Holding manner rules locks frame h ins) (hl : l.Fits rules.sealed h)
    (hc : l.cell? = some c) : c < h.size ∧ ∃ s, (h.cell c).body = .label s := by
  cases l with
  | empty => cases hc
  | root =>
    cases hc
    exact hh.safe.root.2
  | counted d =>
    cases hc
    exact (hl c rfl).2

private theorem fuel_step {a z n : Nat} (haz : a < z) (hn : z - a + 1 ≤ n + 1) :
    (∀ b, a < b → z - b + 1 ≤ n) ∧ 0 < n := ⟨fun b hb => by omega, by omega⟩

theorem existingLoop_spec {n : Nat} : ∀ {l : Handle} {h : Heap},
    Holding .calm rules locks frame h l.tasks → l.Fits rules.sealed h → 0 < n →
    (∀ c, l.cell? = some c → h.size - c + 1 ≤ n) →
    Ends E (existingLoop n l h) fun l' h' => l.Leads h l' ∧ l'.Fits rules.sealed h' ∧
      Run .calm rules locks frame h l.tasks h' l'.tasks := by
  induction n with
  | zero => exact fun _ _ hn => absurd hn (Nat.lt_irrefl 0)
  | succ n ih =>
    intro l h hh hl _ hfuel
    unfold existingLoop
    cases hc : l.cell? with
    | none => exact ⟨.stop fun c hc' => by simp [hc] at hc', hl, .refl _ _ _ _⟩
    | some c =>
      simp only
      obtain ⟨hlt, s, hb⟩ := label_of_cell? hh hl hc
      -- while the handle is held, its label and all it leads to is kept
      have hp : l.tasks.Perm ([] ++ l.tasks) := .refl _
      have hh₀ : Holding .calm rules locks (l.tasks ++ frame) h [] := hh.focus hp
      have hu : l.Usable rules.sealed h := hh.usable hl fun _ ht => List.mem_append_left _ ht
      have hheld : ∀ {k : Heap}, k.Held (l.tasks ++ frame) c := held_of_cell? hc
      refine .bind (clone_spec hh₀ hu) fun b h₁ ⟨hl₁, hr₁, _⟩ => ?_
      rw [hl₁]
      rw [List.append_nil] at hr₁
      have hh₁ := hh₀.run hr₁
      have hb₁ : (h₁.cell c).body = .label s := (Heap.Kept.body hr₁.keeps (.source hheld)).trans hb
      refine .get_bind ?_
      rw [h₁.label_eq hb₁]
      by_cases hgo : s.frozen = true ∧ s.forward ≠ .empty
      · have hcond : (s.frozen && decide (s.forward ≠ .empty)) = true := by simpa using hgo
        rw [if_pos hcond]
        have hfits := hh₁.fits_label hb₁
        have hlive : h₁.Live c := hh₁.safe.live_of_held <| hheld.imp_left (List.mem_append_right _)
        refine .bind (clone_spec hh₁ ⟨hfits.forward, fun d hd => hh₁.safe.live_of_edge hlive
          (Heap.mem_edges_of_forward hb₁ hd)⟩) fun next h₂ ⟨hl₂, hr₂, _⟩ => ?_
        rw [hl₂]
        have hr₁₂ := hr₁.trans hr₂
        have hswap : (s.forward.tasks ++ l.tasks).Perm (l.tasks ++ s.forward.tasks) :=
          List.perm_append_comm
        refine .bind (drop_spec ((hh₀.run hr₁₂).focus hswap)) fun _ h₃ hr₃ => ?_
        have hr₁₃ := hr₁₂.andDrop hswap hr₃
        -- now the handle itself is given up
        have hr' : Run .calm rules locks frame h l.tasks h₃ (s.forward.tasks ++ l.tasks) := hr₁₃.widen
        refine .bind (drop_spec ((hh.run hr').focus hswap)) fun _ h₄ hr₄ => ?_
        have hr := hr'.andDrop hswap hr₄
        have hsize : h₄.size = h.size := Heap.Kept.size hr.keeps
        have hf₄ : s.forward.Fits rules.sealed h₄ := (hh.fits_label hb).forward.grows hr.keeps.grows
        refine (ih (hh.run hr) hf₄ ?_ fun d hd => ?_).imp fun l' h' ⟨hlead, hf', hr'⟩ =>
          ⟨?_, hf', hr.trans hr'⟩
        · exact (fuel_step hlt (hfuel c hc)).2
        · have hcd : c < d := by
            cases hfw : s.forward with
            | empty => exact absurd hfw hgo.2
            | root => exact absurd hfw hfits.rootless
            | counted e =>
              rw [hfw] at hd
              cases hd
              exact hfits.later d hfw
          rw [hsize]
          exact (fuel_step hlt (hfuel c hc)).1 d hcd
        · have hreach : ∀ d, s.forward.cell? = some d → h.Reach (h.Held (l.tasks ++ frame)) d :=
            fun d hd => reach_forward hb (.source hheld) hd
          have hlabel := h.label_eq hb
          refine .next hc (by rw [hlabel]; exact hgo.1) (by rw [hlabel]; exact hgo.2) ?_
          rw [hlabel]
          refine (hlead.of_kept hr₄.keeps fun d hd => ?_).of_kept hr₁₃.keeps hreach
          exact .source (held_of_cell? hd)
      · have hcond : (s.frozen && decide (s.forward ≠ .empty)) = false := by
          rw [← Bool.not_eq_true]
          simpa using hgo
        rw [hcond]
        refine .bind (drop_spec hh₁) fun _ h₂ hr₂ => ⟨.stop fun d hd hf => ?_, ?_, ?_⟩
        · rw [hc] at hd
          cases hd
          rw [h.label_eq hb] at hf ⊢
          by_contra hne
          exact hgo ⟨hf, hne⟩
        · exact hl.grows (hr₁.trans hr₂).keeps.grows
        · exact (hr₁.trans hr₂).widen

theorem reach_of_held (hsub : ∀ t ∈ l.tasks, t ∈ frame) (hc : l.cell? = some c) : h.Reach (h.Held frame) c :=
  .source <| (held_of_cell? hc : h.Held (_ ++ frame) c).imp_left fun hm => (List.mem_append.1 hm).elim (hsub _) id

theorem usable_of_reach (hh : Holding .calm rules locks frame h []) (hl : l.Fits rules.sealed h)
    (hreach : ∀ c, l.cell? = some c → h.Reach (h.Held frame) c) : l.Usable rules.sealed h :=
  ⟨hl, fun c hc => hh.safe.live_of_reach (hreach c (hc ▸ rfl))⟩

theorem existingForward_reached (hh : Holding .calm rules locks frame h [])
    (hl : l.Fits rules.sealed h) (hreach : ∀ c, l.cell? = some c → h.Reach (h.Held frame) c) :
    Ends E (l.existingForward h) fun l' h' => l.Leads h l' ∧ l'.Fits rules.sealed h' ∧
      Run .calm rules locks frame h [] h' l'.tasks := by
  unfold existingForward
  refine .bind (clone_spec hh (usable_of_reach hh hl hreach)) fun _ h₁ ⟨hl₁, hr₁, _⟩ => .get_bind ?_
  subst hl₁
  rw [List.append_nil] at hr₁
  refine (existingLoop_spec (hh.run hr₁) (hl.grows hr₁.keeps.grows) (Nat.succ_pos _) fun c _ => by
    omega).imp fun l' h' ⟨hlead, hf, hr₂⟩ => ⟨?_, hf, hr₁.trans hr₂⟩
  exact hlead.of_kept hr₁.keeps hreach

theorem existingForward_spec (hh : Holding .calm rules locks frame h [])
    (hl : l.Fits rules.sealed h) (hsub : ∀ t ∈ l.tasks, t ∈ frame) :
    Ends E (l.existingForward h) fun l' h' => l.Leads h l' ∧ l'.Fits rules.sealed h' ∧
      Run .calm rules locks frame h [] h' l'.tasks :=
  existingForward_reached hh hl fun _ => reach_of_held hsub

end Handle

/-- A frozen label without a forward gets one. -/
theorem initForward_spec {d : CellId} (hh : Holding (.sparing kept) rules locks frame h [.release d])
    (hb : (h.cell c).body = .label s) (hc : h.Held frame c) (hfree : ¬ kept c) (hsealed : ¬ rules.sealed c)
    (hsteady : ¬ rules.steady c) (hroot : c ≠ rootCell) (hfrozen : s.frozen = true)
    (hempty : s.forward = .empty) (hcd : c < d) (hd : (Handle.counted d).Fits rules.sealed h) :
    Ends E (initForward c (.counted d) h) fun _ h' => h' = h.putLabel c { s with forward := .counted d } ∧
      Run (.sparing kept) rules locks frame h [.release d] h' [] := by
  unfold initForward
  refine .get_bind ?_
  rw [h.label_eq hb, if_pos hempty]
  have hlt := (hh.live_held hc).lt_size
  have hfits := hh.fits_label hb
  have heq := h.update_label_eq hb fun l => { l with forward := .counted d }
  refine .of_ok (congrArg (fun k => Except.ok ((⟨⟩ : PUnit), k)) heq) ⟨rfl, .of_step
    (hh.putLabel hb (.source hc) ⟨fun _ he => .inl he, fun _ he => .inl he, id, fun _ => .inl,
      .inr ⟨hempty, hfrozen⟩, hsealed, fun hst => absurd hst hsteady⟩
      ⟨hfits.entries, hfits.distinct, hd, nofun, fun e he => ?_, hfits.written⟩ (fun he => absurd he hroot) ?_ (hh.locks_same hb rfl))
    (h.putLabel_keeps hb hlt _ frame hfree)⟩
  · cases he
    exact hcd
  · simp [Body.tasks, hempty, Handle.tasks, Handle.counted?]

/-- The labels that may change when a chain is followed for change: the one at its end, and a new one. -/
def Handle.Tip (h : Heap) (l : Handle) (c : CellId) : Prop := l.Leads h (.counted c) ∨ c = h.size

namespace Heap

/-- A memo that has the entries of what is held, and perhaps others. -/
structure Inherits (hold : List Task) (h : Heap) (m m' : Memo) : Prop where
  entries : ∀ e ∈ m'.entries, e ∈ m.entries
  get? : ∀ o, h.Reach (h.Held hold) o → m'.get? o = m.get? o

/-- A frozen label without a forward got one: a new label with the same entries, as far as their sources are there. -/
structure Forked (hold : List Task) (h k : Heap) (c : CellId) (s : Label) (m : Memo) : Prop where
  body : (h.cell c).body = .label s
  frozen : s.frozen = true
  last : s.forward = .empty
  size : k.size = h.size + 1
  old : (k.cell c).body = .label { s with memo := m, forward := .counted h.size }
  new : (k.cell h.size).body = .label (.ofMemo m)
  inherits : h.Inherits hold s.memo m
  keeps : ∀ e ∈ s.memo.entries, e ∈ m.entries ∨ (k.cell e.1).destroyed = true
  spares : h.Spares (· ≠ c) hold k
  leaves : h.Leaves (· ≠ c) k

variable {h h' k : Heap} {hold : List Task} {c : CellId} {s : Label} {m : Memo}

namespace Forked

theorem reach {d : CellId} (hf : h.Forked hold k c s m) (hd : Via (· ≠ c) h hold d) : k.Reach (k.Held hold) d :=
  (hf.spares.via hd).reach

theorem of_kept (hk : h.Kept hold h') (hc : h.Reach (h.Held hold) c) (hf : h'.Forked hold k c s m) :
    h.Forked hold k c s m where
  body := (hk.body hc).symm.trans hf.body
  frozen := hf.frozen
  last := hf.last
  size := hk.size ▸ hf.size
  old := hk.size ▸ hf.old
  new := hk.size ▸ hf.new
  inherits := ⟨hf.inherits.entries, fun o ho => hf.inherits.get? o (hk.reach ho)⟩
  keeps := hf.keeps
  spares := hk.spares.trans hf.spares
  leaves := hk.leaves.trans hf.leaves

theorem subset {hold' : List Task} (hf : h.Forked hold' k c s m) (hsub : ∀ t ∈ hold, t ∈ hold') :
    h.Forked hold k c s m :=
  { hf with
    inherits := ⟨hf.inherits.entries, fun o ho => hf.inherits.get? o (ho.subset fun _ => Or.imp_left (hsub _))⟩
    spares := hf.spares.subset hsub }

theorem keep (hf : h.Forked hold k c s m) (hk : k.Kept hold h') (hc : h.Reach (h.Held hold) c) :
    h.Forked hold h' c s m := by
  have hck := hf.reach hc.via_self
  have hedge : h.size ∈ (k.cell c).edges := mem_edges_of_forward hf.old rfl
  exact ⟨hf.body, hf.frozen, hf.last, hk.size.trans hf.size, (hk.body hck).trans hf.old,
    (hk.body (.edge hck hedge)).trans hf.new, hf.inherits,
    fun e he => (hf.keeps e he).imp_right (hk.fades.destroyed e.1), hf.spares.trans hk.spares,
    hf.leaves.trans hk.leaves⟩

/-- A walk does not tell the fork from the label before, as long as it starts at an object that is held. -/
theorem alike (hf : h.Forked hold k c s m) (hh : Holding manner rules locks frame h ins) (hc : h.Reach (h.Held hold) c) :
    h.Alike s.memo k m fun o => h.IsObject o ∧ h.Reach (h.Held hold) o where
  frozen o ho := by
    refine hf.leaves.frozen (fun he => ?_) ho.1.lt_size
    obtain ⟨x, hx⟩ := ho.1
    rw [he, hf.body] at hx
    cases hx
  entries o ho := hf.inherits.get? o ho.2
  copies o p _ hget := ⟨((hh.fits_label hf.body).entries _ (Memo.mem_of_get? hget)).2.1,
    .edge hc (mem_edges_of_copy hf.body (List.mem_map_of_mem (Memo.mem_of_get? hget)))⟩

end Forked

end Heap

namespace Handle

/-- What following a chain for change comes to: its end, if that may still change, or else a fork of it. -/
inductive Forwards (hold : List Task) (h k : Heap) (l : Handle) : Handle → Prop where
  | stop {l' : Handle} : l.Leads h l' → (∀ c, l' = .counted c → (h.label c).frozen = false) → h.Kept hold k →
    Forwards hold h k l l'
  | fork {c : CellId} {s : Label} {m : Memo} : l.Leads h (.counted c) → h.Forked hold k c s m →
    Forwards hold h k l (.counted h.size)

theorem Leads.fits (hl : l.Leads h l') (hh : Holding manner rules locks frame h ins) (hf : l.Fits rules.sealed h) :
    l'.Fits rules.sealed h := by
  induction hl with
  | stop _ => exact hf
  | next hc _ _ _ ih =>
    obtain ⟨-, s, hs⟩ := label_of_cell? hh hf hc
    rw [h.label_eq hs] at ih
    exact ih (hh.fits_label hs).forward

theorem Tip.unsealed (ht : l.Tip h c) (hh : Holding manner rules locks frame h ins) (hf : l.Fits rules.sealed h) :
    ¬ rules.sealed c := fun hc => by
  rcases ht with hl | rfl
  · exact (hl.fits hh hf c rfl).1.2 hc
  · exact Nat.lt_irrefl _ (hh.safe.sealed _ hc)

theorem Leads.eq_of_unfrozen {l₁ : Handle} (hl : l.Leads h l₁) (hun : ∀ c, l.cell? = some c → (h.label c).frozen = false) :
    l₁ = l := by
  cases hl with
  | stop _ => rfl
  | next hc hf _ _ =>
    rw [hun _ hc] at hf
    cases hf

theorem Leads.unique {l₁ l₂ : Handle} (h₁ : l.Leads h l₁) (h₂ : l.Leads h l₂) : l₁ = l₂ := by
  induction h₁ with
  | stop hstop =>
    cases h₂ with
    | stop _ => rfl
    | next hc hf hne _ => exact absurd (hstop _ hc hf) hne
  | next hc hf hne _ ih =>
    cases h₂ with
    | stop hstop => exact absurd (hstop _ hc hf) hne
    | next hc' _ _ hlead =>
      rw [hc] at hc'
      cases hc'
      exact ih hlead

namespace Forwards

theorem unfrozen (hf : l.Forwards frame h k l') (hr : ∀ c, l.cell? = some c → h.Reach (h.Held frame) c) :
    ∀ c, l' = .counted c → (k.label c).frozen = false := by
  rintro c rfl
  cases hf with
  | stop hl hun hk =>
    have hbody := hk.body (hl.reach hr c rfl)
    have := hun c rfl
    rwa [Heap.label, Cell.label?, ← hbody] at this
  | fork _ hf => rw [k.label_eq hf.new]; rfl

theorem tip (hf : l.Forwards frame h k (.counted c)) : l.Tip h c := by
  cases hf with
  | stop hl _ _ => exact .inl hl
  | fork _ _ => exact .inr rfl

theorem spares {kept : CellId → Prop} (hf : l.Forwards frame h k l') (hfree : ∀ c, l.Tip h c → ¬ kept c) : h.Spares kept frame k := by
  cases hf with
  | stop _ _ hk => exact hk.spares
  | fork hl hf => exact hf.spares.relax fun d hd he => hfree _ (.inl hl) (he ▸ hd)

theorem leaves (hf : l.Forwards frame h k l') : h.Leaves (fun d => ¬ l.Leads h (.counted d)) k := by
  cases hf with
  | stop _ _ hk => exact hk.leaves
  | fork hl hf => exact hf.leaves.subset fun d hd he => hd (he ▸ hl)

theorem sees {o r : CellId} (hf : l.Forwards hold h k l') (hh : Holding manner rules locks frame h ins)
    (hs : k.Sees l' o r) (hr : ∀ c, l.cell? = some c → h.Reach (h.Held hold) c) (hobj : h.IsObject o)
    (ho : h.Reach (h.Held hold) o) : ∃ e, l.Leads h e ∧ h.Sees e o r := by
  cases hf with
  | stop hl _ hk => exact ⟨l', hl, hs.of_kept hk fun c hc => hl.reach hr c (hc ▸ rfl)⟩
  | @fork c s m hl hf =>
    have hs : k.Stands (k.label h.size).memo o r := hs
    rw [k.label_eq hf.new] at hs
    refine ⟨.counted c, hl, ?_⟩
    show h.Stands (h.label c).memo o r
    rw [h.label_eq hf.body]
    exact (hf.alike hh (hl.reach hr c rfl)).symm.stands hs ⟨hobj, ho⟩

theorem of_kept (hk : h.Kept frame h') (hr : ∀ c, l.cell? = some c → h.Reach (h.Held frame) c)
    (hf : l.Forwards frame h' k l') : l.Forwards frame h k l' := by
  cases hf with
  | stop hl hun hk' =>
    have hl' := hl.of_kept hk hr
    refine .stop hl' (fun c hc => ?_) (hk.trans hk')
    have hbody := hk.body (hl'.reach hr c (hc ▸ rfl))
    have := hun c hc
    rwa [Heap.label, Cell.label?, hbody] at this
  | fork hl hf =>
    have hl' := hl.of_kept hk hr
    rw [hk.size]
    exact .fork hl' (hf.of_kept hk (hl'.reach hr _ rfl))

end Forwards

private theorem forward_made {β : Type} {Q : β → Heap → Prop} {next : PUnit → HeapM β}
    (hh : Holding (.sparing kept) rules locks frame h [])
    (hb : (h.cell c).body = .label s) (hc : h.Held frame c) (hl : (Handle.counted c).Fits rules.sealed h)
    (hfree : s.forward = .empty → ¬ kept c ∧ ¬ rules.steady c) (hset : rules.Settled) (hfrozen : s.frozen = true)
    (hnext : ∀ k d, Run (.sparing kept) rules locks frame h [] k [] → c < d →
      (s.forward = .counted d ∧ k = h ∨ d = h.size ∧ ∃ m, h.Forked frame k c s m) → Ends E (next ⟨⟩ k) Q) :
    Ends E ((if s.forward = .empty then fork c >>= fun l => initForward c l >>= next else next ⟨⟩) h) Q := by
  obtain ⟨⟨hroot, hsealed⟩, hlt, -⟩ := hl c rfl
  by_cases hempty : s.forward = .empty
  · simp only [hempty, if_true]
    obtain ⟨hkept, hsteady⟩ := hfree hempty
    -- everything but the label itself may be kept
    have hh' : Holding (.sparing (· ≠ c)) rules locks frame h [] :=
      ⟨hh.safe, fun x hx => Heap.Via.relax (hh.within x hx) fun d hd he => hkept (he ▸ hd)⟩
    have hself : ¬ c ≠ c := fun hne => hne rfl
    have hfixed := hh'.leaving (· ≠ c) (· ≠ c)
    refine .bind ((fork_spec hh' hb hc hself hsealed hsteady fun _ => ⟨hfrozen, hset c⟩).and
      (fork_spec hfixed hb hc hself hsealed hself fun _ => ⟨hfrozen, hset c⟩)) ?_
    rintro _ h₁ ⟨⟨d, rfl, rfl, hsize, -, hf, hbd, hb₁, hr₁⟩, _, -, -, -, -, -, -, -, hr₁'⟩
    have hheld : h₁.Held frame c := hc.imp_right fun hs => by rwa [Heap.standing, hr₁.keeps.scopes]
    have hh₁ := hh'.run hr₁
    refine .bind ((initForward_spec hh₁ hb₁ hheld hself hsealed hsteady hroot hfrozen hempty hlt hf).and
      (initForward_spec (hfixed.run hr₁') hb₁ hheld hself hsealed hself hroot hfrozen hempty hlt hf)) ?_
    rintro _ h₂ ⟨⟨rfl, hr₂⟩, -, hr₂'⟩
    have hr := hr₁.trans hr₂
    have hleaves := (Course.of_same (hr₁'.trans hr₂').steps).leaves hfixed.safe.toFirm
    refine hnext _ _ (hr.spare fun d hd he => hkept (he ▸ hd)) hlt (.inr ⟨rfl, h.current s.memo, hb, hfrozen, hempty, ?_,
      h₁.putLabel_body hb₁ (hh₁.live_held hheld).lt_size, ?_, ⟨fun e he => (List.mem_filter.1 he).1, fun o ho => ?_⟩,
      fun e he => ?_, hr.keeps, hleaves⟩)
    · exact (h₁.size_update c _).trans hsize
    · rw [(h₁.putLabel_differs c _).others _ (Nat.ne_of_gt hlt), hbd]
    · exact Heap.get?_current s.memo (hh.safe.live_of_reach ho).alive
    · -- an entry is lost with the value of its source
      cases hd : (h.cell e.1).destroyed with
      | true => exact .inr (hleaves.destroyed e.1 ((hh.fits_label hb).entries e he).1.lt_size hd)
      | false => exact .inl (Heap.mem_current.2 ⟨he, (hh.safe.live_of_not_destroyed rfl hd).alive⟩)
  · simp only [hempty, if_false]
    have hfits := hh.fits_label hb
    cases hf : s.forward with
    | empty => exact absurd hf hempty
    | root => exact absurd hf hfits.rootless
    | counted d => exact hnext h d (.refl _ _ _ _) (hfits.later d hf) (.inl ⟨hf, rfl⟩)

theorem leads_root (hh : Holding manner rules locks frame h ins) : Leads h .root .root :=
  .stop fun c hc _ => by
    cases hc
    obtain ⟨-, s, hs⟩ := hh.safe.root.2
    have hs : (h.cell rootCell).body = .label s := hs
    rw [h.label_eq hs]
    cases hf : s.forward with
    | empty => rfl
    | root => exact absurd hf (hh.fits_label hs).rootless
    | counted d =>
      have := Heap.mem_edges_of_forward hs hf
      rw [hh.safe.abides.root] at this
      cases this

/-- Following a chain that is held for change ends at a label that is not frozen, and changes the last label of the chain
at most. -/
theorem forwardLoop_spec {n : Nat} (hset : rules.Settled) : ∀ {l : Handle} {h : Heap},
    Holding (.sparing kept) rules locks frame h l.tasks → l.Fits rules.sealed h → 0 < n →
    (∀ c, l.cell? = some c → h.Reach (h.Held frame) c) →
    (∀ c, l.Leads h (.counted c) → (h.label c).frozen = true → ¬ kept c ∧ ¬ rules.steady c) →
    (∀ c, l = .counted c → (h.label c).frozen = true → h.size - c + 1 ≤ n) →
    Ends E (forwardLoop n l h) fun l' k => l'.Fits rules.sealed k ∧ l.Forwards frame h k l' ∧
      Run (.sparing kept) rules locks frame h l.tasks k l'.tasks := by
  induction n with
  | zero => exact fun _ _ hn => absurd hn (Nat.lt_irrefl 0)
  | succ n ih =>
    intro l h hh hl _ hreach hfree hfuel
    unfold forwardLoop
    cases l with
    | empty => exact ⟨hl, .stop (.stop nofun) nofun (.refl _ h), .refl _ _ _ _⟩
    | root => exact ⟨hl, .stop (leads_root hh) nofun (.refl _ h), .refl _ _ _ _⟩
    | counted c =>
      simp only
      obtain ⟨⟨hroot, -⟩, hlt, s, hb⟩ := hl c rfl
      have hrc : h.Reach (h.Held frame) c := hreach c rfl
      -- the count in hand keeps the label while another one is taken
      have hh₀ : Holding (.sparing kept) rules locks ([.release c] ++ frame) h [] := hh.focus (.refl _)
      have hlive := hh.live (c := c) (List.mem_append_left _ List.mem_cons_self)
      have hheld : ∀ {k : Heap}, k.Held ([.release c] ++ frame) c := .inl List.mem_cons_self
      have hsub : ∀ t ∈ frame, t ∈ [Task.release c] ++ frame := fun _ => List.mem_append_right _
      refine .bind (retain_spec hh₀.calm hlive hroot) fun _ h₁ ⟨hr₁, _⟩ => .get_bind ?_
      have hk₁ : h.Kept ([.release c] ++ frame) h₁ := hr₁.keeps
      have hb₁ : (h₁.cell c).body = .label s := (hk₁.body (.source hheld)).trans hb
      have hh₁ := hh₀.run hr₁.relax
      rw [h₁.label_eq hb₁]
      have hfuel : s.frozen = true → h.size - c + 1 ≤ n + 1 := fun hf =>
        hfuel c rfl (by rw [h.label_eq hb]; exact hf)
      cases hfz : s.frozen with
      | false =>
        simp only [Bool.not_false, if_true]
        refine .bind (release_spec hh₁.calm) fun _ h₂ hr₂ => ?_
        have hr := hr₁.trans hr₂
        have hun : (h.label c).frozen = false := by rw [h.label_eq hb, hfz]
        refine ⟨hl.grows hr.keeps.grows, .stop (.stop fun d hd hf => ?_) (fun d hd => ?_) (Heap.Kept.subset hr.keeps hsub),
          hr.widen.relax⟩
        · cases hd
          rw [hun] at hf
          cases hf
        · cases hd
          exact hun
      | true =>
        simp only [Bool.not_true, Bool.false_eq_true, if_false]
        refine .get_bind ?_
        rw [h₁.label_eq hb₁]
        -- the next label is younger, or it is new and not frozen
        refine forward_made (hh₁.focus (.refl _)) hb₁ (.inl List.mem_cons_self) (hl.grows hr₁.keeps.grows)
          (fun he => hfree c (.stop fun d hd _ => ?_) (by rw [h.label_eq hb, hfz])) hset hfz fun h₂ d hr₂ hcd hnext => .get_bind ?_
        · cases hd
          rw [h.label_eq hb, he]
        have ⟨t, hb₂, hd⟩ : ∃ t, (h₂.cell c).body = .label t ∧ t.forward = .counted d := by
          rcases hnext with ⟨hf, rfl⟩ | ⟨rfl, m, hm⟩
          · exact ⟨s, hb₁, hf⟩
          · exact ⟨_, hm.old, rfl⟩
        rw [h₂.label_eq hb₂, hd]
        have hh₂ := Holding.run (hh₁.focus (.refl ([] ++ _))) hr₂
        have hheld₂ : h₂.Held ([.release c] ++ ([.release c] ++ frame)) c := .inl List.mem_cons_self
        have hreach₂ : h₂.Reach (h₂.Held ([.release c] ++ ([.release c] ++ frame))) d :=
          .edge (.source hheld₂) (Heap.mem_edges_of_forward hb₂ hd)
        have hfits : (Handle.counted d).Fits rules.sealed h₂ := hd ▸ (hh₂.fits_label hb₂).forward
        refine .bind (clone_spec hh₂.calm ⟨hfits, fun e he => by
          cases he
          exact hh₂.safe.live_of_reach hreach₂⟩) fun next h₃ ⟨hnext', hr₃, _⟩ => ?_
        subst hnext'
        have hr₁₃ := hr₁.relax.trans (hr₂.trans hr₃.relax).widen
        have hswap : [Task.release d, .release c].Perm ([.release c] ++ [.release d]) := .swap _ _ _
        refine .bind (release_spec ((hh₀.run hr₁₃).focus hswap).calm) fun _ h₄ hr₄ => ?_
        have hr₁₄ := (hr₁₃.andDrop hswap hr₄.relax).widen
        refine .bind (release_spec ((hh.run hr₁₄).focus hswap).calm) fun _ h₅ hr₅ => ?_
        have hr : Run (.sparing kept) rules locks frame h (counted c).tasks h₅ (counted d).tasks :=
          hr₁₄.andDrop hswap hr₅.relax
        -- from the next label on, everything that is held is kept
        have hk₅ : h₂.Kept frame h₅ :=
          ((Heap.Kept.subset hr₃.keeps fun t ht => List.mem_append_right _ (hsub t ht)).trans
            (Heap.Kept.subset hr₄.keeps fun t ht => List.mem_append_right _ (hsub t ht))).trans
            (Heap.Kept.subset hr₅.keeps fun t ht => List.mem_append_right _ ht)
        have hk₁' : h.Kept frame h₁ := hk₁.subset hsub
        have hle := hfuel hfz
        have hrd : ∀ e, (Handle.counted d).cell? = some e → h₂.Reach (h₂.Held frame) e := fun e he => by
          cases he
          refine .edge ?_ (Heap.mem_edges_of_forward hb₂ hd)
          rcases hnext with ⟨-, rfl⟩ | ⟨-, m, hm⟩
          · exact hk₁'.reach hrc
          · exact ((hm.spares.subset fun t ht => List.mem_append_right _ (hsub t ht)).via (hk₁'.reach hrc).via_self).reach
        have hfit₅ : (Handle.counted d).Fits rules.sealed h₅ := hfits.grows hk₅.grows
        have hn := (fuel_step hlt hle).2
        rcases hnext with ⟨hf, rfl⟩ | ⟨rfl, m, hm⟩
        · have hk : h.Kept frame h₅ := hk₁'.trans hk₅
          have hrd' : ∀ e, (Handle.counted d).cell? = some e → h.Reach (h.Held frame) e := fun e he => by
            cases he
            exact reach_forward hb hrc (hf ▸ rfl)
          have hnext : ∀ {l'}, Leads h (.counted d) l' → Leads h (.counted c) l' := fun hlead => by
            have hlab := h.label_eq hb
            exact .next rfl (hlab ▸ hfz) (by rw [hlab, hf]; nofun) (by rwa [hlab, hf])
          refine (ih (hh.run hr) hfit₅ hn (fun e he => hk.reach (hrd' e he)) (fun e he hf => ?_) fun e he _ => ?_).imp ?_
          · have hlead := he.of_kept hk hrd'
            exact hfree e (hnext hlead) (by rwa [Heap.label, Cell.label?, ← hk.body (hlead.reach hrd' e rfl)])
          · cases he
            rw [hk.size]
            exact (fuel_step hlt hle).1 d hcd
          · rintro l' k ⟨hfit, hfw, hr'⟩
            refine ⟨hfit, ?_, hr.trans hr'⟩
            cases hfw.of_kept hk hrd' with
            | stop hlead hun hk' => exact .stop (hnext hlead) hun hk'
            | fork hlead hm => exact .fork (hnext hlead) hm
        · have hm₀ : h.Forked frame h₅ c s m :=
            ((hm.subset fun t ht => List.mem_append_right _ (hsub t ht)).of_kept hk₁' hrc).keep hk₅ hrc
          have hnew : (h₅.label h₁.size).frozen = false := by
            rw [hk₁'.size, h₅.label_eq hm₀.new]
            rfl
          have hun : ∀ e, (Handle.counted h₁.size).cell? = some e → (h₅.label e).frozen = false := fun e he => by
            cases he
            exact hnew
          refine (ih (hh.run hr) hfit₅ hn (fun e he => hk₅.reach (hrd e he)) (fun e he hf => ?_) fun e he hf => ?_).imp ?_
          · cases he.eq_of_unfrozen hun
            rw [hnew] at hf
            cases hf
          · cases he
            rw [hnew] at hf
            cases hf
          · rintro l' k ⟨hfit, hfw, hr'⟩
            refine ⟨hfit, ?_, hr.trans hr'⟩
            cases hfw with
            | stop hlead _ hk' =>
              cases hlead.eq_of_unfrozen hun
              rw [hk₁'.size]
              exact .fork (.stop fun e he _ => by
                cases he
                rw [h.label_eq hb, hm₀.last]) (hm₀.keep hk' hrc)
            | fork hlead hm' =>
              cases hlead.eq_of_unfrozen hun
              have := hm'.frozen
              rw [← h₅.label_eq hm'.body, hnew] at this
              cases this

/-- The label through which objects change now is the one at the end of the chain, if that may still change, or a fork
of it. -/
theorem getForward_reached (hset : rules.Settled) (hh : Holding (.sparing kept) rules locks frame h [])
    (hl : l.Fits rules.sealed h) (hreach : ∀ c, l.cell? = some c → h.Reach (h.Held frame) c)
    (hfree : ∀ c, l.Leads h (.counted c) → (h.label c).frozen = true → ¬ kept c ∧ ¬ rules.steady c) :
    Ends E (l.getForward h) fun l' k => l'.Fits rules.sealed k ∧ l.Forwards frame h k l' ∧
      Run (.sparing kept) rules locks frame h [] k l'.tasks := by
  unfold getForward
  have hu := usable_of_reach hh.calm hl hreach
  refine .bind (fixSettings_spec hh) fun _ h₁ ⟨hr₁, hcells⟩ => ?_
  refine .bind (clone_spec (hh.run hr₁.relax).calm (hu.of_cells hcells)) fun _ h₂ ⟨hl₂, hr₂, _⟩ => .get_bind ?_
  subst hl₂
  rw [List.append_nil] at hr₂
  have hr₁₂ := hr₁.trans hr₂
  have hk : h.Kept frame h₂ := hr₁₂.keeps
  refine (forwardLoop_spec hset (hh.run hr₁₂.relax) (hl.grows hk.grows) (Nat.succ_pos _) (fun c hc => hk.reach (hreach c hc))
    (fun c hc hf => ?_)
    fun c _ _ => by omega).imp
      fun l' k ⟨hf, hfw, hr⟩ => ⟨hf, hfw.of_kept hk hreach, hr₁₂.relax.trans hr⟩
  have hlead := hc.of_kept hk hreach
  exact hfree c hlead (by rwa [Heap.label, Cell.label?, ← hk.body (hlead.reach hreach c rfl)])

theorem getForward_spec (hset : rules.Settled) (hh : Holding (.sparing kept) rules locks frame h [])
    (hl : l.Fits rules.sealed h) (hsub : ∀ t ∈ l.tasks, t ∈ frame)
    (hfree : ∀ c, l.Leads h (.counted c) → (h.label c).frozen = true → ¬ kept c ∧ ¬ rules.steady c) :
    Ends E (l.getForward h) fun l' k => l'.Fits rules.sealed k ∧ l.Forwards frame h k l' ∧
      Run (.sparing kept) rules locks frame h [] k l'.tasks :=
  getForward_reached hset hh hl (fun _ => reach_of_held hsub) hfree

end Handle

end LazyHeap
