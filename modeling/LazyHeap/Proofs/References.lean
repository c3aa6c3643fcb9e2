import LazyHeap.Proofs.Run

/-!
Taking and giving up references. Whoever clones a handle or a pointer has one reference more in hand, whoever
drops it has one less; nothing else is touched.
-/
namespace LazyHeap

namespace Heap

theorem core_update (h : Heap) {c : CellId} {g : Cell → Cell} (hg : ∀ x, (g x).core = x.core) (d : CellId) :
    ((h.update c g).cell d).core = (h.cell d).core := by
  rcases h.cell_update_cases c g d with hd | ⟨rfl, -, hd⟩
  · rw [hd]
  · rw [hd, hg]

theorem kept_of_core {hold : List Task} {h h' : Heap} (hcore : ∀ d, (h'.cell d).core = (h.cell d).core)
    (hsize : h'.size = h.size) (hscopes : h'.scopes = h.scopes) (hserial : h'.nextSerial = h.nextSerial) :
    h.Kept hold h' where
  cell d _ := hcore d
  fades := ⟨fun d => (congrArg (fun x : Cell => x.flags.freezing) (hcore d) :), fun d hd => (congrArg Cell.destroyed (hcore d) :).trans hd,
    fun d => .inl (Cell.body_of_core (hcore d))⟩
  grows := ⟨Nat.le_of_eq hsize.symm, fun d ⟨o, ho⟩ => ⟨o, (Cell.body_of_core (hcore d)).trans ho⟩,
    fun d ⟨hd, l, hl⟩ => ⟨hsize ▸ hd, l, (Cell.body_of_core (hcore d)).trans hl⟩⟩
  size := hsize
  scopes := hscopes
  nextSerial := hserial

theorem kept_update (hold : List Task) (h : Heap) (c : CellId) {g : Cell → Cell}
    (hg : ∀ x, (g x).core = x.core) : h.Kept hold (h.update c g) :=
  kept_of_core (h.core_update hg) (h.size_update c g) rfl rfl

end Heap

theorem Heap.reach_congr {h h' : Heap} {hold : List Task} {d : CellId} (hd : h.Reach (h.Held hold) d) (hscopes : h'.scopes = h.scopes)
    (hedges : ∀ d, (h'.cell d).edges = (h.cell d).edges) : h'.Reach (h'.Held hold) d :=
  hd.mono (fun _ hd => .source (hd.imp_right fun hm => by rwa [Heap.standing, hscopes]))
    fun y _ _ he hy => .edge hy (by rwa [hedges])

theorem Heap.reach_update {h : Heap} {hold : List Task} {c d : CellId} {g : Cell → Cell} (hg : ∀ x, (g x).body = x.body)
    (hd : h.Reach (h.Held hold) d) : (h.update c g).Reach ((h.update c g).Held hold) d :=
  hd.mono (fun _ => .source) fun y _ _ he hy => .edge hy (by rwa [h.edges_update_of_body c hg])

/-- A handle whose label is there. -/
structure Handle.Usable (sealed : CellId → Prop) (h : Heap) (l : Handle) : Prop where
  fits : l.Fits sealed h
  live : ∀ c, l = .counted c → h.Live c

variable {rules : Rules} {sealed : CellId → Prop} {locks : List Lock} {frame ins rest : List Task}
variable {manner : Manner} {h : Heap} {c o : CellId} {l : Handle} {E : Fault → Prop}

theorem Handle.tasks_counted (c : CellId) : (Handle.counted c).tasks = [.release c] := rfl

structure Pointer.Usable (sealed : CellId → Prop) (h : Heap) (p : Pointer) : Prop where
  target : ∀ o, p.target = some o → h.IsObject o ∧ h.Live o
  label : p.label.Usable sealed h

theorem Heap.Live.retain (hc : h.Live c) (o : CellId) :
    (h.update o fun x => { x with shared := x.shared + 1 }).Live c := by
  by_cases hco : c = o
  · subst hco
    have hself := h.cell_update_self (fun x => { x with shared := x.shared + 1 }) hc.lt_size
    exact ⟨by rw [hself]; exact Nat.succ_pos _, by rw [hself]; exact hc.destroyed,
      by rw [hself]; exact hc.collected⟩
  · have hne := h.cell_update_ne (fun x => { x with shared := x.shared + 1 }) hco
    exact ⟨by rw [hne]; exact hc.shared, by rw [hne]; exact hc.destroyed,
      by rw [hne]; exact hc.collected⟩

theorem Heap.Live.retainWeak (hc : h.Live c) (o : CellId) :
    (h.update o fun x => { x with weak := x.weak + 1 }).Live c := by
  by_cases hco : c = o
  · subst hco
    have hself := h.cell_update_self (fun x => { x with weak := x.weak + 1 }) hc.lt_size
    exact ⟨by rw [hself]; exact hc.shared, by rw [hself]; exact hc.destroyed,
      by rw [hself]; exact hc.collected⟩
  · have hne := h.cell_update_ne (fun x => { x with weak := x.weak + 1 }) hco
    exact ⟨by rw [hne]; exact hc.shared, by rw [hne]; exact hc.destroyed,
      by rw [hne]; exact hc.collected⟩

/-- No cell has lost a count. -/
structure Heap.Gains (h h' : Heap) : Prop where
  live : ∀ d, h.Live d → h'.Live d
  weak : ∀ d, 0 < (h.cell d).weak → 0 < (h'.cell d).weak

protected theorem Heap.Gains.refl (h : Heap) : h.Gains h := ⟨fun _ => id, fun _ => id⟩

protected theorem Heap.Gains.trans {h' h'' : Heap} (h₁ : h.Gains h') (h₂ : h'.Gains h'') : h.Gains h'' :=
  ⟨fun d hd => h₂.live d (h₁.live d hd), fun d hd => h₂.weak d (h₁.weak d hd)⟩

private theorem Heap.weak_update (h : Heap) (c : CellId) {g : Cell → Cell} (hg : ∀ x, x.weak ≤ (g x).weak)
    (d : CellId) (hd : 0 < (h.cell d).weak) : 0 < ((h.update c g).cell d).weak := by
  rcases h.cell_update_cases c g d with he | ⟨rfl, -, he⟩
  · rwa [he]
  · rw [he]
    exact Nat.lt_of_lt_of_le hd (hg _)

theorem Heap.gains_retain (h : Heap) (c : CellId) :
    h.Gains (h.update c fun x => { x with shared := x.shared + 1 }) :=
  ⟨fun _ hd => hd.retain c, h.weak_update c fun _ => Nat.le_refl _⟩

theorem Heap.gains_retainWeak (h : Heap) (c : CellId) :
    h.Gains (h.update c fun x => { x with weak := x.weak + 1 }) :=
  ⟨fun _ hd => hd.retainWeak c, h.weak_update c fun _ => Nat.le_succ _⟩

theorem Heap.gains_of_cells {h' : Heap} (hcells : h'.cells = h.cells) : h.Gains h' := by
  have hcell : ∀ d, h'.cell d = h.cell d := fun d => by simp only [Heap.cell, hcells]
  exact ⟨fun d hd => ⟨hcell d ▸ hd.shared, hcell d ▸ hd.destroyed, hcell d ▸ hd.collected⟩,
    fun d hd => hcell d ▸ hd⟩

/-- An object whose bookkeeping is there, whether its value is or not. -/
structure Heap.Noted (h : Heap) (o : CellId) : Prop where
  object : h.IsObject o
  weak : 0 < (h.cell o).weak

theorem Heap.Noted.gains {h' : Heap} (ho : h.Noted o) (hg : h.Grows h') (hw : h.Gains h') : h'.Noted o :=
  ⟨hg.object o ho.object, hw.weak o ho.weak⟩

theorem Handle.Usable.mono {h' : Heap} (hl : l.Usable sealed h) (hg : h.Grows h')
    (hlive : h.Gains h') : l.Usable sealed h' :=
  ⟨hl.fits.grows hg, fun c hc => hlive.live c (hl.live c hc)⟩

theorem Handle.Usable.of_cells {h' : Heap} (hl : l.Usable sealed h) (hcells : h'.cells = h.cells) :
    l.Usable sealed h' :=
  hl.mono (Heap.grows_of_cells hcells) (Heap.gains_of_cells hcells)

namespace Holding

theorem usable (hh : Holding .calm rules locks frame h ins) (hf : l.Fits rules.sealed h)
    (hl : ∀ t ∈ l.tasks, t ∈ ins ++ frame) : l.Usable rules.sealed h :=
  ⟨hf, fun c hc => hh.live (hl _ (by simp [hc, Handle.tasks_counted]))⟩

theorem usable_pointer {p : Pointer} (hh : Holding .calm rules locks frame h ins) (hf : p.Fits rules.sealed h)
    (hp : ∀ t ∈ p.tasks, t ∈ ins ++ frame) : p.Usable rules.sealed h :=
  ⟨fun o ho => ⟨hf.target o ho, hh.live (hp _ (by simp [Pointer.tasks, ho]))⟩,
    hh.usable hf.label fun t ht => hp t (List.mem_append_right _ ht)⟩

theorem usable_scope {rest : List Handle} (hh : Holding .calm rules locks frame h ins)
    (hs : h.scopes = l :: rest) : l.Usable rules.sealed h :=
  ⟨hh.safe.scopes l (hs ▸ List.mem_cons_self), fun c hc => hh.safe.live_of_held <| .inr <|
    List.mem_cons_of_mem _ (List.mem_flatMap.2 ⟨l, hs ▸ List.mem_cons_self,
      by simp [hc, Handle.tasks_counted]⟩)⟩

theorem weak_of_live (hh : Holding manner rules locks frame h ins) (hc : h.Live c) : 0 < (h.cell c).weak :=
  hh.safe.weak_pos (.inl hc.destroyed)

theorem noted (hh : Holding manner rules locks frame h ins) (ho : h.IsObject o) (hlive : h.Live o) : h.Noted o :=
  ⟨ho, hh.weak_of_live hlive⟩

theorem weak_of_mem (hh : Holding manner rules locks frame h ins)
    (hc : .unpin c ∈ ins ++ frame ∨ .release c ∈ ins ++ frame) : 0 < (h.cell c).weak := by
  rcases hc with hc | hc
  · refine hh.safe.weak_pos (.inr ?_)
    have : 0 < (ins ++ frame).count (.unpin c) := List.count_pos_iff.2 hc
    simp only [Moment.claims]
    omega
  · exact hh.weak_of_live (hh.live hc)

theorem object_ne_root (hh : Holding .calm rules locks frame h ins) (ho : h.IsObject o) : o ≠ rootCell := fun he => by
  obtain ⟨-, l, hl⟩ := hh.safe.root.2
  obtain ⟨x, hx⟩ := ho
  rw [he] at hx
  cases hx.symm.trans hl

end Holding

/-! ### Counts -/

theorem retain_spec (_ : Holding .calm rules locks frame h ins) (hc : h.Live c) (hroot : c ≠ rootCell) :
    Ends E (retain c h) fun _ h' => Run .calm rules locks frame h ins h' (.release c :: ins) ∧ h.Gains h' :=
  have hk : h.Kept frame (h.update c fun x => { x with shared := x.shared + 1 }) :=
    h.kept_update frame c fun _ => rfl
  ⟨Run.of_step (.retain hc hroot) hk, h.gains_retain c⟩

theorem retainWeak_spec (_ : Holding .calm rules locks frame h ins) (hc : 0 < (h.cell c).weak) :
    Ends E (retainWeak c h) fun _ h' => Run .calm rules locks frame h ins h' (.unpin c :: ins) ∧ h.Gains h' :=
  have hk : h.Kept frame (h.update c fun x => { x with weak := x.weak + 1 }) :=
    h.kept_update frame c fun _ => rfl
  ⟨Run.of_step (.retainWeak hc) hk, h.gains_retainWeak c⟩

theorem release_spec (hh : Holding .calm rules locks frame h [.release c]) :
    Ends E (release c h) fun _ h' => Run .calm rules locks frame h [.release c] h' [] :=
  settle_spec hh

theorem unpin_spec (hh : Holding .calm rules locks frame h [.unpin c]) :
    Ends E (unpin c h) fun _ h' => Run .calm rules locks frame h [.unpin c] h' [] :=
  settle_spec hh

/-- A count is given up where another one stays. -/
theorem releaseRetained_spec (hh : Holding .calm rules locks frame h [.release c]) (hc : .release c ∈ frame) :
    Ends E (releaseRetained c h) fun _ h' => Run .calm rules locks frame h [.release c] h' [] := by
  have hlive := hh.live (c := c) (by simp)
  have hshared := hh.safe.shared c hlive.collected
  have hpos := List.count_pos_iff.2 hc
  obtain ⟨n, hn⟩ : ∃ n, (h.cell c).shared = n + 2 := by
    simp only [Moment.claims, List.count_append, List.count_singleton_self] at hshared
    exact ⟨(h.cell c).shared - 2, by omega⟩
  let h' := h.update c fun x => { x with shared := x.shared - 1 }
  have hk : h.Kept frame h' := h.kept_update frame c fun _ => rfl
  have heq : (h.update c fun x => { x with shared := n + 1 }) = h' :=
    h.update_congr c (by simp [hn])
  refine .readCell_bind ?_
  simp only [hn]
  refine .of_ok (a := ⟨⟩) (congrArg (fun k => Except.ok ((⟨⟩ : PUnit), k)) heq) ?_
  have hstep : Advance rules ⟨h, locks, [], [.release c] ++ frame⟩ ⟨h', locks, [], [] ++ frame⟩ := .giveBack hc
  exact .of_step hstep hk

/-! ### Handles -/

namespace Handle

theorem clone_spec (hh : Holding .calm rules locks frame h ins) (hl : l.Usable rules.sealed h) :
    Ends E (l.clone h) fun l' h' => l' = l ∧ Run .calm rules locks frame h ins h' (l.tasks ++ ins) ∧
      h.Gains h' := by
  unfold clone
  cases l with
  | counted c =>
    exact .bind (retain_spec hh (hl.live c rfl) (hl.fits c rfl).1.1) fun _ h' hr => ⟨rfl, hr⟩
  | _ => exact ⟨rfl, .refl _ _ _ _, .refl h⟩

theorem drop_spec (hh : Holding .calm rules locks frame h l.tasks) :
    Ends E (l.drop h) fun _ h' => Run .calm rules locks frame h l.tasks h' [] := settle_spec hh

theorem repoint_spec {old new : Handle} (hh : Holding .calm rules locks frame h old.tasks) (hnew : new.Usable rules.sealed h) :
    Ends E (old.repoint new h) fun l h' => l = new ∧
      Run .calm rules locks frame h old.tasks h' new.tasks := by
  unfold repoint
  refine .bind (clone_spec hh hnew) fun next h₁ ⟨hnext, hr, _⟩ => ?_
  subst hnext
  have hh₁ := hh.run hr
  have hswap : (next.tasks ++ old.tasks).Perm (old.tasks ++ next.tasks) := List.perm_append_comm
  by_cases he : old = next
  · subst he
    simp only [if_true]
    cases old with
    | counted c =>
      refine .bind (releaseRetained_spec (hh₁.focus hswap) (by simp [tasks_counted])) fun _ h₂ hr₂ => ?_
      exact ⟨rfl, by simpa using hr.andThen hswap hr₂⟩
    | _ => exact ⟨rfl, hr⟩
  · simp only [he, if_false]
    refine .bind (drop_spec (hh₁.focus hswap)) fun _ h₂ hr₂ => ⟨rfl, ?_⟩
    simpa using hr.andThen hswap hr₂

end Handle

/-! ### New cells -/

/-- One cell more than before, and the same cells but for their counts. -/
structure Heap.Adds (h h' : Heap) (x : Cell) : Prop where
  size : h'.size = h.size + 1
  new : h'.cell h.size = x
  old : ∀ c, c < h.size → (h'.cell c).core = (h.cell c).core

theorem fixSettings_spec (_ : Holding manner rules locks frame h ins) :
    Ends E (fixSettings h) fun _ h' => Run .calm rules locks frame h ins h' ins ∧ h'.cells = h.cells :=
  have hk : h.Kept frame h.fixSettings := ⟨fun _ _ => rfl, ⟨fun _ => rfl, fun _ => id, fun _ => .inl rfl⟩,
    Heap.grows_of_cells rfl, rfl, rfl, rfl⟩
  ⟨Run.of_step (.clerical rfl (Nat.le_refl _)) hk, rfl⟩

theorem newSerial_spec (_ : Holding manner rules locks frame h ins) :
    Ends E (newSerial h) fun n h' => n = h.nextSerial ∧ h'.cells = h.cells ∧
      Run .adding rules locks frame h ins h' ins :=
  have hk : h.Spares (fun _ => True) frame { h with nextSerial := h.nextSerial + 1 } :=
    ⟨fun _ _ _ => rfl, Heap.grows_of_cells rfl, rfl, Nat.le_succ _⟩
  ⟨rfl, rfl, .single (.clerical rfl (Nat.le_succ _)), hk⟩

theorem record_spec (e : Event) :
    Run .calm rules locks frame h ins (h.record e) ins :=
  have hk : h.Kept frame (h.record e) := ⟨fun _ _ => rfl, ⟨fun _ => rfl, fun _ => id, fun _ => .inl rfl⟩,
    Heap.grows_of_cells rfl, rfl, rfl, rfl⟩
  Run.of_step (.clerical rfl (Nat.le_refl _)) hk

theorem Holding.lt_size_of_reach (hh : Holding manner rules locks frame h ins)
    (hc : h.Reach (h.Held frame) c) : c < h.size :=
  (hh.safe.live_of_reach (hc.subset fun _ => Or.imp_left (List.mem_append_right _))).lt_size

private theorem spares_push {hold : List Task} {h : Heap} (x : Cell)
    (hlt : ∀ c, h.Reach (h.Held hold) c → c < h.size) : h.Spares (fun _ => True) hold (h.push x) :=
  ⟨fun c hc _ => by rw [h.cell_push_of_lt x (hlt c hc.reach)], h.grows_push x, rfl, Nat.le_refl _⟩

theorem Body.Starts.congr {h' : Heap} {b : Body} (hb : b.Starts h rules)
    (halive : ∀ c, (h'.cell c).alive = (h.cell c).alive)
    (hfreezing : ∀ c, (h'.cell c).flags.freezing = (h.cell c).flags.freezing) : b.Starts h' rules where
  careful hc := by
    have := hb.careful hc
    cases b with
    | object o => exact True.intro
    | label l => exact fun e he hal => (Cell.frozen_of_freezing (hfreezing e.1)).trans (this e he (halive e.1 ▸ hal))
  apart hc l hl v hv := (Cell.frozen_of_freezing (hfreezing v)).trans (hb.apart hc l hl v hv)
  closed hc l hl v hv ho := (hfreezing v).trans_ne (hb.closed hc l hl v hv ho)

/-- What a new value owns was in hand; its cell has one owner, who made it. -/
theorem allocate_spec {b : Body} (hh : Holding .calm rules locks frame h b.tasks)
    (hfits : b.Fits rules.sealed h h.size) (hlocks : b.locks = []) (hstarts : b.Starts h rules)
    (hl : ∀ c, l = .counted c → (∃ o, b = .object o) ∧ c ≠ rootCell ∧ 0 < (h.cell c).weak) :
    Ends E (allocate b l h) fun c h' => c = h.size ∧ h.Adds h' (.fresh b l.counted?) ∧
      Run .adding rules locks frame h b.tasks h' [.release h.size] := by
  unfold allocate
  -- the label that makes the cell is held weakly by it
  have hstep : ∀ {k : Heap}, b.Fits rules.sealed k k.size → b.Starts k rules →
      Run .calm rules locks frame h b.tasks k (l.counted?.toList.map .unpin ++ b.tasks) →
      Run .adding rules locks frame h b.tasks (k.push (.fresh b l.counted?)) [.release k.size] :=
    fun hf hstarts hr => by
      have hpush : Advance rules ⟨_, locks, [], b.tasks ++ l.counted?.toList.map .unpin ++ frame⟩
          ⟨_, locks, [], .release _ :: frame⟩ := .allocate hf hlocks (fun d hd => ?_) hstarts
      swap
      · cases l <;> cases hd
        exact ⟨(hl d rfl).1, (hl d rfl).2.1⟩
      exact (hr.relax.perm (.refl _) List.perm_append_comm).trans
        ⟨.single hpush, spares_push _ fun _ => (hh.run hr).lt_size_of_reach⟩
  cases l with
  | counted c =>
    let k := h.update c fun x => { x with weak := x.weak + 1 }
    have hk : ∀ hold, h.Kept hold k := fun hold => h.kept_update hold c fun _ => rfl
    have hsize : k.size = h.size := h.size_update c _
    have hlt : ∀ d, d < h.size → d < k.size := fun d hd => hsize.symm ▸ hd
    refine .bind (Q := fun _ k' => k' = k ∧ Run .calm rules locks frame h b.tasks k (.unpin c :: b.tasks))
      ⟨rfl, .of_step (.retainWeak (hl c rfl).2.2) (hk frame)⟩ fun _ k' ⟨hkk, hr⟩ => ?_
    subst hkk
    have hfits' : b.Fits rules.sealed k k.size := hsize.symm ▸ hfits.grows (hk frame).grows
    have hsame (d : CellId) : k.cell d = { h.cell d with weak := (k.cell d).weak } := by
      rcases h.cell_update_cases c (fun x => { x with weak := x.weak + 1 }) d with hd | ⟨rfl, -, hd⟩
      · rw [show k.cell d = _ from hd]
      · rw [show k.cell d = _ from hd]
    have hstarts' : b.Starts k rules :=
      hstarts.congr (fun d => (congrArg Cell.alive (hsame d) :)) fun d => (congrArg (·.flags.freezing) (hsame d) :)
    refine ⟨hsize, ⟨?_, ?_, fun d hd => ?_⟩, hsize ▸ hstep hfits' hstarts' hr⟩
    · rw [← hsize]
      exact k.size_push _
    · rw [← hsize]
      exact k.cell_push_self _
    · rw [show (Heap.push _ _).cell d = _ from k.cell_push_of_lt _ (hlt d hd)]
      exact (hk [.release d]).cell d (.source (.inl List.mem_cons_self))
  | _ =>
    exact ⟨rfl, ⟨h.size_push _, h.cell_push_self _, fun d hd => by rw [h.cell_push_of_lt _ hd]⟩,
      hstep hfits hstarts (.refl _ _ _ _)⟩

theorem newLabel_spec {s : Label} (hh : Holding .calm rules locks frame h (Body.label s).tasks)
    (hfits : (Body.label s).Fits rules.sealed h h.size) (hlocked : s.locked = false)
    (hstarts : (Body.label s).Starts h rules) :
    Ends E (newLabel s h) fun l h' => l = .counted h.size ∧ l.Fits rules.sealed h' ∧
      h.Adds h' (.fresh (.label s) none) ∧
      Run .adding rules locks frame h (Body.label s).tasks h' l.tasks := by
  unfold newLabel
  refine .bind (allocate_spec hh hfits (by simp [Body.locks, hlocked]) hstarts nofun)
    fun c h' ⟨hc, hadds, hr⟩ => ?_
  subst hc
  refine ⟨rfl, fun d hd => ?_, hadds, hr⟩
  cases hd
  refine ⟨⟨fun he => ?_, fun hs => Nat.lt_irrefl _ (hh.safe.sealed _ hs)⟩,
    by rw [hadds.size]; exact Nat.lt_succ_self _, s, by rw [hadds.new]; rfl⟩
  have := hh.safe.root.2.1
  rw [show (Moment.heap _).size = _ from he] at this
  exact Nat.lt_irrefl _ this

theorem Label.fits_blank (h : Heap) (c : CellId) : (Body.label .blank).Fits sealed h c :=
  Label.Fits.of_nil _ rfl rfl

theorem Label.starts_blank (h : Heap) (rules : Rules) : (Body.label .blank).Starts h rules where
  careful _ := nofun
  apart _ l hl v hv := by
    cases hl
    cases hv
  closed _ l hl v hv := by
    cases hl
    cases hv

theorem spawn_spec (hh : Holding .calm rules locks frame h []) :
    Ends E (spawn h) fun l h' => l = .counted h.size ∧ l.Fits rules.sealed h' ∧
      h.Adds h' (.fresh (.label .blank) none) ∧ Run .adding rules locks frame h [] h' l.tasks := by
  unfold spawn
  refine .bind (fixSettings_spec hh) ?_
  rintro - k ⟨hr, hk⟩
  have hsize : k.size = h.size := by simp only [Heap.size, hk]
  have hcell : ∀ c, k.cell c = h.cell c := fun c => by simp only [Heap.cell, hk]
  refine (newLabel_spec (s := .blank) (hh.run hr) (Label.fits_blank _ _) rfl (Label.starts_blank _ _)).imp ?_
  rintro l h' ⟨hl, hf, hadds, hr'⟩
  exact ⟨hsize ▸ hl, hf, ⟨by rw [hadds.size, hsize], by rw [← hsize, hadds.new],
    fun c hc => by rw [hadds.old c (hsize ▸ hc), hcell]⟩, hr.relax.trans hr'⟩

/-! ### Pointers -/

/-- What a clone of a pointer becomes: inside a scope it gets the scope's label, unless it is nil. -/
def Pointer.bound (scopes : List Handle) (p : Pointer) : Pointer :=
  match p.target, scopes with
  | some o, scope :: _ => ⟨some o, scope⟩
  | _, _ => p

theorem Pointer.Fits.bound {p : Pointer} {scopes : List Handle} (hp : p.Fits sealed h)
    (hs : ∀ l ∈ scopes, l.Fits sealed h) : (p.bound scopes).Fits sealed h := by
  obtain ⟨_ | o, s⟩ := p
  · exact hp
  · cases scopes with
    | nil => exact hp
    | cons scope rest => exact ⟨hp.target, hs scope List.mem_cons_self⟩

namespace Pointer

variable {p q : Pointer}

theorem tasks_some (o : CellId) (l : Handle) : (Pointer.mk (some o) l).tasks = .release o :: l.tasks := rfl

theorem tasks_nil : Pointer.nil.tasks = [] := rfl

theorem make_spec (hh : Holding .calm rules locks frame h ins) (ho : h.IsObject o) (hlive : h.Live o)
    (hl : l.Usable rules.sealed h) :
    Ends E (make o l h) fun p h' => p = ⟨some o, l⟩ ∧
      Run .calm rules locks frame h ins h' (p.tasks ++ ins) := by
  unfold make
  refine .bind (retain_spec hh hlive (hh.object_ne_root ho)) fun _ h₁ ⟨hr₁, hlives⟩ => ?_
  refine .bind (Handle.clone_spec (hh.run hr₁) (hl.mono hr₁.keeps.grows hlives))
    fun l' h₂ ⟨hl', hr₂, _⟩ => ⟨by rw [hl'], ?_⟩
  rw [hl']
  exact (hr₁.trans hr₂).perm (.refl _) List.perm_middle

theorem cloneInPlace_spec (hh : Holding .calm rules locks frame h ins) (hp : p.Usable rules.sealed h) :
    Ends E (p.cloneInPlace h) fun q h' => q = p ∧
      Run .calm rules locks frame h ins h' (q.tasks ++ ins) := by
  unfold cloneInPlace
  obtain ⟨target, l⟩ := p
  cases target with
  | none =>
    refine .bind (Handle.clone_spec hh hp.label) fun l' h' ⟨hl', hr, _⟩ => ?_
    subst hl'
    exact ⟨rfl, hr⟩
  | some o => exact make_spec hh (hp.target o rfl).1 (hp.target o rfl).2 hp.label

theorem clone_spec (hh : Holding .calm rules locks frame h ins) (hp : p.Usable rules.sealed h) :
    Ends E (p.clone h) fun q h' => q = p.bound h.scopes ∧
      Run .calm rules locks frame h ins h' (q.tasks ++ ins) := by
  unfold clone
  refine .get_bind ?_
  obtain ⟨target, l⟩ := p
  cases target with
  | none => exact cloneInPlace_spec hh hp
  | some o =>
    cases hs : h.scopes with
    | nil => exact cloneInPlace_spec hh hp
    | cons scope rest =>
      simp only
      refine .bind (Handle.clone_spec hh (hh.usable_scope hs)) fun l' h₁ ⟨hl', hr₁, hlives⟩ => ?_
      subst hl'
      have hobj := hr₁.keeps.grows.object o (hp.target o rfl).1
      refine .bind (make_spec (hh.run hr₁) hobj (hlives.live o (hp.target o rfl).2)
        ((hh.usable_scope hs).mono hr₁.keeps.grows hlives)) fun q h₂ ⟨hq, hr₂⟩ => ?_
      have hr := hr₁.trans hr₂
      have hswap : (q.tasks ++ (l'.tasks ++ ins)).Perm (l'.tasks ++ (q.tasks ++ ins)) := by
        rw [← List.append_assoc, ← List.append_assoc]
        exact List.perm_append_comm.append_right _
      refine .bind (Handle.drop_spec ((hh.run hr).focus hswap)) fun _ h₃ hr₃ => ⟨hq, ?_⟩
      exact hr.andDrop hswap hr₃

theorem drop_spec (hh : Holding .calm rules locks frame h p.tasks) :
    Ends E (p.drop h) fun _ h' => Run .calm rules locks frame h p.tasks h' [] := settle_spec hh

/-- The old target is given up; the new one is in hand. -/
theorem adopt_spec {old : Option CellId} (hh : Holding .calm rules locks frame h (old.toList.map .release))
    (ho : .release o ∈ frame) :
    Ends E (adopt old o h) fun _ h' => Run .calm rules locks frame h (old.toList.map .release) h' [] := by
  unfold adopt
  cases old with
  | none => exact .refl _ _ _ _
  | some c =>
    by_cases hco : c = o
    · simp only [hco, if_true]
      exact releaseRetained_spec (by rwa [hco] at hh) ho
    · simp only [hco, if_false]
      exact release_spec hh

theorem assign_spec (hh : Holding .calm rules locks frame h p.tasks) (hq : q.Fits rules.sealed h)
    (hsub : ∀ t ∈ q.tasks, t ∈ frame) :
    Ends E (p.assign q h) fun p' h' => p' = q ∧ Run .calm rules locks frame h p.tasks h' q.tasks := by
  unfold assign
  obtain ⟨old, l⟩ := p
  obtain ⟨new, m⟩ := q
  have hq' := hh.usable_pointer hq fun t ht => List.mem_append_right _ (hsub t ht)
  have hswap : (Pointer.mk old l).tasks.Perm (l.tasks ++ old.toList.map .release) :=
    List.perm_append_comm
  have hlabel := hh.focus hswap
  refine .bind (Handle.repoint_spec hlabel hq'.label) ?_
  rintro label h₁ ⟨rfl, hr₁⟩
  have hr : Run .calm rules locks frame h (Pointer.mk old l).tasks h₁
      (label.tasks ++ old.toList.map .release) := hr₁.widen.perm hswap (.refl _)
  have hh₁ := hh.run hr
  cases new with
  | none =>
    cases old with
    | none => exact ⟨rfl, hr.perm (.refl _) (by simp [tasks])⟩
    | some o =>
      have hswap₁ : (label.tasks ++ [Task.release o]).Perm ([.release o] ++ label.tasks) :=
        List.perm_append_comm
      refine .bind (release_spec (hh₁.focus hswap₁)) fun _ h₂ hr₂ => ⟨rfl, ?_⟩
      exact hr.andDrop hswap₁ hr₂
  | some o =>
    have hobj := hr.keeps.grows.object o (hq.target o rfl)
    have hlive : h₁.Live o := hh₁.live (List.mem_append_right _ (hsub _ (by simp [tasks])))
    refine .bind (retain_spec hh₁ hlive (hh₁.object_ne_root hobj)) ?_
    rintro - h₂ ⟨hr₂, -⟩
    have hr' := hr.trans hr₂
    have hswap₂ : (Task.release o :: (label.tasks ++ old.toList.map .release)).Perm
        (old.toList.map .release ++ (Task.release o :: label.tasks)) := by
      rw [← List.cons_append]
      exact List.perm_append_comm
    refine .bind (adopt_spec ((hh.run hr').focus hswap₂) (by simp)) fun _ h₃ hr₃ => ⟨rfl, ?_⟩
    exact hr'.andDrop hswap₂ hr₃

end Pointer

/-! ### Weak pointers -/

def WeakPointer.bound (scopes : List Handle) (w : WeakPointer) : WeakPointer :=
  match w.target, scopes with
  | some o, scope :: _ => ⟨some o, scope⟩
  | _, _ => w

theorem WeakPointer.Fits.bound {w : WeakPointer} {scopes : List Handle} (hw : w.Fits sealed h)
    (hs : ∀ l ∈ scopes, l.Fits sealed h) : (w.bound scopes).Fits sealed h := by
  obtain ⟨_ | o, s⟩ := w
  · exact hw
  · cases scopes with
    | nil => exact hw
    | cons scope rest => exact ⟨hw.target, hs scope List.mem_cons_self⟩

namespace WeakPointer

variable {w : WeakPointer}

theorem make_spec {target : Option CellId} (hh : Holding .calm rules locks frame h ins)
    (ho : ∀ o, target = some o → h.Noted o) (hl : l.Usable rules.sealed h) :
    Ends E (make target l h) fun w h' => w = ⟨target, l⟩ ∧
      Run .calm rules locks frame h ins h' (w.tasks ++ ins) ∧ h.Gains h' := by
  unfold make
  cases target with
  | none =>
    refine .bind (Handle.clone_spec hh hl) fun l' h' ⟨hl', hr, hlives⟩ => ?_
    subst hl'
    exact ⟨rfl, hr, hlives⟩
  | some o =>
    refine .bind (retainWeak_spec hh (ho o rfl).weak) fun _ h₁ ⟨hr₁, hlives₁⟩ => ?_
    refine .bind (Handle.clone_spec (hh.run hr₁) (hl.mono hr₁.keeps.grows hlives₁))
      fun l' h₂ ⟨hl', hr₂, hlives₂⟩ => ?_
    subst hl'
    exact ⟨rfl, (hr₁.trans hr₂).perm (.refl _) List.perm_middle, hlives₁.trans hlives₂⟩

theorem ofPointer_spec {p : Pointer} (hh : Holding .calm rules locks frame h ins) (hp : p.Usable rules.sealed h) :
    Ends E (ofPointer p h) fun w h' => w = ⟨p.target, p.label⟩ ∧
      Run .calm rules locks frame h ins h' (w.tasks ++ ins) ∧ h.Gains h' :=
  make_spec hh (fun o ho => hh.noted (hp.target o ho).1 (hp.target o ho).2) hp.label

theorem clone_spec (hh : Holding .calm rules locks frame h ins) (ht : ∀ o, w.target = some o → h.Noted o)
    (hl : w.label.Usable rules.sealed h) :
    Ends E (w.clone h) fun v h' => v = w.bound h.scopes ∧
      Run .calm rules locks frame h ins h' (v.tasks ++ ins) := by
  unfold clone
  refine .get_bind ?_
  obtain ⟨target, l⟩ := w
  cases target with
  | none => exact (make_spec hh ht hl).imp fun _ _ hp => ⟨hp.1, hp.2.1⟩
  | some o =>
    cases hs : h.scopes with
    | nil => exact (make_spec hh ht hl).imp fun _ _ hp => ⟨hp.1, hp.2.1⟩
    | cons scope rest =>
      simp only
      refine .bind (Handle.clone_spec hh (hh.usable_scope hs)) fun l' h₁ ⟨hl', hr₁, hlives⟩ => ?_
      subst hl'
      refine .bind (make_spec (hh.run hr₁) (fun o ho => (ht o ho).gains hr₁.keeps.grows hlives)
        ((hh.usable_scope hs).mono hr₁.keeps.grows hlives)) fun v h₂ ⟨hv, hr₂, _⟩ => ?_
      have hr := hr₁.trans hr₂
      have hswap : (v.tasks ++ (l'.tasks ++ ins)).Perm (l'.tasks ++ (v.tasks ++ ins)) := by
        rw [← List.append_assoc, ← List.append_assoc]
        exact List.perm_append_comm.append_right _
      refine .bind (Handle.drop_spec ((hh.run hr).focus hswap)) fun _ h₃ hr₃ => ⟨hv, ?_⟩
      exact hr.andDrop hswap hr₃

private theorem unpinOld_spec (old : Option CellId) :
    Holding .calm rules locks frame h (old.toList.map .unpin) →
    Ends E ((match old with
      | some o => unpin o
      | _ => pure () : HeapM PUnit) h) fun _ h' =>
        Run .calm rules locks frame h (old.toList.map .unpin) h' [] := by
  intro hh
  cases old with
  | none => exact .refl _ _ _ _
  | some c => exact unpin_spec hh

theorem retarget_spec {old new : Option CellId}
    (hh : Holding .calm rules locks frame h (old.toList.map .unpin))
    (hnew : ∀ o, new = some o → 0 < (h.cell o).weak) :
    Ends E (retarget old new h) fun _ h' =>
      Run .calm rules locks frame h (old.toList.map .unpin) h' (new.toList.map .unpin) := by
  unfold retarget
  have hswap : (new.toList.map Task.unpin ++ old.toList.map Task.unpin).Perm
      (old.toList.map Task.unpin ++ new.toList.map Task.unpin) := List.perm_append_comm
  cases new with
  | none => exact unpinOld_spec old hh
  | some o =>
    refine .bind (retainWeak_spec hh (hnew o rfl)) fun _ k ⟨hr, _⟩ => ?_
    exact (unpinOld_spec old ((hh.run hr).focus hswap)).imp fun _ h' hr' => hr.andDrop hswap hr'

theorem assign_spec {target : Option CellId} (hh : Holding .calm rules locks frame h w.tasks)
    (ht : ∀ o, target = some o → .unpin o ∈ frame ∨ .release o ∈ frame) (hl : l.Usable rules.sealed h) :
    Ends E (w.assign target l h) fun v h' => v = ⟨target, l⟩ ∧
      Run .calm rules locks frame h w.tasks h' v.tasks := by
  unfold assign
  obtain ⟨old, m⟩ := w
  have hswap : (WeakPointer.mk old m).tasks.Perm (m.tasks ++ old.toList.map .unpin) :=
    List.perm_append_comm
  refine .bind (Handle.repoint_spec (hh.focus hswap) hl) ?_
  rintro label h₁ ⟨rfl, hr₁⟩
  have hr : Run .calm rules locks frame h (WeakPointer.mk old m).tasks h₁
      (label.tasks ++ old.toList.map .unpin) := hr₁.widen.perm hswap (.refl _)
  have hswap₁ : (label.tasks ++ old.toList.map Task.unpin).Perm (old.toList.map Task.unpin ++ label.tasks) :=
    List.perm_append_comm
  refine .bind (retarget_spec ((hh.run hr).focus hswap₁) fun o ho =>
    (hh.run hr).weak_of_mem ((ht o ho).imp (List.mem_append_right _) (List.mem_append_right _)))
    fun _ h₂ hr₂ => ⟨rfl, ?_⟩
  exact hr.andThen hswap₁ hr₂

end WeakPointer

/-! ### Links -/

def Link.bound (scopes : List Handle) : Link → Link
  | .owned p => .owned (p.bound scopes)
  | .weak w => .weak (w.bound scopes)
  | .label l => .label l

/-- A link whose targets and labels are there; a weak target may be gone. -/
def Link.Usable (sealed : CellId → Prop) (h : Heap) : Link → Prop
  | .owned p => p.Usable sealed h
  | .weak w => (∀ o, w.target = some o → h.Noted o) ∧ w.label.Usable sealed h
  | .label l => l.Usable sealed h

theorem Link.usable_of_reach {m : Moment} {x : CellId} {ob : Object} {link : Link} (hs : Sound sealed m)
    (hr : m.heap.Reach (m.heap.Held m.held) x) (hb : (m.heap.cell x).body = .object ob)
    (hlink : link ∈ ob.links) : link.Usable sealed m.heap := by
  have hf := hs.fits x
  rw [hb] at hf
  have hlive : ∀ d ∈ Cell.linkEdges link, m.heap.Live d := fun d hd =>
    hs.live_of_reach (.edge hr (Heap.mem_edges_of_link hb hlink hd))
  have hfits := hf.2 link hlink
  cases link with
  | owned p =>
    refine ⟨fun o ho => ⟨hfits.target o ho, hlive o (by simp [Cell.linkEdges, ho])⟩, hfits.label,
      fun c hc => hlive c (by simp [Cell.linkEdges, hc, Handle.counted?])⟩
  | weak w =>
    refine ⟨fun o ho => ⟨hfits.target o ho, hs.weak_pos (.inr (Sound.claims_pos_of_due (x := x) ?_))⟩, hfits.label,
      fun c hc => hlive c (by simp [Cell.linkEdges, hc, Handle.counted?])⟩
    rw [Cell.dues, hb]
    exact List.mem_append_left _ (List.mem_flatMap.2 ⟨_, hlink, by simp [Link.tasks, WeakPointer.tasks, ho]⟩)
  | label l => exact ⟨hfits, fun c hc => hlive c (by simp [Cell.linkEdges, hc, Handle.counted?])⟩

namespace Link

variable {link : Link}

theorem clone_spec (hh : Holding .calm rules locks frame h ins) (hl : link.Usable rules.sealed h) :
    Ends E (link.clone h) fun link' h' => link' = link.bound h.scopes ∧
      Run .calm rules locks frame h ins h' (link'.tasks ++ ins) := by
  cases link with
  | owned p => exact .bind (Pointer.clone_spec hh hl) fun q h' ⟨hq, hr⟩ => ⟨by rw [hq]; rfl, hr⟩
  | weak w => exact .bind (WeakPointer.clone_spec hh hl.1 hl.2) fun v h' ⟨hv, hr⟩ => ⟨by rw [hv]; rfl, hr⟩
  | label l => exact .bind (Handle.clone_spec hh hl) fun l' h' ⟨hl', hr, _⟩ => ⟨by rw [hl']; rfl, hl' ▸ hr⟩

theorem drop_spec (hh : Holding .calm rules locks frame h link.tasks) :
    Ends E (link.drop h) fun _ h' => Run .calm rules locks frame h link.tasks h' [] := settle_spec hh

end Link

end LazyHeap
