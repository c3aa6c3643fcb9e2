import LazyHeap.Proofs.Change
import LazyHeap.Proofs.Opening

/-!
Performing tasks. A task never fails at a sound moment, and leaves a sound moment. It changes nothing about the
cells that are reached from what is held but their counts and their place in the buffer. So a list of tasks can
always be performed to its end.
-/
namespace LazyHeap

/-- A cell without its counts and its owner, and without what the collector knows about it. -/
def Cell.core (x : Cell) : Cell :=
  { x with
    shared := 0
    weak := 0
    reachable := 0
    owner := none
    flags.colour := .black
    flags.buffered := false }

theorem Cell.frozen_of_freezing {x y : Cell} (h : x.flags.freezing = y.flags.freezing) : x.frozen = y.frozen := by
  simp only [Cell.frozen, Flags.frozen, h]

theorem Cell.frozen_of_core {x y : Cell} (h : x.core = y.core) : x.frozen = y.frozen :=
  (congrArg Cell.frozen h :)

theorem Cell.body_of_core {x y : Cell} (h : x.core = y.core) : x.body = y.body :=
  (congrArg Cell.body h :)

theorem Body.emptied_emptied (b : Body) : b.emptied.emptied = b.emptied := by
  cases b with
  | object o => simp [emptied, Object.emptied, Function.comp_def]
  | label l => rfl

theorem Body.tasks_emptied (b : Body) : b.emptied.tasks = [] := by
  cases b with
  | object o =>
    simp only [emptied, tasks, Object.emptied, Object.links, List.flatMap_eq_nil_iff]
    intro l hl
    obtain ⟨f, hf, hl⟩ := List.mem_flatMap.1 hl
    obtain ⟨g, -, rfl⟩ := List.mem_map.1 hf
    cases hl
  | label l => rfl

/-- Values have only been given up, by cells that were destroyed. -/
structure Heap.Fades (h h' : Heap) : Prop where
  freezing : ∀ c, (h'.cell c).flags.freezing = (h.cell c).flags.freezing
  destroyed : ∀ c, (h.cell c).destroyed = true → (h'.cell c).destroyed = true
  body : ∀ c, (h'.cell c).body = (h.cell c).body ∨
    ((h'.cell c).body = (h.cell c).body.emptied ∧ (h'.cell c).destroyed = true)

namespace Heap.Fades

variable {h h' h'' : Heap}

theorem frozen (hf : h.Fades h') (c : CellId) : (h'.cell c).frozen = (h.cell c).frozen :=
  Cell.frozen_of_freezing (hf.freezing c)

protected theorem refl (h : Heap) : h.Fades h := ⟨fun _ => rfl, fun _ => id, fun _ => .inl rfl⟩

protected theorem trans (h₁ : h.Fades h') (h₂ : h'.Fades h'') : h.Fades h'' where
  freezing c := (h₂.freezing c).trans (h₁.freezing c)
  destroyed c hd := h₂.destroyed c (h₁.destroyed c hd)
  body c := by
    rcases h₁.body c with hb | ⟨hb, hd⟩ <;> rcases h₂.body c with hb' | ⟨hb', hd'⟩ <;> rw [hb', hb]
    · exact .inl rfl
    · exact .inr ⟨rfl, hd'⟩
    · exact .inr ⟨rfl, h₂.destroyed c hd⟩
    · exact .inr ⟨Body.emptied_emptied _, hd'⟩

theorem body_of_live (hf : h.Fades h') {c : CellId} (hc : (h'.cell c).destroyed = false) :
    (h'.cell c).body = (h.cell c).body := by
  rcases hf.body c with hb | ⟨-, hd⟩
  · exact hb
  · rw [hc] at hd
    cases hd

theorem mem_edges (hf : h.Fades h') {c d : CellId} (hd : d ∈ (h'.cell c).edges) : d ∈ (h.cell c).edges := by
  rcases hf.body c with hb | ⟨hb, -⟩
  · simpa only [Cell.edges, hb] using hd
  · rw [← Cell.release_mem_tasks, hb, Body.tasks_emptied] at hd
    cases hd

theorem of_differs {c : CellId} (hd : h.Differs h' c)
    (hf : (h'.cell c).flags.freezing = (h.cell c).flags.freezing)
    (hkeep : (h.cell c).destroyed = true → (h'.cell c).destroyed = true)
    (hb : (h'.cell c).body = (h.cell c).body ∨
      ((h'.cell c).body = (h.cell c).body.emptied ∧ (h'.cell c).destroyed = true)) : h.Fades h' where
  freezing d := by
    by_cases hdc : d = c
    · exact hdc ▸ hf
    · rw [hd.others d hdc]
  destroyed d := by
    by_cases hdc : d = c
    · exact hdc ▸ hkeep
    · rw [hd.others d hdc]
      exact id
  body d := by
    by_cases hdc : d = c
    · exact hdc ▸ hb
    · exact .inl (by rw [hd.others d hdc])

end Heap.Fades

/-- What is reached from references in hand is kept. -/
structure Heap.Kept (hold : List Task) (h h' : Heap) : Prop where
  cell : ∀ c, h.Reach (h.Held hold) c → (h'.cell c).core = (h.cell c).core
  fades : h.Fades h'
  grows : h.Grows h'
  size : h'.size = h.size
  scopes : h'.scopes = h.scopes
  nextSerial : h'.nextSerial = h.nextSerial

namespace Heap.Kept

variable {h h' h'' : Heap} {hold : List Task}

protected theorem refl (hold : List Task) (h : Heap) : h.Kept hold h :=
  ⟨fun _ _ => rfl, .refl h, .refl h, rfl, rfl, rfl⟩

theorem held (hk : h.Kept hold h') {c : CellId} : h'.Held hold c ↔ h.Held hold c := by
  simp only [Held, standing, hk.scopes]

theorem edges (hk : h.Kept hold h') {c : CellId} (hr : h.Reach (h.Held hold) c) :
    (h'.cell c).edges = (h.cell c).edges := (congrArg Cell.edges (hk.cell c hr) :)

theorem body (hk : h.Kept hold h') {c : CellId} (hr : h.Reach (h.Held hold) c) :
    (h'.cell c).body = (h.cell c).body := (congrArg Cell.body (hk.cell c hr) :)

theorem reach (hk : h.Kept hold h') {c : CellId} (hr : h.Reach (h.Held hold) c) :
    h'.Reach (h'.Held hold) c :=
  hr.mono (fun _ hc => .source (hk.held.2 hc)) fun _ _ hx he hx' => .edge hx' (hk.edges hx ▸ he)

protected theorem trans (h₁ : h.Kept hold h') (h₂ : h'.Kept hold h'') : h.Kept hold h'' where
  cell c hr := (h₂.cell c (h₁.reach hr)).trans (h₁.cell c hr)
  fades := h₁.fades.trans h₂.fades
  grows := h₁.grows.trans h₂.grows
  size := h₂.size.trans h₁.size
  scopes := h₂.scopes.trans h₁.scopes
  nextSerial := h₂.nextSerial.trans h₁.nextSerial

theorem subset {hold' : List Task} (hk : h.Kept hold h') (hsub : ∀ t ∈ hold', t ∈ hold) :
    h.Kept hold' h' :=
  { hk with cell := fun c hr => hk.cell c (hr.subset fun _ => Or.imp_left (hsub _)) }

theorem of_differs {c : CellId} (hd : h.Differs h' c) (hg : h.Grows h') (hf : h.Fades h')
    (hserial : h'.nextSerial = h.nextSerial)
    (hc : h.Reach (h.Held hold) c → (h'.cell c).core = (h.cell c).core) : h.Kept hold h' where
  cell d hr := by
    by_cases hdc : d = c
    · exact hdc ▸ hc (hdc ▸ hr)
    · rw [hd.others d hdc]
  fades := hf
  grows := hg
  size := hd.size
  scopes := hd.scopes
  nextSerial := hserial

end Heap.Kept

namespace Heap

/-- Makes a cell a candidate, as `buffer` does, but starts no round. -/
def note (h : Heap) (c : CellId) : Heap × List Task :=
  let flags := (h.cell c).flags
  if flags.collected || flags.destroyed then (h, [.unpin c])
  else
    let h := h.update c fun x => (x.setColour .purple).setBuffered true
    if flags.buffered then (h, [.unpin c])
    else ({ h with candidates := h.candidates.push c }.fixSettings, [])

/-- Performs one task, but starts no round. -/
def work (h : Heap) : Task → Except Fault (Heap × List Task)
  | .release c =>
    let x := h.cell c
    if x.flags.collected then .ok (h, [])
    else match x.shared with
      | 0 => .error (.sharedUnderflow x.kind)
      | n + 1 =>
        let h := h.update c fun x => { x with shared := n, weak := x.weak + 1 }
        if n = 0 then
          match h.destroy c with
          | .error e => .error e
          | .ok (h, ts) => .ok (h, ts ++ [.unpin c])
        else .ok (h.note c)
  | t => h.perform t

theorem buffer_cases (h : Heap) (c : CellId) : h.buffer c = .ok (h.note c) ∨
    (∃ k, h.note c = (k, []) ∧ k.inRound = false ∧
      h.buffer c = k.openRound.map fun r => (r.1, r.2.1)) := by
  simp only [buffer, note]
  split
  · exact .inl rfl
  · split
    · exact .inl rfl
    · split
      · next hr =>
        simp only [Bool.and_eq_true, Bool.not_eq_true'] at hr
        refine .inr ⟨_, rfl, hr.2, ?_⟩
        cases ({ h.update c fun x => (x.setColour .purple).setBuffered true with
          candidates := (h.update c fun x => (x.setColour .purple).setBuffered true).candidates.push c
            } : Heap).fixSettings.openRound <;> rfl
      · exact .inl rfl

/-- Performing a task is working on it, and then perhaps opening a round. -/
theorem perform_cases (h : Heap) (t : Task) : h.perform t = h.work t ∨
    ∃ k, h.work t = .ok (k, []) ∧ k.inRound = false ∧
      h.perform t = k.openRound.map fun r => (r.1, r.2.1) := by
  cases t with
  | release c =>
    simp only [perform, work]
    by_cases hcol : (h.cell c).flags.collected = true
    · simp only [hcol, if_true, true_or]
    · simp only [hcol, Bool.false_eq_true, if_false]
      cases hn : (h.cell c).shared with
      | zero => exact .inl rfl
      | succ n =>
        by_cases h0 : n = 0
        · subst h0
          exact .inl rfl
        · simp only [h0, if_false]
          rcases buffer_cases (h.update c fun x => { x with shared := n, weak := x.weak + 1 }) c with
            hb | ⟨k, hk, hr, hb⟩
          · exact .inl hb
          · exact .inr ⟨k, by rw [hk], hr, hb⟩
  | _ => exact .inl rfl

end Heap

theorem Body.fits_emptied {h : Heap} {c : CellId} {b : Body} (hb : b.Fits sealed h c) :
    b.emptied.Fits sealed h c := by
  cases b with
  | object o =>
    refine ⟨?_, fun l hl => ?_⟩
    · have : (o.emptied.fields.map (·.name)) = o.fields.map (·.name) := by
        simp [Object.emptied, Function.comp_def]
      exact this ▸ hb.1
    · obtain ⟨f, hf, hl⟩ := List.mem_flatMap.1 hl
      obtain ⟨g, -, rfl⟩ := List.mem_map.1 hf
      cases hl
  | label l => exact Label.Fits.of_nil _ rfl rfl

theorem Body.locks_emptied (b : Body) : b.emptied.locks = b.locks := by
  cases b with
  | object o => simp [emptied, locks, Object.emptied, List.filter_map, Function.comp_def]
  | label l => rfl

variable {sealed : CellId → Prop} {h h' : Heap} {locks : List Lock} {ts held : List Task} {c : CellId}
variable {t : Task}

def Cell.demolished (x : Cell) (weak : Nat) : Cell :=
  { x with shared := 0, weak := weak, flags.destroyed := true, body := x.body.emptied }

/-- Destroying a cell that lost its last owner, or that was claimed, keeps a moment sound: what the cell owned
becomes pending. -/
theorem Sound.demolish (hs : Sound sealed ⟨h, locks, t :: ts, held⟩) (hd : (h.cell c).destroyed = false)
    {k : Nat} (ht : (t = .release c ∧ (h.cell c).flags.collected = false ∧ (h.cell c).shared = 1 ∧ k = 1) ∨
      (t = .perish c ∧ (h.cell c).flags.collected = true ∧ k = 0)) (hdiff : h.Differs h' c)
    (hcell : h'.cell c = (h.cell c).demolished ((h.cell c).weak + k))
    (hcand : h'.candidates = h.candidates) (hround : h'.inRound = h.inRound) :
    Sound sealed ⟨h', locks, (h.cell c).body.tasks ++ [.disown c, .unpin c] ++
      List.replicate k (.unpin c) ++ ts, held⟩ := by
  have hc : c < h.size := Heap.lt_size_of_cell_ne fun he => by
    rw [he] at hd
    cases hd
  let h₁ := h.update c fun x => { x with body := x.body.emptied }
  have hcell₁ : h₁.cell c = { h.cell c with body := (h.cell c).body.emptied } := h.cell_update_self _ hc
  have hdues : (h.cell c).dues = (h.cell c).body.tasks ++ (h.cell c).owner.toList.map .unpin := rfl
  have hdues₁ : (h₁.cell c).dues = (h.cell c).owner.toList.map .unpin := by
    rw [hcell₁, Cell.dues]
    simp only [Body.tasks_emptied, List.nil_append]
  have hedges₁ : (h₁.cell c).edges = [] := List.eq_nil_iff_forall_not_mem.2 fun d hd' => by
    have := Cell.release_mem_tasks.2 hd'
    rw [hcell₁] at this
    simp [Body.tasks_emptied] at this
  have hrefs : ∀ u ∈ (h.cell c).body.tasks, (∃ d, u = .disown d) ∨ u.isReference = true := fun u hu =>
    .inr (Cell.isReference_of_mem_dues (List.mem_append_left _ hu))
  have hgrows : h.Grows h₁ := (Heap.Differs.update h c _).grows
    (fun ho => ho.imp' Object.emptied fun o ho => by rw [hcell₁]; exact congrArg Body.emptied ho)
    fun hl => hl.imp' Label.emptied fun l hl => by rw [hcell₁]; exact congrArg Body.emptied hl
  have horder : Orderly h.inRound (t :: ts) := hs.orderly
  have horder' : Orderly h.inRound ts := by
    rcases ht with ⟨rfl, -⟩ | ⟨rfl, -⟩
    · exact horder
    · exact horder.2
  -- first the contents of the cell are taken out
  have hs₁ : Sound sealed ⟨h₁, locks, t :: ((h.cell c).body.tasks ++ ts), held⟩ := by
    refine hs.exchange (.update h c _) hc hcell₁ rfl rfl hgrows
      (Body.fits_emptied ((hs.fits c).grows hgrows)) (fun u _ => ?_) (fun _ => Body.tasks_emptied _)
      (fun _ _ => id) (fun d _ hd' => ?_) ?_ hs.held (fun k => ?_) (fun _ _ _ => Iff.rfl)
      (fun d hsrc _ => .source ?_) fun d hd' => .inr ?_
    · rw [hdues₁, hdues]
      simp only [List.count_append, List.count_cons]
      omega
    · rw [hedges₁] at hd'
      cases hd'
    · rcases ht with ⟨rfl, -⟩ | ⟨rfl, -⟩
      · exact horder'.prepend hrefs
      · exact ⟨horder.1, horder'.prepend hrefs⟩
    · rw [Body.locks_emptied]
      exact hs.locks c k
    · have hmem : ∀ {u}, u ∈ t :: ts → u ∈ t :: ((h.cell c).body.tasks ++ ts) := fun hu =>
        (List.mem_cons.1 hu).elim (fun he => he ▸ List.mem_cons_self) fun hu =>
          List.mem_cons_of_mem _ (List.mem_append_right _ hu)
      exact hsrc.imp_right (Or.imp hmem (Or.imp_left hmem))
    · exact .inr (.inl (List.mem_cons_of_mem _ (List.mem_append_left _ (Cell.release_mem_tasks.2 hd'))))
  have hdiff₁ : h₁.Differs h' c :=
    ⟨hdiff.size.trans (h.size_update c _).symm, fun d hdc => by
      rw [hdiff.others d hdc, h.cell_update_ne _ hdc], hdiff.scopes⟩
  have hroot : t = .release c → c ≠ rootCell := fun he hcr => by
    have h₁ := hs.root.1
    have h₂ : 0 < h.standing.count (.release rootCell) := List.count_pos_iff.2 List.mem_cons_self
    rw [he, hcr] at h₁
    simp only [Moment.claims, List.count_cons_self] at h₁
    omega
  have hcell' : h'.cell c = { (h₁.cell c) with
      shared := 0, weak := (h.cell c).weak + k, flags.destroyed := true } := by
    rw [hcell, hcell₁]
    rfl
  have hx₁ : (h₁.cell c).flags = (h.cell c).flags ∧ (h₁.cell c).shared = (h.cell c).shared ∧
      (h₁.cell c).weak = (h.cell c).weak := by
    rw [hcell₁]
    exact ⟨rfl, rfl, rfl⟩
  have hd₁ : (h₁.cell c).destroyed = false := (congrArg (·.destroyed) hx₁.1 :).trans hd
  have hbuf : h'.Buffered := by
    have hflags : ∀ d, (h'.cell d).flags.colour = (h₁.cell d).flags.colour ∧
        (h'.cell d).flags.buffered = (h₁.cell d).flags.buffered := fun d => by
      by_cases hdc : d = c
      · rw [hdc, hcell']
        exact ⟨rfl, rfl⟩
      · rw [hdiff₁.others d hdc]
        exact ⟨rfl, rfl⟩
    obtain ⟨b₁, b₂, b₃⟩ := hs₁.buffered
    refine ⟨fun d => ?_, fun d => ?_, hcand ▸ b₃⟩
    · rw [(hflags d).1, (hflags d).2]
      exact b₁ d
    · rw [hcand, (hflags d).2]
      exact b₂ d
  have hcand₁ : h'.candidates = h₁.candidates := hcand
  have hrep : ∀ u, (List.replicate k (Task.unpin c)).count u = if u = .unpin c then k else 0 :=
    fun u => by
      by_cases hu : u = .unpin c
      · simp [hu]
      · rw [if_neg hu, List.count_replicate, if_neg (by simpa using Ne.symm hu)]
  have hc₁ : c < h₁.size := (h.size_update c _).symm ▸ hc
  refine hs₁.recount hdiff₁ hc₁ (by rw [hcell']) (by rw [hcell'])
    (by rw [hcell']) (fun hcol => ?_) (fun d hdc => ?_) ?_ (fun d hdc => ?_) (fun _ => ?_)
    (fun hd' => ?_) (fun hd' => ?_) (fun _ _ => id) ?_ (fun d hdc => ?_) hbuf ?_ hs.held ?_
    fun d hsrc hd' => .source ?_
  · rcases ht with ⟨rfl, -, hone, -⟩ | ⟨-, hcol', -⟩
    · rw [hcell', hx₁.2.1, hone]
      simp [List.count_append, hrep]
      omega
    · rw [hx₁.1, hcol'] at hcol
      cases hcol
  · rcases ht with ⟨rfl, -⟩ | ⟨rfl, -⟩ <;>
      simp [List.count_append, hrep, Ne.symm hdc]
  · rw [hcell', hcand₁, hx₁.2.2, hd₁]
    rcases ht with ⟨rfl, -⟩ | ⟨rfl, -⟩ <;>
      simp [List.count_append, hrep, Cell.destroyed] <;> omega
  · rw [hcand₁]
    rcases ht with ⟨rfl, -⟩ | ⟨rfl, -⟩ <;>
      simp [List.count_append, hrep, hdc, Ne.symm hdc]
  · rw [hcell']
    exact ⟨rfl, by rw [hcell₁]; exact Body.tasks_emptied _⟩
  · rw [hcell'] at hd'
    cases hd'
  · rw [hcell']
    rfl
  · have hp := hs₁.perish c
    have hnone : (h.cell c).body.tasks.count (.perish c) = 0 := List.count_eq_zero.2 fun hm => by
      rcases hrefs _ hm with ⟨_, he⟩ | he <;> cases he
    rw [hcell']
    simp only [Cell.destroyed, Bool.not_true, Bool.and_false, Bool.false_eq_true, if_false]
    simp only [hd₁, hx₁.1, Bool.not_false, Bool.and_true] at hp
    rcases ht with ⟨rfl, hcol', -⟩ | ⟨rfl, hcol', -⟩
    · rw [hcol'] at hp
      simp [List.count_append, hrep, hnone] at hp ⊢
      exact hp
    · rw [hcol'] at hp
      simp [List.count_append, hrep, hnone] at hp ⊢
      exact hp
  · rcases ht with ⟨rfl, -⟩ | ⟨rfl, -⟩ <;>
      simp [List.count_append, hrep, Ne.symm hdc]
  · rw [hround]
    refine horder'.prepend fun u hu => ?_
    simp only [List.mem_append, List.mem_cons, List.not_mem_nil, or_false, List.mem_replicate] at hu
    rcases hu with (hu | rfl | rfl) | ⟨-, rfl⟩
    · exact hrefs u hu
    · exact .inl ⟨c, rfl⟩
    · exact .inr rfl
    · exact .inr rfl
  · rcases ht with ⟨rfl, -⟩ | ⟨rfl, -⟩
    · have := hroot rfl
      simp [List.count_append, hrep, this]
    · simp [List.count_append, hrep]
  · have hdc : d ≠ c := fun hdc => by
      rw [hdc, hcell'] at hd'
      cases hd'
    have hmem : ∀ {u}, (u = .release d ∨ u = .perish d) → u ∈ t :: ((h.cell c).body.tasks ++ ts) →
        u ∈ (h.cell c).body.tasks ++ [.disown c, .unpin c] ++ List.replicate k (.unpin c) ++ ts := by
      intro u hu hm
      have hne : u ≠ t := fun he => by
        rcases ht with ⟨rfl, -⟩ | ⟨rfl, -⟩ <;> rcases hu with rfl | rfl <;> cases he <;>
          exact hdc rfl
      rcases List.mem_append.1 ((List.mem_cons.1 hm).resolve_left hne) with hm | hm
      · simp [hm]
      · simp [hm]
    have hheld : h₁.Held held d ↔ h'.Held held d := by
      simp only [Heap.Held, Heap.standing, hdiff₁.scopes]
    refine hsrc.imp hheld.1 (Or.imp (hmem (.inl rfl)) (Or.imp (hmem (.inr rfl)) (Or.imp_left ?_)))
    exact fun h => hcand₁ ▸ h

theorem Heap.destroy_eq (h : Heap) {c : CellId} (hc : c < h.size)
    (hd : (h.cell c).destroyed = false) :
    ∃ h', h.destroy c = .ok (h', (h.cell c).body.tasks ++ [.disown c, .unpin c]) ∧
      h.Differs h' c ∧ h'.candidates = h.candidates ∧ h'.inRound = h.inRound ∧
      h'.nextSerial = h.nextSerial ∧ h'.cell c =
        { h.cell c with flags.destroyed := true, body := (h.cell c).body.emptied } := by
  have hd : (h.cell c).flags.destroyed = false := hd
  let h₁ := h.update c fun x => { x with flags.destroyed := true, body := x.body.emptied }
  have hself : h₁.cell c = _ := h.cell_update_self _ hc
  have hall : ∀ k : Heap, (k = h₁ ∨ ∃ e, k = h₁.record e) → h.Differs k c ∧
      k.candidates = h.candidates ∧ k.inRound = h.inRound ∧ k.nextSerial = h.nextSerial ∧
      k.cell c = { h.cell c with flags.destroyed := true, body := (h.cell c).body.emptied } := by
    rintro k (rfl | ⟨e, rfl⟩)
    · exact ⟨.update h c _, rfl, rfl, rfl, hself⟩
    · exact ⟨⟨h.size_update c _, fun _ hd => h.cell_update_ne _ hd, rfl⟩, rfl, rfl, rfl, hself⟩
  simp only [destroy, hd, Bool.false_eq_true, if_false]
  refine ⟨_, rfl, hall _ ?_⟩
  split
  · exact .inr ⟨_, rfl⟩
  · exact .inl rfl

namespace Sound

private theorem not_reach_of_last (hs : Sound sealed ⟨h, locks, .release c :: ts, held⟩)
    (hcol : (h.cell c).flags.collected = false) (hone : (h.cell c).shared = 1) :
    ¬ h.Reach (h.Held held) c := by
  have hclaims := hs.shared c hcol
  simp only [hone, Moment.claims, List.count_cons_self] at hclaims
  intro hr
  cases hr with
  | source hh =>
    rcases hh with hh | hh
    · have := List.count_pos_iff.2 hh
      omega
    · have := List.count_pos_iff.2 hh
      omega
  | edge _ he =>
    have := Heap.inward_pos he
    rw [← Heap.due_release] at this
    omega

/-- References in hand and pending tasks may change places, and a task that does nothing may go. -/
theorem repend (hs : Sound sealed ⟨h, locks, ts, held⟩) {ts' held' : List Task}
    (hrel : ∀ d, (h.cell d).flags.collected = false →
      (ts ++ held).count (.release d) = (ts' ++ held').count (.release d))
    (hpin : ∀ d, (ts ++ held).count (.unpin d) = (ts' ++ held').count (.unpin d))
    (hheld : ∀ d, (h.cell d).flags.collected = true → .release d ∈ held' → .release d ∈ held)
    (hperish : ∀ d, ts'.count (.perish d) = ts.count (.perish d))
    (horder : Orderly h.inRound ts') (href : ∀ t ∈ held', t.isReference = true)
    (hcov : ∀ d, (Moment.mk h locks ts held).Source d → (h.cell d).destroyed = false →
      (Moment.mk h locks ts' held').Source d) : Sound sealed ⟨h, locks, ts', held'⟩ := by
  have hclaims : ∀ t, (Moment.mk h locks ts' held').claims t + (ts ++ held).count t =
      (Moment.mk h locks ts held).claims t + (ts' ++ held').count t := fun t => by
    simp only [Moment.claims, List.count_append]
    omega
  have hlive := hs.live_of_held (.inr List.mem_cons_self)
  exact {
    shared := fun c hcol => by
      have h₁ := hclaims (.release c)
      have h₂ := hrel c hcol
      have h₃ := hs.shared c hcol
      simp only at h₃ ⊢
      omega
    weak := fun c => by
      have h₁ := hclaims (.unpin c)
      have h₂ := hpin c
      have h₃ := hs.weak c
      simp only at h₃ ⊢
      omega
    dead := hs.dead
    live := hs.live
    collected := fun c hcol =>
      ⟨fun hh => (hs.collected c hcol).1 (hh.imp_left (hheld c hcol)), (hs.collected c hcol).2⟩
    perish := fun c => (hperish c).trans (hs.perish c)
    buffered := hs.buffered
    orderly := horder
    held := href
    fits := hs.fits
    scopes := hs.scopes
    locks := hs.locks
    root := by
      have h₁ := hclaims (.release rootCell)
      have h₂ := hrel rootCell hlive.collected
      exact ⟨by have := hs.root.1; omega, hs.root.2⟩
    covered := by
      have key : ∀ d, h.Reach (Moment.mk h locks ts held).Source d → (h.cell d).destroyed = false →
          h.Reach (Moment.mk h locks ts' held').Source d := by
        intro d hr
        induction hr with
        | source hsrc => exact fun hd => .source (hcov _ hsrc hd)
        | @edge x d _ he ih =>
          intro _
          refine .edge (ih ?_) he
          rw [← Bool.not_eq_true]
          intro hx
          have hnil : (h.cell x).edges = [] := hs.destroyed_edges hx
          rw [hnil] at he
          cases he
      exact fun c hd hcol => key c (hs.covered c hd hcol) hd }

private def Works (sealed : CellId → Prop) (h : Heap) (locks : List Lock) (t : Task)
    (ts held : List Task) : Prop :=
  ∃ h' new, h.work t = .ok (h', new) ∧ Sound sealed ⟨h', locks, new ++ ts, held⟩ ∧ h.Kept held h'

private theorem work_unpin (hs : Sound sealed ⟨h, locks, .unpin c :: ts, held⟩) :
    Works sealed h locks (.unpin c) ts held := by
  have hw := hs.weak c
  simp only [Moment.claims, List.count_cons_self] at hw
  obtain ⟨n, hn⟩ : ∃ n, (h.cell c).weak = n + 1 := ⟨(h.cell c).weak - 1, by omega⟩
  have hc : c < h.size := Heap.lt_size_of_cell_ne fun he => by
    rw [he] at hn
    cases hn
  let h' := h.update c fun x => { x with weak := n }
  have hself : h'.cell c = { h.cell c with weak := n } := h.cell_update_self _ hc
  have hdiff : h.Differs h' c := .update h c _
  have hbuf : h'.Buffered := by
    have hflags : ∀ d, (h'.cell d).flags = (h.cell d).flags := fun d => by
      by_cases hdc : d = c
      · rw [hdc, hself]
      · rw [hdiff.others d hdc]
    obtain ⟨b₁, b₂, b₃⟩ := hs.buffered
    exact ⟨fun d => by rw [hflags]; exact b₁ d, fun d => by rw [hflags]; exact b₂ d, b₃⟩
  have hdest : (h'.cell c).destroyed = (h.cell c).destroyed := by
    rw [hself]
    rfl
  have hcol : (h'.cell c).flags.collected = (h.cell c).flags.collected := by rw [hself]
  have hperish := hs.perish c
  refine ⟨h', [], by simp only [Heap.work, Heap.perform, hn, h'], ?_, ?_⟩
  · refine hs.recount hdiff hc (by rw [hself]) (by rw [hself]) (by rw [hself])
      (fun _ => by rw [hself]; simp) (fun d _ => by simp) ?_ (fun d hdc => ?_) ?_ ?_ ?_
      (fun _ _ => id) ?_ (fun d _ => by simp) hbuf hs.orderly hs.held (by simp)
      fun d hsrc _ => .source ?_
    · have hweak : (h'.cell c).weak = n := by rw [hself]
      have hcand : h'.candidates = h.candidates := rfl
      rw [hweak, hn, hdest, hcand]
      simp only [List.nil_append, List.cons_append, List.count_cons_self]
      omega
    · show _ = _ + h.candidates.toList.count d
      simp [Ne.symm hdc]
    · rw [hself]
      exact hs.dead c
    · rw [hself]
      exact hs.live c
    · rw [hself]
      exact id
    · rw [hdest, hcol]
      simpa using hperish
    · exact hsrc.imp_right (Or.imp (fun h => by simpa using h) (Or.imp_left fun h => by simpa using h))
  · have hbody : (h'.cell c).body = (h.cell c).body := by rw [hself]
    exact .of_differs hdiff (hdiff.grows_of_body hbody)
      (.of_differs hdiff (by rw [hself]) (by rw [hself]; exact id) (.inl hbody)) rfl fun _ => by
        rw [hself]
        rfl

private theorem noted (hs : Sound sealed ⟨h, locks, .release c :: ts, held⟩) (hlive : h.Live c) {n : Nat}
    (hn : (h.cell c).shared = n + 1) (hpos : 0 < n) (hdiff : h.Differs h' c)
    (hself : h'.cell c = { h.cell c with
      shared := n
      weak := (h.cell c).weak + 1
      flags.colour := .purple
      flags.buffered := true })
    (hround : h'.inRound = h.inRound) {new : List Task}
    (hnew : (h.cell c).flags.buffered = true ∧ new = [.unpin c] ∧
        h'.candidates.toList = h.candidates.toList ∨
      (h.cell c).flags.buffered = false ∧ new = [] ∧
        h'.candidates.toList = h.candidates.toList ++ [c]) :
    Sound sealed ⟨h', locks, new ++ ts, held⟩ := by
  have hc : c < h.size := hlive.lt_size
  have hdest : (h'.cell c).destroyed = false := by
    rw [hself]
    exact hlive.destroyed
  have hcol : (h'.cell c).flags.collected = false := by
    rw [hself]
    exact hlive.collected
  have hshared : (h'.cell c).shared = n := by rw [hself]
  have hweak : (h'.cell c).weak = (h.cell c).weak + 1 := by rw [hself]
  obtain ⟨b₁, b₂, b₃⟩ := hs.buffered
  have hmem : ∀ d, d ∈ h'.candidates.toList ↔ d = c ∨ d ∈ h.candidates.toList := fun d => by
    rcases hnew with ⟨hb, -, hcand⟩ | ⟨hb, -, hcand⟩
    · rw [hcand]
      exact ⟨.inr, fun hd => hd.elim (fun he => he ▸ (b₂ c).2 hb) id⟩
    · rw [hcand, List.mem_append, List.mem_singleton, or_comm]
  have hbuf : h'.Buffered := by
    refine ⟨fun d => ?_, fun d => ?_, ?_⟩
    · by_cases hdc : d = c
      · rw [hdc, hself]
        rfl
      · rw [hdiff.others d hdc]
        exact b₁ d
    · rw [hmem]
      by_cases hdc : d = c
      · rw [hdc, hself]
        simp
      · rw [hdiff.others d hdc, or_iff_right hdc]
        exact b₂ d
    · rcases hnew with ⟨hb, -, hcand⟩ | ⟨hb, -, hcand⟩
      · exact hcand ▸ b₃
      · rw [hcand]
        have hnm : c ∉ h.candidates.toList := fun hm => by
          have hm : (h.cell c).flags.buffered = true := (b₂ c).1 hm
          rw [hb] at hm
          cases hm
        exact List.nodup_append.2 ⟨b₃, by simp, fun x hx y hy => by
          rw [List.mem_singleton.1 hy]
          exact fun he => hnm (he ▸ hx)⟩
  have hcount : ∀ d, new.count (.unpin d) + h.candidates.toList.count d + (if d = c then 1 else 0) =
      h'.candidates.toList.count d + 2 * new.count (.unpin d) := fun d => by
    rcases hnew with ⟨-, rfl, hcand⟩ | ⟨-, rfl, hcand⟩
    · rw [hcand]
      by_cases hdc : d = c
      · simp [hdc]
        omega
      · simp [hdc, Ne.symm hdc]
    · rw [hcand, List.count_append]
      by_cases hdc : d = c
      · simp [hdc]
      · simp [hdc, Ne.symm hdc]
  have hrefs : ∀ d, new.count (.release d) = 0 ∧ new.count (.perish d) = 0 := fun d => by
    rcases hnew with ⟨-, rfl, -⟩ | ⟨-, rfl, -⟩ <;> simp
  have hpins : ∀ d, d ≠ c → new.count (.unpin d) = 0 := fun d hdc => by
    rcases hnew with ⟨-, rfl, -⟩ | ⟨-, rfl, -⟩ <;> simp [Ne.symm hdc]
  have hroot : c ≠ rootCell := fun hcr => by
    have h₁ := hs.root.1
    have h₂ : 0 < h.standing.count (.release rootCell) := List.count_pos_iff.2 List.mem_cons_self
    rw [hcr] at h₁
    simp only [Moment.claims, List.count_cons_self] at h₁
    omega
  refine hs.recount hdiff hc (by rw [hself]) (by rw [hself]) (by rw [hself]) (fun _ => ?_)
    (fun d hdc => ?_) ?_ (fun d hdc => ?_) (fun hd => ?_) (fun _ _ => hshared ▸ hpos) (fun hd => ?_)
    (fun _ _ => id) ?_ (fun d _ => ?_) hbuf ?_ hs.held ?_ fun d hsrc _ => .source ?_
  · rw [hshared, hn]
    simp only [List.cons_append, List.count_cons_self, List.count_append, (hrefs c).1]
    omega
  · simp [List.count_append, (hrefs d).1, Ne.symm hdc]
  · have := hcount c
    rw [hweak, hlive.destroyed, hdest]
    simp [List.count_append] at this ⊢
    omega
  · have := hcount d
    simp [List.count_append, hpins d hdc, hdc] at this ⊢
    omega
  · rw [hdest] at hd
    cases hd
  · rw [hlive.destroyed] at hd
    cases hd
  · have := hs.perish c
    rw [hcol]
    simp [List.count_append, (hrefs c).2, hlive.collected] at this ⊢
    exact this
  · simp [List.count_append, (hrefs d).2]
  · rw [hround]
    refine Orderly.prepend (b := h.inRound) hs.orderly fun u hu => .inr ?_
    rcases hnew with ⟨-, rfl, -⟩ | ⟨-, rfl, -⟩
    · rw [List.mem_singleton.1 hu]
      rfl
    · cases hu
  · simp [List.count_append, (hrefs rootCell).1, hroot]
  · rcases hsrc with hsrc | hsrc | hsrc | hsrc | hsrc
    · exact .inl (hsrc.imp_right fun h => by rwa [Heap.standing, hdiff.scopes])
    · rcases List.mem_cons.1 hsrc with he | hsrc
      · cases he
        exact .inr (.inr (.inr (.inl ((hmem c).2 (.inl rfl)))))
      · exact .inr (.inl (List.mem_append_right _ hsrc))
    · exact .inr (.inr (.inl (List.mem_append_right _ (by simpa using hsrc))))
    · exact .inr (.inr (.inr (.inl ((hmem d).2 (.inr hsrc)))))
    · exact .inr (.inr (.inr (.inr hsrc)))

private theorem work_release (hs : Sound sealed ⟨h, locks, .release c :: ts, held⟩) :
    Works sealed h locks (.release c) ts held := by
  by_cases hcol : (h.cell c).flags.collected = true
  · -- counts into a claimed cell do not matter any more
    refine ⟨h, [], by simp only [Heap.work, hcol, if_true], ?_, .refl _ _⟩
    refine hs.repend (fun d hd => ?_) (fun d => by simp) (fun _ _ => id) (fun d => by simp)
      hs.orderly hs.held fun d hsrc hd => ?_
    · have hdc : c ≠ d := fun he => by
        rw [he, hd] at hcol
        cases hcol
      simp [hdc]
    · rcases hsrc with hsrc | hsrc | hsrc | hsrc
      · exact .inl hsrc
      · rcases List.mem_cons.1 hsrc with he | hsrc
        · -- a claimed cell that is still there is about to perish
          cases he
          have hp := hs.perish c
          simp only [hcol, hd] at hp
          refine .inr (.inr (.inl (List.count_pos_iff.1 ?_)))
          simp at hp
          show 0 < ts.count (.perish c)
          omega
        · exact .inr (.inl hsrc)
      · exact .inr (.inr (.inl (by simpa using hsrc)))
      · exact .inr (.inr (.inr hsrc))
  have hcol : (h.cell c).flags.collected = false := by simpa using hcol
  have hclaims := hs.shared c hcol
  have hpos : 0 < (h.cell c).shared := by
    simp only [Moment.claims, List.count_cons_self] at hclaims
    omega
  have hlive := hs.live_of_claims hcol (by rw [← hclaims]; exact hpos)
  have hc : c < h.size := hlive.lt_size
  obtain ⟨n, hn⟩ : ∃ n, (h.cell c).shared = n + 1 := ⟨(h.cell c).shared - 1, by omega⟩
  let h₁ := h.update c fun x => { x with shared := n, weak := x.weak + 1 }
  have hself₁ : h₁.cell c = { h.cell c with shared := n, weak := (h.cell c).weak + 1 } :=
    h.cell_update_self _ hc
  have hdiff₁ : h.Differs h₁ c := .update h c _
  have hd₁ : (h₁.cell c).destroyed = false := by
    rw [hself₁]
    exact hlive.destroyed
  by_cases hn0 : n = 0
  · subst hn0
    obtain ⟨h', hdes, hdiff, hcand, hround, hserial, hself⟩ :=
      h₁.destroy_eq ((h.size_update c _).symm ▸ hc) hd₁
    have hself' : h'.cell c = (h.cell c).demolished ((h.cell c).weak + 1) := by
      rw [hself, hself₁]
      rfl
    have hbody₁ : (h₁.cell c).body = (h.cell c).body := by rw [hself₁]
    rw [hbody₁] at hdes
    refine ⟨h', _, ?_, hs.demolish hlive.destroyed (.inl ⟨rfl, hcol, hn, rfl⟩)
      (hdiff₁.trans hdiff) hself' hcand hround, ?_⟩
    · simp only [Heap.work, hcol, Bool.false_eq_true, if_false, hn, if_true]
      rw [show Heap.destroy _ c = _ from hdes]
      rfl
    · refine .of_differs (hdiff₁.trans hdiff) ((hdiff₁.trans hdiff).grows ?_ ?_)
        (.of_differs (hdiff₁.trans hdiff) ?_ ?_ (.inr ⟨?_, ?_⟩)) hserial fun hr =>
          absurd hr (hs.not_reach_of_last hcol hn)
      · exact fun ⟨o, ho⟩ => ⟨o.emptied, by rw [hself']; exact congrArg Body.emptied ho⟩
      · exact fun ⟨l, hl⟩ => ⟨l.emptied, by rw [hself']; exact congrArg Body.emptied hl⟩
      · rw [hself']
        rfl
      · exact fun _ => by rw [hself']; rfl
      · rw [hself']
        rfl
      · rw [hself']
        rfl
  · -- other owners stay: the cell becomes a candidate, if it is none yet
    have hd₁' : (h₁.cell c).flags.destroyed = false := hd₁
    have hcol₁ : (h₁.cell c).flags.collected = false := by rw [hself₁]; exact hcol
    have hb₁ : (h₁.cell c).flags.buffered = (h.cell c).flags.buffered := by rw [hself₁]
    let h₂ := h₁.update c fun x => (x.setColour .purple).setBuffered true
    have hc₁ : c < h₁.size := (h.size_update c _).symm ▸ hc
    have hself₂ : h₂.cell c = { h.cell c with
        shared := n
        weak := (h.cell c).weak + 1
        flags.colour := .purple
        flags.buffered := true } := by
      rw [show h₂.cell c = _ from h₁.cell_update_self _ hc₁, hself₁]
      rfl
    have hdiff₂ : h.Differs h₂ c := hdiff₁.trans (.update h₁ c _)
    have hwork : h.work (.release c) = .ok (h₁.note c) := by
      simp only [Heap.work, hcol, Bool.false_eq_true, if_false, hn, hn0]
      rfl
    have hkept : ∀ {k : Heap}, h.Differs k c → k.cell c = h₂.cell c →
        k.nextSerial = h.nextSerial → h.Kept held k := fun hd hk hser =>
      have hbody : (_ : Cell).body = (h.cell c).body := by rw [hk, hself₂]
      .of_differs hd (hd.grows_of_body hbody)
        (.of_differs hd (by rw [hk, hself₂]) (by rw [hk, hself₂]; exact id) (.inl hbody))
        hser fun _ => by
          rw [hk, hself₂]
          rfl
    have hpos' : 0 < n := Nat.pos_of_ne_zero hn0
    cases hb : (h.cell c).flags.buffered with
    | true =>
      refine ⟨h₂, [.unpin c], ?_, hs.noted hlive hn hpos' hdiff₂ hself₂ rfl
        (.inl ⟨hb, rfl, rfl⟩), hkept hdiff₂ rfl rfl⟩
      rw [hwork]
      simp only [Heap.note, hcol₁, hd₁', hb₁, hb, Bool.or_self, Bool.false_eq_true, if_false, if_true]
      rfl
    | false =>
      let h₃ := { h₂ with candidates := h₂.candidates.push c }.fixSettings
      have hdiff₃ : h.Differs h₃ c := ⟨hdiff₂.size, hdiff₂.others, hdiff₂.scopes⟩
      refine ⟨h₃, [], ?_, hs.noted hlive hn hpos' hdiff₃ hself₂ rfl
        (.inr ⟨hb, rfl, Array.toList_push⟩), hkept hdiff₃ rfl rfl⟩
      rw [hwork]
      simp only [Heap.note, hcol₁, hd₁', hb₁, hb, Bool.or_self, Bool.false_eq_true, if_false]
      rfl

private theorem work_perish (hs : Sound sealed ⟨h, locks, .perish c :: ts, held⟩) :
    Works sealed h locks (.perish c) ts held := by
  obtain ⟨hcol, hd⟩ : (h.cell c).flags.collected = true ∧ (h.cell c).destroyed = false := by
    have hp := hs.perish c
    simp only [List.count_cons_self] at hp
    split at hp
    · next hx => simpa using hx
    · omega
  have hc : c < h.size := Heap.lt_size_of_cell_ne fun he => by
    rw [he] at hd
    cases hd
  let h₁ := h.update c fun x => { x with shared := 0 }
  have hself₁ : h₁.cell c = { h.cell c with shared := 0 } := h.cell_update_self _ hc
  have hdiff₁ : h.Differs h₁ c := .update h c _
  have hd₁ : (h₁.cell c).destroyed = false := by
    rw [hself₁]
    exact hd
  obtain ⟨h', hdes, hdiff, hcand, hround, hserial, hself⟩ :=
    h₁.destroy_eq ((h.size_update c _).symm ▸ hc) hd₁
  have hself' : h'.cell c = (h.cell c).demolished ((h.cell c).weak + 0) := by
    rw [hself, hself₁]
    rfl
  have hbody₁ : (h₁.cell c).body = (h.cell c).body := by rw [hself₁]
  rw [hbody₁] at hdes
  have hsound := hs.demolish hd (.inr ⟨rfl, hcol, rfl⟩) (hdiff₁.trans hdiff) hself' hcand hround
  refine ⟨h', _, hdes, by simpa using hsound, ?_⟩
  refine .of_differs (hdiff₁.trans hdiff) ((hdiff₁.trans hdiff).grows ?_ ?_)
    (.of_differs (hdiff₁.trans hdiff) ?_ ?_ (.inr ⟨?_, ?_⟩)) hserial fun hr => ?_
  · exact fun ⟨o, ho⟩ => ⟨o.emptied, by rw [hself']; exact congrArg Body.emptied ho⟩
  · exact fun ⟨l, hl⟩ => ⟨l.emptied, by rw [hself']; exact congrArg Body.emptied hl⟩
  · rw [hself']
    rfl
  · exact fun _ => by rw [hself']; rfl
  · rw [hself']
    rfl
  · rw [hself']
    rfl
  · have hlive : h.Live c := hs.live_of_reach hr
    rw [hlive.collected] at hcol
    cases hcol

private theorem work_disown (hs : Sound sealed ⟨h, locks, .disown c :: ts, held⟩) :
    Works sealed h locks (.disown c) ts held := by
  have horder : Orderly h.inRound ts := hs.orderly
  cases ho : (h.cell c).owner with
  | none =>
    refine ⟨h, [], by simp only [Heap.work, Heap.perform, ho], ?_, .refl _ _⟩
    refine hs.repend (fun d _ => by simp) (fun d => by simp) (fun _ _ => id) (fun d => by simp)
      horder hs.held fun d hsrc _ => ?_
    exact hsrc.imp_right (Or.imp (fun h => by simpa using h) (Or.imp_left fun h => by simpa using h))
  | some l =>
    have hc : c < h.size := Heap.lt_size_of_cell_ne fun he => by
      rw [he] at ho
      cases ho
    let h' := h.update c fun x => { x with owner := none }
    have hself : h'.cell c = { h.cell c with owner := none } := h.cell_update_self _ hc
    have hdiff : h.Differs h' c := .update h c _
    have hgrows : h.Grows h' := hdiff.grows_of_body (by rw [hself])
    have hdues : (h'.cell c).dues = (h.cell c).body.tasks := by
      rw [hself]
      exact List.append_nil _
    have hdues₀ : (h.cell c).dues = (h.cell c).body.tasks ++ [.unpin l] := by
      rw [Cell.dues, ho]
      rfl
    have hedges : (h'.cell c).edges = (h.cell c).edges := by
      rw [hself]
      rfl
    refine ⟨h', [.unpin l], by simp only [Heap.work, Heap.perform, ho]; rfl, ?_, ?_⟩
    · refine hs.exchange hdiff hc (b := (h.cell c).body) hself rfl rfl hgrows
        ((hs.fits c).grows hgrows) (fun t ht => ?_) (fun hd => (hs.dead c hd).2) (fun _ _ => id)
        (fun d hcol hd => ?_) horder hs.held (hs.locks c) (fun _ _ _ => Iff.rfl)
        (fun d hsrc _ => .source ?_) fun d hd => .inl (hedges ▸ hd)
      · rw [hdues, hdues₀]
        have := ht c
        simp [List.count_append, List.count_cons, Ne.symm this]
      · rw [hedges] at hd
        exact (hs.collected d hcol).2 c hd
      · refine hsrc.imp_right (Or.imp (fun h => ?_) (Or.imp_left fun h => ?_))
        · exact List.mem_append_right _ (by simpa using h)
        · exact List.mem_append_right _ (by simpa using h)
    · exact .of_differs hdiff hgrows (.of_differs hdiff (by rw [hself]) (by rw [hself]; exact id)
        (.inl (by rw [hself]))) rfl fun _ => by
          rw [hself]
          rfl

private theorem work_close {o : RoundOutcome} (hs : Sound sealed ⟨h, locks, .closeRound o :: ts, held⟩) :
    Works sealed h locks (.closeRound o) ts held := by
  have ho : Orderly h.inRound (.closeRound o :: ts) := hs.orderly
  refine ⟨_, [], rfl, ?_, ⟨fun _ _ => rfl, ⟨fun _ => rfl, fun _ => id, fun _ => .inl rfl⟩,
    ⟨Nat.le_refl _, fun _ => id, fun _ => id⟩, rfl, rfl, rfl⟩⟩
  have hother : ∀ t, (∀ o, t ≠ .closeRound o) → (Task.closeRound o :: ts).count t = ts.count t :=
    fun t ht => List.count_cons_of_ne (Ne.symm (ht o))
  have hclaims : ∀ t, (∀ o, t ≠ .closeRound o) →
      (Moment.mk h locks (.closeRound o :: ts) held).claims t = (Moment.mk h locks ts held).claims t :=
    fun t ht => by simp only [Moment.claims, hother t ht]
  have hsrc : ∀ c, (Moment.mk h locks (.closeRound o :: ts) held).Source c →
      (Moment.mk h locks ts held).Source c := fun c hc =>
    hc.imp_right (Or.imp (fun h => by simpa using h) (Or.imp_left fun h => by simpa using h))
  exact {
    shared := fun c hcol => (hs.shared c hcol).trans (hclaims _ (by simp))
    weak := fun c => by
      have := hs.weak c
      rw [hclaims _ (by simp)] at this
      exact this
    dead := hs.dead
    live := hs.live
    collected := hs.collected
    perish := fun c => (hother _ (by simp)).symm.trans (hs.perish c)
    buffered := ⟨hs.buffered.colour, hs.buffered.candidates, hs.buffered.nodup⟩
    orderly := ho.2
    held := hs.held
    fits := fun c => (hs.fits c).grows ⟨Nat.le_refl _, fun _ => id, fun _ => id⟩
    scopes := fun l hl => (hs.scopes l hl).grows ⟨Nat.le_refl _, fun _ => id, fun _ => id⟩
    locks := hs.locks
    root := ⟨(hclaims _ (by simp)).symm.trans hs.root.1, hs.root.2⟩
    covered := fun c hd hcol => (hs.covered c hd hcol).mono (fun d hd => .source (hsrc d hd))
      fun _ _ _ he hx => .edge hx he }

/-- Working on a task never fails, and what is held is kept. -/
theorem work (hs : Sound sealed ⟨h, locks, t :: ts, held⟩) :
    ∃ h' new, h.work t = .ok (h', new) ∧ Sound sealed ⟨h', locks, new ++ ts, held⟩ ∧ h.Kept held h' := by
  cases t with
  | release c => exact hs.work_release
  | unpin c => exact hs.work_unpin
  | perish c => exact hs.work_perish
  | disown c => exact hs.work_disown
  | closeRound o => exact hs.work_close

end Sound

end LazyHeap
