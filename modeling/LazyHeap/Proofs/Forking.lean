import LazyHeap.Proofs.Session.Collection

/-!
Forking loses no resolution. A fork removes the entries whose source has no owner, and what they owned may be destroyed
with them. A walk that starts at an object that is there never needs such an entry: its first source is there, and each
further one is a copy that an entry of the walk owns. So the label and its fork see what the label saw before.
-/
namespace LazyHeap

variable {h h' : Heap} {m m' : Memo} {c d o r x : CellId} {s : Label} {P : CellId → Prop}

/-! ### Forks -/

variable {rules : Rules} {locks : List Lock} {frame : List Task} {l : Handle}

/-- A fork of a label that is held, when nothing may thaw or freeze meanwhile: whatever is left of the objects is as frozen
as it was. -/
theorem fork_lasts (hh : Holding (.sparing fun _ => False) { fixed := fun _ => True } locks frame h [])
    (hb : (h.cell c).body = .label s) (hc : h.Held frame c) : ∃ h', fork c h = .ok (.counted h.size, h') ∧
      h'.size = h.size + 1 ∧ (h'.cell h.size).body = .label (.ofMemo (h.current s.memo)) ∧
      (h'.cell c).body = .label { s with memo := h.current s.memo } ∧ h'.Live c ∧ h.Lasts (fun _ => True) h' ∧
      Sound (fun _ => False) ⟨h', locks, [], .release h.size :: frame⟩ := by
  obtain ⟨_, h', hrun, d, rfl, rfl, hsize, -, -, hbd, hbc, hr⟩ :=
    (fork_spec (E := fun _ => False) hh hb hc id id id nofun).exists_ok
  have hsound := (hh.safe.steps hr.steps).1.toSound
  refine ⟨h', hrun, hsize, hbd, hbc, ?_, (Course.of_same hr.steps).lasts hh.safe.toFirm, hsound⟩
  apply hsound.live_of_held
  exact hc.imp (List.mem_append_right _) fun hm => by rwa [Heap.standing, hr.keeps.scopes]

/-- What is left of the objects after a fork is seen as before, by the label and by its fork, and all that the walks
come to is left as well. -/
theorem fork_agrees (hh : Holding (.sparing fun _ => False) { fixed := fun _ => True } locks frame h [])
    (hb : (h.cell c).body = .label s) (hc : h.Held frame c) : ∃ h', fork c h = .ok (.counted h.size, h') ∧
      (h'.cell h.size).body = .label (.ofMemo (h.current s.memo)) ∧
      (h'.cell c).body = .label { s with memo := h.current s.memo } ∧
      ∀ o, h'.IsObject o → (h'.cell o).alive = true →
        (∃ r, h.standIn c o = .ok r ∧ h'.standIn c o = .ok r ∧ h'.standIn h.size o = .ok r ∧ (h'.cell r).alive = true) ∧
        ∀ y, h.Passes s.memo o y ∨ h'.Passes (h.current s.memo) o y → (h'.cell y).alive = true := by
  obtain ⟨h', hrun, hsize, hbd, hbc, hlive, hlasts, hsound⟩ := fork_lasts hh hb hc
  refine ⟨h', hrun, hbd, hbc, fun o hobj ho => ?_⟩
  have hfits := hh.fits_label hb
  have hcopies : ∀ {o p}, s.memo.get? o = some p → p ∈ s.memo.copies := fun hget =>
    List.mem_map_of_mem (Memo.mem_of_get? hget)
  -- the copies of the label are there when the fork begins
  have halike : h.Alike s.memo h' (h.current s.memo) h.Live := by
    constructor
    · intro o ho
      exact hlasts.frozen True.intro ho.lt_size
    · intro o ho
      exact Heap.get?_current s.memo ho.alive
    · intro o p _ hget
      exact hh.safe.live_of_edge (hh.live_held hc) (Heap.mem_edges_of_copy hb (hcopies hget))
  have hstart : h.Live o := by
    have hlt : o < h.size := by
      have hlt := hobj.lt_size
      rw [hsize] at hlt
      apply Nat.lt_of_le_of_ne (Nat.le_of_lt_succ hlt)
      rintro rfl
      obtain ⟨y, hy⟩ := hobj
      rw [hbd] at hy
      cases hy
    apply hh.safe.live_of_not_destroyed rfl
    rw [← Bool.not_eq_true]
    intro hd
    rw [Cell.alive, show (h'.cell o).flags.destroyed = true from hlasts.destroyed o hlt hd] at ho
    simp at ho
  obtain ⟨r, hr⟩ := h.exists_stands (fun e he => (hfits.entries e he).2.2) o
  have hr' := halike.stands hr hstart
  have hcurrent : ∀ e ∈ (h.current s.memo).entries, e.1 < e.2 := fun e he =>
    (hfits.entries e (Heap.mem_current.1 he).1).2.2
  -- whatever a walk comes to besides its start is owned by an entry that is kept
  have hleft : ∀ y, h'.Passes (h.current s.memo) o y → (h'.cell y).alive = true := fun y hy => by
    rcases hy.mem with rfl | hy
    · exact ho
    · exact (hsound.live_of_edge hlive (Heap.mem_edges_of_copy hbc hy)).alive
  constructor
  · refine ⟨r, ?_, ?_, ?_, ?_⟩
    · exact Heap.standIn_of_stands hb (fun e he => (hfits.entries e he).2.2) hr
    · exact Heap.standIn_of_stands hbc hcurrent hr'
    · exact Heap.standIn_of_stands hbd hcurrent hr'
    · exact hleft r hr'.passes
  · rintro y (hy | hy)
    · exact hleft y (halike.passes hy hstart)
    · exact hleft y hy

/-! ### Forks between operations -/

theorem Handle.clone_same {k : Heap} {l' : Handle} (hrun : l.clone h = .ok (l', k)) (hlive : ∀ c, l = .counted c → h.Live c)
    (d : CellId) : (k.cell d).body = (h.cell d).body ∧ (k.cell d).frozen = (h.cell d).frozen ∧
      (k.cell d).alive = (h.cell d).alive := by
  cases l with
  | empty => cases hrun; exact ⟨rfl, rfl, rfl⟩
  | root => cases hrun; exact ⟨rfl, rfl, rfl⟩
  | counted c =>
    cases hrun
    have hc := hlive c rfl
    by_cases hdc : d = c
    · subst hdc
      rw [h.cell_update_self _ hc.lt_size]
      refine ⟨rfl, rfl, ?_⟩
      rw [hc.alive, Cell.alive, show (h.cell d).flags.destroyed = false from hc.destroyed]
      simp
    · rw [h.cell_update_ne _ hdc]
      exact ⟨rfl, rfl, rfl⟩

theorem Cell.body_of_object? {x : Cell} {b : Object} (hb : x.object? = some b) : x.body = .object b := by
  unfold Cell.object? at hb
  split at hb
  · next o ho => rw [ho, Option.some.inj hb]
  · cases hb

theorem Cell.body_of_label? {x : Cell} (hs : x.label? = some s) : x.body = .label s := by
  unfold Cell.label? at hs
  split at hs
  · cases hs
  · next l hl => rw [hl, Option.some.inj hs]

namespace Situation

variable {x : Situation}

/-- Between two operations what is locked is held, so whatever begins there may leave alone no more than what is held
without labels. -/
theorem At.holding {careful apart closed : Bool} (ha : x.At (.initial careful apart closed)) (kept fixed : CellId → Prop) :
    Holding (.sparing kept) { careful, apart, closed, fixed } x.moment.locks x.moment.held x.session.heap [] := by
  constructor
  · have hsafe := ha.safe
    rw [held_within, locks_initial] at hsafe
    exact hsafe.exempt fun _ => id
  · intro y hy
    apply Heap.Via.held
    obtain ⟨a, ha, hy⟩ := List.mem_flatMap.1 hy
    cases a with
    | lock o f =>
      rw [List.mem_singleton.1 hy]
      exact .inl (List.mem_append_right _ (List.mem_flatMap.2 ⟨_, ha, List.mem_singleton.2 rfl⟩))
    | scope l => cases hy

/-- In every run in which no header is changed by hand, forking a label that is there loses no resolution. The fork gets
the entries that the label keeps, which are those whose source is there when the fork begins; and whatever object is
there afterwards is seen as before, by the label and by its fork, while all that the walks come to is there as well. -/
theorem fork_of_runs (hrun : Runs HeadersKept initial x) {l : Handle} (hl : l.cell? = some c)
    (hfits : l.Fits (fun _ => False) x.session.heap) (hd : (x.session.heap.cell c).destroyed = false) :
    ∃ s k d h', (x.session.heap.cell c).body = .label s ∧ l.clone x.session.heap = .ok (l, k) ∧
      fork c k = .ok (.counted d, h') ∧
      (h'.cell c).body = .label { s with memo := x.session.heap.current s.memo } ∧
      (h'.cell d).body = .label (.ofMemo (x.session.heap.current s.memo)) ∧
      ∀ o, h'.IsObject o → (h'.cell o).alive = true →
        (∃ r, x.session.heap.standIn c o = .ok r ∧ h'.standIn c o = .ok r ∧ h'.standIn d o = .ok r ∧
          (h'.cell r).alive = true) ∧
        ∀ y, x.session.heap.Passes s.memo o y ∨ h'.Passes (x.session.heap.current s.memo) o y →
          (h'.cell y).alive = true := by
  have hh := (at_headersKept hrun).holding (fun _ => False) fun _ => True
  have hlive : x.session.heap.Live c := hh.safe.live_of_not_destroyed rfl hd
  have hcounted : ∀ c', l = .counted c' → x.session.heap.Live c' := fun c' he => by
    subst he
    cases hl
    exact hlive
  obtain ⟨s, hs⟩ : ∃ s, (x.session.heap.cell c).body = .label s := by
    cases l with
    | empty => cases hl
    | root =>
      cases hl
      exact hh.safe.root.2.2
    | counted c' =>
      cases hl
      exact (hfits c rfl).2.2
  -- a count of the label is taken for as long as it is forked
  obtain ⟨l', k, hclone, hl', hr, -⟩ := (Handle.clone_spec (E := fun _ => False) hh.calm ⟨hfits, hcounted⟩).exists_ok
  rw [hl'] at hclone
  have hsame := Handle.clone_same hclone hcounted
  have hh₁ : Holding (.sparing fun _ => False) { fixed := fun _ => True } x.moment.locks (l.tasks ++ x.moment.held) k [] := by
    rw [List.append_nil] at hr
    exact (hh.run hr.relax).focus (.refl _)
  obtain ⟨h', hfork, hbd, hbc, hall⟩ := fork_agrees hh₁ ((hsame c).1.trans hs) (Handle.held_of_cell? hl)
  have hcurrent : k.current s.memo = x.session.heap.current s.memo := by
    simp only [Heap.current, (hsame _).2.2]
  rw [hcurrent] at hbd hbc hall
  refine ⟨s, k, k.size, h', hs, hclone, hfork, hbc, hbd, fun o hobj ho => ?_⟩
  obtain ⟨⟨r, hr₁, hr₂, hr₃, hr₄⟩, hpasses⟩ := hall o hobj ho
  have halike : x.session.heap.Alike s.memo k s.memo fun _ => True :=
    ⟨fun o _ => (hsame o).2.1, fun _ _ => rfl, fun _ _ _ _ => True.intro⟩
  have horder : ∀ e ∈ s.memo.entries, e.1 < e.2 := fun e he => ((hh.fits_label hs).entries e he).2.2
  constructor
  · obtain ⟨r', hr'⟩ := x.session.heap.exists_stands horder o
    have heq := Heap.standIn_of_stands ((hsame c).1.trans hs) horder (halike.stands hr' True.intro)
    rw [hr₁] at heq
    cases heq
    exact ⟨r, Heap.standIn_of_stands hs horder hr', hr₂, hr₃, hr₄⟩
  · intro y hy
    exact hpasses y (hy.imp_left fun hy => halike.passes hy True.intro)

/-- A label that has a copy of a node which it shares with another pointer. -/
def copiedNode : List (Op × Args) :=
  [(.label .spawn, { Args.blank with dest := some "l" }),
    (.pointer .new, { Args.blank with dest := some "p", value := some (.int 3), within := some "l" }),
    (.pointer .clone, { Args.blank with a := some "p", dest := some "q" }),
    (.object .freeze, { Args.blank with a := some "p" }),
    (.object .rawPull, { Args.blank with a := some "p" })]

/-- The same label, with a copy of another node that is lost afterwards. -/
def lostKey : List (Op × Args) :=
  copiedNode ++ [(.pointer .new, { Args.blank with dest := some "u", value := some (.int 4), within := some "l" }),
    (.pointer .clone, { Args.blank with a := some "u", dest := some "v" }),
    (.object .freeze, { Args.blank with a := some "u" }),
    (.object .rawPull, { Args.blank with a := some "u" }),
    (.pointer .drop, { Args.blank with a := some "u" }),
    (.pointer .drop, { Args.blank with a := some "v" })]

theorem fork_of_lostKey : ∃ x s k d h', initial.after lostKey = some x ∧ (x.session.heap.cell 1).body = .label s ∧
    s.memo.entries = [(2, 3), (4, 5)] ∧ (Handle.counted 1).clone x.session.heap = .ok (.counted 1, k) ∧
    fork 1 k = .ok (.counted d, h') ∧ (h'.label 1).memo.entries = [(2, 3)] ∧ (h'.label d).memo.entries = [(2, 3)] ∧
    ∀ o, h'.IsObject o → (h'.cell o).alive = true →
      (∃ r, x.session.heap.standIn 1 o = .ok r ∧ h'.standIn 1 o = .ok r ∧ h'.standIn d o = .ok r ∧
        (h'.cell r).alive = true) ∧
      ∀ y, x.session.heap.Passes s.memo o y ∨ h'.Passes (x.session.heap.current s.memo) o y → (h'.cell y).alive = true := by
  obtain ⟨x, hx, h⟩ : ∃ x, initial.after lostKey = some x ∧ ((x.session.heap.cell 1).destroyed, x.session.heap.size,
      (x.session.heap.cell 1).label?.map fun s => (s.memo.entries, (x.session.heap.current s.memo).entries)) =
      (false, 6, some ([(2, 3), (4, 5)], [(2, 3)])) := Option.map_eq_some_iff.1 (by cbv)
  simp only [Prod.mk.injEq, Option.map_eq_some_iff] at h
  obtain ⟨hd, hsize, s, hs, hentries, hcurrent⟩ := h
  have hbody := Cell.body_of_label? hs
  have hfits : (Handle.counted 1).Fits (fun _ => False) x.session.heap := fun c hc => by
    cases hc
    exact ⟨⟨by decide, id⟩, by rw [hsize]; decide, s, hbody⟩
  obtain ⟨s', k, d, h', hb, hclone, hfork, hold, hnew, hall⟩ :=
    fork_of_runs (runs_of_after rfl hx (by simp [lostKey, copiedNode])) (l := .counted 1) rfl hfits hd
  obtain rfl : s' = s := by
    rw [hbody] at hb
    cases hb
    rfl
  refine ⟨x, s', k, d, h', hx, hbody, hentries, hclone, hfork, ?_, ?_, hall⟩
  · rw [h'.label_eq hold, hcurrent]
  · rw [h'.label_eq hnew]
    exact hcurrent

end Situation

end LazyHeap
