import LazyHeap.Proofs.References

/-!
What a round comes to. It is run to its end before anything else that is pending, so it is enough to look at the
tasks it opens with, while all else that is pending counts as held.
-/
namespace LazyHeap

/-! ### Work in two parts -/

namespace Heap

variable {h h' k : Heap} {ts us new : List Task} {t : Task}

theorem drain_cons (hp : h.perform t = .ok (k, new)) : h.drain (t :: ts) = k.drain (new ++ ts) := by
  rw [drain]
  split
  · next he =>
    rw [hp] at he
    cases he
  · next he =>
    rw [hp] at he
    cases he
    rfl

theorem drain_cons_error {e : Fault} (hp : h.perform t = .error e) : h.drain (t :: ts) = .error e := by
  rw [drain]
  split
  · next he =>
    rw [hp] at he
    cases he
    rfl
  · next he =>
    rw [hp] at he
    cases he

theorem drain_append (h : Heap) (ts us : List Task) : h.drain (ts ++ us) = (h.drain ts).bind (·.drain us) := by
  induction h, ts using Heap.drain.induct with
  | case1 h =>
    rw [List.nil_append, drain]
    rfl
  | case2 h t rest e hp =>
    rw [List.cons_append, drain_cons_error hp, drain_cons_error hp]
    rfl
  | case3 h t rest h₁ new hp ih => rw [List.cons_append, drain_cons hp, drain_cons hp, ← List.append_assoc, ih]

/-! ### Within a round -/

/-- Tasks that do not end a round. -/
def Inner (ts : List Task) : Prop := ∀ o, .closeRound o ∉ ts

theorem inner_nil : Inner [] := fun _ => List.not_mem_nil

theorem inner_append : Inner (ts ++ us) ↔ Inner ts ∧ Inner us := by
  simp only [Inner, List.mem_append, not_or, forall_and]

theorem inner_tasks (b : Body) : Inner b.tasks := fun _ ho =>
  nomatch Cell.isReference_of_mem_dues (x := { Cell.void with body := b }) (List.mem_append_left _ ho)

/-- The heap is within the same round: no round was counted, and no cell was claimed. -/
structure SameRound (h h' : Heap) : Prop where
  inRound : h'.inRound = h.inRound
  totals : h'.totals = h.totals
  collected : ∀ c, (h'.cell c).flags.collected = (h.cell c).flags.collected

namespace SameRound

protected theorem refl (h : Heap) : h.SameRound h := ⟨rfl, rfl, fun _ => rfl⟩

protected theorem trans (h₁ : h.SameRound h') (h₂ : h'.SameRound k) : h.SameRound k :=
  ⟨h₂.inRound.trans h₁.inRound, h₂.totals.trans h₁.totals, fun c => (h₂.collected c).trans (h₁.collected c)⟩

theorem update (h : Heap) (c : CellId) {g : Cell → Cell} (hg : ∀ x, (g x).flags.collected = x.flags.collected) :
    h.SameRound (h.update c g) := by
  refine ⟨rfl, rfl, fun d => ?_⟩
  rcases h.cell_update_cases c g d with he | ⟨rfl, -, he⟩
  · rw [he]
  · rw [he, hg]

end SameRound

theorem destroy_inner {c : CellId} (hd : h.destroy c = .ok (h', new)) : h.SameRound h' ∧ Inner new := by
  simp only [destroy] at hd
  split at hd
  · cases hd
  · cases hd
    have hu := SameRound.update h c (g := fun x => { x with flags.destroyed := true, body := x.body.emptied })
      fun _ => rfl
    refine ⟨?_, inner_append.2 ⟨inner_tasks _, by simp [Inner]⟩⟩
    split
    · exact ⟨hu.inRound, hu.totals, hu.collected⟩
    · exact hu

private theorem buffer_inner {c : CellId} (hr : h.inRound = true) (hb : h.buffer c = .ok (h', new)) :
    h.SameRound h' ∧ Inner new := by
  have hone : Inner [.unpin c] := by simp [Inner]
  have hu := SameRound.update h c (g := fun x => (x.setColour .purple).setBuffered true) fun _ => rfl
  simp only [buffer] at hb
  split at hb
  · cases hb
    exact ⟨.refl h, hone⟩
  · split at hb
    · cases hb
      exact ⟨hu, hone⟩
    · rw [if_neg (by simp [fixSettings, update, hr])] at hb
      cases hb
      exact ⟨⟨hu.inRound, hu.totals, hu.collected⟩, inner_nil⟩

/-- While a round is under way, giving up references starts no other and does not end it. -/
theorem perform_inner (hr : h.inRound = true) (ht : Inner [t]) (hp : h.perform t = .ok (h', new)) :
    h.SameRound h' ∧ Inner new := by
  have hone : ∀ c, Inner [.unpin c] := fun c => by simp [Inner]
  cases t with
  | release c =>
    simp only [perform] at hp
    split at hp
    · cases hp
      exact ⟨.refl h, inner_nil⟩
    · split at hp
      · cases hp
      · next n _ =>
        have hu := SameRound.update h c (g := fun x => { x with shared := n, weak := x.weak + 1 }) fun _ => rfl
        split at hp
        · split at hp
          · cases hp
          · next hd =>
            cases hp
            obtain ⟨hs, hi⟩ := destroy_inner hd
            exact ⟨hu.trans hs, inner_append.2 ⟨hi, hone c⟩⟩
        · obtain ⟨hs, hi⟩ := buffer_inner (hu.inRound.trans hr) hp
          exact ⟨hu.trans hs, hi⟩
  | unpin c =>
    simp only [perform] at hp
    split at hp
    · cases hp
    · next n _ =>
      cases hp
      exact ⟨.update h c fun _ => rfl, inner_nil⟩
  | perish c =>
    obtain ⟨hs, hi⟩ := destroy_inner hp
    exact ⟨(SameRound.update h c (g := fun x => { x with shared := 0 }) fun _ => rfl).trans hs, hi⟩
  | disown c =>
    simp only [perform] at hp
    split at hp
    · cases hp
      exact ⟨.refl h, inner_nil⟩
    · next l _ =>
      cases hp
      exact ⟨.update h c fun _ => rfl, hone l⟩
  | closeRound o => exact absurd List.mem_cons_self (ht o)

theorem drain_inner (hr : h.inRound = true) (ht : Inner ts) (hd : h.drain ts = .ok h') : h.SameRound h' := by
  induction h, ts using Heap.drain.induct with
  | case1 h =>
    rw [drain] at hd
    cases hd
    exact .refl _
  | case2 h t rest e hp =>
    rw [drain_cons_error hp] at hd
    cases hd
  | case3 h t rest k new hp ih =>
    obtain ⟨ht, hrest⟩ := inner_append.1 (show Inner ([t] ++ rest) from ht)
    obtain ⟨hk, hnew⟩ := perform_inner hr ht hp
    rw [drain_cons hp] at hd
    exact hk.trans (ih (hk.inRound.trans hr) (inner_append.2 ⟨hnew, hrest⟩) hd)

/-- At the end the round that was under way is over, and counted. -/
theorem drain_closed {o : RoundOutcome} (hr : h.inRound = true) (ht : Inner ts)
    (hd : h.drain (ts ++ [.closeRound o]) = .ok h') : h'.inRound = false ∧ h'.totals = h.totals.add o ∧
      ∀ c, (h'.cell c).flags.collected = (h.cell c).flags.collected := by
  rw [drain_append] at hd
  cases hk : h.drain ts with
  | error e =>
    rw [hk] at hd
    cases hd
  | ok k =>
    rw [hk] at hd
    have hsame := drain_inner hr ht hk
    have hd : k.drain [.closeRound o] = .ok h' := hd
    rw [drain_cons (show k.perform (.closeRound o) = .ok (_, []) from rfl), List.nil_append, drain] at hd
    cases hd
    exact ⟨rfl, by rw [← hsame.totals], hsame.collected⟩

end Heap

/-! ### Owners -/

/-- How many owning edges lead to a cell from cells that are there. -/
def Heap.owners (h : Heap) (c : CellId) : Nat := h.total fun x => if x.destroyed then 0 else x.edges.count c

/-- Somebody outside of the cells owns a count of the cell. -/
def Heap.External (h : Heap) (c : CellId) : Prop := h.owners c < (h.cell c).shared

variable {sealed : CellId → Prop} {rules : Rules} {m : Moment} {h h' k : Heap} {locks : List Lock}
variable {ts held : List Task} {whites roots : List CellId} {c : CellId}

theorem Sound.owners_eq (hs : Sound sealed m) (c : CellId) : m.heap.owners c = m.heap.inward c := by
  simp only [Heap.owners, Heap.inward, Heap.total_eq_range]
  congr 1
  refine List.map_congr_left fun x _ => ?_
  cases hd : (m.heap.cell x).destroyed with
  | false => simp
  | true => simp [hs.destroyed_edges hd]

/-- Between rounds, whoever owns a count from outside of the cells holds it or is about to give it up. -/
theorem Sound.held_of_external (hs : Sound sealed ⟨h, locks, ts, held⟩) (hround : h.inRound = false)
    (he : h.External c) : h.Held held c ∨ .release c ∈ ts := by
  have hlt : h.inward c < (h.cell c).shared := hs.owners_eq c ▸ he
  have hcol : (h.cell c).flags.collected = false := by
    rw [← Bool.not_eq_true]
    intro hcol
    have : (h.cell c).shared = 0 := (hs.dead c (hs.destroyed_of_collected hround hcol)).1
    omega
  have := hs.shared c hcol
  simp only [Moment.claims, Heap.due_release] at this
  by_contra hno
  obtain ⟨hheld, hpend⟩ := not_or.1 hno
  obtain ⟨hheld, hstand⟩ := not_or.1 hheld
  have h₁ := List.count_eq_zero.2 hpend
  have h₂ := List.count_eq_zero.2 hheld
  have h₃ := List.count_eq_zero.2 hstand
  omega

/-! ### What a round does -/

/-- What a round makes of the heap: `garbage` is what it destroys. -/
structure Heap.Swept (h h' : Heap) (garbage : List CellId) : Prop where
  nodup : garbage.Nodup
  there : ∀ c ∈ garbage, (h.cell c).destroyed = false
  destroyed : ∀ c, (h'.cell c).destroyed = true ↔ (h.cell c).destroyed = true ∨ c ∈ garbage
  loose : ∀ c ∈ garbage, ¬ h.Reach (fun d => h.External d ∨ (h.cell d).locked = true) c
  core : ∀ c, (h'.cell c).destroyed = false → (h'.cell c).core = (h.cell c).core
  shared : ∀ c, (h'.cell c).destroyed = false →
    (h'.cell c).shared + (garbage.flatMap fun x => (h.cell x).edges).count c = (h.cell c).shared

private theorem not_reach_white (hs : Firm sealed ⟨h, locks, ts, held⟩) (hround : h.inRound = false)
    (ho : h.Opened k roots whites) (hc : c ∈ whites) :
    ¬ h.Reach (fun d => h.Held held d ∨ .release d ∈ ts ∨ (h.cell d).locked = true) c := by
  have hown := fun {d} => hs.white_owners (c := d) hround ho
  have hheld : ∀ d, h.Reach (h.Held held) d → d ∉ whites := fun d hd => by
    induction hd with
    | source hd => exact fun hw => (hown hw).1 hd
    | edge _ he ih => exact fun hw => ih ((hown hw).2.2 _ he)
  intro hr
  induction hr with
  | @source d hd =>
    rcases hd with hd | hd | hd
    · exact hheld d (.source hd) hc
    · exact List.count_eq_zero.1 (hown hc).2.1 hd
    · obtain ⟨n, hn⟩ := (Cell.locked_iff _).1 hd
      exact hheld d (hs.guarded _ ((hs.locks d n).1 hn)) hc
  | edge _ he ih => exact ih ((hown hc).2.2 _ he)

/-- A reference that still counts: a pending one to a cell that was claimed does not. -/
private def Heap.owed (h : Heap) : Task → Bool
  | .release c => !(h.cell c).flags.collected
  | .unpin _ => true
  | _ => false

private theorem Safe.setAside {new : List Task} (hs : Safe rules ⟨h, locks, new ++ ts, held⟩) (hts : Orderly false ts)
    (hnew : Orderly h.inRound new) : Safe rules ⟨h, locks, new, ts.filter h.owed ++ held⟩ := by
  have hsub : ∀ t ∈ held, t ∈ ts.filter h.owed ++ held := fun t ht => List.mem_append_right _ ht
  refine ⟨⟨hs.repend (fun d hd => ?_) (fun d => ?_) (fun d hd hm => ?_) (fun d => ?_) hnew (fun t ht => ?_)
    fun d hsrc hd => ?_, hs.guarded.subset hsub⟩, hs.abides, hs.sealed⟩
  · simp only [List.count_append, List.count_filter (show h.owed (.release d) = true by simp [Heap.owed, hd])]
    omega
  · simp only [List.count_append, List.count_filter (show h.owed (.unpin d) = true from rfl)]
    omega
  · refine (List.mem_append.1 hm).resolve_left fun hm => ?_
    have := (List.mem_filter.1 hm).2
    simp [Heap.owed, hd] at this
  · rw [List.count_append, hts.count_perish, Nat.add_zero]
  · rcases List.mem_append.1 ht with ht | ht
    · have := (List.mem_filter.1 ht).2
      cases t with
      | release c => rfl
      | unpin c => rfl
      | _ => cases this
    · exact hs.held t ht
  · rcases hsrc with hsrc | hsrc | hsrc | hsrc
    · exact .inl (hsrc.imp_left (hsub _))
    · rcases List.mem_append.1 hsrc with hsrc | hsrc
      · exact .inr (.inl hsrc)
      · -- a cell that was claimed, and is still there, is about to perish
        cases hcol : (h.cell d).flags.collected with
        | false => exact .inl (.inl (List.mem_append_left _ (List.mem_filter.2 ⟨hsrc, by simp [Heap.owed, hcol]⟩)))
        | true =>
          have := hs.perish d
          rw [show (h.cell d).destroyed = false from hd, hcol] at this
          have hmem : .perish d ∈ new ++ ts := List.count_pos_iff.1 (by rw [this]; simp)
          refine .inr (.inr (.inl ((List.mem_append.1 hmem).resolve_right fun hm => ?_)))
          exact List.count_eq_zero.1 (hts.count_perish d) hm
    · rcases List.mem_append.1 hsrc with hsrc | hsrc
      · exact .inr (.inr (.inl hsrc))
      · exact absurd hsrc (List.count_eq_zero.1 (hts.count_perish d))
    · exact .inr (.inr (.inr hsrc))

private theorem Heap.inward_split (hsize : h'.size = h.size) (hn : whites.Nodup)
    (hin : ∀ x ∈ whites, (h'.cell x).edges = []) (hout : ∀ x, x ∉ whites → (h'.cell x).edges = (h.cell x).edges)
    (c : CellId) : h.inward c = h'.inward c + (whites.flatMap fun x => (h.cell x).edges).count c := by
  let others := (List.range h.size).filter (· ∉ whites)
  have hothers : others.Nodup := List.nodup_range.filter _
  have hmem : ∀ x, x < h.size → x ∉ whites → x ∈ others := fun x hx hw =>
    List.mem_filter.2 ⟨List.mem_range.2 hx, by simpa using hw⟩
  have hlt : ∀ {k : Heap} {x}, (k.cell x).edges.count c ≠ 0 → x < k.size := fun hx =>
    Heap.lt_size_of_cell_ne fun he => hx (by rw [he, Cell.edges_void]; rfl)
  have h₁ : h.inward c = ((whites ++ others).map fun x => (h.cell x).edges.count c).sum :=
    h.total_eq_sum _ rfl (hn.append hothers fun x hx hx' => by
      have := (List.mem_filter.1 hx').2
      simp [hx] at this) fun x hx => by
        by_cases hw : x ∈ whites
        · exact List.mem_append_left _ hw
        · exact List.mem_append_right _ (hmem x (hlt hx) hw)
  have h₂ : h'.inward c = (others.map fun x => (h'.cell x).edges.count c).sum :=
    h'.total_eq_sum _ rfl hothers fun x hx => hmem x (hsize ▸ hlt hx) fun hw => hx (by rw [hin x hw]; rfl)
  have h₃ : (others.map fun x => (h'.cell x).edges.count c) = others.map fun x => (h.cell x).edges.count c :=
    List.map_congr_left fun x hx => by rw [hout x (by simpa using (List.mem_filter.1 hx).2)]
  rw [h₁, h₂, h₃, List.map_append, List.sum_append, List.count_flatMap, Nat.add_comm]
  rfl

/-- Whatever a round finds reached, apart from what was about to be released to cells that are gone, is held when the
round has begun. -/
private theorem reach_aside (hs : Firm sealed ⟨h, locks, ts, held⟩) (hround : h.inRound = false)
    (ho : h.Opened k roots whites) (hd : (h.cell c).destroyed = false) (hc : c ∉ whites) :
    k.Reach (k.Held (ts.filter k.owed ++ held)) c := by
  have hbody : ∀ x, (k.cell x).edges = (h.cell x).edges := fun x => (congrArg Cell.edges (ho.cell x) :)
  have hscopes : k.scopes = h.scopes := by rw [ho.rest]
  have hheld : ∀ d, h.Held held d → k.Held (ts.filter k.owed ++ held) d := fun d hd =>
    hd.imp (List.mem_append_right _) fun hm => by rwa [Heap.standing, hscopes]
  have hr := hs.reach_of_not_white hround ho
    (fun d => h.Held held d ∨ .release d ∈ ts ∨ ∃ n, (d, n) ∈ locks) (fun _ => .inl) (fun _ hd => .inr (.inl hd))
    (fun _ n hd => .inr (.inr ⟨n, hd⟩)) hd hc
  clear hc
  induction hr with
  | @source d hsrc =>
    rcases hsrc with hsrc | hsrc | ⟨n, hsrc⟩
    · exact .source (hheld d hsrc)
    · refine .source (.inl (List.mem_append_left _ (List.mem_filter.2 ⟨hsrc, ?_⟩)))
      have hcol : (k.cell d).flags.collected = ((h.cell d).flags.collected || decide (d ∈ whites)) :=
        (congrArg (fun x : Cell => x.flags.collected) (ho.cell d) :)
      have hold : (h.cell d).flags.collected = false := by
        rw [← Bool.not_eq_true]
        intro hcol
        rw [hs.destroyed_of_collected hround hcol] at hd
        cases hd
      have hw : d ∉ whites := fun hw => List.count_eq_zero.1 (hs.white_owners hround ho hw).2.1 hsrc
      simp [Heap.owed, hcol, hold, hw]
    · exact (hs.guarded _ hsrc).mono (fun d hd => .source (hheld d hd)) fun x d _ he hx =>
        .edge hx (hbody x ▸ he)
  | @edge x d _ he ih =>
    refine .edge (ih ?_) (hbody x ▸ he)
    rw [← Bool.not_eq_true]
    intro hx
    have hnil : (h.cell x).edges = [] := hs.destroyed_edges hx
    rw [hnil] at he
    cases he

/-- A round can be run to its end at every moment at which none is under way. It destroys only what neither somebody
outside nor a held lock leads to, and afterwards everything is reached from what is held or about to be given up. -/
theorem Safe.sweep (hs : Safe rules ⟨h, locks, ts, held⟩) (hround : h.inRound = false) :
    ∃ k new o h' garbage, h.openRound = .ok (k, new, o) ∧ k.drain new = .ok h' ∧ h.Swept h' garbage ∧
      o.collected = garbage.length ∧ h'.inRound = false ∧ h'.totals = h.totals.add o ∧
      ∀ c, (h'.cell c).destroyed = false → h'.Reach (fun d => h'.Held held d ∨ .release d ∈ ts) c := by
  obtain ⟨k, roots, whites, ho, heq⟩ := hs.openRound hround
  let before := whites.map Task.perish ++ whites.map Task.unpin ++ h.candidates.toList.map Task.unpin
  let o : RoundOutcome := ⟨h.candidates.toList.length, roots.length, whites.length⟩
  have hts : Orderly false ts := hround ▸ (show Orderly h.inRound ts from hs.orderly)
  have hinround : k.inRound = true := by rw [ho.rest]
  have hnew : Orderly k.inRound (before ++ [.closeRound o]) := by
    have hnone : Orderly false [] := rfl
    have := hnone.opening whites h.candidates.toList o
    rwa [List.append_nil, ← hinround] at this
  have hsafe : Safe rules ⟨k, locks, (before ++ [.closeRound o]) ++ ts, held⟩ := (hs.step (.openRound hround heq)).1
  obtain ⟨h', hd, hrun, hk⟩ := (hsafe.setAside hts hnew).drain
  have hs' : Safe rules ⟨h', locks, [], ts.filter k.owed ++ held⟩ := ((hsafe.setAside hts hnew).steps hrun).1
  have hbefore : Heap.Inner before := by simp [before, Heap.Inner]
  obtain ⟨hround', htotals, hcol'⟩ := Heap.drain_closed hinround hbefore hd
  have hcell : ∀ c, (k.cell c).body = (h.cell c).body ∧ (k.cell c).destroyed = (h.cell c).destroyed ∧
      (k.cell c).shared = (h.cell c).shared ∧
      (k.cell c).flags.collected = ((h.cell c).flags.collected || decide (c ∈ whites)) := fun c =>
    have hc := ho.cell c
    ⟨(congrArg Cell.body hc :), (congrArg Cell.destroyed hc :), (congrArg Cell.shared hc :),
      (congrArg (fun x : Cell => x.flags.collected) hc :)⟩
  have hthere : ∀ c ∈ whites, (h.cell c).destroyed = false := fun c hc =>
    Cell.destroyed_of_alive (ho.alive c ((ho.mem_whites c).1 hc).1)
  -- what the round has claimed is destroyed, and whatever else was there is kept
  have hwhite : ∀ c ∈ whites, (h'.cell c).destroyed = true := fun c hc =>
    hs'.collected_destroyed rfl (by rw [show (Moment.heap _).cell c = h'.cell c from rfl, hcol', (hcell c).2.2.2]; simp [hc])
  have hold : ∀ c, (h.cell c).destroyed = true → (h'.cell c).destroyed = true := fun c hc =>
    hk.fades.destroyed c ((hcell c).2.1.trans hc)
  have hreach : ∀ c, (h.cell c).destroyed = false → c ∉ whites →
      k.Reach (k.Held (ts.filter k.owed ++ held)) c := fun c => reach_aside hs.toFirm hround ho
  have hcore : ∀ c, (h.cell c).destroyed = false → c ∉ whites → (h'.cell c).core = (h.cell c).core := fun c hc hw => by
    rw [hk.cell c (hreach c hc hw)]
    have : (k.cell c).core = ((h.cell c).opened (c ∈ whites)).core := (congrArg Cell.core (ho.cell c) :)
    rw [this]
    simp [Cell.core, Cell.opened, hw]
  have hthere' : ∀ c, (h'.cell c).destroyed = false → (h.cell c).destroyed = false ∧ c ∉ whites := fun c hc => by
    have hne : ¬ (h'.cell c).destroyed = true := by simp [hc]
    exact ⟨by simpa using mt (hold c) hne, mt (hwhite c) hne⟩
  have hedges : ∀ x, x ∉ whites → (h'.cell x).edges = (h.cell x).edges := fun x hx => by
    cases hd : (h.cell x).destroyed with
    | false => exact (congrArg Cell.edges (hcore x hd hx) :)
    | true => rw [show (h.cell x).edges = [] from hs.destroyed_edges hd,
        show (h'.cell x).edges = [] from hs'.destroyed_edges (hold x hd)]
  refine ⟨k, before ++ [.closeRound o], o, h', whites, heq, hd, ⟨ho.nodup, hthere, fun c => ⟨fun hc => ?_, ?_⟩,
    fun c hc hr => ?_, fun c hc => hcore c (hthere' c hc).1 (hthere' c hc).2, fun c hc => ?_⟩, rfl, hround', ?_,
    fun c hc => ?_⟩
  · by_contra hno
    obtain ⟨hnd, hw⟩ := not_or.1 hno
    have hnd : (h.cell c).destroyed = false := by simpa using hnd
    have : (h'.cell c).destroyed = (h.cell c).destroyed := (congrArg Cell.destroyed (hcore c hnd hw) :)
    rw [hc, hnd] at this
    cases this
  · exact fun hc => hc.elim (hold c) (hwhite c)
  · refine not_reach_white hs.toFirm hround ho hc (hr.subset fun d hd => ?_)
    rcases hd with hd | hd
    · exact (hs.held_of_external hround hd).imp_right .inl
    · exact .inr (.inr hd)
  · obtain ⟨hd, hw⟩ := hthere' c hc
    have hlive : h'.Live c := hs'.live_of_not_destroyed rfl hc
    have hcol : (k.cell c).flags.collected = false := (hcol' c).symm.trans hlive.collected
    have hcolh : (h.cell c).flags.collected = false := by
      have := (hcell c).2.2.2
      rw [hcol] at this
      exact (Bool.or_eq_false_iff.1 this.symm).1
    have h₁ := hs.shared c hcolh
    have h₂ := hs'.shared c hlive.collected
    have h₃ := Heap.inward_split (hk.size.trans ho.size) ho.nodup (fun x hx => hs'.destroyed_edges (hwhite x hx)) hedges c
    have h₄ : h'.standing = h.standing := by
      rw [Heap.standing, Heap.standing, hk.scopes, ho.rest]
    simp only [Moment.claims, Heap.due_release, List.count_append, List.count_nil,
      List.count_filter (show k.owed (.release c) = true by simp [Heap.owed, hcol]), h₄] at h₁ h₂
    omega
  · rw [htotals, ho.rest]
  · obtain ⟨hd, hw⟩ := hthere' c hc
    refine (hk.reach (hreach c hd hw)).subset fun d hd => ?_
    rcases hd with hd | hd
    · rcases List.mem_append.1 hd with hd | hd
      · exact .inr (List.mem_filter.1 hd).1
      · exact .inl (.inl hd)
    · exact .inl (.inr hd)

/-! ### A round between two operations -/

/-- What a round does when nothing is pending: what it destroys is garbage, and all that is left is held. -/
structure Heap.Collected (h h' : Heap) (held : List Task) (o : RoundOutcome) : Prop where
  swept : ∃ garbage, h.Swept h' garbage ∧ o.collected = garbage.length
  totals : h'.totals = h.totals.add o
  left : ∀ c, (h'.cell c).destroyed = false → h'.Reach (h'.Held held) c

theorem collectCycles_spec {E : Fault → Prop} {frame ins : List Task} (hh : Holding .calm rules locks frame h ins) :
    Ends E (collectCycles h) fun o h' => h.Collected h' (ins ++ frame) o ∧ Run .calm rules locks frame h ins h' ins := by
  have hround : h.inRound = false := hh.safe.orderly
  obtain ⟨k, new, o, h', garbage, hopen, hdrain, hswept, hn, _, htotals, hleft⟩ := hh.safe.sweep hround
  obtain ⟨k', roots, whites, ho, heq⟩ := hh.safe.openRound hround
  rw [hopen] at heq
  cases heq
  have hstep : Advance rules ⟨h, locks, [], ins ++ frame⟩ ⟨k, locks, _ ++ [], ins ++ frame⟩ := .openRound hround hopen
  rw [List.append_nil] at hstep
  obtain ⟨h₁, hd, hrun, hk⟩ := (hh.safe.step hstep).1.drain
  cases hdrain.symm.trans hd
  have hkept : h.Kept (ins ++ frame) h' := (hh.safe.kept_opened hround ho).trans hk
  have hcollect : collectCycles h = h.openRound.bind fun r => (settle r.2.1 r.1).bind fun u => .ok (r.2.2, u.2) := by
    show ((liftM h.openRound : HeapM (Heap × List Task × RoundOutcome)) h).bind _ = _
    rcases h.openRound with e | ⟨k, ts, o⟩ <;> rfl
  have hsettle : ∀ ts, k.drain ts = .ok h' → settle ts k = .ok ((), h') := fun ts hd => by
    simp only [settle, hd]
    rfl
  simp only [hopen, Except.bind, hsettle _ hdrain] at hcollect
  exact .of_ok hcollect ⟨⟨⟨garbage, hswept, hn⟩, htotals, fun c hc => (hleft c hc).subset fun d hd => hd.resolve_right List.not_mem_nil⟩,
    .head hstep hrun, hkept.subset fun t => List.mem_append_right _⟩

theorem collectIfDue_spec {E : Fault → Prop} {frame ins : List Task} (hh : Holding .calm rules locks frame h ins) :
    Ends E (collectIfDue h) fun _ h' => Run .calm rules locks frame h ins h' ins := by
  unfold collectIfDue
  refine .bind (fixSettings_spec hh) fun _ h₁ ⟨hr₁, _⟩ => .get_bind ?_
  split
  · exact .bind (collectCycles_spec (hh.run hr₁)) fun o h' ⟨_, hr₂⟩ => .pure (hr₁.trans hr₂)
  · exact .pure hr₁

end LazyHeap
