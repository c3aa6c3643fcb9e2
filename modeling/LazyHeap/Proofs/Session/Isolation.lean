import LazyHeap.Proofs.Session.Laws
import LazyHeap.Proofs.Session.Paths

/-!
A clone is isolated. When a pointer has been cloned together with all that it leads to, nobody but the clone has its
label, and whatever the clone leads to is frozen. While the clone keeps its label to itself and nobody reaches into
frozen objects, all of this lasts, whatever else is done: so each path from the clone ends where it did.
-/
namespace LazyHeap

variable {h h' k : Heap} {p q : Pointer} {c d m o : CellId} {name : String} {s s' : Session} {t : Slot} {args : Args}
variable {R : Session → Prop} {hand : List Task} {σ : Setting}

/-! ### A clone that has just been made -/

/-- The clone of a pointer when it has just been made. Its target is frozen, its label is new and may still change, and
so are the copies frozen that the label has taken over. -/
structure Pointer.Fresh (h k : Heap) (q : Pointer) : Prop where
  target : ∀ o, q.target = some o → (k.cell o).frozen = true ∧ ∃ m, q.label = .counted m
  label : ∀ m, q.label = .counted m → h.size ≤ m ∧ ∃ memo, (k.cell m).body = .label (.ofMemo memo) ∧
    ∀ v ∈ memo.copies, (k.cell v).frozen = true

/-- In the heap nobody has a label. -/
def Heap.Secludes (h : Heap) (m : CellId) : Prop := (∀ x, m ∉ (h.cell x).edges) ∧ ∀ l ∈ h.scopes, l ≠ .counted m

theorem Pointer.Clones.fresh {L : Heap → Link → Link → Prop} {kept sealed : CellId → Prop} {frame : List Task}
    {q : Pointer × Pointer} (hc : Clones L kept frame h p k q) (hfits : q.1.Fits sealed k) (hapart : k.Apart fun _ => False)
    (hscopes : ∀ l ∈ h.scopes, l.Fits sealed h) :
    q.2.Fresh h k ∧ ∀ m, q.2.label = .counted m → q.1.label ≠ .counted m ∧ k.Secludes m := by
  have hfrozen := (hc.frozen hfits).2
  have hsame := hc.scopes
  cases hc with
  | nil _ => exact ⟨⟨nofun, nofun⟩, nofun⟩
  | @graph _ o d l l' memo _ _ h₃ k _ _ _ _ _ _ hl hsize hne hedges hb hentries =>
    refine ⟨⟨fun o' ho => ⟨hfrozen o' ho, d, rfl⟩, fun m hm => ?_⟩, fun m hm => ?_⟩
    · cases hm
      refine ⟨hsize, memo, hb, fun v hv => ?_⟩
      -- the label from which it was forked has the copy, too
      obtain ⟨e, he, rfl⟩ := List.mem_map.1 hv
      obtain ⟨-, c, s, rfl, -, -, -, s', hs', he'⟩ := hentries e he
      have hcd : c ≠ d := fun hcd => hne ((hl.resolve_right fun h => h c rfl).trans (congrArg Handle.counted hcd))
      exact hapart.common c d s' _ hs' hb hcd e.2 (List.mem_map_of_mem he') hv
    · cases hm
      refine ⟨hne, hedges, fun l hl he => ?_⟩
      rw [hsame] at hl
      obtain ⟨hlt, -⟩ := (hscopes l hl d he).2
      exact absurd hlt (Nat.not_lt.2 hsize)

theorem Pointer.Fresh.fades {h₀ : Heap} (hq : q.Fresh h₀ h) (hf : h.Fades k)
    (hlive : ∀ m, q.label = .counted m → (k.cell m).destroyed = false) : q.Fresh h₀ k where
  target o ho := (hq.target o ho).imp_left fun hfr => (hf.frozen o).trans hfr
  label m hm := by
    obtain ⟨hsize, memo, hb, hcopies⟩ := hq.label m hm
    exact ⟨hsize, memo, (hf.body_of_live (hlive m hm)).trans hb, fun v hv => (hf.frozen v).trans (hcopies v hv)⟩

/-- In a session nobody has a label but the pointer that has a name. -/
structure Session.Secludes (s : Session) (name : String) (m : CellId) : Prop where
  heap : s.heap.Secludes m
  slots : ∀ n t, n ≠ name → s.slots.get? n = some t → t.pointer.label ≠ .counted m
  weaks : ∀ n w, s.weaks.get? n = some w → w.pointer.label ≠ .counted m
  labels : ∀ n l, s.labels.get? n = some l → l ≠ .counted m

/-- Under a name there is a fresh clone that was made in the course of an operation. -/
structure Session.Clones (s s' : Session) (name : String) (t : Slot) : Prop where
  slot : s'.slots.get? name = some t
  fresh : t.pointer.Fresh s.heap s'.heap
  secludes : ∀ m, t.pointer.label = .counted m → s'.Secludes name m

theorem Handle.Fits.ne_of_size_le {sealed : CellId → Prop} {l : Handle} (hl : l.Fits sealed h) (hm : h.size ≤ m) : l ≠ .counted m :=
  fun he => absurd (hl m he).2.1 (Nat.not_lt.2 hm)

/-- A new label stays with the pointer that gets the name. -/
theorem Setting.At.secludes {n : String} {t' : Slot} (ha : σ.At s hand) (hfree : ∀ p, σ.free p = true) (hm : s.heap.size ≤ m)
    (hne : t.pointer.label ≠ .counted m) (hheap : h'.Secludes m) :
    Session.Secludes { s with heap := h', slots := (s.slots.insert n t).insert name t' } name m where
  heap := hheap
  slots k u hk hu := by
    rw [show (Session.slots _) = (s.slots.insert n t).insert name t' from rfl, NameMap.get?_insert_of_ne _ _ hk] at hu
    rcases Decidable.em (k = n) with rfl | hkn
    · rw [NameMap.get?_insert_self] at hu
      exact Option.some.inj hu ▸ hne
    · rw [NameMap.get?_insert_of_ne _ _ hkn] at hu
      exact (ha.fitsSlot hu (hfree _)).label.ne_of_size_le hm
  weaks k w hw := (ha.fitsWeak hw (hfree _)).label.ne_of_size_le hm
  labels k l hl := (ha.fitsLabel hl (hfree _)).ne_of_size_le hm

namespace Attempt

/-- A pointer that has a name is cloned, and the clone gets a name. -/
theorem deepClone_clones (ha : σ.At s []) (hlocks : σ.locks = []) (hfree : ∀ p, σ.free p = true)
    (hapart : σ.rules.apart = true) (hopened : ∀ c, ¬ σ.rules.opened c) (hdest : args.dest = some name) :
    Ends (objects args .deepClone) s (fun _ => True) fun _ s' => ∃ t, s.Clones s' name t := by
  refine .slotA trivial fun n t _ ht => ?_
  have htake := ha.takeSlot ht (hfree _)
  refine htake.passage (P := fun q h' => q.1.Fits σ.rules.sealed h' ∧ q.2.Fits σ.rules.sealed h' ∧
      ∃ kept frame, t.pointer.Clones (fun _ _ _ => True) kept frame s.heap h' q)
    (O := fun q => q.1.tasks ++ q.2.tasks) (.refl _) (fun hh => ?_) fun q h' _ ⟨hfit, hfit', kept, frame, hclones⟩ hgrows ha' => ?_
  · have hfixed : ∀ d, (s.heap.cell d).frozen = false → ¬ σ.rules.fixed d := fun d hd hf => by
      rw [ha.fixed d hf] at hd
      cases hd
    rw [show (σ.reserve (.slot n)).locks = σ.locks from rfl, hlocks] at hh ⊢
    exact (Pointer.deepClone_spec hh.calm (ha.fitsSlot ht (hfree _))
      (fun c hc => ⟨Handle.Tip.unsealed (.inl hc) hh (ha.fitsSlot ht (hfree _)).label, σ.unsteady c⟩) σ.settled hfixed
      fun _ _ _ _ _ _ _ _ _ => trivial).imp fun q h' ⟨hclones, h₁, h₂, hp⟩ => ⟨⟨h₁, h₂, _, _, hclones⟩, hclones.scopes, hp⟩
  have hopen : σ.rules.opened = fun _ => False := funext fun c => eq_false (hopened c)
  obtain ⟨hfresh, hnew⟩ := hclones.fresh hfit (hopen ▸ ha'.safe.abides.apart hapart) ha.safe.scopes
  have ha₁ : (σ.reserve (.slot n)).At (s.withHeap h') (q.1.tasks ++ (q.2.tasks ++ [])) := by simpa using ha'
  refine .modify_bind (.bind ?_ fun _ s' ht' => .pure ht')
  unfold keepSlot
  rw [hdest]
  refine ((ha₁.fill Shelf.slots (a := { t with pointer := q.1 }) (hfree _) hfit).storeSlot_fades (t := { t with pointer := q.2 })
    (hfree _) hfit').imp fun _ s' ⟨hat, k, hs', hf⟩ => ⟨{ t with pointer := q.2 }, ?_⟩
  have hslot : s'.slots.get? name = some { t with pointer := q.2 } := hs' ▸ NameMap.get?_insert_self _ _ _
  have hlive : ∀ m, q.2.label = .counted m → (s'.heap.cell m).destroyed = false := fun m hm =>
    (hat.safe.live_of_held (.inl (Setting.At.heldSlot hslot (hfree _) [] (.release m) (by
      simp [Pointer.tasks, hm, Handle.tasks, Handle.counted?])))).destroyed
  have hheap : s'.heap = k := hs' ▸ rfl
  refine ⟨hslot, hheap ▸ hfresh.fades hf (hheap ▸ hlive), fun m hm => ?_⟩
  obtain ⟨hne, hedges, hscopes⟩ := hnew m hm
  have hsame : s'.heap.scopes = h'.scopes := hat.scopes.trans ha'.scopes.symm
  rw [hs']
  refine ha.secludes hfree (hfresh.label m hm).1 hne ⟨fun x hx => hedges x (hf.edges hx), ?_⟩
  rwa [← hheap, hsame]

end Attempt

/-! ### Sealing the label -/

private theorem Handle.Fits.seal {sealed : CellId → Prop} {l : Handle} {edges : List CellId} (hl : l.Fits (fun _ => False) h)
    (hsub : ∀ d ∈ l.counted?.toList, d ∈ edges) (hnone : ∀ d, sealed d → d ∉ edges) : l.Fits sealed h := fun d hd =>
  ⟨⟨(hl d hd).1.1, fun hs => hnone d hs (hsub d (by simp [hd, counted?]))⟩, (hl d hd).2⟩

/-- A label that nobody has in the heap may be sealed. -/
theorem Sound.seal {sealed : CellId → Prop} {n : Moment} (hs : Sound (fun _ => False) n)
    (hsec : ∀ d, sealed d → n.heap.Secludes d) : Sound sealed n := by
  have hnone : ∀ x d, sealed d → d ∉ (n.heap.cell x).edges := fun x d hd => (hsec d hd).1 x
  refine { hs with
    fits := fun c => ?_
    scopes := fun l hl d hd => ⟨⟨(hs.scopes l hl d hd).1.1, fun hd' => (hsec d hd').2 l hl hd⟩, (hs.scopes l hl d hd).2⟩ }
  have hfits := hs.fits c
  cases hb : (n.heap.cell c).body with
  | label l =>
    rw [hb] at hfits
    refine { hfits with forward := hfits.forward.seal (fun d hd => ?_) (hnone c) }
    rw [Cell.edges, hb]
    exact List.mem_append_right _ hd
  | object b =>
    rw [hb] at hfits
    refine ⟨hfits.1, fun l hl => ?_⟩
    have hedges : ∀ d ∈ Cell.linkEdges l, d ∈ (n.heap.cell c).edges := fun d hd => Heap.mem_edges_of_link hb hl hd
    have hlink := hfits.2 l hl
    cases l with
    | owned p => exact ⟨hlink.target, hlink.label.seal (fun d hd => hedges d (List.mem_append_right _ hd)) (hnone c)⟩
    | weak w => exact ⟨hlink.target, hlink.label.seal hedges (hnone c)⟩
    | label l => exact Handle.Fits.seal hlink hedges (hnone c)

/-! ### What a clone sees -/

/-- The objects that are reached from a pointer through objects, and through its label. -/
def Heap.Scene (h : Heap) (q : Pointer) (c : CellId) : Prop :=
  h.IsObject c ∧ h.Via (fun d => q.label = .counted d) q.tasks c

theorem Handle.Fits.not_object {sealed : CellId → Prop} {h : Heap} {l : Handle} (hl : l.Fits sealed h) (hc : h.IsObject c) :
    c ∉ l.counted?.toList := fun hm => by
  cases l <;> simp [counted?] at hm
  obtain ⟨-, s, hs⟩ := (hl _ rfl).2
  obtain ⟨b, hb⟩ := hc
  rw [← hm, hb] at hs
  cases hs

namespace Sound

variable {sealed : CellId → Prop} {n : Moment} {x : CellId} {b : Object}

theorem not_object_of_standing (hs : Sound sealed n) (hc : .release c ∈ n.heap.standing) : ¬ n.heap.IsObject c := by
  have hlabel : n.heap.IsLabel c := by
    rcases List.mem_cons.1 hc with he | hc
    · cases he
      exact hs.root.2
    · obtain ⟨l, hl, ht⟩ := List.mem_flatMap.1 hc
      cases l <;> simp [Handle.tasks, Handle.counted?] at ht
      exact ht ▸ (hs.scopes _ hl _ rfl).2
  rintro ⟨b, hb⟩
  obtain ⟨-, l, hl⟩ := hlabel
  rw [hb] at hl
  cases hl

theorem leadsTo_of_edge (hs : Sound sealed n) (hb : (n.heap.cell x).body = .object b) (he : c ∈ (n.heap.cell x).edges)
    (hc : n.heap.IsObject c) : b.LeadsTo c := by
  have hfits := hs.fits x
  rw [hb] at hfits
  rw [Cell.edges, hb] at he
  obtain ⟨l, hl, he⟩ := List.mem_flatMap.1 he
  have hlink := hfits.2 l hl
  cases l with
  | owned p =>
    rcases List.mem_append.1 he with ht | ht
    · exact ⟨p, hl, by simpa using ht⟩
    · exact absurd ht (hlink.label.not_object hc)
  | weak w => exact absurd he (hlink.label.not_object hc)
  | label l => exact absurd he (Handle.Fits.not_object hlink hc)

end Sound

/-- What a pointer sees is anchored in what the pointer owns. -/
theorem Heap.Scene.anchored {n : Moment} (hs : Sound (fun _ => False) n) (hfits : q.Fits (fun _ => False) n.heap)
    (hc : n.heap.Scene q c) :
    n.heap.Anchored { sealed := fun d => q.label = .counted d, fixed := n.heap.Scene q } q.tasks c := by
  suffices hor : ∀ d, n.heap.Via (fun d => q.label = .counted d) q.tasks d → n.heap.IsObject d ∨ q.label = .counted d →
      n.heap.Anchored { sealed := fun d => q.label = .counted d, fixed := n.heap.Scene q } q.tasks d from
    hor c hc.2 (.inl hc.1)
  intro d hd hkind
  by_cases hl : q.label = .counted d
  · exact .held (by simp [Pointer.tasks, Handle.tasks, Handle.counted?, hl])
  have hobj := hkind.resolve_right hl
  clear hkind hl
  induction hd with
  | held hheld => exact .held (hheld.resolve_right fun hm => hs.not_object_of_standing hm hobj)
  | @edge x d hx hkind he ih =>
    rcases hkind with hxo | hl
    · exact .object (ih hxo) ⟨hxo, hx⟩ hxo he
    · have hheld : n.heap.Anchored { sealed := fun d => q.label = .counted d, fixed := n.heap.Scene q } q.tasks x :=
        .held (by simp [Pointer.tasks, Handle.tasks, Handle.counted?, hl])
      exact .label hheld hl (hfits.label x hl).2 he

namespace Pointer.Fresh

variable {h₀ : Heap} {n : Moment}

theorem frozen (hq : q.Fresh h₀ n.heap) (hs : Sound (fun _ => False) n) (hclosed : n.heap.Closed fun _ => False)
    (hc : n.heap.Scene q c) : (n.heap.cell c).frozen = true := by
  obtain ⟨hobj, hvia⟩ := hc
  induction hvia with
  | @held c hheld =>
    rcases hheld with hm | hm
    · simp only [Pointer.tasks, List.mem_append, List.mem_map, Option.mem_toList, Task.release.injEq, exists_eq_right,
        Handle.tasks] at hm
      rcases hm with ht | hl
      · exact (hq.target c ht).1
      · obtain ⟨-, memo, hb, -⟩ := hq.label c (by cases hl' : q.label <;> simp_all [Handle.counted?])
        obtain ⟨b, hb'⟩ := hobj
        rw [hb] at hb'
        cases hb'
    · exact absurd hobj (hs.not_object_of_standing hm)
  | @edge x c _ hx he ih =>
    rcases hx with ⟨b, hb⟩ | hl
    · exact hclosed x b hb (ih ⟨b, hb⟩) id c (hs.leadsTo_of_edge hb he hobj)
    · obtain ⟨-, memo, hb, hcopies⟩ := hq.label x hl
      rw [Cell.edges, hb] at he
      simp only [Label.ofMemo, Handle.counted?, Option.toList_none, List.append_nil] at he
      exact hcopies c he

theorem region (hq : q.Fresh h₀ n.heap) (hs : Sound (fun _ => False) n) (hclosed : n.heap.Closed fun _ => False)
    (hl : q.label = .counted m) (hkind : ∀ c b, (n.heap.cell c).body = .object b → b.kind.rebinds = true) :
    n.heap.Region m (n.heap.Scene q) := by
  obtain ⟨-, memo, hb, -⟩ := hq.label m hl
  have hfits := hs.fits m
  rw [hb] at hfits
  have hvia : n.heap.Via (fun d => q.label = .counted d) q.tasks m :=
    .held (.inl (by simp [Pointer.tasks, Handle.tasks, Handle.counted?, hl]))
  refine ⟨⟨_, hb, rfl, fun e he _ => ⟨(hfits.entries e he).2.1, ?_⟩⟩, fun c => And.left, fun c b hc hb hd => ⟨hkind c b hb, ?_⟩⟩
  · exact .edge hvia (.inr hl) (Heap.mem_edges_of_copy hb (List.mem_map_of_mem he))
  · intro p t hp ht
    have hfits := hs.fits c
    rw [hb] at hfits
    have hlink : p.Fits (fun _ => False) n.heap := hfits.2 _ hp
    refine ⟨⟨hlink.target t ht, .edge hc.2 (.inl hc.1) (Heap.mem_edges_of_leadsTo hb ⟨p, hp, ht⟩)⟩, fun hun => ?_⟩
    rw [hq.frozen hs hclosed hc] at hun
    cases hun

end Pointer.Fresh

/-! ### What lasts of it -/

namespace Heap.Region

variable {W : CellId → Prop} {l : Label}

/-- A region that is frozen lasts while its label stays as it is and its objects are there. -/
theorem lasts (hreg : h.Region m W) (hfrozen : ∀ c, W c → (h.cell c).frozen = true) (hl : h.Lasts W h')
    (hlabel : (h'.cell m).body = (h.cell m).body) (hlive : ∀ c, W c → (h'.cell c).destroyed = false) : h'.Region m W := by
  obtain ⟨s, hs, hun, hentries⟩ := hreg.label
  have hobject : ∀ c, W c → ∃ b b', (h.cell c).body = .object b ∧ (h'.cell c).body = .object b' ∧ b.Same b' := fun c hc => by
    obtain ⟨b, hb⟩ := hreg.known c hc
    obtain ⟨b', hb', hsame⟩ := hl.object c b hc hb (hlive c hc)
    exact ⟨b, b', hb, hb', hsame⟩
  refine ⟨⟨s, hlabel.trans hs, hun, hentries⟩, fun c hc => ?_, fun c b' hc hb' _ => ?_⟩
  · obtain ⟨b, b', -, hb', -⟩ := hobject c hc
    exact ⟨b', hb'⟩
  · obtain ⟨b, b₁, hb, hb₁, hsame⟩ := hobject c hc
    cases hb₁.symm.trans hb'
    have hd : (h.cell c).destroyed = false := Bool.eq_false_iff.2 fun hd => by
      have := hl.destroyed c (Heap.IsObject.lt_size ⟨b, hb⟩) hd
      rw [hlive c hc] at this
      cases this
    obtain ⟨hkind, hlinks⟩ := hreg.object c b hc hb hd
    rw [hsame.kind, hsame.links, (hl.frozen hc (Heap.IsObject.lt_size ⟨b, hb⟩)), hfrozen c hc]
    exact ⟨hkind, fun p t hp ht => ⟨(hlinks p t hp ht).1, nofun⟩⟩

theorem shows (hreg : h.Region m W) (hl : h.Lasts W h') (hlabel : (h'.cell m).body = (h.cell m).body)
    (hlive : ∀ c, W c → (h.cell c).destroyed = false ∧ (h'.cell c).destroyed = false)
    (horder : ∀ e ∈ (h.label m).memo.entries, e.1 < e.2) {path : Path} {v : Option Int}
    (ho : W o) (hv : h'.Shows m path o v) : h.Shows m path o v := by
  obtain ⟨s, hs, -, hentries⟩ := hreg.label
  have halike : h.Alike s.memo h' s.memo W :=
    ⟨fun c hc => hl.frozen hc (hreg.known c hc).lt_size, fun _ _ => rfl, fun c d hc hget => hentries _ (Memo.mem_of_get? hget) hc⟩
  refine hv.back (R := fun a d => W a ∧ a = d) (fun a d ⟨ha, had⟩ => ?_) ⟨ho, rfl⟩
  subst had
  obtain ⟨r, hr⟩ := h.exists_stands (h.label_eq hs ▸ horder) a
  have hsees : h.Sees (.counted m) a r := by rwa [Heap.Sees, h.label_eq hs]
  have hwr := hreg.sees ha hsees
  obtain ⟨b, hb⟩ := hreg.known r hwr
  obtain ⟨b', hb', hsame⟩ := hl.object r b hwr hb (hlive r hwr).2
  refine ⟨r, r, b, b', hsees, ?_, hb, hb', hsame.value, fun name i => ?_⟩
  · rw [Heap.Sees, h'.label_eq (hlabel.trans hs)]
    exact halike.stands hr ha
  · rw [hsame.resembles.targetAt]
    cases ht : b.targetAt name i with
    | none => exact .inl ⟨rfl, rfl⟩
    | some t =>
      obtain ⟨p, hp, htp⟩ := Object.leadsTo_of_targetAt ht
      exact .inr ⟨t, t, rfl, rfl, ((hreg.object r b hwr hb (hlive r hwr).1).2 p t hp htp).1, rfl⟩

end Heap.Region

/-! ### Circumstances in which a clone is left alone -/

/-- The name of a clone is reserved, its label is sealed, and all that it saw when it was made is left as it is. -/
def Setting.isolating (origin : Moment) (name : String) (t : Slot) (h : Heap) (hroot : t.pointer.label ≠ .counted rootCell) :
    Setting where
  rules := { sealed := fun d => t.pointer.label = .counted d, fixed := h.Scene t.pointer }
  origin
  locks := []
  scopes := []
  outer := t.pointer.tasks
  anchor := t.pointer.tasks
  free p := decide (p ≠ .slot name)
  kept s := s.slots.get? name = some t
  lent d := t.pointer.target = some d
  settled _ := id
  unsteady _ := id
  rootFree := hroot
  fieldLocks := .nil
  guarded := nofun
  anchored _ := id
  keptReserved s s' hs hslots _ := (hslots name (by simp)).trans hs
  lentOuter d hd := List.mem_append_left _ (by simp [hd])

/-- No operand of a request is a certain name. -/
def Args.Avoids (args : Args) (name : String) : Prop :=
  some name ∉ [args.a, args.b, args.dest, args.swapWith, args.keep, args.within, args.label, args.weak]

namespace Setting

variable {origin : Moment} {hroot : t.pointer.label ≠ .counted rootCell}

theorem quiet_isolating : (isolating origin name t h hroot).Quiet where
  locks := rfl
  labels _ := by simp [isolating]
  slots around s n u o ha hu ho := by
    by_cases hn : n = name
    · subst hn
      have hkept : s.slots.get? n = some t := ha.kept
      obtain rfl := Option.some.inj (hu.symm.trans hkept)
      refine ⟨(ha.lent o ho).1, List.mem_append_right _ (List.mem_append_right _ (List.mem_append_right _ ?_))⟩
      exact List.mem_append_left _ (by simp [ho])
    · have hfree : ((isolating origin name t h hroot).within around).free (.slot n) = true := by
        simp [within, isolating, hn]
      exact ⟨(ha.fitsSlot hu hfree).target o ho, At.heldSlot hu hfree [] _ (List.mem_append_left _ (by simp [ho]))⟩

theorem admits_isolating (hargs : args.Avoids name) : (isolating origin name t h hroot).Admits args := by
  simp only [Args.Avoids, List.mem_cons, List.not_mem_nil, or_false, not_or] at hargs
  have hopen : ∀ n, some name ≠ some n → (isolating origin name t h hroot).Open n := fun n hn p hp _ => by
    refine decide_eq_true fun he => hn ?_
    rw [← hp, he]
    rfl
  obtain ⟨ha, hb, hdest, hswap, hkeep, hwithin, hlabel, hweak⟩ := hargs
  exact ⟨fun n he => hopen n (he ▸ ha), fun n he => hopen n (he ▸ hb), fun n he => hopen n (he ▸ hdest),
    fun n he => hopen n (he ▸ hswap), fun n he => hopen n (he ▸ hkeep), fun n he => hopen n (he ▸ hwithin),
    fun n he => hopen n (he ▸ hlabel), fun n he => hopen n (he ▸ hweak)⟩

end Setting

/-- Operations by which nothing reaches into an object that is frozen at that moment or changes its value, labels are
changed through pointers, and headers are not changed by hand. -/
abbrev Discreet (s : Session) (args : Args) (op : Op) : Prop :=
  op.Permitted { apart := true, closed := true, fixed := fun _ => True } s args

namespace Discreet

variable {op : Op}

theorem permitted (hop : Discreet s args op) {sealed fixed : CellId → Prop} {apart closed : Bool} :
    op.Permitted { apart, closed, sealed, fixed } s args := by
  cases op with
  | pointer op =>
    cases op with
    | mapGet => cases hop
    | mapCopy => cases hop.2
    | _ => trivial
  | object op => exact ⟨fun _ => hop.1 (.inr ⟨rootCell, trivial⟩), fun _ _ => hop.2 rootCell trivial⟩
  | label op =>
    cases op with
    | fork => exact fun _ => hop rfl
    | copy => exact fun _ => hop rfl
    | _ => trivial
  | header op => exact hop
  | _ => trivial

theorem of_object {op : ObjectOp} (hop : op ∉ [.link, .unlink, .follow, .finish, .setValue]) : Discreet s args (.object op) := by
  simp only [List.mem_cons, List.not_mem_nil, or_false, not_or] at hop
  refine ⟨fun _ o k hr => ?_, fun _ _ o k hs => ?_⟩
  · cases hr with
    | borrow hmem => simp [hop] at hmem
    | link => exact absurd rfl hop.1
    | finish => exact absurd rfl hop.2.2.2.1
  · cases hs with
    | setValue => exact absurd rfl hop.2.2.2.2

theorem allows_isolating {origin : Moment} {hroot : t.pointer.label ≠ .counted rootCell} (hop : Discreet s args op) :
    (Setting.isolating origin name t h hroot).Allows s args op := by
  refine ⟨hop.permitted, ?_⟩
  cases op with
  | object op => cases op <;> first | exact trivial | exact fun n _ => by simp [Setting.isolating]
  | _ => trivial

end Discreet

/-! ### Runs -/

theorem NameMap.Fits.sharpen {α : Type} {m : NameMap α} {free : String → Bool} {P P' : α → Prop} (hm : m.Fits free P)
    (hP : ∀ n a, free n = true → m.get? n = some a → P a → P' a) : m.Fits free P' :=
  ⟨hm.distinct, fun e he hfree => hP e.1 e.2 hfree (hm.distinct.get?_of_mem he) (hm.each e he hfree)⟩

private theorem Handle.Fits.sharpen {sealed : CellId → Prop} {l : Handle} (hl : l.Fits (fun _ => False) h)
    (hne : ∀ d, sealed d → l ≠ .counted d) : l.Fits sealed h := fun d hd =>
  ⟨⟨(hl d hd).1.1, fun hs => hne d hs hd⟩, (hl d hd).2⟩

namespace Situation

variable {x y : Situation} {h₀ : Heap}

/-- A fresh clone that nobody shares the label with may be left alone from then on. -/
private theorem At.isolating (ha : x.At (.initial false true true)) (ht : x.session.slots.get? name = some t)
    (hfresh : t.pointer.Fresh h₀ x.session.heap) (hsec : ∀ m, t.pointer.label = .counted m → x.session.Secludes name m)
    (hroot : t.pointer.label ≠ .counted rootCell) :
    ∃ origin, origin.heap = x.session.heap ∧ Firm (fun d => t.pointer.label = .counted d) origin ∧
      x.At (.isolating origin name t x.session.heap hroot) := by
  have htake := Setting.At.takeSlot ha ht rfl
  let held := ((Setting.isolating ⟨.initial, [], [], []⟩ name t x.session.heap hroot).within x.around).held x.session []
  have hperm : ((((Setting.initial false true true).within x.around).reserve (.slot name)).held x.session
      (t.pointer.tasks ++ [])).Perm held := by
    refine List.perm_iff_count.2 fun u => ?_
    simp only [held, Setting.held, Setting.within, Setting.reserve, Setting.initial, Setting.isolating, List.count_append,
      Bool.true_and, List.count_nil]
    omega
  have hstep : Advance (Setting.initial false true true).rules ⟨x.session.heap, ((Setting.initial false true true).within x.around).locks, [], _⟩
      ⟨x.session.heap, ((Setting.initial false true true).within x.around).locks, [], held⟩ := .arrange hperm
  have hsafe := (htake.safe.step hstep).1
  have hclosed : x.session.heap.Closed fun _ => False := hsafe.abides.closed rfl rfl
  have hfits : t.pointer.Fits (fun _ => False) x.session.heap := ha.fitsSlot ht rfl
  have hseal : Sound (fun d => t.pointer.label = .counted d)
      ⟨x.session.heap, ((Setting.initial false true true).within x.around).locks, [], held⟩ :=
    hsafe.toSound.seal fun d hd => (hsec d hd).heap
  have hfirm : Firm (fun d => t.pointer.label = .counted d)
      ⟨x.session.heap, ((Setting.initial false true true).within x.around).locks, [], held⟩ := ⟨hseal, hsafe.guarded⟩
  have hfits' := htake.fits
  exact ⟨_, rfl, hfirm, {
    course := .refl
    safe := ⟨hfirm, .lax rfl rfl rfl hsafe.abides.root, fun d hd => (hfits.label d hd).2.1⟩
    owned := hstep.owned htake.safe.toFirm htake.owned
    fits := {
      slots := hfits'.slots.sharpen fun n u hn hu hfit =>
        ⟨hfit.target, hfit.label.sharpen fun d hd => (hsec d hd).slots n u (by rintro rfl; simp [Setting.reserve] at hn) hu⟩
      weaks := hfits'.weaks.sharpen fun n w _ hw hfit => ⟨hfit.target, hfit.label.sharpen fun d hd => (hsec d hd).weaks n w hw⟩
      labels := hfits'.labels.sharpen fun n l _ hl hfit => hfit.sharpen fun d hd => (hsec d hd).labels n l hl
      borrows := hfits'.borrows }
    scopes := ha.scopes
    anchors := fun d hd => Heap.Scene.anchored hsafe.toSound hfits hd
    fixed := fun d hd => hfresh.frozen hsafe.toSound hclosed hd
    kept := ht
    lent := fun d hd => ⟨hfits.target d hd, (hfresh.target d hd).1⟩ }⟩

/-- Whatever path is followed from a pointer that has a name, its end is what the label of the pointer sees there. -/
private theorem At.shows (ha : x.At (.initial false false false)) (hx : x.locked = false)
    (ht : x.session.slots.get? name = some t) (ho : t.pointer.target = some o) (hl : t.pointer.label = .counted m)
    {W : CellId → Prop} (hreg : x.session.heap.Region m W) (hW : W o) (path : Path) :
    ∃ v q k, t.pointer.valueAlong path x.session.heap = .ok ((q, v), k) ∧ x.session.heap.Shows m path o v := by
  obtain ⟨frame, -, hsafe, hfits⟩ := ha.inHand hx ht
  have hh : Holding (.sparing fun _ => False) {} [] frame x.session.heap t.pointer.tasks := hsafe.holding (.refl _)
  obtain ⟨⟨q, v⟩, k, hrun, hv⟩ := (Pointer.valueAlong_spec (E := fun _ => False) path hh hfits hreg fun o' ho' => by
    cases ho.symm.trans ho'
    exact ⟨hl, hW⟩).exists_ok
  refine ⟨v, q, k, hrun, ?_⟩
  rcases hv with ⟨hnone, -⟩ | ⟨o', ho', hv⟩
  · rw [ho] at hnone
    cases hnone
  · cases ho.symm.trans ho'
    exact hv

theorem valueAlong_of_none (hp : p.target = none) (path : Path) (h : Heap) : p.valueAlong path h = .ok ((p, none), h) := by
  simp only [Pointer.valueAlong, Pointer.grasp, Pointer.pull, hp]
  rfl

private theorem At.live_of_scene {origin : Moment} {hroot : t.pointer.label ≠ .counted rootCell}
    (ha : x.At (.isolating origin name t h hroot)) (hc : h.Scene t.pointer c) : (x.session.heap.cell c).destroyed = false :=
  (ha.safe.live_of_reach (ha.anchored [] c hc).reach).destroyed

private theorem At.live_label {origin : Moment} {hroot : t.pointer.label ≠ .counted rootCell}
    (ha : x.At (.isolating origin name t h hroot)) (hl : t.pointer.label = .counted m) : (x.session.heap.cell m).destroyed = false :=
  have howned : .release m ∈ t.pointer.tasks := by simp [Pointer.tasks, Handle.tasks, Handle.counted?, hl]
  (ha.safe.live_of_held (.inl (List.mem_append_right _ (List.mem_append_right _ (List.mem_append_right _ howned))))).destroyed

/-- What comes of a clone that has just been made and is left alone: each path from it ends where it did. -/
private theorem At.isolated (ha : x.At (.initial false true true)) (hu : x.At (.initial false false false)) (hx : x.locked = false)
    (hsize : rootCell < s.heap.size) (hc : s.Clones x.session name t)
    (hkind : ∀ c b, (x.session.heap.cell c).body = .object b → b.kind.rebinds = true)
    (hrun : Runs (fun s args op => Discreet s args op ∧ args.Avoids name) x y) (hy : y.locked = false) :
    y.session.slots.get? name = some t ∧ ∀ path, ∃ v q k q' k',
      t.pointer.valueAlong path x.session.heap = .ok ((q, v), k) ∧ t.pointer.valueAlong path y.session.heap = .ok ((q', v), k') := by
  obtain ⟨ht, hfresh, hsec⟩ := hc
  have hroot : t.pointer.label ≠ .counted rootCell := fun hl => absurd (hfresh.label _ hl).1 (Nat.not_le.2 hsize)
  obtain ⟨origin, horigin, hfirm, hat⟩ := ha.isolating ht hfresh hsec hroot
  have hat' : y.At (.isolating origin name t x.session.heap hroot) :=
    hrun.keeps Setting.quiet_isolating (fun _ _ _ hop => ⟨Setting.admits_isolating hop.2, hop.1.allows_isolating⟩) hat
  have hu' : y.At (.initial false false false) := hrun.at plain_initial (fun _ _ _ hop => hop.1.permitted) hu
  have ht' : y.session.slots.get? name = some t := hat'.kept
  refine ⟨ht', fun path => ?_⟩
  cases ho : t.pointer.target with
  | none => exact ⟨none, _, _, _, _, valueAlong_of_none ho path _, valueAlong_of_none ho path _⟩
  | some o =>
    obtain ⟨-, m, hl⟩ := hfresh.target o ho
    obtain ⟨-, memo, hb, -⟩ := hfresh.label m hl
    have hfits : t.pointer.Fits (fun _ => False) x.session.heap := ha.fitsSlot ht rfl
    have hscene : x.session.heap.Scene t.pointer o :=
      ⟨hfits.target o ho, .held (.inl (List.mem_append_left _ (by simp [ho])))⟩
    have hcourse : Course (Setting.isolating origin name t x.session.heap hroot).rules origin _ := hat'.course
    have hlasts : x.session.heap.Lasts (x.session.heap.Scene t.pointer) y.session.heap := horigin ▸ hcourse.lasts hfirm
    have hlabel : (y.session.heap.cell m).body = .label (.ofMemo memo) :=
      hcourse.sealed hfirm hl (horigin ▸ hb) (horigin ▸ (hfits.label m hl).2.1) (hat'.live_label hl)
    have hregion : x.session.heap.Region m (x.session.heap.Scene t.pointer) :=
      hfresh.region ha.safe.toSound (ha.safe.abides.closed rfl rfl) hl hkind
    have hregion' : y.session.heap.Region m (x.session.heap.Scene t.pointer) :=
      hregion.lasts hat.fixed hlasts (hlabel.trans hb.symm) fun c => hat'.live_of_scene
    have horder : ∀ e ∈ (x.session.heap.label m).memo.entries, e.1 < e.2 := fun e he => by
      have hlabelfits := ha.safe.fits m
      rw [show (Moment.heap _).cell m = x.session.heap.cell m from rfl, hb] at hlabelfits
      rw [x.session.heap.label_eq hb] at he
      exact (hlabelfits.entries e he).2.2
    obtain ⟨v, q, k, hrun₁, hv⟩ := hu.shows hx ht ho hl hregion hscene path
    obtain ⟨v', q', k', hrun₂, hv'⟩ := hu'.shows hy ht' ho hl hregion' hscene path
    have hback := hregion.shows hlasts (hlabel.trans hb.symm) (fun c hc => ⟨hat.live_of_scene hc, hat'.live_of_scene hc⟩)
      horder hscene hv'
    obtain rfl := hv.unique hback
    exact ⟨v, q, k, q', k', hrun₁, hrun₂⟩

/-- In a run in which nobody reaches into frozen objects or changes their values, and labels are changed through
pointers: when a pointer has been cloned together with all that it leads to, and the name of the clone is used no more,
the clone stays as it is, whatever else is done; and at the end of each path from the clone a pull comes to the value, or
comes to none, as it would have done at once. -/
theorem isolated_of_runs {reply : Reply} (hrun : Runs Discreet initial x) (hx : x.locked = false) (hdest : args.dest = some name)
    (hclone : (Attempt.perform false args (.object .deepClone)).run x.session = .ok (.ok reply, s))
    (hkind : ∀ c b, (s.heap.cell c).body = .object b → b.kind.rebinds = true) :
    ∃ t, s.slots.get? name = some t ∧ ∀ y, Runs (fun s args op => Discreet s args op ∧ args.Avoids name) ⟨s, x.around⟩ y →
      y.locked = false → y.session.slots.get? name = some t ∧ ∀ path, ∃ v q k q' k',
        t.pointer.valueAlong path s.heap = .ok ((q, v), k) ∧ t.pointer.valueAlong path y.session.heap = .ok ((q', v), k') := by
  have hlater : ∀ apart closed, At (.initial false apart closed) ⟨s, x.around⟩ := fun apart closed => by
    have ha : x.At (.initial false apart closed) := at_of_runs (fun _ _ _ hop => hop.permitted) hrun
    have hop : Discreet x.session args (.object .deepClone) := .of_object (by simp)
    have hend : Setting.Ends _ (Attempt.perform false args (.object .deepClone)) x.session :=
      Attempt.perform_ends ha (fun _ => locks_within _ rfl hx) nofun
      ((plain_initial.admits args).inside x.around) (plain_initial.allows hop.permitted)
    rwa [Setting.Ends, Attempt.Ends, hclone] at hend
  have ha : x.At (.initial false true true) := at_of_runs (fun _ _ _ hop => hop.permitted) hrun
  obtain ⟨t, hc⟩ : ∃ t, x.session.Clones s name t := by
    have hend := Attempt.deepClone_clones ha (locks_within _ rfl hx) (fun _ => rfl) rfl (fun _ => id) hdest
    rwa [Attempt.Ends, show (Attempt.objects args .deepClone).run x.session = _ from hclone] at hend
  exact ⟨t, hc.slot, fun y hy hylock =>
    (hlater true true).isolated (hlater false false) hx ha.safe.root.2.1 hc hkind hy hylock⟩

/-- What happens behind the back of a clone: the node that was cloned is copied, both pointers go, and there is a round. -/
def pulledBehind : List (Op × Args) :=
  [(.object .pull, { Args.blank with a := some "q" }), (.pointer .drop, { Args.blank with a := some "q" }),
    (.pointer .drop, { Args.blank with a := some "p" }), (.collector .collect, Args.blank)]

theorem isolated_of_clonedPair : ∃ x s t y, initial.after frozenPair.dropLast = some x ∧
    (Attempt.perform false { Args.blank with a := some "q", dest := some "d" } (.object .deepClone)).run x.session =
      .ok (.ok .nothing, s) ∧ s.slots.get? "d" = some t ∧ after ⟨s, x.around⟩ pulledBehind = some y ∧
    ∃ q k q' k', t.pointer.valueAlong [(.next, 0)] s.heap = .ok ((q, some 3), k) ∧
      t.pointer.valueAlong [(.next, 0)] y.session.heap = .ok ((q', some 3), k') := by
  obtain ⟨x, hx, h⟩ : ∃ x, initial.after frozenPair.dropLast = some x ∧ (x.locked,
      (match (Attempt.perform false { Args.blank with a := some "q", dest := some "d" } (.object .deepClone)).run x.session with
        | .ok (.ok .nothing, s) => (after ⟨s, x.around⟩ pulledBehind).map fun y => (y.locked,
            (List.range s.heap.size).all fun c => (s.heap.cell c).object?.all (·.kind.rebinds),
            (s.slots.get? "d").map fun t => (t.pointer.valueAlong [(.next, 0)] s.heap).toOption.map (·.1.2))
        | _ => none)) = (false, some (false, true, some (some (some 3)))) := Option.map_eq_some_iff.1 (by cbv)
  obtain ⟨hlocked, h⟩ := Prod.mk.inj h
  split at h
  · next s hclone =>
    simp only [Option.map_eq_some_iff, Prod.mk.injEq, List.all_eq_true, List.mem_range] at h
    obtain ⟨y, hy, hylocked, hkinds, t, ht, ⟨⟨q, v⟩, k⟩, hvalue, rfl⟩ := h
    have hrun : Runs Discreet initial x := runs_of_after rfl hx fun _ p hp => by
      simp only [frozenPair, List.dropLast_cons_cons, List.dropLast_singleton, List.mem_cons, List.not_mem_nil, or_false] at hp
      rcases hp with rfl | rfl | rfl <;> trivial
    obtain ⟨t', ht', hlater⟩ := isolated_of_runs hrun hlocked rfl hclone fun c b hb => by
      have := hkinds c (Heap.IsObject.lt_size ⟨b, hb⟩)
      simpa [Cell.object?, hb] using this
    obtain rfl := Option.some.inj (ht.symm.trans ht')
    obtain ⟨-, hpaths⟩ := hlater y (runs_of_after hlocked hy fun _ p hp => by
      simp only [pulledBehind, List.mem_cons, List.not_mem_nil, or_false] at hp
      rcases hp with rfl | rfl | rfl | rfl
      · exact ⟨.of_object (by simp), by simp [Args.Avoids, Args.blank]⟩
      · exact ⟨trivial, by simp [Args.Avoids, Args.blank]⟩
      · exact ⟨trivial, by simp [Args.Avoids, Args.blank]⟩
      · exact ⟨trivial, by simp [Args.Avoids, Args.blank]⟩) hylocked
    obtain ⟨v, q₁, k₁, q', k', hv, hv'⟩ := hpaths [(.next, 0)]
    rw [hv] at hvalue
    cases hvalue
    exact ⟨x, s, t, y, hx, hclone, ht, hy, q, k, q', k', hv, hv'⟩
  · cases h

end Situation

end LazyHeap
