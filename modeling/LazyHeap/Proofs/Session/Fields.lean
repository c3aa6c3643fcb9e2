import LazyHeap.Proofs.Finishing
import LazyHeap.Session.Objects

/-! Editing and following a field under its lock, and changing a value. -/
namespace LazyHeap

variable {manner : Manner} {rules : Rules} {locks : List Lock} {frame ins : List Task} {h h' : Heap} {c : CellId}
variable {o : Object} {f : Field} {name : FieldName} {p : Pointer} {how : Mode} {E : Fault → Prop}

/-! ### Edits -/

namespace FieldEdit

/-- What an edit brings along. -/
def adds : FieldEdit → List Link
  | .assign new => new
  | .append link => [link]
  | .dropLast => []

/-- What gets into the field only after the old contents are dropped. -/
def waits : FieldEdit → List Link
  | .assign new => new
  | _ => []

variable {edit : FieldEdit} {links : List Link}

theorem mem_stays {l : Link} (hl : l ∈ edit.stays links) : l ∈ links ∨ l ∈ edit.adds := by
  cases edit with
  | assign new => cases hl
  | append link => exact List.mem_append.1 hl
  | dropLast => exact .inl ((List.dropLast_sublist _).mem hl)

theorem mem_result {l : Link} (hl : l ∈ edit.result links) : l ∈ edit.stays links ∨ l ∈ edit.adds := by
  cases edit with
  | assign new => exact .inr hl
  | append link => exact .inl hl
  | dropLast => exact .inl hl

/-- Before anything is dropped, the links are those that stay, those that leave and those that wait. -/
theorem perm_stays : (links ++ edit.adds).Perm (edit.stays links ++ (edit.leaves links ++ edit.waits)) := by
  cases edit with
  | assign new => exact .refl _
  | append link => exact .of_eq (by simp [adds, stays, leaves, waits])
  | dropLast =>
    refine .of_eq ?_
    rcases List.eq_nil_or_concat links with rfl | ⟨xs, x, rfl⟩
    · rfl
    · simp [adds, stays, leaves, waits]

theorem perm_result : (edit.stays links ++ edit.waits).Perm (edit.result links) := by
  cases edit <;> exact .of_eq (by simp [stays, waits, result])

end FieldEdit

/-- Whatever comes along finds its place in the field, and what leaves it is dropped. -/
theorem editField_spec {edit : FieldEdit} (hh : Holding .calm rules [] frame h (edit.adds.flatMap Link.tasks))
    (hb : (h.cell c).body = .object o) (hf : o.field? name = some f) (hwait : E .selfWait)
    (hc : h.Within .calm frame c) (hopen : h.Editable rules c) (hadds : ∀ l ∈ edit.adds, l.Fits rules.sealed h) :
    Ends E (editField c name edit h) fun _ h' => h'.scopes = h.scopes ∧
      Passage rules [] frame h (edit.adds.flatMap Link.tasks) h' [] := by
  have hfits := hh.safe.fits c
  rw [show (Moment.heap _).cell c = h.cell c from rfl, hb] at hfits
  refine .bind (lockField_spec hb hfits.1 hf fun _ => hwait) fun links h₁ ⟨hunlocked, hlinks, hh₁⟩ => ?_
  subst hlinks hh₁
  have hstays : ∀ l ∈ edit.stays f.links, l.Fits rules.sealed h := fun l hl =>
    (FieldEdit.mem_stays hl).elim (fun hl => hfits.2 l (List.mem_flatMap.2 ⟨f, Object.mem_of_field? hf, hl⟩)) (hadds l)
  have hact : Holding .calm rules [(c, some name)] frame (h.putField c ⟨name, true, edit.stays f.links⟩)
      ((edit.leaves f.links ++ edit.waits).flatMap Link.tasks) →
      Ends E ((edit.leaves f.links).forM Link.drop (h.putField c ⟨name, true, edit.stays f.links⟩)) fun _ k =>
        True ∧ (∀ l ∈ edit.result f.links, l.Fits rules.sealed k) ∧
          Run .calm rules [(c, some name)] frame (h.putField c ⟨name, true, edit.stays f.links⟩)
            ((edit.leaves f.links ++ edit.waits).flatMap Link.tasks) k (edit.waits.flatMap Link.tasks) := fun hh₁ => by
    have hh₂ := hh₁.focus (.of_eq List.flatMap_append)
    refine (forM_spec (s := Link.tasks) (t := fun _ => []) (fun done link rest k _ _ hhk => ?_) hh₂).imp fun _ k hr => ?_
    · exact Link.drop_spec hhk
    · have hr' := hr.widen.perm (.of_eq List.flatMap_append) (.refl _)
      rw [List.flatMap_eq_nil_iff.2 fun _ _ => rfl] at hr'
      refine ⟨trivial, fun l hl => Link.Fits.grows ?_ ((Heap.putField_grows hb).trans hr'.keeps.grows), hr'⟩
      exact (FieldEdit.mem_result hl).elim (hstays l) (hadds l)
  have hperm : (f.links ++ edit.adds).Perm (edit.stays f.links ++ (edit.leaves f.links ++ edit.waits)) :=
    FieldEdit.perm_stays
  have hrework := hh.rework (edit.stays f.links) (fun _ => edit.result f.links) (fun _ => []) (fun _ => ()) hb hf
    hunlocked hc hopen nofun hstays
    (List.flatMap_append ▸ List.flatMap_append ▸ hperm.flatMap_right _) hact
    fun _ => by
      rw [List.append_nil, ← List.flatMap_append]
      exact FieldEdit.perm_result.flatMap_right _
  rw [← bind_pure (unlockField c name)]
  refine hrework.imp fun _ h' ⟨_, k, _, _, _, _, _, _, hsteps, hkeeps⟩ => ?_
  obtain ⟨hsafe, hg⟩ := hh.safe.steps hsteps
  exact ⟨hkeeps.scopes, .of_steps hsteps, hsafe, .of_without hg hkeeps⟩

/-! ### Following -/

theorem borrow_spec (hh : Holding .calm rules locks frame h ins) (hc : .release c ∈ ins ++ frame) (hroot : c ≠ rootCell) :
    Ends E (borrow c h) fun _ h' => Run .calm rules locks frame h ins h' (.release c :: ins) :=
  (retain_spec hh (hh.live hc) hroot).imp fun _ _ ⟨hr, _⟩ => hr

/-- However links are changed, tolls that suffice go on sufficing, and the sum for these links does not rise. -/
def Heap.Affords (h h' : Heap) (links links' : List Link) : Prop :=
  ∀ tolls out, h.Tolled tolls out → h'.Tolled tolls out ∧
    (links'.map (Link.toll tolls)).sum ≤ (links.map (Link.toll tolls)).sum

namespace Heap.Affords

variable {links links' links'' : List Link}

protected theorem refl (h : Heap) (links : List Link) : h.Affords h links links := fun _ _ ht => ⟨ht, Nat.le_refl _⟩

theorem of_kept {hold : List Task} (hk : h.Kept hold h') (links : List Link) : h.Affords h' links links := fun _ _ ht =>
  ⟨ht.kept hk, Nat.le_refl _⟩

protected theorem trans {k : Heap} (h₁ : h.Affords h' links links') (h₂ : h'.Affords k links' links'') :
    h.Affords k links links'' := fun tolls out ht =>
  have ⟨ht₁, hle₁⟩ := h₁ tolls out ht
  have ⟨ht₂, hle₂⟩ := h₂ tolls out ht₁
  ⟨ht₂, Nat.le_trans hle₂ hle₁⟩

theorem around (ha : h.Affords h' links links') (before after : List Link) :
    h.Affords h' (before ++ links ++ after) (before ++ links' ++ after) := fun tolls out ht => by
  obtain ⟨ht', hle⟩ := ha tolls out ht
  simp only [List.map_append, List.sum_append]
  exact ⟨ht', by omega⟩

end Heap.Affords

theorem Pointer.resolveBy_spec (hh : Holding (.sparing rules.sealed) rules locks frame h p.tasks) (hmemo : FieldLocks locks)
    (hp : p.Fits rules.sealed h) (hset : rules.Settled) (hsteady : ∀ c, ¬ rules.steady c)
    (hanchor : rules.Anchors h frame) (hwait : E .selfWait) : Ends E (p.resolveBy how h) fun q h' => q.2 = q.1.target ∧ q.1.Fits rules.sealed h' ∧
      Run (.sparing rules.sealed) rules locks frame h p.tasks h' q.1.tasks ∧ h.Affords h' [.owned p] [.owned q.1] := by
  cases how with
  | pull =>
    refine (Pointer.pull_anchored hh hmemo hp hset hsteady hanchor (.inl hwait)).imp
      fun q h' ⟨hq, ht, hf, hr⟩ => ⟨ht, hf, hr, fun tolls out htolled => ?_⟩
    simpa using (show Link.Pulls _ _ _ (.owned p) (.owned q.1) from hq).tolled hh htolled
  | read =>
    refine (Pointer.resolve_spec hh.calm hp).imp fun q h' ⟨hq, ht, hf, hr⟩ => ⟨ht, hf, hr.relax, fun tolls out htolled => ?_⟩
    have hk : h.Kept frame h' := hr.keeps
    refine ⟨htolled.kept hk, ?_⟩
    simpa using htolled.reads (show Link.Reads h (.owned p) (.owned q.1) from hq) fun p' c hp' hlead => by
      cases hp'
      exact (hh.leads_live hlead fun t hm => List.mem_append_left _ (List.mem_append_right _ hm)).destroyed
  | get => exact .pure ⟨rfl, hp, .refl _ _ _ _, .refl h _⟩

namespace Followed

def tasks : Followed → List Task
  | .pointer _ p => p.tasks
  | .label l => l.tasks
  | .absent => []

def Fits (sealed : CellId → Prop) (h : Heap) : Followed → Prop
  | .pointer _ p => p.Fits sealed h
  | .label l => l.Fits sealed h
  | .absent => True

theorem Fits.grows {sealed : CellId → Prop} {found : Followed} (hf : found.Fits sealed h) (hg : h.Grows h') :
    found.Fits sealed h' := by
  cases found with
  | pointer t p => exact Pointer.Fits.grows hf hg
  | label l => exact Handle.Fits.grows hf hg
  | absent => trivial

end Followed

private theorem Handle.cloneHeld_spec {l : Handle} (hh : Holding .calm rules locks frame h ins) (hl : l.Fits rules.sealed h)
    (hsub : ∀ t ∈ l.tasks, t ∈ ins ++ frame) : Ends E (l.clone h) fun l' h' => l' = l ∧
      Run .calm rules locks frame h ins h' (l.tasks ++ ins) :=
  (Handle.clone_spec hh (hh.usable hl hsub)).imp fun _ _ ⟨hl', hr, _⟩ => ⟨hl', hr⟩

private theorem touch_spec {β : Type} {Q : β → Heap → Prop} (t : Option CellId) {next : PUnit → HeapM β}
    (hh : Holding .calm rules locks frame h ins) : (∀ o, t = some o → .release o ∈ ins ++ frame ∧ h.IsObject o) →
    (∀ h', Run .calm rules locks frame h ins h' ins → Ends E (next ⟨⟩ h') Q) →
    Ends E ((if how ≠ .get then
        match t with
        | some o => do borrow o; let u ← endBorrow o; next u
        | _ => next ⟨⟩
      else next ⟨⟩ : HeapM β) h) Q := by
  intro ht hnext
  split
  · split
    · next o =>
      obtain ⟨hheld, hobj⟩ := ht o rfl
      refine .bind (borrow_spec hh hheld (hh.object_ne_root hobj)) fun _ h₁ hr₁ => ?_
      have hh₁ := hh.run hr₁
      refine .bind (release_spec (hh₁.focus (List.Perm.refl ([.release o] ++ ins)))) fun _ h₂ hr₂ => ?_
      exact hnext h₂ (hr₁.andDrop (.refl _) hr₂)
    · exact hnext h (.refl _ _ _ _)
  · exact hnext h (.refl _ _ _ _)

/-- Whatever a link is, following it never fails, unless it waits. -/
theorem followLink_spec {link : Link} {pointee : Pointee} (hh : Holding (.sparing rules.sealed) rules locks frame h link.tasks)
    (hmemo : FieldLocks locks) (hlink : link.Fits rules.sealed h) (hset : rules.Settled) (hsteady : ∀ c, ¬ rules.steady c)
    (hanchor : rules.Anchors h frame) (hwait : E .selfWait) : Ends E (followLink pointee how link h) fun y h' =>
      y.1.Fits rules.sealed h' ∧ y.2.Fits rules.sealed h' ∧
        Run (.sparing rules.sealed) rules locks frame h link.tasks h' (y.1.tasks ++ y.2.tasks) ∧ h.Affords h' [link] [y.1] := by
  cases link with
  | owned p =>
    refine .bind (Pointer.resolveBy_spec hh hmemo hlink hset hsteady hanchor hwait) ?_
    rintro q h₁ ⟨ht, hf, hr₁, hafford⟩
    have hh₁ := hh.run hr₁
    refine touch_spec q.2 hh₁.calm (fun o ho => ?_) fun h₂ hr₂ => ?_
    · rw [ht] at ho
      exact ⟨List.mem_append_left _ (by simp [Pointer.tasks, ho]), hf.target o ho⟩
    have hh₂ := hh₁.calm.run hr₂
    have hf₂ := hf.grows hr₂.keeps.grows
    have hk₂ : h₁.Kept frame h₂ := hr₂.keeps
    refine .bind (Pointer.clone_spec hh₂ (hh₂.usable_pointer hf₂ fun t ht => List.mem_append_left _ ht)) ?_
    rintro v h₃ ⟨rfl, hr₃⟩
    have hk₃ : h₂.Kept frame h₃ := hr₃.keeps
    refine .pure ⟨hf₂.grows hr₃.keeps.grows, (hf₂.bound hh₂.safe.scopes).grows hr₃.keeps.grows, ?_,
      hafford.trans (.of_kept (hk₂.trans hk₃) _)⟩
    exact (hr₁.trans hr₂.relax).trans (hr₃.relax.perm (.refl _) List.perm_append_comm)
  | weak w =>
    refine .bind (WeakPointer.pull_spec hh.calm hlink) ?_
    rintro ⟨w', _ | p⟩ h₁ ⟨hw, hp, hr⟩ <;> have hk : h.Kept frame h₁ := hr.keeps
    · exact .pure ⟨hw, trivial, hr.relax, .of_kept hk [.weak w']⟩
    · exact .pure ⟨hw, hp p rfl, by simpa [Link.tasks, Followed.tasks] using hr.relax, .of_kept hk [.weak w']⟩
  | label l =>
    refine .bind (Handle.cloneHeld_spec hh.calm hlink fun t ht => List.mem_append_left _ ht) ?_
    rintro v h₁ ⟨rfl, hr⟩
    have hk : h.Kept frame h₁ := hr.keeps
    exact .pure ⟨hlink.grows hr.keeps.grows, hlink.grows hr.keeps.grows, hr.relax, .of_kept hk _⟩

theorem followAt_spec {links : List Link} {pointee : Pointee} {index : Nat}
    (hh : Holding (.sparing rules.sealed) rules locks frame h (links.flatMap Link.tasks)) (hmemo : FieldLocks locks)
    (hlinks : ∀ l ∈ links, l.Fits rules.sealed h) (hset : rules.Settled) (hsteady : ∀ c, ¬ rules.steady c)
    (hanchor : rules.Anchors h frame) (hwait : E .selfWait) : Ends E (followAt pointee how links index h) fun y h' =>
      y.2.Fits rules.sealed h' ∧ (∀ l ∈ y.1, l.Fits rules.sealed h') ∧
        Run (.sparing rules.sealed) rules locks frame h (links.flatMap Link.tasks) h' (y.1.flatMap Link.tasks ++ y.2.tasks) ∧
        h.Affords h' links y.1 := by
  unfold followAt
  cases hlink : links[index]? with
  | none => exact .pure ⟨trivial, hlinks, by simpa [Followed.tasks] using Run.refl locks frame h _, .refl h links⟩
  | some link =>
    obtain ⟨hlt, rfl⟩ := List.getElem?_eq_some_iff.1 hlink
    have hsplit : links = links.take index ++ links[index] :: links.drop (index + 1) := by simp
    have hperm : (links.flatMap Link.tasks).Perm
        (links[index].tasks ++ (links.take index ++ links.drop (index + 1)).flatMap Link.tasks) := by
      conv_lhs => rw [hsplit]
      simp only [List.flatMap_append, List.flatMap_cons]
      exact List.perm_append_comm_assoc _ _ _
    refine .bind (followLink_spec (hh.focus hperm) hmemo (hlinks _ (List.getElem_mem hlt)) hset hsteady
      (fun d hd => (hanchor d hd).subset fun t ht => List.mem_append_right _ ht) hwait) fun y h₁ ⟨hy, hfound, hr, hafford⟩ => ?_
    have hset' : links.set index y.1 = links.take index ++ y.1 :: links.drop (index + 1) := by simp [List.set_eq_take_append_cons_drop, hlt]
    refine .pure ⟨hfound, fun l hl => ?_, hr.widen.perm hperm ?_, ?_⟩
    · rcases List.mem_or_eq_of_mem_set hl with hl | rfl
      · exact (hlinks l hl).grows hr.keeps.grows
      · exact hy
    · rw [hset']
      simp only [List.flatMap_append, List.flatMap_cons, List.perm_iff_count, List.count_append]
      intro t
      omega
    · have hlast := hafford.around (links.take index) (links.drop (index + 1))
      rw [hset']
      rwa [List.append_assoc, List.append_assoc, List.singleton_append, List.singleton_append, ← hsplit] at hlast

theorem Object.cost_put_le {tolls : CellId → Nat} {g : Field} (hn : (o.fields.map (·.name)).Nodup) (hf : o.field? g.name = some f)
    (hle : (g.links.map (Link.toll tolls)).sum ≤ (f.links.map (Link.toll tolls)).sum) : (o.put g).cost tolls ≤ o.cost tolls := by
  obtain ⟨before, after, heq, hb, ha⟩ := split hn hf
  have hput : (o.put g).fields = before ++ g :: after := updateField_fields heq (name_of_field? hf) hb ha _
  simp only [cost, links, heq, hput, List.flatMap_append, List.flatMap_cons, List.map_append, List.sum_append]
  omega

theorem followField_spec {index : Nat} (hh : Holding (.sparing rules.sealed) rules [] frame h []) (hb : (h.cell c).body = .object o)
    (hf : o.field? name = some f) (hc : h.Within (.sparing rules.sealed) frame c) (hopen : h.Editable rules c)
    (hset : rules.Settled) (hsteady : ∀ c, ¬ rules.steady c) (hanchor : rules.Anchors h frame) (hwait : E .selfWait) :
    Ends E (followField c name how index h) fun found h' => found.Fits rules.sealed h' ∧ h'.scopes = h.scopes ∧
      Passage rules [] frame h [] h' found.tasks ∧
      ∀ tolls, h.Tolled tolls (fun _ => False) → h'.Tolled tolls fun _ => False := by
  have hfits := hh.safe.fits c
  rw [show (Moment.heap _).cell c = h.cell c from rfl, hb] at hfits
  refine .bind (lockField_spec hb hfits.1 hf fun _ => hwait) fun links h₁ ⟨hunlocked, hlinks, hh₁⟩ => ?_
  subst hlinks hh₁
  have hgrows : h.Grows (h.putField c ⟨name, true, []⟩) := Heap.putField_grows hb
  have hact : Holding (.sparing rules.sealed) rules [(c, some name)] frame (h.putField c ⟨name, true, []⟩)
      (f.links.flatMap Link.tasks) → Ends E (followAt (if name = .any then .any else .only .node) how f.links index
        (h.putField c ⟨name, true, []⟩)) fun y k =>
          (y.2.Fits rules.sealed k ∧ (h.putField c ⟨name, true, []⟩).Affords k f.links y.1) ∧ (∀ l ∈ y.1, l.Fits rules.sealed k) ∧
          Run (.sparing rules.sealed) rules [(c, some name)] frame (h.putField c ⟨name, true, []⟩) (f.links.flatMap Link.tasks) k
            (y.1.flatMap Link.tasks ++ y.2.tasks) := fun hh₁ =>
    (followAt_spec hh₁ (FieldLocks.nil.cons c name)
      (fun l hl => (hfits.2 l (List.mem_flatMap.2 ⟨f, Object.mem_of_field? hf, hl⟩)).grows hgrows) hset hsteady
      (fun d hd => (hanchor d hd).of_differs (Heap.putField_differs h c _) ⟨o, hb⟩ hopen.1) hwait).imp
        fun y k ⟨hfound, hfits, hr, hafford⟩ => ⟨⟨hfound, hafford⟩, hfits, hr⟩
  have hrework := hh.rework [] Prod.fst (fun y => y.2.tasks) Prod.snd hb hf hunlocked hc hopen nofun nofun
    (.of_eq (by simp)) hact fun _ => .refl _
  refine hrework.imp fun _ h' ⟨y, k, hy, ⟨hfound, hafford⟩, hput, hg, _, hcore, hsteps, hkeeps⟩ => ?_
  subst hy
  obtain ⟨hsafe, hg'⟩ := hh.safe.steps hsteps
  refine ⟨Followed.Fits.grows hfound hg, hkeeps.scopes, ⟨.of_steps hsteps, hsafe, .of_without hg' hkeeps⟩, fun tolls ht => ?_⟩
  -- while its field is in hand the object itself is an exception
  have hmid : (h.putField c ⟨name, true, []⟩).Tolled tolls (· = c) :=
    (ht.mono fun _ => False.elim).of_differs (h.putField_differs c _) rfl ⟨_, Heap.putField_body hb⟩
  obtain ⟨hk, hle⟩ := hafford tolls _ hmid
  have hlast : h'.Tolled tolls (· = c) := by
    refine hk.of_differs (c := c) ?_ rfl ⟨_, (congrArg Cell.body hcore :)⟩
    rw [hput]
    exact k.putField_differs c _
  exact ht.restore hlast hb hcore (Object.cost_put_le (g := ⟨name, false, y.1⟩) hfits.1 hf hle)

/-! ### Values -/

theorem setValue_spec {value : Int} (hh : Holding .calm rules locks frame h ins) (hb : (h.cell c).body = .object o)
    (hc : h.Reach (h.Held frame) c) (hopen : ¬ rules.fixed c) :
    Ends E (updateCell c (·.mapObject fun x => { x with value }) h) fun _ h' => h'.scopes = h.scopes ∧
      Passage rules locks frame h ins h' ins := by
  have hfit := hh.safe.fits c
  rw [show (Moment.heap _).cell c = h.cell c from rfl, hb] at hfit
  have heq : h.update c (·.mapObject fun x => { x with value }) = h.update c fun x =>
      { x with body := .object { o with value }, owner := (h.cell c).owner } :=
    h.update_congr c (by simp only [Cell.mapObject, hb])
  have hlocks := hh.safe.locks c
  simp only [hb] at hlocks
  have hstep : Advance rules ⟨h, locks, [], ins ++ frame⟩
      ⟨h.update c fun x => { x with body := .object { o with value }, owner := (h.cell c).owner }, locks, [], ins ++ frame⟩ := by
    refine .rewrite ⟨hc, ?_, ⟨hfit.1, hfit.2⟩, fun hroot => ?_, fun _ => .inl, fun _ => rfl, ?_, fun k => hlocks k, fun d hd k => .rfl⟩
    · rw [hb]
      exact ⟨rfl, rfl, fun _ _ _ => rfl, fun hfixed => absurd hfixed hopen⟩
    · rw [hb]
      exact fun t ht => ht
    · simp only [Cell.dues, hb]
      exact .refl _
  obtain ⟨hsafe, hg⟩ := hh.safe.step hstep
  refine .of_ok (congrArg (fun k => Except.ok ((⟨⟩ : PUnit), k)) heq) ⟨rfl, .of_steps (.single hstep), hsafe, hg, fun d _ _ hfr => ?_⟩
  rcases h.cell_update_cases c (fun x => { x with body := .object { o with value }, owner := (h.cell c).owner }) d with
    hx | ⟨rfl, -, hx⟩ <;> rw [hx] <;> exact hfr

end LazyHeap
