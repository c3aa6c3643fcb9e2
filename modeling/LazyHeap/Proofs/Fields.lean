import LazyHeap.Proofs.References

/-!
Fields under their locks. Whoever locks a field takes what it holds in hand, and puts something back before the
lock is given back. Meanwhile the object leads nowhere through that field, so what an operation leaves alone is
what its frame reaches without the object.
-/
namespace LazyHeap

/-! ### Objects with one field replaced -/

namespace Object

def put (o : Object) (f : Field) : Object := o.updateField f.name fun _ => f

variable {o : Object} {name : FieldName} {f g : Field}

theorem name_of_field? (hf : o.field? name = some f) : f.name = name := by
  simpa using List.find?_some hf

theorem mem_of_field? (hf : o.field? name = some f) : f ∈ o.fields := List.mem_of_find?_eq_some hf

theorem split (hn : (o.fields.map (·.name)).Nodup) (hf : o.field? name = some f) :
    ∃ before after, o.fields = before ++ f :: after ∧ (∀ x ∈ before, x.name ≠ name) ∧
      ∀ x ∈ after, x.name ≠ name := by
  obtain ⟨before, after, heq⟩ := List.append_of_mem (mem_of_field? hf)
  have hname := name_of_field? hf
  rw [heq, List.map_append, List.map_cons, List.nodup_append] at hn
  obtain ⟨-, hafter, hdisj⟩ := hn
  refine ⟨before, after, heq, fun x hx he => ?_, fun x hx he => ?_⟩
  · exact hdisj x.name (List.mem_map_of_mem hx) f.name List.mem_cons_self (he.trans hname.symm)
  · exact (List.nodup_cons.1 hafter).1 (hname.symm ▸ he ▸ List.mem_map_of_mem hx)

private theorem map_of_ne (fs : List Field) (hne : ∀ x ∈ fs, x.name ≠ name) (t : Field → Field) :
    (fs.map fun x => if x.name = name then t x else x) = fs := by
  conv => rhs; rw [← List.map_id fs]
  exact List.map_congr_left fun x hx => if_neg (hne x hx)

theorem updateField_fields {before after : List Field} (heq : o.fields = before ++ f :: after)
    (hname : f.name = name) (hb : ∀ x ∈ before, x.name ≠ name) (ha : ∀ x ∈ after, x.name ≠ name)
    (t : Field → Field) : (o.updateField name t).fields = before ++ t f :: after := by
  simp only [updateField, heq, List.map_append, List.map_cons, map_of_ne before hb, map_of_ne after ha,
    hname, if_true]

theorem updateField_eq_put (hn : (o.fields.map (·.name)).Nodup) (hf : o.field? name = some f)
    {t : Field → Field} (ht : (t f).name = name) : o.updateField name t = o.put (t f) := by
  obtain ⟨before, after, heq, hb, ha⟩ := split hn hf
  have hname := name_of_field? hf
  have h₁ := updateField_fields heq hname hb ha t
  have h₂ := updateField_fields heq hname hb ha fun _ => t f
  rw [put, ht]
  simp only [updateField] at h₁ h₂ ⊢
  rw [h₁, h₂]

theorem put_put (hname : g.name = f.name) : (o.put f).put g = o.put g := by
  simp only [put, updateField, List.map_map, hname]
  congr 1
  refine List.map_congr_left fun x _ => ?_
  by_cases hx : x.name = f.name <;> simp [hx]

theorem put_self (hn : (o.fields.map (·.name)).Nodup) (hf : o.field? name = some f) : o.put f = o := by
  have hname := name_of_field? hf
  subst hname
  obtain ⟨before, after, heq, hb, ha⟩ := split hn hf
  have hput : (o.put f).fields = o.fields :=
    (updateField_fields heq rfl hb ha fun _ => f).trans heq.symm
  simp only [put, updateField] at hput ⊢
  rw [hput]

theorem names_put : (o.put f).fields.map (·.name) = o.fields.map (·.name) := by
  simp only [put, updateField, List.map_map]
  refine List.map_congr_left fun x _ => ?_
  by_cases hx : x.name = f.name <;> simp [hx]

theorem field?_put (hf : o.field? f.name = some g) : (o.put f).field? f.name = some f := by
  have hmap : ∀ fs : List Field, fs.find? (·.name = f.name) = some g →
      (fs.map fun x => if x.name = f.name then f else x).find? (·.name = f.name) = some f := by
    intro fs
    induction fs with
    | nil => simp
    | cons x fs ih =>
      intro hx
      by_cases he : x.name = f.name
      · simp [he]
      · rw [List.find?_cons_of_neg (by simpa using he)] at hx
        rw [List.map_cons, if_neg he, List.find?_cons_of_neg (by simpa using he)]
        exact ih hx
  exact hmap o.fields hf

theorem field?_put_of_ne (hne : name ≠ f.name) : (o.put f).field? name = o.field? name := by
  have hmap : ∀ fs : List Field,
      (fs.map fun x => if x.name = f.name then f else x).find? (·.name = name) =
        fs.find? (·.name = name) := by
    intro fs
    induction fs with
    | nil => rfl
    | cons x fs ih =>
      by_cases he : x.name = f.name
      · rw [List.map_cons, if_pos he, List.find?_cons_of_neg (by simpa using Ne.symm hne),
          List.find?_cons_of_neg (by simpa [he] using Ne.symm hne), ih]
      · by_cases hx : x.name = name
        · rw [List.map_cons, if_neg he, List.find?_cons_of_pos (by simpa using hx),
            List.find?_cons_of_pos (by simpa using hx)]
        · rw [List.map_cons, if_neg he, List.find?_cons_of_neg (by simpa using hx),
            List.find?_cons_of_neg (by simpa using hx), ih]
  exact hmap o.fields

theorem tasks_put (hn : (o.fields.map (·.name)).Nodup) (hf : o.field? f.name = some g) :
    ((Body.object o).tasks ++ f.links.flatMap Link.tasks).Perm
      ((Body.object (o.put f)).tasks ++ g.links.flatMap Link.tasks) := by
  obtain ⟨before, after, heq, hb, ha⟩ := split hn hf
  have hput : (o.put f).fields = before ++ f :: after :=
    updateField_fields heq (name_of_field? hf) hb ha fun _ => f
  simp only [Body.tasks, links, heq, hput, List.flatMap_append, List.flatMap_cons,
    List.perm_iff_count, List.count_append]
  intro t
  omega

theorem mem_links_put (hn : (o.fields.map (·.name)).Nodup) (hf : o.field? f.name = some g) {l : Link}
    (hl : l ∈ (o.put f).links) : l ∈ f.links ∨ l ∈ o.links := by
  obtain ⟨before, after, heq, hb, ha⟩ := split hn hf
  have hput : (o.put f).fields = before ++ f :: after :=
    updateField_fields heq (name_of_field? hf) hb ha fun _ => f
  simp only [links, hput, heq, List.flatMap_append, List.flatMap_cons, List.mem_append] at hl ⊢
  tauto

theorem contents_put (hn : (o.fields.map (·.name)).Nodup) (hf : o.field? f.name = some g)
    (hl : f.links = g.links) : (o.put f).contents = o.contents := by
  obtain ⟨before, after, heq, hb, ha⟩ := split hn hf
  have hput : (o.put f).fields = before ++ f :: after :=
    updateField_fields heq (name_of_field? hf) hb ha fun _ => f
  simp only [contents, hput, heq, List.map_append, List.map_cons, hl, name_of_field? hf]

theorem links_put (hn : (o.fields.map (·.name)).Nodup) (hf : o.field? f.name = some g)
    (hl : f.links = g.links) : (o.put f).links = o.links := by
  rw [links_eq_contents, contents_put hn hf hl, ← links_eq_contents]

theorem locks_put (hn : (o.fields.map (·.name)).Nodup) (hf : o.field? f.name = some g)
    (k : Option FieldName) : k ∈ (Body.object (o.put f)).locks ↔
      if k = some f.name then f.locked = true else k ∈ (Body.object o).locks := by
  obtain ⟨before, after, heq, hb, ha⟩ := split hn hf
  have hput : (o.put f).fields = before ++ f :: after :=
    updateField_fields heq (name_of_field? hf) hb ha fun _ => f
  have hgname := name_of_field? hf
  simp only [Body.locks, hput, heq, List.filter_append, List.filter_cons, List.map_append, List.mem_append]
  by_cases hk : k = some f.name
  · subst hk
    have hnot : ∀ fs : List Field, (∀ x ∈ fs, x.name ≠ f.name) →
        some f.name ∉ (fs.filter (·.locked)).map fun x => some x.name := fun fs hfs hm => by
      obtain ⟨x, hx, he⟩ := List.mem_map.1 hm
      exact hfs x (List.mem_filter.1 hx).1 (Option.some.inj he)
    have h₁ := hnot before hb
    have h₂ := hnot after ha
    cases hfl : f.locked <;> simp [h₁, h₂]
  · have hk' : ∀ x : Field, x.name = f.name → k ≠ some x.name := fun x hx => hx ▸ hk
    have hf' : k ≠ some f.name := hk
    have hg' : k ≠ some g.name := hgname ▸ hk
    cases f.locked <;> cases g.locked <;> simp [hk, hg']

end Object

/-! ### The heap without what one object holds -/

namespace Heap

/-- The heap in which a cell holds nothing. -/
def without (h : Heap) (c : CellId) : Heap := h.update c fun x => { x with body := x.body.emptied }

variable {manner : Manner} {h h' : Heap} {hold : List Task} {c d : CellId}

theorem cell_without_ne (h : Heap) (hne : d ≠ c) : (h.without c).cell d = h.cell d :=
  h.cell_update_ne _ hne

theorem cell_without_self (h : Heap) (c : CellId) :
    (h.without c).cell c = { h.cell c with body := (h.cell c).body.emptied } := by
  by_cases hc : c < h.size
  · exact h.cell_update_self _ hc
  · rw [without, h.update_of_size_le _ (Nat.not_lt.1 hc), h.cell_of_size_le (Nat.not_lt.1 hc)]
    rfl

theorem edges_without_self (h : Heap) (c : CellId) : ((h.without c).cell c).edges = [] :=
  List.eq_nil_iff_forall_not_mem.2 fun d hd => by
    have := Cell.release_mem_tasks.2 hd
    rw [cell_without_self] at this
    simp [Body.tasks_emptied] at this

theorem Within.of_without (hw : (h.without c).Within manner hold d)
    (hscopes : h'.scopes = h.scopes) (hne : ∀ x, x ≠ c → (h'.cell x).body = (h.cell x).body) :
    h'.Within manner hold d := by
  have hheld : ∀ x, (h.without c).Held hold x → h'.Held hold x := fun x hx =>
    hx.imp_right fun hx => by rwa [standing, hscopes]
  cases manner with
  | calm =>
    refine Reach.mono hw (fun x hx => .source (hheld x hx)) fun x y _ hy hx => .edge hx ?_
    by_cases hxc : x = c
    · rw [hxc, edges_without_self] at hy
      cases hy
    · rw [cell_without_ne h hxc] at hy
      rwa [Cell.edges, hne x hxc]
  | sparing kept =>
    induction hw with
    | held hx => exact .held (hheld _ hx)
    | @edge x y hv hx hy ih =>
      by_cases hxc : x = c
      · rw [hxc, edges_without_self] at hy
        cases hy
      · rw [IsObject, cell_without_ne h hxc] at hx
        rw [cell_without_ne h hxc] at hy
        exact .edge ih (hx.imp_left fun ho => by rwa [IsObject, hne x hxc])
          (by rwa [Cell.edges, hne x hxc])

theorem Within.without (hw : (h.without c).Within manner hold d) : h.Within manner hold d :=
  hw.of_without rfl fun _ _ => rfl

/-- A way to a cell need not go through that cell. -/
theorem Within.without_self (hw : h.Within manner hold c) : (h.without c).Within manner hold c := by
  have key : ∀ d, h.Within manner hold d →
      (h.without c).Within manner hold d ∨ (h.without c).Within manner hold c := by
    intro d hd
    cases manner with
    | calm =>
      induction hd with
      | source hx => exact .inl (.source hx)
      | @edge x y _ hy ih =>
        rcases ih with ih | ih
        · by_cases hxc : x = c
          · exact .inr (hxc ▸ ih)
          · exact .inl (.edge ih (by rwa [cell_without_ne h hxc]))
        · exact .inr ih
    | sparing kept =>
      induction hd with
      | held hx => exact .inl (.held hx)
      | @edge x y _ hx hy ih =>
        rcases ih with ih | ih
        · by_cases hxc : x = c
          · exact .inr (hxc ▸ ih)
          · exact .inl (.edge ih (by rwa [IsObject, cell_without_ne h hxc])
              (by rwa [cell_without_ne h hxc]))
        · exact .inr ih
  exact (key c hw).elim id id

theorem Reach.without (hr : (h.without c).Reach ((h.without c).Held hold) d) : h.Reach (h.Held hold) d := by
  have hw : (h.without c).Within .calm hold d := hr
  exact hw.without

theorem Reach.without_self (hr : h.Reach (h.Held hold) c) : (h.without c).Reach ((h.without c).Held hold) c := by
  have hw : h.Within .calm hold c := hr
  exact hw.without_self

theorem Reach.via_self (hr : h.Reach (h.Held hold) c) : Via (· ≠ c) h hold c := by
  have key : ∀ d, (h.without c).Reach ((h.without c).Held hold) d → Via (· ≠ c) h hold d := fun d hd => by
    induction hd with
    | source hd => exact .held hd
    | @edge x d _ hd ih =>
      by_cases hx : x = c
      · subst hx
        rw [edges_without_self] at hd
        cases hd
      · exact .edge ih (.inr hx) (h.cell_without_ne hx ▸ hd)
  exact key c hr.without_self

theorem grows_without (hg : h.Grows h') : (h.without c).Grows (h'.without c) := by
  have hobj : ∀ k : Heap, ∀ d, (k.without c).IsObject d ↔ k.IsObject d := fun k d => by
    by_cases hd : d = c
    · rw [hd, IsObject, IsObject, cell_without_self]
      cases (k.cell c).body <;> simp [Body.emptied]
    · rw [IsObject, IsObject, cell_without_ne k hd]
  have hlab : ∀ k : Heap, ∀ d, (k.without c).IsLabel d ↔ k.IsLabel d := fun k d => by
    rw [IsLabel, IsLabel, without, size_update]
    refine and_congr_right fun _ => ?_
    by_cases hd : d = c
    · rw [hd, show (k.update c _).cell c = _ from cell_without_self k c]
      cases (k.cell c).body <;> simp [Body.emptied]
    · rw [show (k.update c _).cell d = _ from cell_without_ne k hd]
  exact ⟨by simpa [without] using hg.size, fun d hd => (hobj h' d).2 (hg.object d ((hobj h d).1 hd)),
    fun d hd => (hlab h' d).2 (hg.label d ((hlab h d).1 hd))⟩

theorem Lends.of_without (hg : h.Grows h') (hk : (h.without c).Keeps manner hold (h'.without c)) : h.Lends hold h' := by
  have hfrozen : ∀ (k : Heap) d, ((k.without c).cell d).frozen = (k.cell d).frozen := fun k d => by
    by_cases hd : d = c
    · rw [hd, cell_without_self]
      rfl
    · rw [cell_without_ne k hd]
  refine ⟨hg, fun d hd hheld hf => ?_⟩
  have hobj : (h.without c).IsObject d := by
    by_cases hdc : d = c
    · obtain ⟨o, ho⟩ := hd
      exact ⟨o.emptied, by rw [hdc, cell_without_self, ← hdc, ho]; rfl⟩
    · rwa [IsObject, cell_without_ne h hdc]
  rw [← hfrozen h', Cell.frozen_of_core (hk.core (.held (.inl hheld)) hobj), hfrozen h, hf]

/-- A change of one object, an operation, and another change of the object: together they leave alone what is
reached without the object, if they do not change what can be seen of the object then. -/
theorem Keeps.apart {h₁ h₂ h₃ : Heap} {hold' : List Task} (hk : h₁.Keeps manner hold' h₂)
    (hsub : ∀ t ∈ hold, t ∈ hold') (hd₁ : h.Differs h₁ c) (hs₁ : h₁.nextSerial = h.nextSerial)
    (hd₃ : h₂.Differs h₃ c) (hs₃ : h₃.nextSerial = h₂.nextSerial) (hg : h.Grows h₃)
    (hself : ((h₃.without c).cell c).core = ((h.without c).cell c).core) :
    (h.without c).Keeps manner hold (h₃.without c) := by
  have hcell : ∀ d, (d ≠ c → (h₂.cell d).core = (h₁.cell d).core) →
      ((h₃.without c).cell d).core = ((h.without c).cell d).core := fun d hcore => by
    by_cases hdc : d = c
    · rw [hdc]
      exact hself
    · rw [cell_without_ne h₃ hdc, cell_without_ne h hdc, hd₃.others d hdc, ← hd₁.others d hdc]
      exact hcore hdc
  have hin : ∀ {d}, (h.without c).Within manner hold d → h₁.Within manner hold' d := fun hd =>
    (hd.of_without hd₁.scopes fun x hx => by rw [hd₁.others x hx]).subset hsub
  have hscopes : h₃.scopes = h.scopes := hd₃.scopes.trans (hk.scopes.trans hd₁.scopes)
  cases manner with
  | calm =>
    refine ⟨fun d hd => hcell d fun _ => Kept.cell hk d (hin hd), ⟨fun d => ?_, fun d => ?_, fun d => ?_⟩,
      grows_without hg, ?_, hscopes, ?_⟩
    · by_cases hdc : d = c
      · rw [hdc]
        exact (congrArg (fun x : Cell => x.flags.freezing) hself :)
      · rw [cell_without_ne h₃ hdc, cell_without_ne h hdc, hd₃.others d hdc, ← hd₁.others d hdc]
        exact (Kept.fades hk).freezing d
    · by_cases hdc : d = c
      · rw [hdc]
        exact (congrArg Cell.destroyed hself :).trans
      · rw [cell_without_ne h₃ hdc, cell_without_ne h hdc, hd₃.others d hdc, ← hd₁.others d hdc]
        exact (Kept.fades hk).destroyed d
    · by_cases hdc : d = c
      · rw [hdc]
        exact .inl (congrArg Cell.body hself :)
      · rw [cell_without_ne h₃ hdc, cell_without_ne h hdc, hd₃.others d hdc, ← hd₁.others d hdc]
        exact (Kept.fades hk).body d
    · simp only [without, size_update]
      exact hd₃.size.trans ((Kept.size hk).trans hd₁.size)
    · exact hs₃.trans ((Kept.nextSerial hk).trans hs₁)
  | sparing kept =>
    refine ⟨fun d hd ho => hcell d fun hdc => Spares.cell hk d (hin hd) (ho.imp_left fun ho => ?_),
      grows_without hg, hscopes, ?_⟩
    · rwa [IsObject, hd₁.others d hdc, ← cell_without_ne h hdc]
    · exact (hs₁ ▸ hk.nextSerial_le).trans (Nat.le_of_eq hs₃.symm)

end Heap

/-! ### Locking, filling and unlocking a field -/

/-- The links of the object in a cell may change: it is not frozen, or it is about to be. -/
def Heap.Editable (h : Heap) (rules : Rules) (c : CellId) : Prop :=
  ¬ rules.fixed c ∧ (rules.closed = true → (h.cell c).frozen = true → rules.opened c)

def Heap.putField (h : Heap) (c : CellId) (f : Field) : Heap := h.update c (·.mapObject (·.put f))

section PutField

variable {manner : Manner} {rules : Rules} {locks locks' : List Lock} {frame ins outs : List Task}
variable {h : Heap} {c : CellId} {o : Object} {f g : Field} {name : FieldName} {E : Fault → Prop}

namespace Heap

theorem putField_differs (h : Heap) (c : CellId) (f : Field) : h.Differs (h.putField c f) c :=
  .update h c _

theorem putField_self (hb : (h.cell c).body = .object o) :
    (h.putField c f).cell c = { h.cell c with body := .object (o.put f) } := by
  have hc : c < h.size := IsObject.lt_size ⟨o, hb⟩
  rw [putField, h.cell_update_self _ hc, Cell.mapObject, hb]

theorem putField_body (hb : (h.cell c).body = .object o) :
    ((h.putField c f).cell c).body = .object (o.put f) := by rw [putField_self hb]

theorem putField_grows (hb : (h.cell c).body = .object o) : h.Grows (h.putField c f) :=
  (putField_differs h c f).grows (fun _ => ⟨_, putField_body hb⟩) fun ⟨l, hl⟩ => by
    rw [hb] at hl
    cases hl

theorem putField_frozen (hb : (h.cell c).body = .object o) (d : CellId) :
    ((h.putField c f).cell d).frozen = (h.cell d).frozen := by
  by_cases hd : d = c
  · rw [hd, putField_self hb]
    rfl
  · rw [(putField_differs h c f).others d hd]

theorem update_field_eq (hb : (h.cell c).body = .object o) (hn : (o.fields.map (·.name)).Nodup)
    (hf : o.field? name = some f) {t : Field → Field} (ht : (t f).name = name) :
    h.update c (·.mapObject (·.updateField name t)) = h.putField c (t f) := by
  refine h.update_congr c ?_
  simp only [Cell.mapObject, hb, Object.updateField_eq_put hn hf ht]

theorem update_update (h : Heap) (c : CellId) (s t : Cell → Cell) :
    (h.update c s).update c t = h.update c fun x => t (s x) := by
  have hcells : (h.cells.modify c s).modify c t = h.cells.modify c fun x => t (s x) := by
    refine Array.ext_getElem? fun i => ?_
    simp only [Array.getElem?_modify]
    by_cases hi : c = i <;> simp [hi, Function.comp_def]
  simp only [update, hcells]

theorem putField_putField (h : Heap) (c : CellId) (f g : Field) (hname : g.name = f.name) :
    (h.putField c f).putField c g = h.putField c g := by
  rw [putField, putField, update_update]
  refine h.update_congr c ?_
  simp only [Cell.mapObject]
  cases hb : (h.cell c).body with
  | object o => simp only [Object.put_put hname]
  | label l => simp only [hb]

end Heap

theorem Holding.putField (hh : Holding manner rules locks frame h ins)
    (hb : (h.cell c).body = .object o) (hf : o.field? f.name = some g)
    (hr : h.Reach (h.Held frame) c) (hopen : h.Editable rules c ∨ f.links = g.links)
    (hperm : (g.links.flatMap Link.tasks ++ ins).Perm (f.links.flatMap Link.tasks ++ outs))
    (hfits : ∀ l ∈ f.links, l.Fits rules.sealed h)
    (hlock : ∀ x, x ∈ locks' ↔ if x = (c, some f.name) then f.locked = true else x ∈ locks) :
    Advance rules ⟨h, locks, [], ins ++ frame⟩ ⟨h.putField c f, locks', [], outs ++ frame⟩ := by
  have hfit := hh.safe.fits c
  rw [show (Moment.heap _).cell c = h.cell c from rfl, hb] at hfit
  have heq : h.putField c f = h.update c fun x =>
      { x with body := .object (o.put f), owner := (h.cell c).owner } :=
    h.update_congr c (by simp only [Cell.mapObject, hb])
  rw [heq]
  have hlocks := hh.safe.locks c
  simp only [hb] at hlocks
  refine .rewrite ⟨hr, ?_, ⟨?_, fun l hl => ?_⟩, fun hroot => ?_, fun _ => .inl, fun _ => rfl, ?_, fun k => ?_,
    fun d hd k => ?_⟩
  · rw [hb]
    refine ⟨rfl, rfl, fun hcl hfr hno => ?_, fun hfixed => ⟨?_, rfl⟩⟩
    · rcases hopen with hopen | hl
      · exact absurd (hopen.2 hcl hfr) hno
      · exact Object.contents_put hfit.1 hf hl
    · rcases hopen with hopen | hl
      · exact absurd hfixed hopen.1
      · exact Object.contents_put hfit.1 hf hl
  · rw [Object.names_put]
    exact hfit.1
  · exact (Object.mem_links_put hfit.1 hf hl).elim (hfits l) (hfit.2 l)
  · obtain ⟨-, l, hl⟩ := hh.safe.root.2
    rw [show (Moment.heap _).cell rootCell = h.cell c by rw [← hroot], hb] at hl
    cases hl
  · have htasks := Object.tasks_put hfit.1 hf
    simp only [Cell.dues, hb, List.perm_iff_count, List.count_append] at htasks hperm ⊢
    intro t
    have h₁ := htasks t
    have h₂ := hperm t
    omega
  · rw [Object.locks_put hfit.1 hf, hlock, hlocks]
    by_cases hk : k = some f.name
    · simp [hk]
    · rw [if_neg hk, if_neg fun he => hk (Prod.mk.inj he).2]
  · rw [hlock, if_neg fun he => hd (Prod.mk.inj he).1]

theorem lockField_spec (hb : (h.cell c).body = .object o) (hn : (o.fields.map (·.name)).Nodup)
    (hf : o.field? name = some f) (hwait : f.locked = true → E .selfWait) :
    Ends E (lockField c name h) fun links h' => f.locked = false ∧ links = f.links ∧
      h' = h.putField c { f with locked := true } := by
  have hname := Object.name_of_field? hf
  unfold lockField
  refine .readCell_bind ?_
  simp only [Cell.object?, hb, Option.bind_some, hf]
  cases hl : f.locked with
  | true => exact hwait hl
  | false =>
    exact ⟨rfl, rfl, Heap.update_field_eq hb hn hf (t := fun f => { f with locked := true }) hname⟩

theorem setField_spec {links : List Link} (hb : (h.cell c).body = .object o)
    (hn : (o.fields.map (·.name)).Nodup) (hf : o.field? name = some f) :
    Ends E (setField c name links h) fun _ h' => h' = h.putField c { f with links } :=
  have hname := Object.name_of_field? hf
  Heap.update_field_eq hb hn hf (t := fun f => { f with links }) hname

theorem unlockField_spec (hb : (h.cell c).body = .object o) (hn : (o.fields.map (·.name)).Nodup)
    (hf : o.field? name = some f) :
    Ends E (unlockField c name h) fun _ h' => h' = h.putField c { f with locked := false } :=
  have hname := Object.name_of_field? hf
  Heap.update_field_eq hb hn hf (t := fun f => { f with locked := false }) hname

/-- Work under the lock of a field: what the field holds is replaced, something is done with what comes into hand, and
the field gets what it holds from then on. -/
theorem Holding.rework {α β : Type} {act : HeapM α} {P : α → Heap → Prop} {ins' : List Task} {outs : α → List Task}
    (hh : Holding manner rules locks frame h ins) (mid : List Link) (last : α → List Link) (outs' : α → List Task)
    (result : α → β) (hb : (h.cell c).body = .object o) (hf : o.field? name = some f)
    (hunlocked : f.locked = false) (hc : h.Within manner frame c) (hopen : h.Editable rules c)
    (hlocks : ∀ x ∈ locks, (h.without c).Within manner frame x.1) (hmid : ∀ l ∈ mid, l.Fits rules.sealed h)
    (hperm : (f.links.flatMap Link.tasks ++ ins).Perm (mid.flatMap Link.tasks ++ ins'))
    (hact : Holding manner rules ((c, some name) :: locks) frame (h.putField c ⟨name, true, mid⟩) ins' →
      Ends E (act (h.putField c ⟨name, true, mid⟩)) fun a k => P a k ∧ (∀ l ∈ last a, l.Fits rules.sealed k) ∧
        Run manner rules ((c, some name) :: locks) frame (h.putField c ⟨name, true, mid⟩) ins' k (outs a))
    (hperm' : ∀ a, (mid.flatMap Link.tasks ++ outs a).Perm ((last a).flatMap Link.tasks ++ outs' a)) :
    Ends E ((do
      setField c name mid
      let a ← act
      setField c name (last a)
      unlockField c name
      return result a : HeapM β) (h.putField c { f with locked := true })) fun b h' => ∃ a k, b = result a ∧ P a k ∧
        h' = k.putField c ⟨name, false, last a⟩ ∧ k.Grows h' ∧
        (h.putField c ⟨name, true, mid⟩).Keeps manner frame k ∧
        (h'.cell c).core = { h.cell c with body := .object (o.put ⟨name, false, last a⟩) }.core ∧
        Steps rules ⟨h, locks, [], ins ++ frame⟩ ⟨h', locks, [], outs' a ++ frame⟩ ∧
        (h.without c).Keeps manner frame (h'.without c) := by
  obtain rfl := Object.name_of_field? hf
  have hfits := hh.safe.fits c
  rw [show (Moment.heap _).cell c = h.cell c from rfl, hb] at hfits
  have hn := hfits.1
  -- the lock, then the field's contents in hand
  let f₁ : Field := { f with locked := true }
  have hb₁ := Heap.putField_body (f := f₁) hb
  have hf₁ : (o.put f₁).field? f.name = some f₁ := Object.field?_put hf
  have hn₁ : ((o.put f₁).fields.map (·.name)).Nodup := by rwa [Object.names_put]
  refine .bind (setField_spec hb₁ hn₁ hf₁) fun _ h₂ hh₂ => ?_
  have hsame : h₂ = h.putField c ⟨f.name, true, mid⟩ :=
    hh₂.trans (Heap.putField_putField h c f₁ ⟨f.name, true, mid⟩ rfl)
  clear hh₂
  have hnot : (c, some f.name) ∉ locks := fun hm => by
    have hl := (hh.safe.locks c (some f.name)).2 hm
    simp only [hb] at hl
    have hl' := (Object.locks_put hn (f := f) hf (some f.name)).1
      (by rw [Object.put_self hn hf]; exact hl)
    rw [if_pos rfl, hunlocked] at hl'
    cases hl'
  let f₂ : Field := ⟨f.name, true, mid⟩
  have hstep₁ : Advance rules ⟨h, locks, [], ins ++ frame⟩
      ⟨h.putField c f₂, (c, some f.name) :: locks, [], ins' ++ frame⟩ :=
    hh.putField (g := f) hb hf hc.reach (.inl hopen) hperm hmid fun x => by
      by_cases hx : x = (c, some f.name) <;> simp [hx, f₂]
  have hb₂ := Heap.putField_body (f := f₂) hb
  have hd₂ := Heap.putField_differs h c f₂
  have hs₁ : Safe rules ⟨h.putField c f₂, (c, some f.name) :: locks, [], ins' ++ frame⟩ := (hh.safe.step hstep₁).1
  have hback : ∀ {d : CellId}, (h.without c).Within manner frame d →
      (h.putField c f₂).Within manner frame d := fun hd =>
    hd.of_without hd₂.scopes fun x hx => by rw [hd₂.others x hx]
  have hc₂ := hback hc.without_self
  have hh₂ : Holding manner rules ((c, some f.name) :: locks) frame (h.putField c f₂) ins' :=
    ⟨hs₁, fun x hx => (List.mem_cons.1 hx).elim (fun he => he ▸ hc₂) fun hx => hback (hlocks x hx)⟩
  rw [hsame]
  refine .bind (hact hh₂) fun a k ⟨hP, hfit, hr⟩ => ?_
  -- the field is filled, and the lock is given back
  have hbk := hr.keeps.body hc₂ hb₂
  have hf₂ : (o.put f₂).field? f.name = some f₂ := Object.field?_put hf
  have hn₂ : ((o.put f₂).fields.map (·.name)).Nodup := by rwa [Object.names_put]
  refine .bind (setField_spec hbk hn₂ hf₂) fun _ h₃ hh₃ => ?_
  have hbk₃ := Heap.putField_body (f := { f₂ with links := last a }) hbk
  rw [← hh₃] at hbk₃
  refine .bind (unlockField_spec hbk₃ (by rwa [Object.names_put])
    (Object.field?_put (f := { f₂ with links := last a }) hf₂)) fun _ h₄ hh₄ => ?_
  let f₃ : Field := ⟨f.name, false, last a⟩
  have hsame₄ : h₄ = k.putField c f₃ := by
    rw [hh₄, hh₃]
    exact Heap.putField_putField k c { f₂ with links := last a } f₃ rfl
  clear hh₄ hh₃
  have hhk := hh₂.run hr
  have hopen' : k.Editable rules c := hopen.imp_right fun hopen hcl hfr => hopen hcl <| by
    rwa [Cell.frozen_of_core (hr.keeps.core hc₂ ⟨_, hb₂⟩), Heap.putField_self hb] at hfr
  have hstep₃ : Advance rules ⟨k, (c, some f.name) :: locks, [], outs a ++ frame⟩
      ⟨k.putField c f₃, locks, [], outs' a ++ frame⟩ :=
    hhk.putField (g := f₂) hbk hf₂ (hr.keeps.within hc₂).reach (.inl hopen') (hperm' a) hfit fun x => by
      by_cases hx : x = (c, some f.name)
      · simp [hx, f₃, hnot]
      · simp [hx, f₃]
  have hput : (o.put f₂).put f₃ = o.put f₃ := Object.put_put rfl
  have hcore : ((k.putField c f₃).cell c).core =
      { h.cell c with body := .object (o.put f₃) }.core := by
    have hk := hr.keeps.core hc₂ ⟨_, hb₂⟩
    rw [Heap.putField_self hb] at hk
    rw [Heap.putField_self hbk, hput]
    exact (congrArg (fun x : Cell => { x with body := .object (o.put f₃) }) hk : _)
  subst hsame₄
  refine ⟨a, k, rfl, hP, rfl, Heap.putField_grows hbk, hr.keeps, hcore, .head hstep₁ (.tail hr.steps hstep₃), ?_⟩
  refine hr.keeps.apart (fun _ => id) hd₂ rfl (Heap.putField_differs k c f₃) rfl
    (((Heap.putField_grows hb).trans hr.keeps.grows).trans (Heap.putField_grows hbk)) ?_
  -- without its contents the object is what it was
  rw [Heap.cell_without_self, Heap.cell_without_self]
  have hempt : (o.put f₃).emptied = o.emptied := by
    obtain ⟨before, after, heq, hbef, haft⟩ := Object.split hn hf
    have hput₃ : (o.put f₃).fields = before ++ f₃ :: after :=
      Object.updateField_fields heq rfl hbef haft fun _ => f₃
    have hfe : f = ⟨f.name, false, f.links⟩ := by rw [← hunlocked]
    have : ((o.put f₃).fields.map fun fl => { fl with links := [] }) =
        o.fields.map fun fl => { fl with links := [] } := by
      rw [hput₃, heq, hfe]
      simp [f₃]
    simp only [Object.emptied, this]
    rfl
  have := congrArg (fun x : Cell => { x with body := x.body.emptied }) hcore
  simp only [Cell.core] at this ⊢
  rw [this, hb]
  simp only [Body.emptied, hempt]

/-- Working on the links of a field, one after the other, under the field's lock. -/
theorem visitField_spec {visit : Link → HeapM (Link × Option CellId)}
    (J : List Link → List (Link × Option CellId) → Heap → Prop)
    (hh : Holding manner rules locks frame h []) (hb : (h.cell c).body = .object o)
    (hf : o.field? name = some f) (hwait : f.locked = true → E .selfWait)
    (hc : h.Within manner frame c) (hopen : h.Editable rules c)
    (hlocks : ∀ x ∈ locks, (h.without c).Within manner frame x.1)
    (hJ : J [] [] (h.putField c ⟨name, true, []⟩))
    (hvisit : ∀ done link rest ys k, f.links = done ++ link :: rest → J done ys k →
      (h.putField c ⟨name, true, []⟩).Keeps manner frame k →
      Holding manner rules ((c, some name) :: locks)
        ((ys.flatMap (fun y => y.1.tasks) ++ rest.flatMap Link.tasks) ++ frame) k link.tasks →
      Ends E (visit link k) fun y k' => Run manner rules ((c, some name) :: locks)
        ((ys.flatMap (fun y => y.1.tasks) ++ rest.flatMap Link.tasks) ++ frame) k link.tasks k' y.1.tasks ∧
          J (done ++ [link]) (ys ++ [y]) k')
    (hfit : ∀ ys k, J f.links ys k → ∀ y ∈ ys, y.1.Fits rules.sealed k) :
    Ends E (visitField c visit name h) fun found h' => ∃ ys k, f.locked = false ∧ J f.links ys k ∧
      found = ys.filterMap (·.2) ∧ h' = k.putField c ⟨name, false, ys.map Prod.fst⟩ ∧
      (h.putField c ⟨name, true, []⟩).Keeps manner frame k ∧
      (h'.cell c).core =
        { h.cell c with body := .object (o.put ⟨name, false, ys.map Prod.fst⟩) }.core ∧
      Steps rules ⟨h, locks, [], frame⟩ ⟨h', locks, [], frame⟩ ∧
      (h.without c).Keeps manner frame (h'.without c) := by
  have hfits := hh.safe.fits c
  rw [show (Moment.heap _).cell c = h.cell c from rfl, hb] at hfits
  refine .bind (lockField_spec hb hfits.1 hf hwait) fun links h₁ ⟨hunlocked, hlinks, hh₁⟩ => ?_
  subst hlinks hh₁
  have hrework := hh.rework (P := J f.links) [] (·.map Prod.fst) (fun _ => []) (·.filterMap (·.2)) hb hf hunlocked hc hopen hlocks nofun (.of_eq (by simp))
    (fun hh₂ => (mapM_spec (s := Link.tasks) (t := fun y => y.1.tasks) J hJ hvisit hh₂).imp fun ys k ⟨hr, hJk⟩ =>
      ⟨hJk, fun l hl => by
        obtain ⟨y, hy, rfl⟩ := List.mem_map.1 hl
        exact hfit ys k hJk y hy, hr⟩)
    fun ys => .of_eq (by simp [List.flatMap_map])
  exact hrework.imp fun found h' ⟨ys, k, hfound, hJk, hh', _, hkeeps, hcore, hsteps, hwithout⟩ =>
    ⟨ys, k, hunlocked, hJk, hfound, hh', hkeeps, hcore, hsteps, hwithout⟩

theorem Heap.Keeps.editable {k : Heap} (hk : (h.without c).Keeps manner frame (k.without c))
    (hc : h.Within manner frame c) (hb : (h.cell c).body = .object o) (hopen : h.Editable rules c) :
    k.Editable rules c := hopen.imp_right fun hopen hcl hfr => hopen hcl <| by
  have hobj : (h.without c).IsObject c := ⟨o.emptied, by rw [cell_without_self, hb]; rfl⟩
  have hcore := Cell.frozen_of_core (hk.core hc.without_self hobj)
  rw [cell_without_self, cell_without_self] at hcore
  exact hcore.symm.trans hfr

/-- Working on fields of an object, one after the other. What holds between two fields is carried along. -/
theorem visitFields_spec {wanted : FieldName → Bool} {visit : Link → HeapM (Link × Option CellId)}
    (K : List FieldName → List CellId → Heap → Prop) (hh : Holding manner rules locks frame h [])
    (hb : (h.cell c).body = .object o)
    (hlocks : ∀ x ∈ locks, (h.without c).Within manner frame x.1) (hK : K [] [] h)
    (hfield : ∀ done name rest found k x, (o.fields.map (·.name)).filter wanted = done ++ name :: rest →
      K done found k → Holding manner rules locks frame k [] →
      (h.without c).Keeps manner frame (k.without c) → (k.cell c).body = .object x →
      x.fields.map (·.name) = o.fields.map (·.name) →
      Ends E (visitField c visit name k) fun new k' => K (done ++ [name]) (found ++ new) k' ∧
        Steps rules ⟨k, locks, [], frame⟩ ⟨k', locks, [], frame⟩ ∧
        (k.without c).Keeps manner frame (k'.without c) ∧
        ∃ x, (k'.cell c).body = .object x ∧ x.fields.map (·.name) = o.fields.map (·.name)) :
    Ends E (visitFields c wanted visit h) fun found h' =>
      K ((o.fields.map (·.name)).filter wanted) found h' ∧
        Steps rules ⟨h, locks, [], frame⟩ ⟨h', locks, [], frame⟩ ∧
        (h.without c).Keeps manner frame (h'.without c) ∧
        ∃ x, (h'.cell c).body = .object x ∧ x.fields.map (·.name) = o.fields.map (·.name) := by
  unfold visitFields
  refine .readCell_bind ?_
  simp only [Cell.object?, hb, Option.map_some, Option.getD_some]
  let names := (o.fields.map (·.name)).filter wanted
  suffices hgen : ∀ (rest done : List FieldName) (found : List (List CellId)) (k : Heap) (x : Object),
      names = done ++ rest → K done found.flatten k →
      Steps rules ⟨h, locks, [], frame⟩ ⟨k, locks, [], frame⟩ →
      (h.without c).Keeps manner frame (k.without c) → (k.cell c).body = .object x →
      x.fields.map (·.name) = o.fields.map (·.name) →
      Ends E (rest.mapM (visitField c visit) k) fun more h' => K names (found ++ more).flatten h' ∧
        Steps rules ⟨h, locks, [], frame⟩ ⟨h', locks, [], frame⟩ ∧
        (h.without c).Keeps manner frame (h'.without c) ∧
        ∃ x, (h'.cell c).body = .object x ∧ x.fields.map (·.name) = o.fields.map (·.name) by
    refine .bind (hgen names [] [] h o rfl hK .refl (.refl _ _ _) hb rfl) fun found h' hp => hp
  intro rest
  induction rest with
  | nil =>
    intro done found k x hn hKk hsteps hkeeps hx hxn
    rw [List.append_nil] at hn
    subst hn
    rw [List.mapM_nil]
    exact ⟨by simpa using hKk, hsteps, hkeeps, x, hx, hxn⟩
  | cons name rest ih =>
    intro done found k x hn hKk hsteps hkeeps hx hxn
    rw [List.mapM_cons]
    have hhk : Holding manner rules locks frame k [] :=
      ⟨(hh.safe.steps hsteps).1, fun y hy => (hkeeps.within (hlocks y hy)).without⟩
    refine .bind (hfield done name rest found.flatten k x hn hKk hhk hkeeps hx hxn)
      fun new k' ⟨hKk', hsteps', hkeeps', x', hx', hxn'⟩ => ?_
    refine .bind (ih (done ++ [name]) (found ++ [new]) k' x' (by simpa using hn)
      (by simpa using hKk') (hsteps.trans hsteps') (hkeeps.trans hkeeps') hx' hxn') fun more h' hp => .pure ?_
    simpa using hp

theorem Object.field?_of_mem_names {x : Object} (hm : name ∈ x.fields.map (·.name)) :
    ∃ f, x.field? name = some f := by
  obtain ⟨f, hf, hn⟩ := List.mem_map.1 hm
  cases hx : x.field? name with
  | some g => exact ⟨g, rfl⟩
  | none =>
    have := List.find?_eq_none.1 hx f hf
    simp [hn] at this

theorem Object.field?_of_mem {x : Object} (hn : (x.fields.map (·.name)).Nodup) (hf : f ∈ x.fields) :
    x.field? f.name = some f := by
  obtain ⟨g, hg⟩ := Object.field?_of_mem_names (List.mem_map_of_mem (f := (·.name)) hf)
  have hgm := Object.mem_of_field? hg
  rw [hg, List.inj_on_of_nodup_map hn hgm hf (Object.name_of_field? hg)]

end PutField

end LazyHeap
