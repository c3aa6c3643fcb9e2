import LazyHeap.Proofs.Reading

/-!
Copying objects. A copy has the value of its source, and clones of its links that are bound to the label the
copy is made for; the source stays as it is. The copy is entered in the label's memo, unless nobody can come back
for it.
-/
namespace LazyHeap

variable {manner : Manner} {kept : CellId → Prop} {rules : Rules} {locks : List Lock}
variable {frame ins outs : List Task} {h h' : Heap} {c o : CellId} {x : Object} {f : Field} {l : Handle}
variable {name : FieldName} {E : Fault → Prop}

/-! ### Working under a lock -/

theorem Heap.edges_putField {g : Field} (hb : (h.cell c).body = .object x) (hn : (x.fields.map (·.name)).Nodup)
    (hf : x.field? f.name = some g) (hl : f.links = g.links) (d : CellId) :
    ((h.putField c f).cell d).edges = (h.cell d).edges := by
  by_cases hd : d = c
  · subst hd
    simp only [Cell.edges, Heap.putField_body hb, hb, Object.links_put hn hf hl]
  · rw [(h.putField_differs c f).others d hd]

theorem Holding.lock (hh : Holding .calm rules locks frame h []) (hb : (h.cell c).body = .object x)
    (hf : x.field? name = some f) (hun : f.locked = false) (hc : h.Reach (h.Held frame) c) :
    (c, some name) ∉ locks ∧
    Steps rules ⟨h, locks, [], frame⟩ ⟨h.putField c { f with locked := true }, (c, some name) :: locks, [], frame⟩ ∧
    Holding .calm rules ((c, some name) :: locks) frame (h.putField c { f with locked := true }) [] ∧
    (∀ d, h.Reach (h.Held frame) d →
      (h.putField c { f with locked := true }).Reach ((h.putField c { f with locked := true }).Held frame) d) := by
  obtain rfl := Object.name_of_field? hf
  have hfits := hh.safe.fits c
  rw [show (Moment.heap _).cell c = h.cell c from rfl, hb] at hfits
  have hn := hfits.1
  have hmem : ∀ k ∈ f.links, k.Fits rules.sealed h := fun k hk =>
    hfits.2 k (List.mem_flatMap.2 ⟨f, Object.mem_of_field? hf, hk⟩)
  have hstep : Advance rules ⟨h, locks, [], [] ++ frame⟩
      ⟨h.putField c { f with locked := true }, (c, some f.name) :: locks, [], [] ++ frame⟩ :=
    hh.putField (g := f) hb hf hc (.inr rfl) (.refl _) hmem fun y => by
      by_cases hy : y = (c, some f.name) <;> simp [hy]
  have hreach : ∀ d, h.Reach (h.Held frame) d →
      (h.putField c { f with locked := true }).Reach ((h.putField c { f with locked := true }).Held frame) d :=
    fun d hd => hd.mono (fun _ => .source) fun y d _ he hy => .edge hy <| by
      rwa [Heap.edges_putField (f := { f with locked := true }) hb hn hf rfl y]
  refine ⟨fun hm => ?_, .single hstep, ⟨(hh.safe.step hstep).1, fun y hy => ?_⟩, hreach⟩
  · have hl := (hh.safe.locks c (some f.name)).2 hm
    simp only [hb] at hl
    have hl' := (Object.locks_put hn (f := f) hf (some f.name)).1 (by rw [Object.put_self hn hf]; exact hl)
    rw [if_pos rfl, hun] at hl'
    cases hl'
  · rcases List.mem_cons.1 hy with rfl | hy
    · exact hreach c hc
    · exact hreach y.1 (hh.guarded y hy)

/-- What was done under a lock leaves everything as it was, once the lock is given back. -/
theorem Run.underLock (hh : Holding .calm rules locks frame h []) (hb : (h.cell c).body = .object x)
    (hf : x.field? name = some f) (hun : f.locked = false) (hc : h.Reach (h.Held frame) c)
    (hr : Run .calm rules ((c, some name) :: locks) frame (h.putField c { f with locked := true }) [] h' outs) :
    (h'.cell c).body = .object (x.put { f with locked := true }) ∧
      Run .calm rules locks frame h [] (h'.putField c f) outs := by
  obtain ⟨hnot, hsteps, hh₁, hreach⟩ := hh.lock hb hf hun hc
  obtain rfl := Object.name_of_field? hf
  have hfits := hh.safe.fits c
  rw [show (Moment.heap _).cell c = h.cell c from rfl, hb] at hfits
  have hn := hfits.1
  have hf₁ : (x.put { f with locked := true }).field? f.name = some { f with locked := true } :=
    Object.field?_put (f := { f with locked := true }) hf
  have hb₁ := h.putField_body (f := { f with locked := true }) hb
  have hk : (h.putField c { f with locked := true }).Kept frame h' := hr.keeps
  have hb' := (hk.body (hreach c hc)).trans hb₁
  have hput : (x.put { f with locked := true }).put f = x := by
    rw [Object.put_put (f := { f with locked := true }) (g := f) rfl, Object.put_self hn hf]
  have hself := h'.putField_self (f := f) hb'
  rw [hput] at hself
  have hd₁ := h.putField_differs c { f with locked := true }
  have hd₂ := h'.putField_differs c f
  have hcore : (h'.cell c).core = { h.cell c with body := .object (x.put { f with locked := true }) }.core := by
    rw [hk.cell c (hreach c hc), h.putField_self hb]
  have hh' := hh₁.run hr
  have hmem : ∀ k ∈ f.links, k.Fits rules.sealed h' := fun k hk' =>
    (hfits.2 k (List.mem_flatMap.2 ⟨f, Object.mem_of_field? hf, hk'⟩)).grows
      ((h.putField_grows hb).trans hk.grows)
  have hstep : Advance rules ⟨h', (c, some f.name) :: locks, [], outs ++ frame⟩
      ⟨h'.putField c f, locks, [], outs ++ frame⟩ :=
    hh'.putField (g := { f with locked := true }) hb' hf₁ (hk.reach (hreach c hc)) (.inr rfl) (.refl _) hmem
      fun y => by
        by_cases hy : y = (c, some f.name)
        · subst hy
          simp [hun, hnot]
        · simp [hy]
  refine ⟨hb', (hsteps.trans hr.steps).tail hstep, fun d hd => ?_, ⟨fun d => ?_, fun d => ?_, fun d => ?_⟩,
    ((h.putField_grows hb).trans hk.grows).trans (h'.putField_grows hb'), ?_, ?_, ?_⟩
  · by_cases hdc : d = c
    · subst hdc
      rw [hself]
      have := congrArg (fun y : Cell => { y with body := Body.object x }) hcore
      exact this.trans (by rw [← hb]; rfl)
    · rw [hd₂.others d hdc, hk.cell d (hreach d hd), hd₁.others d hdc]
  · by_cases hdc : d = c
    · subst hdc
      rw [hself]
      exact (congrArg (fun x : Cell => x.flags.freezing) hcore :)
    · rw [hd₂.others d hdc, hk.fades.freezing d, hd₁.others d hdc]
  · by_cases hdc : d = c
    · subst hdc
      rw [hself]
      exact (congrArg Cell.destroyed hcore :).trans
    · rw [hd₂.others d hdc, ← hd₁.others d hdc]
      exact hk.fades.destroyed d
  · by_cases hdc : d = c
    · subst hdc
      exact .inl (by rw [hself, hb])
    · rw [hd₂.others d hdc, ← hd₁.others d hdc]
      exact hk.fades.body d
  · exact hd₂.size.trans (hk.size.trans hd₁.size)
  · exact hd₂.scopes.trans (hk.scopes.trans hd₁.scopes)
  · exact hk.nextSerial

/-! ### Copies of values -/

def Object.bound (scopes : List Handle) (x : Object) : Object :=
  { x with fields := x.fields.map fun f => { f with links := f.links.map (Link.bound scopes) } }

theorem copyField_spec (hh : Holding .calm rules locks frame h []) (hb : (h.cell c).body = .object x)
    (hf : f ∈ x.fields) (hc : h.Reach (h.Held frame) c) (hwait : f.locked = true → E .selfWait) :
    Ends E (copyField c f h) fun f' h' => f.locked = false ∧
      f' = { f with links := f.links.map (Link.bound h.scopes) } ∧
      Run .calm rules locks frame h [] h' (f'.links.flatMap Link.tasks) := by
  have hfits := hh.safe.fits c
  rw [show (Moment.heap _).cell c = h.cell c from rfl, hb] at hfits
  have hfield := Object.field?_of_mem hfits.1 hf
  unfold copyField
  refine .bind (lockField_spec hb hfits.1 hfield hwait) fun links h₁ ⟨hun, hlinks, hh₁⟩ => ?_
  subst hlinks hh₁
  obtain ⟨-, -, hhk, hreach⟩ := hh.lock hb hfield hun hc
  have hb₁ := h.putField_body (f := { f with locked := true }) hb
  refine .bind (mapM_spec (s := fun _ => []) (t := Link.tasks)
    (fun done ys _ => ys = done.map (Link.bound h.scopes)) rfl ?_ (hhk.perm (by simp))) fun ys h₂ ⟨hr, hys⟩ => ?_
  · -- each link is cloned; what it leads to is held through the object
    intro done link rest ys k hd hys hk hhk'
    have hk' : (h.putField c { f with locked := true }).Kept frame k := hk
    have hbk := (hk'.body (hreach c hc)).trans hb₁
    have hlink : link ∈ (x.put { f with locked := true }).links := by
      rw [Object.links_put (f := { f with locked := true }) hfits.1 hfield rfl]
      exact List.mem_flatMap.2 ⟨f, hf, hd ▸ List.mem_append_right _ List.mem_cons_self⟩
    have husable : link.Usable rules.sealed k := Link.usable_of_reach hhk'.safe.toSound
      ((hk'.reach (hreach c hc)).subset fun _ => Or.imp_left fun ht =>
        List.mem_append_right _ (List.mem_append_right _ ht)) hbk hlink
    refine (Link.clone_spec hhk' husable).imp fun link' k' ⟨hl', hr'⟩ => ⟨?_, ?_⟩
    · rwa [List.append_nil] at hr'
    · rw [hys, hl', List.map_append, List.map_singleton, hk'.scopes]
      rfl
  · have hr : Run .calm rules ((c, some f.name) :: locks) frame (h.putField c { f with locked := true }) [] h₂
        (ys.flatMap Link.tasks) := hr.perm (by simp) (.refl _)
    obtain ⟨hb₂, hrun⟩ := hr.underLock hh hb hfield hun hc
    have hf₂ : (x.put { f with locked := true }).field? f.name = some { f with locked := true } :=
      Object.field?_put (f := { f with locked := true }) hfield
    refine .bind (unlockField_spec hb₂ (by rw [Object.names_put]; exact hfits.1) hf₂) fun _ h₃ hh₃ => ?_
    have hsame : ({ f with locked := false } : Field) = f := by rw [← hun]
    have hh₃ : h₃ = h₂.putField c f := by rw [hh₃, ← hsame]
    subst hh₃ hys
    exact ⟨hun, by rw [← hun], hrun⟩

theorem Object.tasks_eq (x : Object) :
    (Body.object x).tasks = x.fields.flatMap fun f => f.links.flatMap Link.tasks := by
  rw [Body.tasks, Object.links, List.flatMap_assoc]

/-- A copied value has the next serial, and clones of all links. -/
theorem copyValue_spec (hh : Holding .calm rules locks frame h []) (hb : (h.cell c).body = .object x)
    (hc : h.Reach (h.Held frame) c) (hwait : x.locked = true → E .selfWait) :
    Ends E (copyValue c h) fun b h' => b = .object { x.bound h.scopes with serial := h.nextSerial } ∧
      x.locked = false ∧ h'.size = h.size ∧ Run .adding rules locks frame h [] h' b.tasks := by
  unfold copyValue
  refine .readCell_bind ?_
  rw [hb]
  refine .bind (newSerial_spec hh) ?_
  rintro _ h₁ ⟨rfl, hcells, hr₁⟩
  refine .modify_bind ?_
  have hr₂ := hr₁.trans ((record_spec (.copied x.serial h.nextSerial)).relax)
  have hh₂ := hh.runAdding hr₂
  have hcell : ∀ d, (h₁.record (.copied x.serial h.nextSerial)).cell d = h.cell d := fun d => by
    show (h₁.cells[d]?).getD .void = _
    rw [hcells]
    rfl
  have hscopes : (h₁.record (.copied x.serial h.nextSerial)).scopes = h.scopes := hr₁.keeps.scopes
  have hreach : (h₁.record (.copied x.serial h.nextSerial)).Reach
      ((h₁.record (.copied x.serial h.nextSerial)).Held frame) c :=
    hc.mono (fun d hd => .source (by rwa [Heap.Held, Heap.standing, hscopes]))
      fun y d _ he hy => .edge hy (by rwa [hcell])
  refine .bind (mapM_spec (s := fun _ => []) (t := fun f => f.links.flatMap Link.tasks)
    (fun done ys _ => (∀ f ∈ done, f.locked = false) ∧ ys = done.map fun f =>
      { f with links := f.links.map (Link.bound h.scopes) }) ⟨by simp, rfl⟩ ?_ (hh₂.perm (by simp))) ?_
  · rintro done f rest ys k hd ⟨hun, hys⟩ hk hhk
    have hk' : (h₁.record (.copied x.serial h.nextSerial)).Kept frame k := hk
    have hf : f ∈ x.fields := hd ▸ List.mem_append_right _ List.mem_cons_self
    have hbk : (k.cell c).body = .object x := (hk'.body hreach).trans (by rw [hcell, hb])
    refine (copyField_spec hhk hbk hf ((hk'.reach hreach).subset fun _ => Or.imp_left
      (List.mem_append_right _)) fun hl => hwait (List.any_eq_true.2 ⟨f, hf, hl⟩)).imp ?_
    rintro f' k' ⟨hl, hf', hr'⟩
    refine ⟨hr', fun g hg => ?_, ?_⟩
    · exact (List.mem_append.1 hg).elim (hun g) fun hg => (List.mem_singleton.1 hg) ▸ hl
    · rw [hys, hf', List.map_append, List.map_singleton, hk'.scopes, hscopes]
  · rintro fs h₃ ⟨hr, hun, hfs⟩
    have hr : Run .calm rules locks frame _ [] h₃ (fs.flatMap fun f => f.links.flatMap Link.tasks) :=
      hr.perm (by simp) (.refl _)
    subst hfs
    refine ⟨rfl, ?_, ?_, ?_⟩
    · rw [Object.locked, List.any_eq_false]
      exact fun f hf => by simp [hun f hf]
    · rw [Heap.Kept.size hr.keeps]
      show h₁.cells.size = _
      rw [hcells]
      rfl
    · rw [Object.tasks_eq]
      exact hr₂.trans hr.relax

/-! ### Scopes -/

def Heap.rescope (h : Heap) (scopes : List Handle) : Heap := { h with scopes }

theorem enterScope_spec (hh : Holding .calm rules locks frame h ins) (hl : l.Usable rules.sealed h) :
    Ends E (enterScope l h) fun _ h' => ∃ h₁, h' = h₁.rescope (l :: h.scopes) ∧ h.Kept frame h₁ ∧
      Steps rules ⟨h, locks, [], ins ++ frame⟩ ⟨h', locks, [], ins ++ frame⟩ := by
  unfold enterScope
  refine .bind (Handle.clone_spec hh hl) fun l' h₁ ⟨hl', hr, _⟩ => ?_
  subst hl'
  show ∃ k, _ = _ ∧ _
  have hk : h.Kept frame h₁ := hr.keeps
  have henter : Advance rules ⟨h₁, locks, [], l'.tasks ++ (ins ++ frame)⟩
      ⟨h₁.rescope (l' :: h₁.scopes), locks, [], ins ++ frame⟩ := .enterScope (hl.fits.grows hk.grows)
  rw [← List.append_assoc] at henter
  exact ⟨h₁, congrArg (fun s => h₁.rescope (l' :: s)) hk.scopes, hk, hr.steps.tail henter⟩

theorem leaveScope_spec {rest : List Handle} (hh : Holding .calm rules locks frame h ins)
    (hs : h.scopes = l :: rest) (hlocks : ∀ y ∈ locks, (h.rescope rest).Reach ((h.rescope rest).Held frame) y.1) :
    Ends E (leaveScope h) fun _ h' => (h.rescope rest).Kept (ins ++ frame) h' ∧
      Steps rules ⟨h, locks, [], ins ++ frame⟩ ⟨h', locks, [], ins ++ frame⟩ := by
  unfold leaveScope
  refine .get_bind ?_
  rw [hs]
  refine .modify_bind ?_
  have hleave : Advance rules ⟨h, locks, [], ins ++ frame⟩ ⟨h.rescope rest, locks, [], l.tasks ++ (ins ++ frame)⟩ :=
    .leaveScope hs
  have hh' : Holding .calm rules locks (ins ++ frame) (h.rescope rest) l.tasks :=
    ⟨(hh.safe.step hleave).1, fun y hy => (hlocks y hy).subset fun _ =>
      Or.imp_left (List.mem_append_right _)⟩
  exact (Handle.drop_spec hh').imp fun _ h' hr => ⟨hr.keeps, .head hleave hr.steps⟩

theorem Heap.Spares.of_scoped (hk : (h.rescope (l :: h.scopes)).Spares kept frame h') :
    h.Spares kept frame (h'.rescope h.scopes) where
  cell c hv hc := by
    refine hk.cell c ?_ hc
    clear hc
    induction hv with
    | held hc =>
      refine .held (hc.imp_right fun hm => ?_)
      exact (List.mem_cons.1 hm).elim (fun he => he ▸ List.mem_cons_self) fun hm =>
        List.mem_cons_of_mem _ (List.mem_append_right _ hm)
    | edge _ hx he ih => exact .edge ih hx he
  grows := ⟨hk.grows.size, hk.grows.object, hk.grows.label⟩
  scopes := rfl
  nextSerial := hk.nextSerial

/-! ### Copies in cells -/

def Object.copyFor (x : Object) (l : Handle) (serial : Nat) : Object := { x.bound [l] with serial }

theorem Link.bound_cons (l : Handle) (rest : List Handle) : Link.bound (l :: rest) = Link.bound [l] := by
  funext link
  cases link with
  | owned p => cases p with | mk target _ => cases target <;> rfl
  | weak w => cases w with | mk target _ => cases target <;> rfl
  | label s => rfl

theorem Object.bound_cons (l : Handle) (rest : List Handle) (x : Object) : x.bound (l :: rest) = x.bound [l] := by
  simp only [Object.bound, Link.bound_cons l rest]

theorem Link.Fits.bound {sealed : CellId → Prop} {link : Link} (hf : link.Fits sealed h) (hl : l.Fits sealed h) :
    (link.bound [l]).Fits sealed h := by
  have hs : ∀ l' ∈ [l], l'.Fits sealed h := by simpa using hl
  cases link with
  | owned p => exact Pointer.Fits.bound hf hs
  | weak w => exact WeakPointer.Fits.bound hf hs
  | label s => exact hf

theorem Object.links_bound (scopes : List Handle) (x : Object) :
    (x.bound scopes).links = x.links.map (Link.bound scopes) := by
  simp only [Object.links, Object.bound, List.flatMap_map, List.map_flatMap]

theorem Object.names_bound (scopes : List Handle) (x : Object) :
    (x.bound scopes).fields.map (·.name) = x.fields.map (·.name) := by
  simp only [Object.bound, List.map_map, Function.comp_def]

theorem Object.links_copyFor (x : Object) (l : Handle) (serial : Nat) :
    (x.copyFor l serial).links = x.links.map (Link.bound [l]) := Object.links_bound [l] x

theorem Object.names_copyFor (x : Object) (l : Handle) (serial : Nat) :
    (x.copyFor l serial).fields.map (·.name) = x.fields.map (·.name) := Object.names_bound [l] x

theorem Object.locked_copyFor (x : Object) (l : Handle) (serial : Nat) :
    (x.copyFor l serial).locked = x.locked := by
  simp only [Object.locked, Object.copyFor, Object.bound, List.any_map, Function.comp_def]

theorem Object.locks_of_unlocked (hx : x.locked = false) : (Body.object x).locks = [] := by
  rw [Body.locks, List.map_eq_nil_iff, List.filter_eq_nil_iff]
  exact List.any_eq_false.1 hx

/-- A copy goes into a new cell, and nothing that was there changes. -/
theorem copyCell_spec (hh : Holding .calm rules locks frame h []) (hb : (h.cell o).body = .object x)
    (ho : h.Reach (h.Held frame) o) (hl : l.Fits rules.sealed h) (hsub : ∀ t ∈ l.tasks, t ∈ frame)
    (hwait : x.locked = true → E .selfWait) :
    Ends E (copyCell o l h) fun c h' => c = h.size ∧ h'.size = h.size + 1 ∧ x.locked = false ∧
      h'.cell h.size = .fresh (.object (x.copyFor l h.nextSerial)) l.counted? ∧
      Run .adding rules locks frame h [] h' [.release h.size] := by
  have hfits := hh.safe.fits o
  rw [show (Moment.heap _).cell o = h.cell o from rfl, hb] at hfits
  unfold copyCell
  refine .bind (enterScope_spec hh (hh.usable hl hsub)) ?_
  rintro - h₁ ⟨k, hk₁, hk, hsteps₁⟩
  -- inside the scope everything is held that was held before
  have hreach : ∀ c, h.Reach (h.Held frame) c → h₁.Reach (h₁.Held frame) c := fun c hc => by
    refine (hk.reach hc).mono (fun d hd => .source (hd.imp_right fun hm => ?_)) fun _ _ _ he hy => .edge hy ?_
    · rw [hk₁, Heap.standing, Heap.rescope]
      rw [Heap.standing, hk.scopes] at hm
      exact (List.mem_cons.1 hm).elim (fun he => he ▸ List.mem_cons_self) fun hm =>
        List.mem_cons_of_mem _ (List.mem_append_right _ hm)
    · rw [hk₁]
      exact he
  have hh₁ : Holding .calm rules locks frame h₁ [] :=
    ⟨(hh.safe.steps hsteps₁).1, fun y hy => hreach y.1 (hh.within y hy)⟩
  have hscopes₁ : h₁.scopes = l :: h.scopes := by rw [hk₁]; rfl
  have hb₁ : (h₁.cell o).body = .object x := by
    rw [hk₁]
    exact (hk.body ho).trans hb
  have hserial : h₁.nextSerial = h.nextSerial := by
    rw [hk₁]
    exact hk.nextSerial
  have hsize₁ : h₁.size = h.size := by
    rw [hk₁]
    exact hk.size
  refine .bind (copyValue_spec hh₁ hb₁ (hreach o ho) hwait) ?_
  rintro b h₂ ⟨hbody, hun, hsize₂, hr₂⟩
  have hbody : b = .object (x.copyFor l h.nextSerial) := by
    rw [hbody, hscopes₁, Object.bound_cons, hserial]
    rfl
  have hspares : h.Spares (fun _ => True) frame (h₂.rescope h.scopes) := by
    have hsp : (k.rescope (l :: k.scopes)).Spares (fun _ => True) frame h₂ := by
      rw [hk.scopes, ← hk₁]
      exact hr₂.keeps
    have := hsp.of_scoped
    rw [hk.scopes] at this
    exact Heap.Spares.trans (hk.keeps : h.Keeps .adding frame k) this
  have hscopes₂ : h₂.scopes = l :: h.scopes := hr₂.keeps.scopes.trans hscopes₁
  have hlocks₂ : ∀ y ∈ locks, (h₂.rescope h.scopes).Reach ((h₂.rescope h.scopes).Held frame) y.1 := fun y hy =>
    Holding.reach_of_adding hspares (hh.within y hy)
  refine .bind (leaveScope_spec (hh₁.runAdding hr₂) hscopes₂ hlocks₂) ?_
  rintro - h₃ ⟨hk₃, hsteps₃⟩
  have hr₃ : Run .adding rules locks frame h [] h₃ b.tasks :=
    ⟨(hsteps₁.trans hr₂.steps).trans hsteps₃, Heap.Spares.trans hspares
      ((hk₃.subset fun t ht => List.mem_append_right _ ht).keeps : Heap.Keeps .adding frame _ h₃)⟩
  have hsize₃ : h₃.size = h.size := hk₃.size.trans (hsize₂.trans hsize₁)
  have hg := hr₃.keeps.grows
  subst hbody
  have hbfits : (Body.object (x.copyFor l h.nextSerial)).Fits rules.sealed h₃ h₃.size := by
    refine ⟨by rw [Object.names_copyFor]; exact hfits.1, fun link hlink => ?_⟩
    rw [Object.links_copyFor] at hlink
    obtain ⟨link', hmem, rfl⟩ := List.mem_map.1 hlink
    exact ((hfits.2 link' hmem).grows hg).bound (hl.grows hg)
  have hblocks : (Body.object (x.copyFor l h.nextSerial)).locks = [] :=
    Object.locks_of_unlocked (by rw [Object.locked_copyFor, hun])
  have hstarts : (Body.object (x.copyFor l h.nextSerial)).Starts h₃ rules :=
    ⟨fun _ => True.intro, by simp, by simp⟩
  have howner : ∀ d, l = .counted d → (∃ y, Body.object (x.copyFor l h.nextSerial) = .object y) ∧ d ≠ rootCell ∧
      0 < (h₃.cell d).weak := fun d hd =>
    ⟨⟨_, rfl⟩, (hl d hd).1.1, (hh.runAdding hr₃).weak_of_mem (.inr (List.mem_append_right _ (hsub _ (by
      simp [hd, Handle.tasks, Handle.counted?]))))⟩
  refine (allocate_spec (hh.runAdding hr₃) hbfits hblocks hstarts howner).imp ?_
  rintro c h' ⟨hc, hadds, hr⟩
  rw [hsize₃] at hc hr
  have hnew := hadds.new
  rw [hsize₃] at hnew
  exact ⟨hc, by rw [hadds.size, hsize₃], hun, hnew, hr₃.trans hr⟩

/-! ### Copies in memos -/

/-- A new cell has a copy of an object for a label. -/
structure Heap.Copied (h h' : Heap) (l : Handle) (x : Object) (c : CellId) : Prop where
  new : c = h.size
  size : h'.size = h.size + 1
  unlocked : x.locked = false
  core : (h'.cell c).core = (Cell.fresh (.object (x.copyFor l h.nextSerial)) none).core

theorem Memo.tasks_put (m : Memo) (c d : CellId) : (m.put c d).tasks = m.tasks ++ [.release d, .unpin c] := by
  simp [Memo.tasks, Memo.put]

private theorem enter_step {s : Label} {label c : CellId} {k : Heap}
    (hh : Holding (.sparing kept) rules locks frame k [.release c, .unpin o, .release c])
    (hlabel : .release label ∈ frame) (hb : (k.cell label).body = .label s)
    (hl : (Handle.counted label).Fits rules.sealed k) (hwritten : s.written = true)
    (hnone : s.memo.get? o = none) (ho : k.IsObject o) (hc : k.IsObject c) (hoc : o < c) (hadmits : s.Admits k rules (o, c))
    (hfree : ¬ kept label) (hsteady : ¬ rules.steady label) :
    Run (.sparing kept) rules locks frame k [.release c, .unpin o, .release c]
      (k.putLabel label { s with memo := s.memo.put o c }) [.release c] := by
  obtain ⟨⟨hroot, hsealed⟩, hlt, -⟩ := hl label rfl
  have hfits := hh.fits_label hb
  have hmem : ∀ e, e ∈ (s.memo.put o c).entries ↔ e ∈ s.memo.entries ∨ e = (o, c) := fun e => by
    rw [Memo.put, List.mem_append, List.mem_singleton]
  have hstep : Advance rules ⟨k, locks, [], [.release c, .unpin o, .release c] ++ frame⟩
      ⟨k.putLabel label { s with memo := s.memo.put o c }, locks, [], [.release c] ++ frame⟩ := by
    refine hh.putLabel hb (.source (.inl hlabel)) ⟨fun e he => .inl ((hmem e).2 (.inl he)), fun e he => ?_, id,
      fun _ => .inl, .inl rfl, hsealed, fun hst => absurd hst hsteady⟩
      ⟨fun e he => ?_, ?_, hfits.forward, hfits.rootless, hfits.later, fun hw => ?_⟩
      (fun he => absurd he hroot) ?_ (hh.locks_same hb rfl)
    · refine ((hmem e).1 he).imp_right fun heq => ?_
      subst heq
      exact hadmits
    · rcases (hmem e).1 he with he | rfl
      · exact hfits.entries e he
      · exact ⟨ho, hc, hoc⟩
    · rw [Memo.put, List.map_append]
      refine hfits.distinct.append (List.nodup_singleton _) fun d hd hdo => ?_
      obtain ⟨e, he, rfl⟩ := List.mem_map.1 hd
      exact Memo.get?_eq_none_iff.1 hnone e he (List.mem_singleton.1 hdo)
    · rw [show s.written = false from hw] at hwritten
      cases hwritten
    · simp only [Body.tasks, Memo.tasks_put, List.perm_iff_count, List.count_append, List.count_cons,
        List.count_nil]
      intro t
      omega
  exact .of_step hstep (k.putLabel_keeps hb hlt _ frame hfree)

/-- A copy is entered in the memo, unless its source had one owner when it was frozen, or has a copy already. -/
theorem copyIntoMemo_spec {s : Label} {label : CellId} (hh : Holding (.sparing kept) rules locks frame h [])
    (hb : (h.cell o).body = .object x) (ho : h.Reach (h.Held frame) o)
    (hs : (h.cell label).body = .label s) (hl : (Handle.counted label).Fits rules.sealed h)
    (hlabel : .release label ∈ frame) (hfree : ¬ kept label) (hsteady : ¬ rules.steady label)
    (hcareful : rules.careful = true → (h.cell o).frozen = true) (hapart : rules.apart = true → s.frozen = false)
    (hwait : x.locked = true → E .selfWait) :
    Ends E (copyIntoMemo (.counted label) label o h) fun c h' =>
      Run (.sparing kept) rules locks frame h [] h' [.release c] ∧
      ((h.Copied h' (.counted label) x c ∧ (h.cell o).flags.frozenSole = true ∧
          (h'.cell label).body = .label s) ∨
        (h.Copied h' (.counted label) x c ∧ s.memo.get? o = none ∧
          (h'.cell label).body = .label { s with written := true, memo := s.memo.put o c }) ∨
        (s.memo.get? o = some c ∧ (h'.cell label).body = .label { s with written := true })) := by
  unfold copyIntoMemo
  have hsub : ∀ t ∈ (Handle.counted label).tasks, t ∈ frame := fun t ht => by
    rw [Handle.tasks_counted, List.mem_singleton] at ht
    exact ht ▸ hlabel
  have hheld : ∀ {k : Heap}, k.Held frame label := .inl hlabel
  refine .bind (copyCell_spec hh.calm hb ho hl hsub hwait) fun c h₁ ⟨hc, hsize, hun, hnew, hr₁⟩ => .readCell_bind ?_
  subst hc
  have hadding : h.Spares (fun _ => True) frame h₁ := hr₁.keeps
  have hsame : ∀ d, h.Reach (h.Held frame) d → (h₁.cell d).core = (h.cell d).core := fun d hd => by
    refine hadding.cell d ?_ (.inr True.intro)
    induction hd with
    | source hd => exact .held hd
    | edge _ he ih => exact .edge ih (.inr True.intro) he
  have hr : Run (.sparing kept) rules locks frame h [] h₁ [.release h.size] := hr₁.spare fun _ _ => True.intro
  have hh₁ := hh.run hr
  have hs₁ : (h₁.cell label).body = .label s := (Cell.body_of_core (hsame label (.source hheld))).trans hs
  have hcopied : h.Copied h₁ (.counted label) x h.size := ⟨rfl, hsize, hun, by rw [hnew]; rfl⟩
  have hsole : (h₁.cell o).flags.frozenSole = (h.cell o).flags.frozenSole :=
    (congrArg (fun y : Cell => y.flags.frozenSole) (hsame o ho) :)
  rw [hsole]
  cases hfs : (h.cell o).flags.frozenSole with
  | true => exact ⟨hr, .inl ⟨hcopied, rfl, hs₁⟩⟩
  | false =>
    simp only [Bool.false_eq_true, if_false]
    refine .updateCell_bind ?_
    rw [h₁.update_label_eq hs₁ fun l => { l with written := true }]
    obtain ⟨⟨hroot, hsealed⟩, -⟩ := hl label rfl
    have hlt₁ := (hh₁.live_held hheld).lt_size
    have hfits₁ := hh₁.fits_label hs₁
    let s₂ : Label := { s with written := true }
    let h₂ := h₁.putLabel label s₂
    have hr₂ : Run (.sparing kept) rules locks frame h₁ [.release h.size] h₂ [.release h.size] :=
      .of_step (hh₁.putLabel hs₁ (.source hheld) ⟨fun _ he => .inl he, fun _ he => .inl he, id, fun _ => .inl,
        .inl rfl, hsealed, fun hst => absurd hst hsteady⟩ ⟨hfits₁.entries, hfits₁.distinct, hfits₁.forward, hfits₁.rootless, hfits₁.later, nofun⟩
        (fun he => absurd he hroot) (.refl _) (hh₁.locks_same hs₁ rfl)) (h₁.putLabel_keeps hs₁ hlt₁ s₂ frame hfree)
    have hs₂ : (h₂.cell label).body = .label s₂ := h₁.putLabel_body hs₁ hlt₁
    have hh₂ := hh₁.run hr₂
    have hr₁₂ := hr.trans hr₂
    have hd₂ := h₁.putLabel_differs label s₂
    refine .get_bind ?_
    rw [h₂.label_eq hs₂]
    cases hget : s.memo.get? o with
    | some existing =>
      have hreach : h₂.Reach (h₂.Held frame) existing :=
        .edge (.source hheld) (Heap.mem_edges_of_copy hs₂ (List.mem_map_of_mem (Memo.mem_of_get? hget)))
      have hobj := ((hh₂.fits_label hs₂).entries _ (Memo.mem_of_get? hget)).2.1
      have hlive : h₂.Live existing := hh₂.safe.live_of_reach <| hreach.subset fun _ =>
        Or.imp_left (List.mem_append_right _)
      refine .bind (retain_spec hh₂.calm hlive (hh₂.calm.object_ne_root hobj)) fun _ h₃ ⟨hr₃, _⟩ => ?_
      have hr₁₃ := hr₁₂.trans hr₃.relax
      have hswap : [Task.release existing, .release h.size].Perm ([.release h.size] ++ [.release existing]) :=
        .swap _ _ _
      refine .bind (release_spec ((hh.run hr₁₃).focus hswap).calm) fun _ h₄ hr₄ =>
        ⟨hr₁₃.andDrop hswap hr₄.relax, .inr (.inr ⟨rfl, ?_⟩)⟩
      have hb₃ := Heap.Kept.body hr₃.keeps (.source hheld)
      have hb₄ := Heap.Kept.body hr₄.keeps (c := label) (.source (.inl (List.mem_append_right _ hlabel)))
      rw [hb₄, hb₃, hs₂]
    | none =>
      have ho₂ : h₂.IsObject o := hr₁₂.keeps.grows.object o ⟨x, hb⟩
      have hnewobj : h₂.IsObject h.size := hr₂.keeps.grows.object _ ⟨_, by rw [hnew]; rfl⟩
      -- the count in hand keeps the copy
      have hhold : Holding .calm rules locks ([.release h.size] ++ frame) h₂ [] := hh₂.calm.focus (.refl _)
      have hne : o ≠ label := fun he => by
        rw [he, hs] at hb
        cases hb
      have hweak : 0 < (h₂.cell o).weak := by
        rw [hd₂.others o hne]
        exact hh₁.weak_of_live (hh₁.safe.live_of_reach ((Holding.reach_of_adding hadding ho).subset fun _ =>
          Or.imp_left (List.mem_append_right _)))
      refine .bind (retainWeak_spec hhold hweak) fun _ h₃ ⟨hr₃, _⟩ => ?_
      have hh₃ := hhold.run hr₃
      have hlive : h₃.Live h.size := hh₃.live (List.mem_append_right _ List.mem_cons_self)
      have hobj₃ := hr₃.keeps.grows.object _ hnewobj
      refine .bind (retain_spec hh₃ hlive (hh₃.object_ne_root hobj₃)) fun _ h₄ ⟨hr₄, _⟩ => ?_
      have hr₃₄ := hr₃.trans hr₄
      have hk : h₂.Kept ([.release h.size] ++ frame) h₄ := hr₃₄.keeps
      have hr' : Run .calm rules locks frame h₂ [.release h.size] h₄ [.release h.size, .unpin o, .release h.size] :=
        hr₃₄.widen
      have hh₄ := hh₂.run hr'.relax
      have hs₄ : (h₄.cell label).body = .label s₂ :=
        (hk.body (.source (.inl (List.mem_append_right _ hlabel)))).trans hs₂
      refine .updateCell_bind ?_
      rw [h₄.update_label_eq hs₄ fun l => { l with memo := l.memo.put o h.size }]
      have hgrows := (hr₁₂.trans hr'.relax).keeps.grows
      have hlabel_lt : label < h.size := (hl label rfl).2.1
      have hol : o ≠ label := fun he => by
        rw [he, hs] at hb
        cases hb
      -- the copy has one owner so far, who is not a cell
      have hlone : ∀ y, h.size ∉ (h₁.cell y).edges :=
        (Sound.lone_of_unique hh₁.safe.toSound (c := h.size) (by
          rw [show (Moment.heap _).cell h.size = h₁.cell h.size from rfl, hnew]
          exact Nat.le_refl _) (by
          rw [show (Moment.heap _).cell h.size = h₁.cell h.size from rfl, hnew]
          rfl)).2 (.inl (List.mem_append_left _ List.mem_cons_self))
      have hadmits : s₂.Admits h₄ rules (o, h.size) := by
        refine ⟨?_, fun hcar => ?_, fun hap => ⟨hapart hap, fun y hy => ?_⟩⟩
        · rw [hk.fades.frozen _, hd₂.others _ (Nat.ne_of_gt hlabel_lt), hnew]
          rfl
        · rw [hk.fades.frozen o, hd₂.others o hol, Cell.frozen_of_core (hsame o ho)]
          exact hcareful hcar
        · have hy₂ := hk.fades.mem_edges hy
          by_cases hyl : y = label
          · subst hyl
            refine hlone y ?_
            rw [Cell.edges, hs₂] at hy₂
            rw [Cell.edges, hs₁]
            exact hy₂
          · rw [hd₂.others y hyl] at hy₂
            exact hlone y hy₂
      have henter := enter_step hh₄ hlabel hs₄ (hl.grows hgrows) rfl hget (hgrows.object o ⟨x, hb⟩)
        (hr₄.keeps.grows.object _ hobj₃) (Heap.IsObject.lt_size ⟨x, hb⟩) hadmits hfree hsteady
      refine ⟨(hr₁₂.trans hr'.relax).trans henter, .inr (.inl ⟨⟨rfl, ?_, hun, ?_⟩, rfl, h₄.putLabel_body hs₄
        (hh₄.live_held hheld).lt_size⟩)⟩
      · rw [(h₄.putLabel_differs label _).size, hk.size, hd₂.size, hsize]
      · rw [(h₄.putLabel_differs label _).others _ (Nat.ne_of_gt hlabel_lt),
          hk.cell _ (.source (.inl (List.mem_append_left _ List.mem_cons_self))),
          hd₂.others _ (Nat.ne_of_gt hlabel_lt)]
        exact hcopied.core

end LazyHeap
