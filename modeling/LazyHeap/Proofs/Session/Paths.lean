import LazyHeap.Proofs.Session.Fields
import LazyHeap.Proofs.Session.Pulls

/-!
Pulls along paths. A label that may still change sees a region of the heap: the objects to which a pointer under it
can lead. However many of them are copied or recycled while a path is followed, what the label sees at the end of the
path is what it saw at the beginning.
-/
namespace LazyHeap

variable {rules : Rules} {locks : List Lock} {frame hold : List Task} {h h' k : Heap} {W W' : CellId → Prop}
variable {a c d m o r x : CellId} {l : Handle} {p q : Pointer} {b b' : Object} {s s' : Label} {v v' : Option Int}
variable {name : FieldName} {i : Nat}

/-! ### Following a path -/

/-- A way along owning pointers: each time a field, and the place of the pointer in it. -/
abbrev Path := List (FieldName × Nat)

/-- Resolves a pointer for change and borrows the object, if there is one. -/
def Pointer.grasp (p : Pointer) : HeapM (Pointer × Option CellId) := do
  let (p, o) ← p.pull
  if let some o := o then borrow o
  return (p, o)

def Link.grasp : Link → HeapM (Link × Option CellId)
  | .owned p => do
    let (p, o) ← p.grasp
    return (.owned p, o)
  | link => return (link, none)

def graspAt (links : List Link) (i : Nat) : HeapM (List Link × Option CellId) := do
  match links[i]? with
  | none => return (links, none)
  | some link =>
    let (link, o) ← link.grasp
    return (links.set i link, o)

def graspField (c : CellId) (name : FieldName) (i : Nat) : HeapM (Option CellId) := do
  if ((← readCell c).object?.bind (·.field? name)).isNone then return none
  let links ← lockField c name
  setField c name []
  let (links, o) ← graspAt links i
  setField c name links
  unlockField c name
  return o

/-- The value at the end of a path that starts at an object, each pointer on the way being resolved for change. While
the rest of the path is followed, an object is borrowed. -/
def valueAlong : Path → CellId → HeapM (Option Int)
  | [], c => return (← readCell c).object?.map (·.value)
  | (name, i) :: path, c => do
    match ← graspField c name i with
    | none => return none
    | some d =>
      let v ← valueAlong path d
      endBorrow d
      return v

def Pointer.valueAlong (p : Pointer) (path : Path) : HeapM (Pointer × Option Int) := do
  match ← p.grasp with
  | (p, none) => return (p, none)
  | (p, some c) =>
    let v ← LazyHeap.valueAlong path c
    endBorrow c
    return (p, v)

/-! ### What a label sees along a path -/

def Object.targetAt (b : Object) (name : FieldName) (i : Nat) : Option CellId :=
  (b.field? name).bind fun f => (f.links[i]?).bind Link.target?

theorem Link.target?_bare (l : Link) : l.bare.target? = l.target? := by cases l <;> rfl

namespace Object

theorem targetAt_eq (b : Object) (name : FieldName) (i : Nat) :
    b.targetAt name i = (b.leads.find? (·.1 = name)).bind fun f => (f.2[i]?).bind Link.target? := by
  have hfind : b.leads.find? (·.1 = name) = (b.field? name).map fun f => (f.name, f.links.map Link.bare) := by
    simp only [leads, contents, field?, List.map_map, List.find?_map]
    rfl
  rw [hfind, targetAt]
  cases b.field? name with
  | none => rfl
  | some f => cases hl : f.links[i]? <;> simp [hl, Link.target?_bare]

theorem Resembles.targetAt (hs : b.Resembles b') : b'.targetAt name i = b.targetAt name i := by
  rw [targetAt_eq, targetAt_eq, hs.leads]

theorem leadsTo_of_targetAt (ht : b.targetAt name i = some c) : b.LeadsTo c := by
  obtain ⟨f, hf, hl⟩ := Option.bind_eq_some_iff.1 ht
  obtain ⟨link, hlink, htarget⟩ := Option.bind_eq_some_iff.1 hl
  have hmem : link ∈ b.links := List.mem_flatMap.2 ⟨f, mem_of_field? hf, List.mem_of_getElem? hlink⟩
  cases link with
  | owned p => exact ⟨p, hmem, htarget⟩
  | weak w => cases htarget
  | label l => cases htarget

end Object

/-- The value that a label sees at the end of a path that starts at an object, or that it sees none there. -/
inductive Heap.Shows (h : Heap) (m : CellId) : Path → CellId → Option Int → Prop where
  | value {o r : CellId} {b : Object} : h.Sees (.counted m) o r → (h.cell r).body = .object b → Shows h m [] o (some b.value)
  | absent {o r : CellId} {b : Object} {name : FieldName} {i : Nat} {path : Path} : h.Sees (.counted m) o r →
    (h.cell r).body = .object b → b.targetAt name i = none → Shows h m ((name, i) :: path) o none
  | step {o r t : CellId} {b : Object} {name : FieldName} {i : Nat} {path : Path} {v : Option Int} :
    h.Sees (.counted m) o r → (h.cell r).body = .object b → b.targetAt name i = some t → Shows h m path t v →
    Shows h m ((name, i) :: path) o v

/-- Two objects in two heaps that a label sees in the same way, for as long as their targets are related. -/
def Heap.Matches (h h' : Heap) (m : CellId) (R : CellId → CellId → Prop) (a c : CellId) : Prop :=
  ∃ r r' b b', h.Sees (.counted m) a r ∧ h'.Sees (.counted m) c r' ∧ (h.cell r).body = .object b ∧
    (h'.cell r').body = .object b' ∧ b'.value = b.value ∧
    ∀ name i, b.targetAt name i = none ∧ b'.targetAt name i = none ∨
      ∃ t t', b.targetAt name i = some t ∧ b'.targetAt name i = some t' ∧ R t t'

namespace Heap.Shows

variable {path : Path} {R : CellId → CellId → Prop}

theorem unique (hv : h.Shows m path o v) (hv' : h.Shows m path o v') : v = v' := by
  have hbody : ∀ {o r r' : CellId} {b b' : Object}, h.Sees (.counted m) o r → h.Sees (.counted m) o r' →
      (h.cell r).body = .object b → (h.cell r').body = .object b' → b = b' := fun hs hs' hb hb' => by
    rw [hs.unique hs', hb'] at hb
    exact (Body.object.inj hb).symm
  induction hv with
  | value hs hb =>
    cases hv' with
    | value hs' hb' => rw [hbody hs hs' hb hb']
  | absent hs hb ht =>
    cases hv' with
    | absent _ _ _ => rfl
    | step hs' hb' ht' _ =>
      rw [hbody hs hs' hb hb', ht'] at ht
      cases ht
  | step hs hb ht hv ih =>
    cases hv' with
    | absent hs' hb' ht' =>
      rw [hbody hs hs' hb hb', ht'] at ht
      cases ht
    | step hs' hb' ht' hv' =>
      rw [hbody hs hs' hb hb', ht'] at ht
      cases ht
      exact ih hv'

theorem back (hR : ∀ a c, R a c → h.Matches h' m R a c) (hv : h'.Shows m path d v) :
    ∀ {c}, R c d → h.Shows m path c v := by
  induction hv with
  | value hs' hb' =>
    intro c hc
    obtain ⟨r, r', b, b', hs, hs'', hb, hb'', hval, -⟩ := hR _ _ hc
    obtain rfl := hs'.unique hs''
    cases hb'.symm.trans hb''
    exact hval ▸ .value hs hb
  | absent hs' hb' ht' =>
    intro c hc
    obtain ⟨r, r', b, b', hs, hs'', hb, hb'', -, hts⟩ := hR _ _ hc
    obtain rfl := hs'.unique hs''
    cases hb'.symm.trans hb''
    rcases hts _ _ with ⟨ht, -⟩ | ⟨t, t', -, ht, -⟩
    · exact .absent hs hb ht
    · rw [ht'] at ht
      cases ht
  | step hs' hb' ht' _ ih =>
    intro c hc
    obtain ⟨r, r', b, b', hs, hs'', hb, hb'', -, hts⟩ := hR _ _ hc
    obtain rfl := hs'.unique hs''
    cases hb'.symm.trans hb''
    rcases hts _ _ with ⟨-, ht⟩ | ⟨t, t', ht, ht'', htt⟩
    · rw [ht'] at ht
      cases ht
    · cases ht'.symm.trans ht''
      exact .step hs hb ht (ih htt)

end Heap.Shows

/-! ### Regions -/

/-- Objects of a sort lead only to objects of the sort, as long as they are there, and the entries of a label do so too.
What may change among them is bound to the label, and so is what becomes of it when it is recycled. The label may still
change. -/
structure Heap.Region (h : Heap) (m : CellId) (W : CellId → Prop) : Prop where
  label : ∃ s, (h.cell m).body = .label s ∧ s.frozen = false ∧ ∀ e ∈ s.memo.entries, W e.1 → W e.2
  known : ∀ c, W c → h.IsObject c
  object : ∀ c b, W c → (h.cell c).body = .object b → (h.cell c).destroyed = false → b.kind.rebinds = true ∧
    ∀ p t, .owned p ∈ b.links → p.target = some t → W t ∧ ((h.cell c).frozen = false → p.label = .counted m)

theorem Heap.Region.sees (hr : h.Region m W) (ha : W a) (hs : h.Sees (.counted m) a r) : W r := by
  obtain ⟨s, hs', -, hentries⟩ := hr.label
  have hst : h.Stands s.memo a r := by
    rw [← h.label_eq hs']
    exact hs
  clear hs
  induction hst with
  | stop _ => exact ha
  | next _ hget _ ih => exact ih (hentries _ (Memo.mem_of_get? hget) ha)

/-! ### Looking up within a region -/

namespace Heap.Got

theorem place (hg : h.Got (.counted m) o hold h' x) (hs : h.Sees (.counted m) o r) :
    x = r ∨ (h.cell r).frozen = true ∧ x = h.size := by
  have hsees : ∀ {s r'}, (h.cell m).body = .label s → h.Stands s.memo o r' → r' = r := fun hb hst =>
    Heap.Stands.unique (by rwa [h.label_eq hb]) (show h.Stands (h.label m).memo o r from hs)
  cases hg with
  | found hs' _ _ => exact .inl (hs'.unique hs)
  | recycled he hb hst _ _ _ _ =>
    cases he
    exact .inl (hsees hb hst)
  | copied he hb hst hf _ hc _ _ _ =>
    cases he
    exact .inr ⟨hsees hb hst ▸ hf, hc.new⟩

/-- What becomes of the label under which an object is looked up: it has the same entries, or one more for the copy. -/
theorem label_after (hg : h.Got (.counted m) o hold h' x) (hb : (h.cell m).body = .label s) (hlt : m < h.size)
    (hd : (h'.cell m).destroyed = false) : ∃ s', (h'.cell m).body = .label s' ∧ s'.frozen = s.frozen ∧
      (s'.memo = s.memo ∨ ∃ r, s'.memo = s.memo.put r x ∧ s.memo.get? r = none ∧ h.Stands s.memo o r ∧
        (h.cell r).frozen = true ∧ x = h.size) := by
  have hsame : ∀ {S : CellId → Prop}, h.Leaves S h' → S m → ∃ s', (h'.cell m).body = .label s' ∧ s'.frozen = s.frozen ∧
      (s'.memo = s.memo ∨ ∃ r, s'.memo = s.memo.put r x ∧ s.memo.get? r = none ∧ h.Stands s.memo o r ∧
        (h.cell r).frozen = true ∧ x = h.size) := fun hv hS =>
    (hv.label m s hS hlt hb hd).imp fun _ ⟨hs, hsame⟩ => ⟨hs, hsame.frozen, .inl hsame.memo⟩
  cases hg with
  | found _ _ hk => exact hsame (S := fun _ => True) hk.leaves trivial
  | recycled _ _ _ _ hx _ hv =>
    refine hsame hv fun he => ?_
    rw [← he, hb] at hx
    cases hx
  | copied he hs hst hf _ hc _ hentered _ =>
    cases he
    cases hb.symm.trans hs
    rcases hentered with ⟨-, hs'⟩ | ⟨hget, hs'⟩
    · exact ⟨s, hs', rfl, .inl rfl⟩
    · exact ⟨_, hs', rfl, .inr ⟨_, rfl, hget, hst, hf, hc.new⟩⟩

/-- Objects are as frozen after a lookup as they were before, but for one that was recycled. This had no entry. -/
theorem frozen_after (hg : h.Got (.counted m) o hold h' x) (hb : (h.cell m).body = .label s) (hc : h.IsObject c) :
    (h'.cell c).frozen = (h.cell c).frozen ∨ c = x ∧ (h'.cell c).frozen = false ∧ s.memo.get? c = none := by
  obtain ⟨b, hcb⟩ := hc
  have hsame : ∀ {S : CellId → Prop}, h.Leaves S h' → S c → (h'.cell c).frozen = (h.cell c).frozen := fun hv hS =>
    Cell.frozen_of_freezing (hv.freezing c hS (Heap.IsObject.lt_size ⟨b, hcb⟩))
  cases hg with
  | found _ _ hk => exact .inl (hk.fades.frozen c)
  | recycled he hs hst hf _ hr hv =>
    cases he
    cases hb.symm.trans hs
    by_cases hcx : c = x
    · subst hcx
      exact .inr ⟨rfl, Cell.frozen_of_core hr.core, hst.stops hf⟩
    · exact .inl (hsame hv hcx)
  | copied he hs _ _ _ _ _ _ hv =>
    cases he
    refine .inl (hsame hv fun hcm => ?_)
    rw [hcm, hs] at hcb
    cases hcb

theorem sees_after (hg : h.Got (.counted m) o hold h' x) (hb : (h.cell m).body = .label s) (hlt : m < h.size)
    (hd : (h'.cell m).destroyed = false) (hfits : ∀ e ∈ s.memo.entries, h.IsObject e.2)
    (hthawed : (h'.cell x).frozen = false) (ha : h.IsObject a) (hs : h.Sees (.counted m) a r) :
    h'.Sees (.counted m) a r ∨ h'.Sees (.counted m) a x ∧ h.Sees (.counted m) o r := by
  obtain ⟨s', hb', -, hmemo⟩ := hg.label_after hb hlt hd
  have hfrozen : ∀ {c}, h.IsObject c → (h'.cell c).frozen = true → (h.cell c).frozen = true := fun {c} hc hf => by
    rcases hg.frozen_after hb hc with he | ⟨-, he, -⟩
    · rwa [he] at hf
    · rw [he] at hf
      cases hf
  -- what has an entry is as frozen as it was
  have hfrozen' : ∀ {c}, h.IsObject c → (h.cell c).frozen = true → c ≠ x ∨ s.memo.get? c ≠ none →
      (h'.cell c).frozen = true := fun {c} hc hf hor => by
    rcases hg.frozen_after hb hc with he | ⟨hcx, -, hnone⟩
    · rwa [he]
    · exact (hor.elim (· hcx) (· hnone)).elim
  have hst : h.Stands s.memo a r := by rwa [Heap.Sees, h.label_eq hb] at hs
  suffices hst' : h'.Stands s'.memo a r ∨ h'.Stands s'.memo a x ∧ h.Stands s.memo o r by
    simpa only [Heap.Sees, h.label_eq hb, h'.label_eq hb'] using hst'
  clear hs
  induction hst with
  | @stop c hstop =>
    rcases hmemo with hmemo | ⟨r₀, hmemo, hnone, hst₀, hf₀, hx⟩
    · exact .inl (.stop fun hf => hmemo ▸ hstop (hfrozen ha hf))
    · by_cases hcr : c = r₀
      · subst hcr
        have hcx : c ≠ x := fun he => Nat.lt_irrefl _ (hx ▸ he ▸ ha.lt_size)
        refine .inr ⟨.next (hfrozen' ha hf₀ (.inl hcx)) (hmemo ▸ Memo.get?_put_self x hnone) (.stop fun hf => ?_), hst₀⟩
        rw [hthawed] at hf
        cases hf
      · refine .inl (.stop fun hf => ?_)
        rw [hmemo, Memo.get?_put_of_ne _ _ hcr]
        exact hstop (hfrozen ha hf)
  | @next c d _ hf hget _ ih =>
    have hget' : s'.memo.get? c = some d := by
      rcases hmemo with hmemo | ⟨r₀, hmemo, hnone, -, -, -⟩
      · rwa [hmemo]
      · rwa [hmemo, Memo.get?_put_of_ne]
        rintro rfl
        rw [hnone] at hget
        cases hget
    have hf' := hfrozen' ha hf (.inr (by rw [hget]; nofun))
    exact (ih (hfits _ (Memo.mem_of_get? hget))).imp (.next hf' hget') (And.imp_left (.next hf' hget'))

end Heap.Got

theorem Link.bound_owned {link : Link} {t : CellId} (hl : Link.bound [l] link = .owned p) (ht : p.target = some t) :
    p.label = l ∧ ∃ q, link = .owned q ∧ q.target = some t := by
  cases link with
  | owned q =>
    obtain ⟨_ | o, l'⟩ := q
    · cases hl
      cases ht
    · cases hl
      exact ⟨rfl, _, rfl, ht⟩
  | weak w => cases hl
  | label l => cases hl

namespace Heap.Region

variable {S : CellId → Prop}

private theorem object_of_leaves (hreg : h.Region m W) (hv : h.Leaves S h') (hc : W c) (hS : S c)
    (hb : (h'.cell c).body = .object b) (hd : (h'.cell c).destroyed = false) : b.kind.rebinds = true ∧
    ∀ p t, .owned p ∈ b.links → p.target = some t → W t ∧ ((h'.cell c).frozen = false → p.label = .counted m) := by
  obtain ⟨b₀, hb₀⟩ := hreg.known c hc
  have hlt : c < h.size := Heap.IsObject.lt_size ⟨b₀, hb₀⟩
  have hd₀ : (h.cell c).destroyed = false := Bool.eq_false_iff.2 fun hd₀ => by
    rw [hv.destroyed c hlt hd₀] at hd
    cases hd
  obtain ⟨b', hb', hsame⟩ := hv.object c b₀ hS hb₀ hd
  cases hb.symm.trans hb'
  rw [hsame.kind, hsame.links, Cell.frozen_of_freezing (hv.freezing c hS hlt)]
  exact hreg.object c b₀ hc hb₀ hd₀

private theorem object_of_bound (hreg : h.Region m W) (hc : W c) (hb : (h.cell c).body = .object b)
    (hd : (h.cell c).destroyed = false) : ∀ p t, .owned p ∈ b.links.map (Link.bound [.counted m]) → p.target = some t →
      W t ∧ p.label = .counted m := fun p t hp ht => by
  obtain ⟨link, hlink, he⟩ := List.mem_map.1 hp
  obtain ⟨hl, q, rfl, hq⟩ := Link.bound_owned he ht
  exact ⟨((hreg.object c b hc hb hd).2 q t hlink hq).1, hl⟩

/-- Looking up an object of a region leaves a region, to which the result belongs. -/
theorem after (hreg : h.Region m W) (hg : h.Got (.counted m) o hold h' x) (ho : W o) (hgrows : h.Grows h')
    (hx : h'.IsObject x) (hfits : ∀ s, (h.cell m).body = .label s → ∀ e ∈ s.memo.entries, h.IsObject e.1)
    (hsees : ∃ r, h.Sees (.counted m) o r) (hseen : ∀ r, h.Sees (.counted m) o r → (h.cell r).destroyed = false) (hlt : m < h.size) (hm : (h'.cell m).destroyed = false) :
    h'.Region m fun c => W c ∨ c = x := by
  obtain ⟨s, hs, hun, hentries⟩ := hreg.label
  obtain ⟨r, hr⟩ := hsees
  have hplace : W x ∨ x = h.size := (hg.place hr).imp (fun he => by rw [he]; exact hreg.sees ho hr) And.right
  refine ⟨?_, fun c hc => hc.elim (fun hc => hgrows.object c (hreg.known c hc)) fun hc => hc ▸ hx, fun c b hc hb hd => ?_⟩
  · obtain ⟨s', hs', hun', hmemo⟩ := hg.label_after hs hlt hm
    refine ⟨s', hs', hun'.trans hun, fun e he hkey => ?_⟩
    have hold : e ∈ s.memo.entries → W e.2 := fun he => by
      rcases hkey with hkey | hkey
      · exact hentries e he hkey
      · rcases hplace with hw | hsize
        · exact hentries e he (hkey ▸ hw)
        · exact absurd (hfits s hs e he).lt_size (Nat.not_lt.2 (Nat.le_of_eq (hkey.trans hsize).symm))
    rcases hmemo with hmemo | ⟨r₀, hmemo, -⟩
    · exact .inl (hold (hmemo ▸ he))
    · rw [hmemo] at he
      rcases List.mem_append.1 he with he | he
      · exact .inl (hold he)
      · exact .inr (congrArg Prod.snd (List.mem_singleton.1 he))
  · have hleft : ∀ {S : CellId → Prop}, h.Leaves S h' → S c → W c → b.kind.rebinds = true ∧ ∀ p t, .owned p ∈ b.links →
        p.target = some t → (W t ∨ t = x) ∧ ((h'.cell c).frozen = false → p.label = .counted m) := fun hv hS hw =>
      (hreg.object_of_leaves hv hw hS hb hd).imp_right fun h p t hp ht => (h p t hp ht).imp_left .inl
    have hbound : ∀ {d b₀}, W d → (h.cell d).body = .object b₀ → (h.cell d).destroyed = false →
        b.links = b₀.links.map (Link.bound [.counted m]) → ∀ p t, .owned p ∈ b.links → p.target = some t →
          (W t ∨ t = x) ∧ ((h'.cell c).frozen = false → p.label = .counted m) := fun hw hb₀ hd₀ hl p t hp ht =>
      (hreg.object_of_bound hw hb₀ hd₀ p t (hl ▸ hp) ht).imp .inl fun h _ => h
    cases hg with
    | found _ _ hk =>
      refine hleft (S := fun _ => True) hk.leaves trivial (hc.elim id fun hc => ?_)
      rcases hplace with hw | hsize
      · exact hc ▸ hw
      · exact absurd (Nat.lt_of_lt_of_eq (Heap.IsObject.lt_size ⟨b, hb⟩) hk.size)
          (Nat.not_lt.2 (Nat.le_of_eq (hc.trans hsize).symm))
    | @recycled label _ _ y he _ _ hf hy hrec hv =>
      cases he
      by_cases hcx : c = x
      · subst hcx
        have hlt : c < h.size := Heap.IsObject.lt_size ⟨y, hy⟩
        have hw : W c := hplace.resolve_right (Nat.ne_of_lt hlt)
        have hd₀ : (h.cell c).destroyed = false := Bool.eq_false_iff.2 fun hd₀ => by
          rw [hv.destroyed c hlt hd₀] at hd
          cases hd
        have hy' : b = if y.kind.rebinds then y.bound [.counted m] else y :=
          Body.object.inj (hb.symm.trans (Cell.body_of_core hrec.core))
        rw [(hreg.object c y hw hy hd₀).1, if_pos rfl] at hy'
        subst hy'
        exact ⟨(hreg.object c y hw hy hd₀).1, hbound hw hy hd₀ (Object.links_bound _ _)⟩
      · exact hleft hv hcx (hc.resolve_right hcx)
    | @copied label seen _ _ y he hs hst hf hy hcopied _ _ hv =>
      cases he
      have hst : h.Sees (.counted m) o seen := by rwa [Heap.Sees, h.label_eq hs]
      have hlive : (h.cell seen).destroyed = false := hseen seen hst
      have hw : W seen := hreg.sees ho hst
      by_cases hcx : c = x
      · subst hcx
        have hy' : b = y.copyFor (.counted m) h.nextSerial := Body.object.inj (hb.symm.trans (Cell.body_of_core hcopied.core))
        subst hy'
        exact ⟨(hreg.object seen y hw hy hlive).1, hbound hw hy hlive (Object.links_copyFor _ _ _)⟩
      · refine hleft hv (fun hcm => ?_) (hc.resolve_right hcx)
        obtain ⟨b₀, hb₀⟩ := hreg.known c (hc.resolve_right hcx)
        rw [hcm, hs] at hb₀
        cases hb₀

end Heap.Region

/-- What looking an object up under a label comes to: the label sees the same from all objects of the region that are
still there, and from the result what it saw from that object. What it sees in the end is what it saw before, or a new
copy of it. -/
structure Heap.Echoes (h h' : Heap) (m : CellId) (W : CellId → Prop) (o x : CellId) : Prop where
  region : h'.Region m fun c => W c ∨ c = x
  thawed : (h'.cell x).frozen = false
  seen : ∀ a c, W a ∧ a = c ∨ a = o ∧ c = x → (h'.cell c).destroyed = false → ∃ r r' b b', W r ∧
    h.Sees (.counted m) a r ∧ h'.Sees (.counted m) c r' ∧ (h.cell r).body = .object b ∧ (h'.cell r').body = .object b' ∧
    (h.cell r).destroyed = false ∧ (h'.cell r').destroyed = false ∧ (r' = r ∨ (h.cell r).frozen = true ∧ h.size ≤ r') ∧ b.Resembles b'

theorem Heap.Region.echoes {manner manner' : Manner} {locks' : List Lock} {frame' ins ins' : List Task}
    (hreg : h.Region m W) (hg : h.Got (.counted m) o hold h' x) (ho : W o)
    (hh : Holding manner rules locks frame h ins) (hh' : Holding manner' rules locks' frame' h' ins') (hgrows : h.Grows h')
    (hm : h.Live m) (holive : h.Live o) (hm' : h'.Live m) (hx : h'.Live x) : h.Echoes h' m W o x := by
  obtain ⟨s, hs, hun, hentries⟩ := hreg.label
  have hfits := hh.fits_label hs
  obtain ⟨s', hs', -, hmemo⟩ := hg.label_after hs hm.lt_size hm'.destroyed
  have htotal : ∀ a, ∃ r, h.Sees (.counted m) a r := fun a => by
    obtain ⟨r, hr⟩ := h.exists_stands (fun e he => (hfits.entries e he).2.2) a
    exact ⟨r, by rwa [Heap.Sees, h.label_eq hs]⟩
  have hmem : ∀ {a r}, h.Sees (.counted m) a r → r = a ∨ r ∈ s.memo.copies := fun hr => by
    rw [Heap.Sees, h.label_eq hs] at hr
    exact hr.mem
  -- copies are there as long as the label is
  have hcopy : ∀ {r}, r ∈ s.memo.copies → h'.Live r := fun {r} hr => by
    refine hh'.safe.live_of_edge hm' (Heap.mem_edges_of_copy hs' ?_)
    rcases hmemo with hmemo | ⟨r₀, hmemo, -⟩
    · rwa [hmemo]
    · rw [hmemo, Memo.copies_put]
      exact List.mem_append_left _ hr
  have hseen : ∀ r, h.Sees (.counted m) o r → (h.cell r).destroyed = false := fun r hr => by
    rcases hmem hr with rfl | hr
    · exact holive.destroyed
    · exact (hh.safe.live_of_edge hm (Heap.mem_edges_of_copy hs hr)).destroyed
  have hsees' : ∀ r, h.Sees (.counted m) o r → h.IsObject r := fun r hr => hreg.known r (hreg.sees ho hr)
  obtain ⟨r₀, b₀, b₁, hr₀, hb₀, hb₁, hres, hthawed⟩ := hg.resembles hx hsees'
  have hthawed : (h'.cell x).frozen = false := Bool.eq_false_iff.2 fun hf => (hthawed hf).elim nofun nofun
  have hplace : x = r₀ ∨ (h.cell r₀).frozen = true ∧ h.size ≤ x := (hg.place hr₀).imp_right fun ⟨hf, he⟩ => ⟨hf, Nat.le_of_eq he.symm⟩
  refine ⟨hreg.after hg ho hgrows ⟨b₁, hb₁⟩ (fun s₁ hs₁ e he => ?_) (htotal o) hseen hm.lt_size hm'.destroyed, hthawed, ?_⟩
  · cases hs.symm.trans hs₁
    exact (hfits.entries e he).1
  rintro a c (⟨ha, rfl⟩ | ⟨rfl, rfl⟩) hd
  · obtain ⟨r, hr⟩ := htotal a
    have hwr := hreg.sees ha hr
    obtain ⟨b, hb⟩ := hreg.known r hwr
    rcases hg.sees_after hs hm.lt_size hm'.destroyed (fun e he => (hfits.entries e he).2.1) hthawed (hreg.known a ha) hr with
      hr' | ⟨hr', hor⟩
    · have hd' : (h'.cell r).destroyed = false := by
        rcases hmem hr with rfl | hr
        · exact hd
        · exact (hcopy hr).destroyed
      obtain ⟨b', hb', hmoved⟩ := hg.others hb hd'
      exact ⟨r, r, b, b', hwr, hr, hr', hb, hb', hg.live_before (Heap.IsObject.lt_size ⟨b, hb⟩) hd', hd', .inl rfl, hmoved.elim Object.Same.resembles fun h => h.2.2.2⟩
    · obtain rfl := hor.unique hr₀
      cases hb.symm.trans hb₀
      exact ⟨_, x, _, b₁, hwr, hr, hr', hb, hb₁, hseen _ hr₀, hx.destroyed, hplace, hres⟩
  · refine ⟨r₀, c, b₀, b₁, hreg.sees ho hr₀, hr₀, .stop fun hf => ?_, hb₀, hb₁, hseen _ hr₀, hd, hplace, hres⟩
    rw [hthawed] at hf
    cases hf

/-! ### Pulling within a region -/

variable {E : Fault → Prop}

namespace Pointer

theorem Pulls.got (hp : Pulls frame h h' p q) (ho : p.target = some o) (hl : p.label = .counted m)
    (hun : (h.label m).frozen = false) :
    ∃ x, q = ⟨some x, .counted m⟩ ∧ h.Got (.counted m) o ((Handle.counted m).tasks ++ frame) h' x := by
  have hself : ∀ c, (Handle.counted m).cell? = some c → (h.label c).frozen = false := fun c hc => by
    cases hc
    exact hun
  cases hp with
  | same hf hsame =>
    obtain ⟨_, _⟩ := p
    cases ho
    cases hl
    subst hsame
    have hun := hf o rfl
    refine ⟨o, rfl, .found (.stop fun hf => ?_) (fun _ _ => hun) (.refl _ _)⟩
    rw [hun] at hf
    cases hf
  | @moved k o' x l l' hf hforward _ hgot =>
    cases ho
    cases hl
    cases hforward with
    | stop hlead _ hk =>
      cases hlead.eq_of_unfrozen hself
      refine ⟨x, rfl, hgot.of_kept hk (fun t ht => ?_) (.source (.inl List.mem_cons_self)) fun t ht =>
        List.mem_append_left _ (.tail _ ht)⟩
      exact (List.mem_append.1 ht).elim (fun ht => List.mem_append_left _ (.tail _ ht)) (List.mem_append_right _)
    | fork hlead hm =>
      cases hlead.eq_of_unfrozen hself
      have := hm.frozen
      rw [← h.label_eq hm.body, hun] at this
      cases this

/-- A pointer that leads into a region leads into it after a pull, and the label sees what it saw. -/
theorem grasp_spec (hh : Holding (.sparing fun _ => False) {} locks frame h p.tasks) (hmemo : FieldLocks locks)
    (hp : p.Fits (fun _ => False) h) (hwait : h.Unwaiting E locks) (hreg : h.Region m W)
    (hW : ∀ o, p.target = some o → p.label = .counted m ∧ W o) :
    Ends E (p.grasp h) fun q k => Run (.sparing fun _ => False) {} locks frame h p.tasks k (q.2.toList.map .release ++ q.1.tasks) ∧
      q.1.Fits (fun _ => False) k ∧ (p.target = none ∧ q = (p, none) ∧ k = h ∨
        ∃ o x, p.target = some o ∧ q = (⟨some x, .counted m⟩, some x) ∧ h.Echoes k m W o x) := by
  unfold grasp
  refine .bind (pull_spec hh hmemo hp (fun _ => id) hwait (fun _ _ => ⟨id, id⟩) fun _ _ _ _ hf => hf.elim False.elim False.elim) ?_
  rintro ⟨q, y⟩ h₁ ⟨hpulls, hy, hfits, hr⟩
  have hy : y = q.target := hy
  subst hy
  cases ho : p.target with
  | none =>
    cases hpulls with
    | same _ hsame =>
      subst hsame
      rw [ho]
      exact .pure ⟨.refl _ _ _ _, hp, .inl ⟨rfl, rfl, rfl⟩⟩
    | moved _ _ _ _ => cases ho
  | some o =>
    obtain ⟨hl, hw⟩ := hW o ho
    obtain ⟨s, hs, hun, -⟩ := hreg.label
    obtain ⟨x, rfl, hgot⟩ := hpulls.got ho hl (by rw [h.label_eq hs]; exact hun)
    have hh₁ := hh.run hr
    have hhold : Holding (.sparing fun _ => False) {} locks (tasks ⟨some x, .counted m⟩ ++ frame) h₁ [] := hh₁.focus (.refl _)
    have hx : h₁.IsObject x := hfits.target x rfl
    refine .bind (borrow_spec hhold.calm (List.mem_append_right _ (List.mem_append_left _ List.mem_cons_self))
      (hhold.calm.object_ne_root hx)) fun _ k hr' => ?_
    have hk : h₁.Kept (tasks ⟨some x, .counted m⟩ ++ frame) k := hr'.keeps
    have hrun : Run (.sparing fun _ => False) {} locks frame h p.tasks k (.release x :: tasks ⟨some x, .counted m⟩) :=
      hr.trans hr'.relax.widen
    have hsub : ∀ t ∈ (Handle.counted m).tasks ++ frame, t ∈ tasks ⟨some x, .counted m⟩ ++ frame := fun t ht =>
      (List.mem_append.1 ht).elim (fun ht => List.mem_append_left _ (.tail _ ht)) (List.mem_append_right _)
    have hgot' : h.Got (.counted m) o ((Handle.counted m).tasks ++ frame) k x := hgot.keep hk hsub
      (List.mem_append_left _ List.mem_cons_self) fun t ht => List.mem_append_left _ (.tail _ ht)
    have hh' := hh.run hrun
    have hmem : ∀ t ∈ p.tasks, t ∈ p.tasks ++ frame := fun t ht => List.mem_append_left _ ht
    exact .pure ⟨hrun, hfits.grows hk.grows, .inr ⟨o, x, rfl, rfl, hreg.echoes hgot' hw hh hh' hrun.keeps.grows
      (hh.live (hmem _ (by simp [tasks, hl, Handle.tasks_counted]))) (hh.live (hmem _ (by simp [tasks, ho])))
      (hh'.live (by simp [tasks, Handle.tasks_counted])) (hh'.live (by simp))⟩⟩

end Pointer

theorem Link.grasp_spec {link : Link} (hh : Holding (.sparing fun _ => False) {} locks frame h link.tasks)
    (hmemo : FieldLocks locks) (hl : link.Fits (fun _ => False) h) (hwait : h.Unwaiting E locks) (hreg : h.Region m W)
    (hW : ∀ p o, link = .owned p → p.target = some o → p.label = .counted m ∧ W o) :
    Ends E (link.grasp h) fun y k => Run (.sparing fun _ => False) {} locks frame h link.tasks k (y.2.toList.map .release ++ y.1.tasks) ∧
      y.1.Fits (fun _ => False) k ∧ (link.target? = none ∧ y = (link, none) ∧ k = h ∨
        ∃ o x, link.target? = some o ∧ y = (.owned ⟨some x, .counted m⟩, some x) ∧ h.Echoes k m W o x) := by
  cases link with
  | owned p =>
    refine .bind (Pointer.grasp_spec hh hmemo hl hwait hreg fun o ho => hW p o rfl ho) ?_
    rintro q k ⟨hr, hfits, ⟨ho, rfl, rfl⟩ | ⟨o, x, ho, rfl, hecho⟩⟩
    · exact .pure ⟨hr, hfits, .inl ⟨ho, rfl, rfl⟩⟩
    · exact .pure ⟨hr, hfits, .inr ⟨o, x, ho, rfl, hecho⟩⟩
  | weak w => exact .pure ⟨.refl _ _ _ _, hl, .inl ⟨rfl, rfl, rfl⟩⟩
  | label l => exact .pure ⟨.refl _ _ _ _, hl, .inl ⟨rfl, rfl, rfl⟩⟩

theorem graspAt_spec {links : List Link} (hh : Holding (.sparing fun _ => False) {} locks frame h (links.flatMap Link.tasks))
    (hmemo : FieldLocks locks) (hlinks : ∀ l ∈ links, l.Fits (fun _ => False) h) (hwait : h.Unwaiting E locks)
    (hreg : h.Region m W) (hW : ∀ p o, .owned p ∈ links → p.target = some o → p.label = .counted m ∧ W o) :
    Ends E (graspAt links i h) fun y k => (∀ l ∈ y.1, l.Fits (fun _ => False) k) ∧
      Run (.sparing fun _ => False) {} locks frame h (links.flatMap Link.tasks) k (y.1.flatMap Link.tasks ++ y.2.toList.map .release) ∧
      ((links[i]?).bind Link.target? = none ∧ y = (links, none) ∧ k = h ∨ ∃ o x, (links[i]?).bind Link.target? = some o ∧
        y = (links.set i (.owned ⟨some x, .counted m⟩), some x) ∧ h.Echoes k m W o x) := by
  unfold graspAt
  cases hlink : links[i]? with
  | none => exact .pure ⟨hlinks, by simpa using Run.refl locks frame h _, .inl ⟨rfl, rfl, rfl⟩⟩
  | some link =>
    obtain ⟨hlt, rfl⟩ := List.getElem?_eq_some_iff.1 hlink
    have hmem : links[i] ∈ links := List.getElem_mem hlt
    have hsplit : links = links.take i ++ links[i] :: links.drop (i + 1) := by simp
    have hperm : (links.flatMap Link.tasks).Perm
        (links[i].tasks ++ (links.take i ++ links.drop (i + 1)).flatMap Link.tasks) := by
      conv_lhs => rw [hsplit]
      simp only [List.flatMap_append, List.flatMap_cons]
      exact List.perm_append_comm_assoc _ _ _
    refine .bind (Link.grasp_spec (hh.focus hperm) hmemo (hlinks _ hmem) hwait hreg fun p o hp ho => hW p o (hp ▸ hmem) ho)
      fun y k ⟨hr, hfits, hcases⟩ => ?_
    have hset : links.set i y.1 = links.take i ++ y.1 :: links.drop (i + 1) := by simp [List.set_eq_take_append_cons_drop, hlt]
    refine .pure ⟨fun l hl => ?_, hr.widen.perm hperm ?_, ?_⟩
    · rcases List.mem_or_eq_of_mem_set hl with hl | rfl
      · exact (hlinks l hl).grows hr.keeps.grows
      · exact hfits
    · rw [hset]
      simp only [List.flatMap_append, List.flatMap_cons, List.perm_iff_count, List.count_append]
      intro t
      omega
    · rcases hcases with ⟨ht, rfl, rfl⟩ | ⟨o, x, ht, rfl, hecho⟩
      · exact .inl ⟨ht, by simp, rfl⟩
      · exact .inr ⟨o, x, ht, rfl, hecho⟩

/-! ### Pulling under the lock of a field -/

variable {f g : Field}

theorem Object.targetAt_set {t : CellId} {idle : Bool} {name' : FieldName} {i' : Nat} (hf : b.field? name = some f)
    (ht : (f.links[i]?).bind Link.target? = some t) :
    (b.put ⟨name, idle, f.links.set i (.owned ⟨some x, l⟩)⟩).targetAt name' i' =
      if name' = name ∧ i' = i then some x else b.targetAt name' i' := by
  obtain rfl := name_of_field? hf
  obtain ⟨link, hlink, -⟩ := Option.bind_eq_some_iff.1 ht
  have hlt : i < f.links.length := (List.getElem?_eq_some_iff.1 hlink).1
  have hput : (b.put ⟨f.name, idle, f.links.set i (.owned ⟨some x, l⟩)⟩).field? f.name =
    some ⟨f.name, idle, f.links.set i (.owned ⟨some x, l⟩)⟩ := field?_put (f := ⟨f.name, _, _⟩) hf
  by_cases hn : name' = f.name
  · subst hn
    rw [targetAt, hput, targetAt, hf]
    by_cases hi : i' = i
    · subst hi
      rw [if_pos ⟨rfl, rfl⟩]
      exact congrArg (·.bind Link.target?) (List.getElem?_set_self hlt)
    · rw [if_neg fun h => hi h.2]
      exact congrArg (·.bind Link.target?) (List.getElem?_set_ne (Ne.symm hi))
  · have hother : (b.put ⟨f.name, idle, f.links.set i (.owned ⟨some x, l⟩)⟩).field? name' = b.field? name' := field?_put_of_ne hn
    rw [if_neg fun h => hn h.1, targetAt, hother, targetAt]

namespace Heap

theorem sees_putField (hb : (h.cell c).body = .object b) (hs : (h.cell m).body = .label s) :
    (h.putField c f).Sees (.counted m) a r ↔ h.Sees (.counted m) a r := by
  have hne : m ≠ c := fun he => by
    rw [he, hb] at hs
    cases hs
  have hs' : ((h.putField c f).cell m).body = .label s := by rwa [(h.putField_differs c f).others m hne]
  simp only [Sees, h.label_eq hs, (h.putField c f).label_eq hs']
  exact ⟨fun h => h.congr fun d => (putField_frozen hb d).symm, fun h => h.congr fun d => putField_frozen hb d⟩

theorem Region.putField (hreg : h.Region m W) (hb : (h.cell c).body = .object b) (hn : (b.fields.map (·.name)).Nodup)
    (hf : b.field? f.name = some g) (hlinks : ∀ p t, .owned p ∈ f.links → p.target = some t →
      W t ∧ ((h.cell c).frozen = false → p.label = .counted m)) : (h.putField c f).Region m W := by
  obtain ⟨s, hs, hun, hentries⟩ := hreg.label
  have hdiff := h.putField_differs c f
  have hmc : m ≠ c := fun he => by
    rw [he, hb] at hs
    cases hs
  refine ⟨⟨s, by rwa [hdiff.others m hmc], hun, hentries⟩, fun d hd => (putField_grows hb).object d (hreg.known d hd),
    fun d b' hd hb' hdest => ?_⟩
  rw [putField_frozen hb]
  by_cases hdc : d = c
  · subst hdc
    rw [putField_self hb] at hb' hdest
    cases hb'
    have hold := hreg.object d b hd hb hdest
    exact ⟨hold.1, fun p t hp ht => (Object.mem_links_put hn hf hp).elim (fun hp => hlinks p t hp ht) fun hp => hold.2 p t hp ht⟩
  · rw [hdiff.others d hdc] at hb' hdest
    exact hreg.object d b' hd hb' hdest

theorem live_of_targetAt {manner : Manner} {ins : List Task} (hh : Holding manner rules locks frame h ins)
    (hb : (h.cell c).body = .object b) (hd : (h.cell c).destroyed = false) (ht : b.targetAt name i = some d) :
    (h.cell d).destroyed = false :=
  (hh.safe.live_of_edge (hh.safe.live_of_not_destroyed rfl hd)
    (Heap.mem_edges_of_leadsTo hb (Object.leadsTo_of_targetAt ht))).destroyed

/-- Each object of a region is related to itself while it is there, and the old target of a pointer to the new one. -/
def Renews (h : Heap) (W : CellId → Prop) (t x a d : CellId) : Prop :=
  (W a ∧ a = d ∨ a = t ∧ d = x) ∧ (h.cell d).destroyed = false

theorem Region.renews {manner : Manner} {ins : List Task} {t : CellId} (hreg : h.Region m W) (hw : W r)
    (hb : (h.cell r).body = .object b) (hd : (h.cell r).destroyed = false) (ht : b.targetAt name i = some a)
    (hh : Holding manner rules locks frame h' ins) (hb' : (h'.cell c).body = .object b')
    (hd' : (h'.cell c).destroyed = false) (ht' : b'.targetAt name i = some a) : h'.Renews W t x a a := by
  obtain ⟨p, hp, htp⟩ := Object.leadsTo_of_targetAt ht
  exact ⟨.inl ⟨((hreg.object r b hw hb hd).2 p a hp htp).1, rfl⟩, live_of_targetAt hh hb' hd' ht'⟩

/-- Looking up an object of the region: the label sees the same from all objects of the region that are still there, and
from the result what it saw from what was looked up. -/
theorem Echoes.renews {manner : Manner} {ins : List Task} (hecho : h.Echoes k m W o x) (hreg : h.Region m W)
    (hh : Holding manner rules locks frame k ins) (ha : k.Renews W o x a d) : h.Matches k m (k.Renews W o x) a d := by
  obtain ⟨r, r', y, y', hw, hr, hr', hy, hy', hlive, hlive', -, hres⟩ := hecho.seen a d ha.1 ha.2
  refine ⟨r, r', y, y', hr, hr', hy, hy', hres.value, fun name i => ?_⟩
  have hsame : y'.targetAt name i = y.targetAt name i := hres.targetAt
  cases hold : y.targetAt name i with
  | none => exact .inl ⟨rfl, hsame.trans hold⟩
  | some t => exact .inr ⟨t, t, rfl, hsame.trans hold, hreg.renews hw hy hlive hold hh hy' hlive' (hsame.trans hold)⟩

/-- Looking up what a field of an object leads to, and putting the result into its place: the label sees the same from all
objects of the region that are still there, and from the result what it saw from the old target. -/
theorem Echoes.matches {manner : Manner} {ins : List Task} {t : CellId} {busy idle : Bool}
    (hecho : (h.putField c ⟨name, busy, []⟩).Echoes k m W t x) (hreg : h.Region m W)
    (hb : (h.cell c).body = .object b) (hun : (h.cell c).frozen = false) (hf : b.field? name = some f)
    (hbk : (k.cell c).body = .object (b.put ⟨name, busy, []⟩)) (ht : (f.links[i]?).bind Link.target? = some t)
    (he : h' = k.putField c ⟨name, idle, f.links.set i (.owned ⟨some x, .counted m⟩)⟩)
    (hh : Holding manner rules locks frame h' ins) (ha : h'.Renews W t x a d) : h.Matches h' m (h'.Renews W t x) a d := by
  obtain ⟨s, hs, -⟩ := hreg.label
  obtain ⟨s', hs', -⟩ := hecho.region.label
  have hdestroyed : ∀ d, (h'.cell d).destroyed = (k.cell d).destroyed := fun d => by
    by_cases hdc : d = c
    · rw [he, hdc, putField_self hbk]
      rfl
    · rw [he, (k.putField_differs c _).others d hdc]
  obtain ⟨r, r', y, y', hw, hr, hr', hy, hy', hlive, hlive', hor, hres⟩ := hecho.seen a d ha.1 ((hdestroyed d).symm.trans ha.2)
  have hr : h.Sees (.counted m) a r := (sees_putField hb hs).1 hr
  have hr' : h'.Sees (.counted m) d r' := by
    rw [he]
    exact (sees_putField hbk hs').2 hr'
  have hlive' : (h'.cell r').destroyed = false := (hdestroyed r').trans hlive'
  by_cases hrc : r = c
  · -- the object itself, which was not frozen
    have hrr : r' = r := hor.resolve_right fun ⟨hfr, _⟩ => by
      rw [putField_frozen hb, hrc, hun] at hfr
      cases hfr
    have hb' : (h'.cell r').body = .object (b.put ⟨name, idle, f.links.set i (.owned ⟨some x, .counted m⟩)⟩) := by
      rw [he, hrr, hrc, putField_body hbk]
      exact congrArg Body.object (Object.put_put rfl)
    have hb₀ : (h.cell r).body = .object b := hrc ▸ hb
    have hd₀ : (h.cell r).destroyed = false := by
      rw [hrc] at hlive ⊢
      rwa [putField_self hb] at hlive
    refine ⟨r, r', b, _, hr, hr', hb₀, hb', rfl, fun name' i' => ?_⟩
    have hnew : (b.put ⟨name, idle, f.links.set i (.owned ⟨some x, .counted m⟩)⟩).targetAt name' i' =
      if name' = name ∧ i' = i then some x else b.targetAt name' i' := Object.targetAt_set hf ht
    split at hnew
    · next hat =>
      refine .inr ⟨t, x, ?_, hnew, .inr ⟨rfl, rfl⟩, live_of_targetAt hh hb' hlive' hnew⟩
      rw [hat.1, hat.2, Object.targetAt, hf]
      exact ht
    · cases hold : b.targetAt name' i' with
      | none => exact .inl ⟨rfl, hnew.trans hold⟩
      | some t₁ => exact .inr ⟨t₁, t₁, rfl, hnew.trans hold, hreg.renews hw hb₀ hd₀ hold hh hb' hlive' (hnew.trans hold)⟩
  · have hrc' : r' ≠ c := fun hrc' => hor.elim (fun he => hrc (he ▸ hrc')) fun ⟨_, hsize⟩ => by
      rw [(h.putField_differs c _).size] at hsize
      exact absurd (Heap.IsObject.lt_size ⟨b, hb⟩) (Nat.not_lt.2 (hrc' ▸ hsize))
    rw [(h.putField_differs c _).others r hrc] at hy hlive
    have hy' : (h'.cell r').body = .object y' := by rwa [he, (k.putField_differs c _).others r' hrc']
    refine ⟨r, r', y, y', hr, hr', hy, hy', hres.value, fun name' i' => ?_⟩
    have hsame : y'.targetAt name' i' = y.targetAt name' i' := hres.targetAt
    cases hold : y.targetAt name' i' with
    | none => exact .inl ⟨rfl, hsame.trans hold⟩
    | some t₁ => exact .inr ⟨t₁, t₁, rfl, hsame.trans hold, hreg.renews hw hy hlive hold hh hy' hlive' (hsame.trans hold)⟩

end Heap

/-- A pull of a pointer in a field of an object that is not frozen leaves a region, and the label sees from the result what
it saw from the old target. -/
theorem graspField_spec (hh : Holding (.sparing fun _ => False) {} [] frame h []) (hb : (h.cell c).body = .object b)
    (hun : (h.cell c).frozen = false) (hreg : h.Region m W) (hc : W c) (hheld : .release c ∈ frame) :
    Ends E (graspField c name i h) fun found k =>
      Holding (.sparing fun _ => False) {} [] (found.toList.map .release ++ frame) k [] ∧
        (b.targetAt name i = none ∧ found = none ∨ ∃ t x, b.targetAt name i = some t ∧ found = some x ∧
          k.Region m (fun c => W c ∨ c = x) ∧ (k.cell x).frozen = false ∧ ∀ path v, k.Shows m path x v → h.Shows m path t v) := by
  have hfits := hh.safe.fits c
  rw [show (Moment.heap _).cell c = h.cell c from rfl, hb] at hfits
  unfold graspField
  refine .readCell_bind ?_
  rw [Cell.object?, hb, Option.bind_some]
  cases hf : b.field? name with
  | none =>
    simp only [Option.isNone_none, if_true]
    exact .pure ⟨hh, .inl ⟨by rw [Object.targetAt, hf]; rfl, rfl⟩⟩
  | some f =>
    simp only [Option.isNone_some, Bool.false_eq_true, if_false]
    -- no field is locked
    have hidle : f.locked = false := Bool.eq_false_iff.2 fun hl => by
      have hkey : some f.name ∈ ((Moment.heap ⟨h, [], [], [] ++ frame⟩).cell c).body.locks := by
        rw [show (Moment.heap _).cell c = h.cell c from rfl, hb]
        exact List.mem_map.2 ⟨f, List.mem_filter.2 ⟨Object.mem_of_field? hf, hl⟩, rfl⟩
      cases (hh.safe.locks c (some f.name)).1 hkey
    refine .bind (lockField_spec hb hfits.1 hf fun hl => ?_) ?_
    · rw [hidle] at hl
      cases hl
    rintro _ _ ⟨hunlocked, rfl, rfl⟩
    have hlive : (h.cell c).destroyed = false := (hh.live (List.mem_append_right _ hheld)).destroyed
    have hmid : (h.putField c ⟨name, true, []⟩).Region m W :=
      hreg.putField (f := ⟨name, true, []⟩) hb hfits.1 hf fun _ _ hp => absurd hp List.not_mem_nil
    have hlead : ∀ p t, .owned p ∈ f.links → p.target = some t → p.label = .counted m ∧ W t := fun p t hp ht =>
      have hold := (hreg.object c b hc hb hlive).2 p t (List.mem_flatMap.2 ⟨f, Object.mem_of_field? hf, hp⟩) ht
      ⟨hold.2 hun, hold.1⟩
    have hgrows : h.Grows (h.putField c ⟨name, true, []⟩) := Heap.putField_grows hb
    have hact : Holding (.sparing fun _ => False) {} [(c, some name)] frame (h.putField c ⟨name, true, []⟩)
        (f.links.flatMap Link.tasks) → Ends E (graspAt f.links i (h.putField c ⟨name, true, []⟩)) fun y k =>
          ((f.links[i]?).bind Link.target? = none ∧ y = (f.links, none) ∧ k = h.putField c ⟨name, true, []⟩ ∨
            ∃ o x, (f.links[i]?).bind Link.target? = some o ∧ y = (f.links.set i (.owned ⟨some x, .counted m⟩), some x) ∧
              (h.putField c ⟨name, true, []⟩).Echoes k m W o x) ∧ (∀ l ∈ y.1, l.Fits (fun _ => False) k) ∧
          Run (.sparing fun _ => False) {} [(c, some name)] frame (h.putField c ⟨name, true, []⟩) (f.links.flatMap Link.tasks) k
            (y.1.flatMap Link.tasks ++ y.2.toList.map .release) := fun hh₁ =>
      (graspAt_spec hh₁ (FieldLocks.nil.cons c name)
        (fun l hl => (hfits.2 l (List.mem_flatMap.2 ⟨f, Object.mem_of_field? hf, hl⟩)).grows hgrows)
        (.inr fun y hy => by rw [List.mem_singleton.1 hy, Heap.putField_frozen hb, hun]) hmid hlead).imp
          fun y k hy => ⟨hy.2.2, hy.1, hy.2.1⟩
    have hrework := hh.rework [] Prod.fst (fun y => y.2.toList.map Task.release) Prod.snd hb hf
      hunlocked (.held (.inl hheld)) ⟨id, fun hl => absurd hl Bool.false_ne_true⟩ (List.forall_mem_nil _)
      (List.forall_mem_nil _) (.of_eq (by simp)) hact fun _ => .refl _
    refine hrework.imp ?_
    rintro found h' ⟨y, k, hy, hcases, he, -, hkeeps, -, hsteps, -⟩
    have hh' : Holding (.sparing fun _ => False) {} [] (found.toList.map .release ++ frame) h' [] :=
      Safe.holding (by rw [hy]; exact (hh.safe.steps hsteps).1) (.refl _)
    refine ⟨hh', ?_⟩
    rcases hcases with ⟨ht, hyt, -⟩ | ⟨t, x, ht, hyt, hecho⟩
    · subst hyt
      exact .inl ⟨by rw [Object.targetAt, hf]; exact ht, hy⟩
    · subst hyt
      have hy : found = some x := hy
      subst hy
      have hbk : (k.cell c).body = .object (b.put ⟨name, true, []⟩) := by
        have hcore := hkeeps.core (c := c) (.held (.inl hheld)) ⟨_, Heap.putField_body hb⟩
        rw [Cell.body_of_core hcore, Heap.putField_body hb]
      have hx : (h'.cell x).destroyed = false := (hh'.live (by simp)).destroyed
      refine .inr ⟨t, x, by rw [Object.targetAt, hf]; exact ht, rfl, ?_, ?_, fun path v hv =>
        hv.back (fun a d ha => hecho.matches hreg hb hun hf hbk ht he hh' ha) ⟨.inr ⟨rfl, rfl⟩, hx⟩⟩
      · rw [he]
        refine hecho.region.putField hbk (by rw [Object.names_put]; exact hfits.1) (Object.field?_put (f := ⟨name, true, []⟩) hf)
          fun p d hp hd => ?_
        rcases List.mem_or_eq_of_mem_set hp with hp | hp
        · exact ⟨.inl (hlead p d hp hd).2, fun _ => (hlead p d hp hd).1⟩
        · cases hp
          exact ⟨.inr (Option.some.inj hd).symm, fun _ => rfl⟩
      · rw [he, Heap.putField_frozen hbk]
        exact hecho.thawed

/-! ### Values along paths -/

theorem Heap.sees_self (hun : (h.cell c).frozen = false) : h.Sees (.counted m) c c := .stop fun hf => by
  rw [hun] at hf
  cases hf

/-- What is read at the end of a path is what the label saw there before the path was followed. -/
theorem valueAlong_spec : ∀ (path : Path) {h : Heap} {frame : List Task} {W : CellId → Prop} {c : CellId},
    Holding (.sparing fun _ => False) {} [] frame h [] → h.Region m W → W c → (h.cell c).frozen = false → .release c ∈ frame →
    Ends E (valueAlong path c h) fun v k => Holding (.sparing fun _ => False) {} [] frame k [] ∧ h.Shows m path c v
  | [], h, frame, W, c, hh, hreg, hc, hun, _ => by
    obtain ⟨b, hb⟩ := hreg.known c hc
    refine .readCell_bind (.pure ⟨hh, ?_⟩)
    rw [Cell.object?, hb]
    exact .value (Heap.sees_self hun) hb
  | (name, i) :: path, h, frame, W, c, hh, hreg, hc, hun, hheld => by
    obtain ⟨b, hb⟩ := hreg.known c hc
    refine .bind (graspField_spec hh hb hun hreg hc hheld) ?_
    rintro found k ⟨hk, ⟨ht, rfl⟩ | ⟨t, x, ht, rfl, hreg', hun', hback⟩⟩
    · exact .pure ⟨hk, .absent (Heap.sees_self hun) hb ht⟩
    · refine .bind (valueAlong_spec path hk hreg' (.inr rfl) hun' List.mem_cons_self) ?_
      rintro v k' ⟨hk', hv⟩
      have hr : Holding (.sparing fun _ => False) {} [] frame k' [.release x] := hk'.safe.holding (.refl _)
      refine .bind (release_spec hr.calm) fun _ k'' hr' => .pure ⟨hr.run hr'.relax, ?_⟩
      exact .step (Heap.sees_self hun) hb ht (hback path v hv)

theorem Pointer.valueAlong_spec (path : Path) (hh : Holding (.sparing fun _ => False) {} [] frame h p.tasks)
    (hp : p.Fits (fun _ => False) h) (hreg : h.Region m W) (hW : ∀ o, p.target = some o → p.label = .counted m ∧ W o) :
    Ends E (p.valueAlong path h) fun a _ => p.target = none ∧ a.2 = none ∨ ∃ o, p.target = some o ∧ h.Shows m path o a.2 := by
  unfold valueAlong
  refine .bind (grasp_spec hh .nil hp (.inr (List.forall_mem_nil _)) hreg hW) ?_
  rintro q k ⟨hr, -, ⟨ho, rfl, -⟩ | ⟨o, x, ho, rfl, hecho⟩⟩
  · exact .pure (.inl ⟨ho, rfl⟩)
  · have hh' := hh.run hr
    have hhold : Holding (.sparing fun _ => False) {} [] (.release x :: tasks ⟨some x, .counted m⟩ ++ frame) k [] :=
      hh'.safe.holding (.refl _)
    refine .bind (LazyHeap.valueAlong_spec path hhold hecho.region (.inr rfl) hecho.thawed List.mem_cons_self)
      fun v k' ⟨hk', hv⟩ => ?_
    have hlast : Holding (.sparing fun _ => False) {} [] (tasks ⟨some x, .counted m⟩ ++ frame) k' [.release x] :=
      hk'.safe.holding (.refl _)
    refine .bind (release_spec hlast.calm) fun _ k'' _ => .pure (.inr ⟨o, ho, ?_⟩)
    exact hv.back (fun a d ha => hecho.renews hreg hh' ha) ⟨.inr ⟨rfl, rfl⟩, (hh'.live (by simp)).destroyed⟩

end LazyHeap
