import LazyHeap.Proofs.Completing
import LazyHeap.Proofs.Session.Paths

/-!
Copies of a graph. A label that may still change, and has no copies of a frozen graph yet, makes one copy of each of its
objects when a pointer to the graph is finished, however the graph is shared and wherever it goes round; and the copies
lead to each other as the objects do.
-/
namespace LazyHeap

variable {manner : Manner} {rules : Rules} {locks : List Lock} {frame : List Task} {h k k' : Heap} {seen stack rest : List CellId}
variable {c d m o r t : CellId} {a a' : Memo} {b b' b'' : Object} {p q : Pointer} {E : Fault → Prop}
variable {R R' : Link → Link → Prop}

/-! ### Objects that mirror each other -/

/-- Objects of one kind with one value and the same fields, each with as many links, which are related one by one. -/
structure Object.Mirrors (R : Link → Link → Prop) (b b' : Object) : Prop where
  kind : b'.kind = b.kind
  value : b'.value = b.value
  contents : List.Forall₂ (fun f g => g.1 = f.1 ∧ List.Forall₂ R f.2 g.2) b.contents b'.contents

namespace Object

theorem Mirrors.imp (hm : b.Mirrors R b') (hR : ∀ l l', R l l' → R' l l') : b.Mirrors R' b' :=
  ⟨hm.kind, hm.value, hm.contents.imp fun _ _ hf => ⟨hf.1, hf.2.imp hR⟩⟩

theorem Settled.mirrors (hs : b.Settled R b') : b.Mirrors R b' := ⟨hs.kind, hs.value, hs.contents⟩

theorem Same.mirrors (hs : b.Same b') (hR : ∀ l, R l l) : b.Mirrors R b' :=
  ⟨hs.kind, hs.value, hs.contents ▸ List.forall₂_same.2 fun _ _ => ⟨rfl, List.forall₂_same.2 fun l _ => hR l⟩⟩

theorem Same.mirrors_copyFor {l : Handle} {serial : Nat} (hs : b.Same b') :
    b.Mirrors (fun link link' => link' = link.bound [l]) (b'.copyFor l serial) := by
  refine ⟨hs.kind, hs.value, ?_⟩
  have hcontents : (b'.copyFor l serial).contents = b.contents.map fun f => (f.1, f.2.map (Link.bound [l])) := by
    rw [← hs.contents]
    simp [copyFor, bound, Object.contents]
  rw [hcontents, List.forall₂_map_right_iff]
  exact List.forall₂_same.2 fun f _ => ⟨rfl, List.forall₂_map_right_iff.2 (List.forall₂_same.2 fun _ _ => rfl)⟩

end Object

theorem forall₂_comp {α β γ : Type} {P : α → β → Prop} {Q : β → γ → Prop} {xs : List α} {ys : List β} {zs : List γ}
    (hp : List.Forall₂ P xs ys) (hq : List.Forall₂ Q ys zs) : List.Forall₂ (Relation.Comp P Q) xs zs := by
  induction hp generalizing zs with
  | nil => cases hq; exact .nil
  | cons hp _ ih =>
    obtain _ | ⟨hq, hqs⟩ := hq
    exact .cons ⟨_, hp, hq⟩ (ih hqs)

namespace Object

theorem Mirrors.trans (hm : b.Mirrors R b') (hm' : b'.Mirrors R' b'') : b.Mirrors (Relation.Comp R R') b'' where
  kind := hm'.kind.trans hm.kind
  value := hm'.value.trans hm.value
  contents := (forall₂_comp hm.contents hm'.contents).imp fun _ _ ⟨_, hf, hg⟩ => ⟨hg.1.trans hf.1, forall₂_comp hf.2 hg.2⟩

theorem Mirrors.link {link' : Link} (hm : b.Mirrors R b') (hl : link' ∈ b'.links) : ∃ link ∈ b.links, R link link' := by
  rw [links_eq_contents] at hl ⊢
  obtain ⟨g, hg, hl⟩ := List.mem_flatMap.1 hl
  obtain ⟨f, hf, -, hfg⟩ := forall₂_exists_left hm.contents hg
  obtain ⟨link, hlink, hR⟩ := forall₂_exists_left hfg hl
  exact ⟨link, List.mem_flatMap.2 ⟨f, hf, hlink⟩, hR⟩

theorem Mirrors.targets (hm : b.Mirrors R b') (hR : ∀ l l', R l l' → l'.target? = l.target?) :
    b'.links.filterMap Link.target? = b.links.filterMap Link.target? := by
  have hlinks : ∀ {ls ls' : List Link}, List.Forall₂ R ls ls' → ls'.filterMap Link.target? = ls.filterMap Link.target? := fun hl => by
    induction hl with
    | nil => rfl
    | cons hl _ ih => rw [List.filterMap_cons, List.filterMap_cons, hR _ _ hl, ih]
  rw [links_eq_contents, links_eq_contents]
  have hcontents := hm.contents
  generalize b.contents = fs, b'.contents = gs at hcontents
  induction hcontents with
  | nil => rfl
  | cons hf _ ih => rw [List.flatMap_cons, List.flatMap_cons, List.filterMap_append, List.filterMap_append, hlinks hf.2, ih]

end Object

/-- Links of one sort that lead to related objects, or nowhere both. -/
def Link.Mirrors (S : CellId → CellId → Prop) : Link → Link → Prop
  | .owned p, .owned q => Option.Rel S p.target q.target
  | link, link' => link'.bare = link.bare

/-- Links of which one leads somewhere if the other does, and that mirror each other as soon as they lead to related
objects. -/
structure Link.Akin (link link' : Link) : Prop where
  isSome : link.target?.isSome = link'.target?.isSome
  mirrors : ∀ S, Option.Rel S link.target? link'.target? → link.Mirrors S link'

namespace Link

variable {S S' : CellId → CellId → Prop} {link link' : Link}

theorem Mirrors.imp (hm : link.Mirrors S link') (hS : ∀ c d, S c d → S' c d) : link.Mirrors S' link' := by
  have hrel : ∀ {x y : Option CellId}, Option.Rel S x y → Option.Rel S' x y
    | _, _, .none => .none
    | _, _, .some hcd => .some (hS _ _ hcd)
  cases link <;> cases link' <;> first | exact hrel hm | exact hm

theorem Mirrors.target? (hm : link.Mirrors S link') : Option.Rel S link.target? link'.target? := by
  cases link <;> cases link' <;> first | exact hm | exact .none | cases hm

theorem Mirrors.of_bound {scopes : List Handle} (hm : (link.bound scopes).Mirrors S link') : link.Mirrors S link' := by
  cases link with
  | owned p => obtain ⟨_ | t, l⟩ := p <;> cases scopes <;> cases link' <;> exact hm
  | weak w =>
    have hb : (Link.weak w).bare = (Link.bound scopes (.weak w)).bare := (bare_bound scopes (.weak w)).symm
    cases link' with
    | owned _ => cases (hm : _ = _)
    | _ => exact (hm : _ = _).trans hb.symm
  | label l => cases link' <;> exact hm

end Link

namespace Link.Pulls

variable {hold : List Task} {link y : Link}

theorem of_target?_none (hp : link.Pulls hold k k' y) (ht : link.target? = none) : y = link ∧ k' = k := by
  cases link with
  | owned p =>
    cases y with
    | owned q =>
      cases (hp : Pointer.Pulls hold k k' p q) with
      | same _ hk => exact ⟨rfl, hk⟩
      | moved => cases ht
    | _ => cases hp.1
  | _ => exact hp

theorem owned (hp : (Link.owned p).Pulls hold k k' y) : ∃ q, y = .owned q ∧ Pointer.Pulls hold k k' p q := by
  cases y with
  | owned q => exact ⟨q, rfl, hp⟩
  | _ => cases hp.1

theorem akin (hp : link.Pulls hold k k' y) : link.Akin y := by
  cases link with
  | owned p =>
    obtain ⟨q, rfl, hp⟩ := hp.owned
    exact ⟨by cases hp <;> rfl, fun S hS => hS⟩
  | _ =>
    obtain ⟨rfl, -⟩ := hp
    exact ⟨rfl, fun S _ => rfl⟩

end Link.Pulls

/-! ### Related lists of targets -/

/-- If those of two lists that lead somewhere stand in the same places, and lead to related objects, then they are related one
by one. -/
theorem forall₂_of_filterMap {α β : Type} {S : CellId → CellId → Prop} {f : α → Option CellId} {g : β → Option CellId}
    {xs : List α} {ys : List β} {cs ds : List CellId} (hsome : List.Forall₂ (fun x y => (f x).isSome = (g y).isSome) xs ys)
    (hS : List.Forall₂ S (xs.filterMap f ++ cs) (ys.filterMap g ++ ds)) :
    List.Forall₂ (fun x y => Option.Rel S (f x) (g y)) xs ys ∧ List.Forall₂ S cs ds := by
  induction hsome with
  | nil => exact ⟨.nil, hS⟩
  | @cons x y xs ys hxy _ ih =>
    cases hx : f x with
    | none =>
      have hy : g y = none := by simpa [hx] using hxy.symm
      rw [List.filterMap_cons_none hx, List.filterMap_cons_none hy] at hS
      exact ⟨.cons (by rw [hx, hy]; exact .none) (ih hS).1, (ih hS).2⟩
    | some c =>
      obtain ⟨d, hy⟩ := Option.isSome_iff_exists.1 (hxy.symm.trans (by rw [hx]; rfl))
      rw [List.filterMap_cons_some hx, List.filterMap_cons_some hy] at hS
      obtain _ | ⟨hcd, hS⟩ := hS
      exact ⟨.cons (by rw [hx, hy]; exact .some hcd) (ih hS).1, (ih hS).2⟩

theorem forall₂_of_flatMap {γ α β : Type} {S : CellId → CellId → Prop} {f : α → Option CellId} {g : β → Option CellId}
    {fs : List γ} {X : γ → List α} {Y : γ → List β}
    (hsome : ∀ i ∈ fs, List.Forall₂ (fun x y => (f x).isSome = (g y).isSome) (X i) (Y i))
    (hS : List.Forall₂ S ((fs.flatMap X).filterMap f) (fs.flatMap fun i => (Y i).filterMap g)) :
    ∀ i ∈ fs, List.Forall₂ (fun x y => Option.Rel S (f x) (g y)) (X i) (Y i) := by
  induction fs with
  | nil => exact nofun
  | cons j fs ih =>
    rw [List.flatMap_cons, List.flatMap_cons, List.filterMap_append] at hS
    obtain ⟨hj, hS⟩ := forall₂_of_filterMap (hsome j List.mem_cons_self) hS
    intro i hi
    rcases List.mem_cons.1 hi with rfl | hi
    · exact hj
    · exact ih (fun i hi => hsome i (.tail _ hi)) hS i hi

/-! ### Graphs that a label has not copied yet -/

namespace Heap

/-- An object to which one pointer leads at most, of those in a graph and the one to its root. -/
structure Single (h : Heap) (o t : CellId) : Prop where
  root : t = o → ∀ x b, h.LeadsTo o x → (h.cell x).body = .object b → ¬ b.LeadsTo t
  same : ∀ x y b b', h.LeadsTo o x → h.LeadsTo o y → (h.cell x).body = .object b → (h.cell y).body = .object b' →
    b.LeadsTo t → b'.LeadsTo t → x = y
  once : ∀ x b, h.LeadsTo o x → (h.cell x).body = .object b → (b.links.filterMap Link.target?).count t ≤ 1

/-- A graph of frozen objects, none of which is a leaf, and a label that may change and has no copies of them. To what had
one owner when it was frozen, one pointer leads at most. -/
structure Portrait (h : Heap) (m o : CellId) : Prop where
  known : m < h.size
  label : ∃ s, (h.cell m).body = .label s ∧ s.frozen = false ∧ ∀ c, h.LeadsTo o c → s.memo.get? c = none
  object : ∀ c, h.LeadsTo o c → (h.cell c).frozen = true ∧ ∃ b, (h.cell c).body = .object b ∧ b.kind ≠ .leaf
  single : ∀ c, h.LeadsTo o c → (h.cell c).flags.frozenSole = true → h.Single o c

/-- The copies that a label has made of a graph: one of each object, in a new cell. All of them but those of objects that had
one owner when they were frozen are in the label's memo. -/
structure Replicas (h : Heap) (m o : CellId) (a : Memo) (k : Heap) : Prop where
  leaves : h.Leaves (fun c => c < h.size ∧ c ≠ m) k
  label : ∃ s, (k.cell m).body = .label s ∧ s.frozen = false ∧ ∀ c, h.LeadsTo o c →
    (∀ r, s.memo.get? c = some r → (c, r) ∈ a.entries) ∧
    ∀ r, (c, r) ∈ a.entries → s.memo.get? c = some r ∨ (h.cell c).flags.frozenSole = true
  sources : (a.entries.map (·.1)).Nodup
  copies : a.copies.Nodup
  entry : ∀ e ∈ a.entries, h.LeadsTo o e.1 ∧ h.size ≤ e.2 ∧ k.IsObject e.2 ∧ (k.cell e.2).frozen = false

/-- A copy whose pointers lead to the objects to which those of its source lead. -/
def Untouched (h : Heap) (m : CellId) (e : CellId × CellId) (k : Heap) : Prop :=
  ∃ b b', (h.cell e.1).body = .object b ∧ (k.cell e.2).body = .object b' ∧
    b.Mirrors (fun l l' => l' = l.bound [.counted m]) b'

theorem leaves_putField (k : Heap) (hobj : k.IsObject c) (g : Field) : k.Leaves (· ≠ c) (k.putField c g) where
  size := Nat.le_of_eq (k.putField_differs c g).size.symm
  destroyed d _ hd := by
    obtain ⟨b, hb⟩ := hobj
    by_cases hdc : d = c
    · rw [hdc, putField_self hb]
      exact hdc ▸ hd
    · rwa [(k.putField_differs c g).others d hdc]
  freezing d hdc _ := by rw [(k.putField_differs c g).others d hdc]
  object d b hdc hb _ := ⟨b, by rwa [(k.putField_differs c g).others d hdc], .refl b⟩
  label d l hdc _ hl _ := ⟨l, by rwa [(k.putField_differs c g).others d hdc], .refl l⟩

theorem notMem_entries_empty (e : CellId × CellId) : e ∉ Memo.empty.entries := List.not_mem_nil

namespace Portrait

theorem ne_label (hp : h.Portrait m o) (hc : h.LeadsTo o c) : c < h.size ∧ c ≠ m := by
  obtain ⟨-, b, hb, -⟩ := hp.object c hc
  obtain ⟨s, hs, -⟩ := hp.label
  refine ⟨IsObject.lt_size ⟨b, hb⟩, fun he => ?_⟩
  rw [he, hs] at hb
  cases hb

theorem replicas (hp : h.Portrait m o) : h.Replicas m o .empty h where
  leaves := .refl _ h
  label := by
    obtain ⟨s, hs, hf, hnone⟩ := hp.label
    refine ⟨s, hs, hf, fun c hc => ⟨fun r hr => ?_, fun r hr => nomatch hr⟩⟩
    rw [hnone c hc] at hr
    cases hr
  sources := List.nodup_nil
  copies := List.nodup_nil
  entry e he := absurd he (notMem_entries_empty e)

end Portrait

namespace Replicas

variable {hold : List Task}

/-- What leaves alone all but the label, and the label's entries as well, leaves the copies as they are. -/
theorem keep (hr : h.Replicas m o a k) (hlt : m < h.size) (hl : k.Leaves (fun _ => True) k') (hg : k.Grows k')
    (hm : (k'.cell m).destroyed = false) : h.Replicas m o a k' where
  leaves := hr.leaves.trans (hl.subset fun _ _ => trivial)
  label := by
    obtain ⟨s, hs, hf, hentries⟩ := hr.label
    obtain ⟨s', hs', hsame⟩ := hl.label m s trivial (Nat.lt_of_lt_of_le hlt hr.leaves.size) hs hm
    exact ⟨s', hs', hsame.frozen.trans hf, hsame.memo ▸ hentries⟩
  sources := hr.sources
  copies := hr.copies
  entry e he := by
    obtain ⟨hlead, hle, hobj, hun⟩ := hr.entry e he
    exact ⟨hlead, hle, hg.object _ hobj, (hl.frozen trivial hobj.lt_size).trans hun⟩

/-- Resolving a pointer to an object of the graph comes to its copy, which is made if there is none yet. -/
theorem pull (hr : h.Replicas m o a k) (hp : h.Portrait m o) (hh : Holding manner rules locks frame k (Pointer.tasks ⟨some t, .counted m⟩))
    (hrun : Run manner rules locks frame k (Pointer.tasks ⟨some t, .counted m⟩) k' q.tasks) (hfixed : rules.fixed t)
    (ht : h.LeadsTo o t) (hnew : (h.cell t).flags.frozenSole = true → ∀ r, (t, r) ∉ a.entries)
    (hpull : Pointer.Pulls frame k k' ⟨some t, .counted m⟩ q) :
    ∃ r, q = ⟨some r, .counted m⟩ ∧ k.Leaves (fun d => d ≠ m) k' ∧ ((t, r) ∈ a.entries ∧ h.Replicas m o a k' ∨
      k.size ≤ r ∧ h.Replicas m o (a.put t r) k' ∧ h.Untouched m (t, r) k') := by
  obtain ⟨s, hs, hun, hentries⟩ := hr.label
  obtain ⟨r, rfl, hgot⟩ := hpull.got rfl rfl ((k.label_eq hs) ▸ hun)
  obtain ⟨hlt, hne⟩ := hp.ne_label ht
  obtain ⟨hfrozen, b, hb, -⟩ := hp.object t ht
  have hfrozenk : (k.cell t).frozen = true := (hr.leaves.frozen ⟨hlt, hne⟩ hlt).trans hfrozen
  have hlive : k.Live t := hh.live (List.mem_append_left _ List.mem_cons_self)
  have hh' := hh.run hrun
  have hm' : k'.Live m := hh'.live (List.mem_append_left _ (List.mem_cons_of_mem _ List.mem_cons_self))
  have hget := hentries t ht
  -- what the memo has for the object is a copy, at which the walk ends
  have hstop : ∀ {r₁ x}, s.memo.get? t = some r₁ → k.Stands s.memo t x → x = r₁ ∧ (k.cell x).frozen = false := fun {r₁ x} hg hx => by
    obtain ⟨-, -, -, hun₁⟩ := hr.entry _ (hget.1 r₁ hg)
    have hst : k.Stands s.memo t r₁ := .next hfrozenk hg (.stop fun hf => nomatch hun₁.symm.trans hf)
    cases hx.unique hst
    exact ⟨rfl, hun₁⟩
  have hself : ∀ {x}, s.memo.get? t = none → k.Stands s.memo t x → x = t := fun {x} hg hx => hx.unique (.stop fun _ => hg)
  refine ⟨r, rfl, ?_⟩
  cases hgot with
  | found hsees hun' hk =>
    have hst : k.Stands s.memo t r := by
      rw [Sees, k.label_eq hs] at hsees
      exact hsees
    refine ⟨hk.leaves, .inl ⟨?_, hr.keep hp.known hk.leaves hrun.keeps.grows hm'.destroyed⟩⟩
    cases hg : s.memo.get? t with
    | none =>
      have hun₂ := hun' m rfl
      rw [hself hg hst, hfrozenk] at hun₂
      cases hun₂
    | some r₁ =>
      obtain ⟨rfl, -⟩ := hstop hg hst
      exact hget.1 r hg
  | @recycled label _ s' x hl hs' hst hf hx hrec _ =>
    cases hl
    cases hs.symm.trans hs'
    cases hg : s.memo.get? t with
    | some r₁ =>
      obtain ⟨-, hun₁⟩ := hstop hg hst
      rw [hf] at hun₁
      cases hun₁
    | none =>
      -- the object is left as it is, so it is not recycled
      cases hself hg hst
      have hthawed : (k'.cell t).frozen = false := Cell.frozen_of_core hrec.core
      have hlasts : k.Lasts rules.fixed k' := (Course.of_same hrun.steps).lasts hh.safe.toFirm
      rw [hlasts.frozen hfixed hlive.lt_size, hfrozenk] at hthawed
      cases hthawed
  | @copied label seen _ s' x hl hs' hst hf hx hcopied _ hentered hleaves =>
    cases hl
    cases hs.symm.trans hs'
    refine ⟨hleaves, .inr ?_⟩
    cases hg : s.memo.get? t with
    | some r₁ =>
      obtain ⟨-, hun₁⟩ := hstop hg hst
      rw [hf] at hun₁
      cases hun₁
    | none =>
      cases hself hg hst
      obtain ⟨b₁, hb₁, hsame⟩ := hr.leaves.object t b ⟨hlt, hne⟩ hb hlive.destroyed
      cases hx.symm.trans hb₁
      have hbody : (k'.cell r).body = .object (x.copyFor (.counted m) k.nextSerial) := (congrArg Cell.body hcopied.core :)
      have hnone : ∀ r, (t, r) ∉ a.entries := fun r₁ he => by
        rcases (hget.2 r₁ he) with hg' | hsole
        · rw [hg] at hg'
          cases hg'
        · exact hnew hsole r₁ he
      have hnew' : r ∉ a.copies := fun hr' => by
        obtain ⟨e, he, her⟩ := List.mem_map.1 hr'
        have hlt : e.2 < k.size := (hr.entry e he).2.2.1.lt_size
        rw [her, hcopied.new] at hlt
        exact Nat.lt_irrefl _ hlt
      refine ⟨Nat.le_of_eq hcopied.new.symm, ⟨hr.leaves.trans (hleaves.subset fun _ hc => hc.2), ?_, ?_, ?_, fun e he => ?_⟩, ?_⟩
      · -- the copy has an entry in the label, unless its source had one owner
        have hput : ∀ {c r₁}, c ≠ t → ((c, r₁) ∈ (a.put t r).entries ↔ (c, r₁) ∈ a.entries) := fun {c r₁} hc => by
          simp [Memo.put, hc]
        have hself : ∀ {r₁}, (t, r₁) ∈ (a.put t r).entries ↔ r₁ = r := fun {r₁} => by simp [Memo.put, hnone]
        rcases hentered with ⟨hsole, hbody⟩ | ⟨-, hbody⟩
        · refine ⟨s, hbody, hun, fun c hc => ?_⟩
          by_cases hct : c = t
          · subst hct
            refine ⟨fun r₁ hr₁ => ?_, fun r₁ _ => .inr ((sole_of_freezing (hr.leaves.freezing c ⟨hlt, hne⟩ hlt)).symm.trans hsole)⟩
            rw [hg] at hr₁
            cases hr₁
          · simpa only [hput hct] using hentries c hc
        · refine ⟨_, hbody, hun, fun c hc => ?_⟩
          by_cases hct : c = t
          · subst hct
            rw [Memo.get?_put_self r hg]
            exact ⟨fun r₁ hr₁ => hself.2 (Option.some.inj hr₁).symm, fun r₁ hr₁ => .inl (congrArg some (hself.1 hr₁).symm)⟩
          · simpa only [hput hct, Memo.get?_put_of_ne s.memo r hct] using hentries c hc
      · rw [Memo.put, List.map_append, List.nodup_append]
        refine ⟨hr.sources, List.nodup_singleton _, fun c hc d hd hcd => ?_⟩
        obtain ⟨e, he, rfl⟩ := List.mem_map.1 hc
        have het : e.1 = t := hcd.trans (List.mem_singleton.1 hd)
        exact hnone e.2 (het ▸ he)
      · rw [Memo.copies_put, List.nodup_append]
        refine ⟨hr.copies, List.nodup_singleton _, fun c hc d hd hcd => ?_⟩
        rw [List.mem_singleton.1 hd] at hcd
        exact hnew' (hcd ▸ hc)
      · rcases List.mem_append.1 he with he | he
        · obtain ⟨hlead, hle, hobj, hun₁⟩ := hr.entry e he
          have hem : e.2 ≠ m := fun hem => by
            obtain ⟨b₂, hb₂⟩ := hobj
            rw [hem, hs] at hb₂
            cases hb₂
          exact ⟨hlead, hle, hrun.keeps.grows.object _ hobj, (hleaves.frozen hem hobj.lt_size).trans hun₁⟩
        · rw [List.mem_singleton.1 he]
          exact ⟨ht, hcopied.new ▸ hr.leaves.size, ⟨_, hbody⟩, (congrArg Cell.frozen hcopied.core :)⟩
      · exact ⟨b, _, hb, hbody, hsame.mirrors_copyFor⟩

theorem ne_label (hr : h.Replicas m o a k) {e : CellId × CellId} (he : e ∈ a.entries) : e.2 ≠ m := fun hem => by
  obtain ⟨b, hb⟩ := (hr.entry e he).2.2.1
  obtain ⟨s, hs, -⟩ := hr.label
  rw [hem, hs] at hb
  cases hb

theorem entry_inj (hr : h.Replicas m o a k) {e e' : CellId × CellId} (he : e ∈ a.entries) (he' : e' ∈ a.entries)
    (heq : e.1 = e'.1 ∨ e.2 = e'.2) : e = e' :=
  heq.elim (List.inj_on_of_nodup_map hr.sources he he') (List.inj_on_of_nodup_map hr.copies he he')

theorem putField (hr : h.Replicas m o a k) (hobj : k.IsObject c) (hc : h.size ≤ c) (g : Field) :
    h.Replicas m o a (k.putField c g) where
  leaves := hr.leaves.trans ((k.leaves_putField hobj g).subset fun _ hd he => Nat.not_le_of_lt hd.1 (he ▸ hc))
  label := by
    obtain ⟨s, hs, hrest⟩ := hr.label
    obtain ⟨b, hb⟩ := hobj
    refine ⟨s, ?_, hrest⟩
    rwa [(k.putField_differs c g).others m fun he => by rw [he, hb] at hs; cases hs]
  sources := hr.sources
  copies := hr.copies
  entry e he := by
    obtain ⟨hlead, hle, hcopy, hun⟩ := hr.entry e he
    obtain ⟨b, hb⟩ := hobj
    exact ⟨hlead, hle, (putField_grows hb).object _ hcopy, (putField_frozen hb _).trans hun⟩

end Replicas

theorem Untouched.leaves {S : CellId → Prop} {e : CellId × CellId} (hu : (k.cell e.2).destroyed = false → h.Untouched m e k)
    (hl : k.Leaves S k') (hS : S e.2) (hlt : e.2 < k.size) (hd : (k'.cell e.2).destroyed = false) : h.Untouched m e k' := by
  obtain ⟨b, b', hb, hb', hm⟩ := hu <| Bool.eq_false_iff.2 fun hd' => by
    rw [hl.destroyed e.2 hlt hd'] at hd
    cases hd
  obtain ⟨b'', hb'', hsame⟩ := hl.object e.2 b' hS hb' hd
  exact ⟨b, b'', hb, hb'', hsame.kind.trans hm.kind, hsame.value.trans hm.value, hsame.contents ▸ hm.contents⟩

/-! ### Looking into a copy -/

/-- A copy that leads to the copies of what its source leads to. -/
def Mirrored (h : Heap) (a : Memo) (e : CellId × CellId) (k : Heap) : Prop :=
  ∃ b b', (h.cell e.1).body = .object b ∧ (k.cell e.2).body = .object b' ∧
    b.Mirrors (Link.Mirrors fun t r => (t, r) ∈ a.entries) b'

/-- The copies that there are while links of one of them are resolved: those that there were, and those of what the links
lead to. -/
structure Spreading (h : Heap) (m o : CellId) (a : Memo) (seen : List CellId) (c : CellId) (past : List Link)
    (found : List CellId) (a' : Memo) (k : Heap) : Prop where
  replicas : h.Replicas m o a' k
  more : ∀ e ∈ a.entries, e ∈ a'.entries
  paired : List.Forall₂ (fun t r => (t, r) ∈ a'.entries) (past.filterMap Link.target?) found
  new : ∀ e ∈ a'.entries, e ∈ a.entries ∨ e.1 ∈ past.filterMap Link.target? ∧ e.2 ∈ found
  untouched : ∀ e ∈ a'.entries, e.2 ∉ seen → e.2 ≠ c → (k.cell e.2).destroyed = false → h.Untouched m e k

/-- How far the copies of a graph are completed. Those that were looked into lead to copies, the others to the objects of the
graph. -/
structure Replicating (h : Heap) (m o : CellId) (a : Memo) (seen stack : List CellId) (k : Heap) : Prop where
  replicas : h.Replicas m o a k
  copied : ∀ d, d ∈ a.copies ↔ d ∈ seen ∨ d ∈ stack
  mirrored : ∀ e ∈ a.entries, e.2 ∈ seen → h.Mirrored a e k
  untouched : ∀ e ∈ a.entries, e.2 ∉ seen → h.Untouched m e k
  way : ∀ e ∈ a.entries, e.1 = o ∨ ∃ x ∈ a.entries, x.2 ∈ seen ∧ ∃ b, (h.cell x.1).body = .object b ∧ b.LeadsTo e.1

namespace Spreading

variable {past : List Link} {found : List CellId} {link y : Link} {hold : List Task}

theorem pull (hs : h.Spreading m o a seen c past found a' k) (hp : h.Portrait m o) (hlink : ∀ t, link.target? = some t →
      link = .owned ⟨some t, .counted m⟩ ∧ h.LeadsTo o t ∧ ((h.cell t).flags.frozenSole = true → ∀ r, (t, r) ∉ a'.entries))
    (hfixed : ∀ t, h.LeadsTo o t → rules.fixed t) (hh : Holding manner rules locks frame k link.tasks)
    (hrun : Run manner rules locks frame k link.tasks k' y.tasks) (hpull : link.Pulls frame k k' y) :
    ∃ a'', h.Spreading m o a seen c (past ++ [link]) (found ++ y.target?.toList) a'' k' := by
  cases ht : link.target? with
  | none =>
    obtain ⟨rfl, rfl⟩ := hpull.of_target?_none ht
    refine ⟨a', hs.replicas, hs.more, ?_, fun e he => ?_, hs.untouched⟩
    · simpa [ht] using hs.paired
    · simpa [ht] using hs.new e he
  | some t =>
    obtain ⟨rfl, hlead, hnew⟩ := hlink t ht
    obtain ⟨q, rfl, hpull⟩ := hpull.owned
    obtain ⟨r, rfl, hleaves, hcase⟩ := hs.replicas.pull hp hh hrun (hfixed t hlead) hlead hnew hpull
    have hkeep : ∀ e ∈ a'.entries, e.2 ∉ seen → e.2 ≠ c → (k'.cell e.2).destroyed = false → h.Untouched m e k' :=
      fun e he hseen hec => Untouched.leaves (hs.untouched e he hseen hec) hleaves (hs.replicas.ne_label he)
        (hs.replicas.entry e he).2.2.1.lt_size
    have htargets : (past ++ [Link.owned ⟨some t, .counted m⟩]).filterMap Link.target? = past.filterMap Link.target? ++ [t] := by
      rw [List.filterMap_append]
      rfl
    rcases hcase with ⟨hmem, hr⟩ | ⟨hle, hr, hu⟩
    · refine ⟨a', hr, hs.more, ?_, fun e he => ?_, hkeep⟩
      · rw [htargets]
        exact List.rel_append hs.paired (.cons hmem .nil)
      · rw [htargets]
        exact (hs.new e he).imp_right fun he => ⟨List.mem_append_left _ he.1, List.mem_append_left _ he.2⟩
    · have hput : ∀ {e}, e ∈ (a'.put t r).entries ↔ e ∈ a'.entries ∨ e = (t, r) := fun {e} => by simp [Memo.put]
      refine ⟨a'.put t r, hr, fun e he => hput.2 (.inl (hs.more e he)), ?_, fun e he => ?_, fun e he hseen hec hd => ?_⟩
      · rw [htargets]
        exact List.rel_append (hs.paired.imp fun _ _ he => hput.2 (.inl he)) (.cons (hput.2 (.inr rfl)) .nil)
      · rw [htargets]
        rcases hput.1 he with he | rfl
        · exact (hs.new e he).imp_right fun he => ⟨List.mem_append_left _ he.1, List.mem_append_left _ he.2⟩
        · exact .inr ⟨List.mem_append_right _ List.mem_cons_self, List.mem_append_right _ List.mem_cons_self⟩
      · rcases hput.1 he with he | rfl
        · exact hkeep e he hseen hec hd
        · exact hu

theorem putField (hs : h.Spreading m o a seen c past found a' k) (hobj : k.IsObject c) (hc : h.size ≤ c) (g : Field) :
    h.Spreading m o a seen c past found a' (k.putField c g) where
  replicas := hs.replicas.putField hobj hc g
  more := hs.more
  paired := hs.paired
  new := hs.new
  untouched e he hseen hec := Untouched.leaves (hs.untouched e he hseen hec) (k.leaves_putField hobj g) hec
    (hs.replicas.entry e he).2.2.1.lt_size

/-- What had one owner when it was frozen has no copy before the link that leads to it is resolved. -/
theorem notMem (hs : h.Spreading m o a seen c past found a' k) (hr : h.Replicating m o a seen stack k') (hp : h.Portrait m o)
    (hx : (x, c) ∈ a.entries) (hc : c ∉ seen) (hb : (h.cell x).body = .object b) (ht : link.target? = some t) (hbt : b.LeadsTo t)
    (hpast : (past ++ [link]).filterMap Link.target? <+: b.links.filterMap Link.target?)
    (hsole : (h.cell t).flags.frozenSole = true) (r : CellId) : (t, r) ∉ a'.entries := by
  intro he
  have hlead : h.LeadsTo o x := (hr.replicas.entry _ hx).1
  have hsingle := hp.single t (.step hlead hb hbt) hsole
  rcases hs.new _ he with he | ⟨hmem, -⟩
  · rcases hr.way _ he with hroot | ⟨x', hx', hseen, b', hb', hbt'⟩
    · exact hsingle.root hroot x b hlead hb hbt
    · have hxx : x = x'.1 := hsingle.same x x'.1 b b' hlead (hr.replicas.entry _ hx').1 hb hb' hbt hbt'
      obtain rfl : (x, c) = x' := hr.replicas.entry_inj hx hx' (.inl hxx)
      exact hc hseen
  · have hcount := (hpast.sublist.count_le t).trans (hsingle.once x b hlead hb)
    rw [List.filterMap_append, List.count_append] at hcount
    have h₁ : 0 < (past.filterMap Link.target?).count t := List.count_pos_iff.2 hmem
    have h₂ : ([link].filterMap Link.target?).count t = 1 := by simp [ht]
    omega

end Spreading

/-- A copy that was looked into mirrors what it was, if what was found are the copies of what it led to. -/
theorem Looked.mirrors {S : CellId → CellId → Prop} {found : List CellId} {new : Visited} (hl : h.Looked c b Link.Akin found k new)
    (hS : List.Forall₂ S (b.links.filterMap Link.target?) found) (hall : ∀ name, h.finishes c name = true) :
    b.Mirrors (Link.Mirrors S) (b.relink (h.followed c b) new) := by
  have hfollowed : h.followed c b = b.fields.map (·.name) := List.filter_eq_self.2 fun name _ => hall name
  have hlinks := fun f hf => hl.links f hf (hall f.name)
  rw [hl.found, hfollowed, List.flatMap_map] at hS
  have hrel := forall₂_of_flatMap (fun f hf => (hlinks f hf).imp fun _ _ hy => hy.2.isSome.trans (congrArg Option.isSome hy.1.symm)) hS
  rw [hfollowed]
  refine (settled_relink fun f hf => ?_).1.mirrors
  exact (hlinks f hf).mp (fun _ _ hy hr => ⟨hy.1, hy.2.mirrors S (hy.1 ▸ hr)⟩) (hrel f hf)

namespace Replicating

variable {k₀ : Heap}

theorem look (hr : h.Replicating m o a seen stack k) (hp : h.Portrait m o) (hf : k₀.Finishing rules frame seen stack k)
    (hsafe : Safe rules ⟨k₀, [], [], frame⟩) (htop : stack.dropWhile seen.contains = c :: rest) (hset : rules.Settled)
    (hsteady : ∀ c, ¬ rules.steady c) (hfixed : ∀ t, rules.fixed t ↔ h.LeadsTo o t) :
    Ends E (visitFields c (k.finishes c) Link.pull k) fun found k' =>
      k₀.Finishing rules frame (c :: seen) (found.reverse ++ rest) k' ∧
        ∃ a', (∀ e ∈ a.entries, e ∈ a'.entries) ∧ h.Replicating m o a' (c :: seen) (found.reverse ++ rest) k' := by
  have hc : c ∉ seen := not_mem_of_dropWhile htop
  have hstack : c ∈ stack := (List.dropWhile_suffix _).subset (htop ▸ List.mem_cons_self)
  obtain ⟨x, hx⟩ : ∃ x, (x, c) ∈ a.entries := by
    obtain ⟨⟨x, _⟩, hx, rfl⟩ := List.mem_map.1 ((hr.copied c).2 (.inr hstack))
    exact ⟨x, hx⟩
  obtain ⟨b, b', hb, hb', hm⟩ := hr.untouched _ hx hc
  obtain ⟨hlead, hle, hobj, hun⟩ := hr.replicas.entry _ hx
  -- all links of the copy are resolved, and they are those of its source, bound to the label
  have hall : ∀ name, k.finishes c name = true := finishes_of_ne_leaf hb' <| by
    obtain ⟨-, b₁, hb₁, hk⟩ := hp.object x hlead
    cases hb.symm.trans hb₁
    exact hm.kind ▸ hk
  have hlinks : (b'.fields.filter fun f => k.finishes c f.name).flatMap (·.links) = b'.links := by
    rw [List.filter_eq_self.2 fun f _ => hall f.name]
    rfl
  have htargets : b'.links.filterMap Link.target? = b.links.filterMap Link.target? :=
    hm.targets fun l l' hl => hl ▸ l.target?_bound _
  have hbound : ∀ link ∈ b'.links, ∀ t, link.target? = some t → link = .owned ⟨some t, .counted m⟩ ∧ b.LeadsTo t := by
    intro link hlink t ht
    obtain ⟨link, hsource, rfl⟩ := hm.link hlink
    rw [link.target?_bound] at ht
    refine ⟨?_, Object.leadsTo_iff.2 ⟨link, hsource, ht⟩⟩
    cases link with
    | owned p =>
      obtain ⟨_, l⟩ := p
      cases ht
      rfl
    | _ => cases ht
  let J : List Link → List CellId → Heap → Prop := fun past found k₁ => ∃ a', h.Spreading m o a seen c past found a' k₁
  refine (hf.look (R := Link.Akin) (J := J) hsafe htop hb'
    ⟨fun hfix => Nat.not_le_of_lt (hp.ne_label ((hfixed c).1 hfix)).1 hle, fun _ hfr => nomatch hun.symm.trans hfr⟩ hset hsteady (.inr hun)
    ⟨a, hr.replicas, fun _ => id, .nil, fun _ => .inl, fun e he hseen _ _ => hr.untouched e he hseen⟩
    (fun past found k₁ g hobj₁ ⟨a', hs⟩ => ⟨a', hs.putField hobj₁ hle g⟩)
    fun locks more past found link y k₁ k₂ hlink hprefix ⟨a', hs⟩ hfits hh hpull hfits' hrun => ?_).imp
      fun found k' ⟨hf', hsame, ⟨new, hlooked⟩, a', hs⟩ => ⟨hf', a', hs.more, ?_⟩
  · refine ⟨hpull.akin, hs.pull hp (fun t ht => ?_) (fun t ht => (hfixed t).2 ht) hh hrun hpull⟩
    obtain ⟨he, hbt⟩ := hbound link hlink t ht
    refine ⟨he, .step hlead hb hbt, fun hsole r => hs.notMem hr hp hx hc hb ht hbt ?_ hsole r⟩
    rw [← htargets, ← hlinks]
    exact hprefix.filterMap _
  · rw [hlinks] at hs
    -- a copy that was looked into, now or before, is one of those that there were before
    have hmem : ∀ {e}, e ∈ a'.entries → e.2 ∈ c :: seen → e ∈ a.entries := fun {e} he hseen => by
      have hold : e.2 ∈ seen ∨ e.2 ∈ stack := by
        rcases List.mem_cons.1 hseen with hec | hseen
        · exact .inr (hec ▸ hstack)
        · exact .inl hseen
      obtain ⟨e', he', heq⟩ := List.mem_map.1 ((hr.copied e.2).2 hold)
      exact hs.replicas.entry_inj (hs.more e' he') he (.inr heq) ▸ he'
    have hfound : ∀ d ∈ found, d ∈ a'.copies := fun d hd => by
      obtain ⟨t, -, ht⟩ := forall₂_exists_left hs.paired hd
      exact List.mem_map.2 ⟨_, ht, rfl⟩
    have hahead : ∀ e ∈ a'.entries, e.2 ∈ c :: seen ∨ e.2 ∈ found.reverse ++ rest := fun e he => by
      rcases hs.new e he with he | ⟨-, hd⟩
      · have hold := ((hr.copied e.2).1 (List.mem_map.2 ⟨e, he, rfl⟩)).elim .inl fun hd => mem_or_of_dropWhile hd htop
        simp only [List.mem_cons, List.mem_append] at hold ⊢
        tauto
      · exact .inr (List.mem_append_left _ (List.mem_reverse.2 hd))
    refine ⟨hs.replicas, fun d => ⟨fun hd => ?_, fun hd => ?_⟩, fun e he hseen => ?_, fun e he hseen => ?_, fun e he => ?_⟩
    · obtain ⟨e, he, rfl⟩ := List.mem_map.1 hd
      exact hahead e he
    · have hold : d ∈ seen ∨ d ∈ stack → d ∈ a'.copies := fun hd => by
        obtain ⟨e, he, hed⟩ := List.mem_map.1 ((hr.copied d).2 hd)
        exact List.mem_map.2 ⟨e, hs.more e he, hed⟩
      rcases hd with hd | hd
      · rcases List.mem_cons.1 hd with rfl | hd
        · exact hold (.inr hstack)
        · exact hold (.inl hd)
      · rcases List.mem_append.1 hd with hd | hd
        · exact hfound d (List.mem_reverse.1 hd)
        · exact hold (.inr ((List.dropWhile_suffix _).subset (htop ▸ List.mem_cons_of_mem c hd)))
    · have he₁ := hmem he hseen
      rcases List.mem_cons.1 hseen with hec | hseen
      · obtain rfl : (x, c) = e := hr.replicas.entry_inj hx he₁ (.inr hec.symm)
        refine ⟨b, _, hb, hlooked.body, (hm.trans (hlooked.mirrors hs.paired hall)).imp ?_⟩
        rintro l l' ⟨_, rfl, hl⟩
        exact Link.Mirrors.of_bound hl
      · obtain ⟨b₁, b₁', hb₁, hb₁', hm₁⟩ := hr.mirrored e he₁ hseen
        exact ⟨b₁, b₁', hb₁, (Cell.body_of_core (hsame _ hseen)).trans hb₁', hm₁.imp fun _ _ hl => hl.imp fun _ _ => hs.more _⟩
    · have hpaved := (hf'.paved e.2 ((hahead e he).resolve_left hseen |> .inr)).2
      have hvia : Via rules.sealed k' frame e.2 := hpaved.via
      rw [List.mem_cons, not_or] at hseen
      exact hs.untouched e he hseen.2 hseen.1 ((hsafe.steps hf'.steps).1.live_of_reach hvia.reach).destroyed
    · rcases hs.new e he with he | ⟨hmem, -⟩
      · exact (hr.way e he).imp_right fun ⟨x', hx', hseen, hb'⟩ => ⟨x', hs.more x' hx', .tail _ hseen, hb'⟩
      · rw [htargets] at hmem
        obtain ⟨link, hlink, ht⟩ := List.mem_filterMap.1 hmem
        exact .inr ⟨(x, c), hs.more _ hx, List.mem_cons_self, b, hb, Object.leadsTo_iff.2 ⟨link, hlink, ht⟩⟩

/-- There are no more copies than there were cells, so the loop looks into no more objects than that. -/
theorem length_le (hr : h.Replicating m o a seen stack k) (hp : h.Portrait m o) (hn : seen.Nodup) : seen.length ≤ h.size := by
  have hcopies := (List.subperm_of_subset hn fun d hd => (hr.copied d).2 (.inl hd)).length_le
  have hsources := List.subperm_of_subset hr.replicas.sources fun d hd => by
    obtain ⟨e, he, rfl⟩ := List.mem_map.1 hd
    exact List.mem_range.2 (hp.ne_label (hr.replicas.entry e he).1).1
  have hlength := hsources.length_le
  rw [List.length_map, List.length_range] at hlength
  rw [Memo.copies, List.length_map] at hcopies
  exact hcopies.trans hlength

/-- The loop comes to an end, and then all copies lead to copies. -/
theorem finishLoop_spec (hr : h.Replicating m o a [] stack k) (hp : h.Portrait m o)
    (hh : Holding (.sparing rules.sealed) rules [] frame k []) (hset : rules.Settled) (hsteady : ∀ c, ¬ rules.steady c)
    (hfixed : ∀ t, rules.fixed t ↔ h.LeadsTo o t) (hanchor : rules.Anchors k frame)
    (hstack : ∀ d ∈ stack, k.IsObject d ∧ k.Paved [] frame d) {n : Nat} (hn : h.size < n) :
    Ends (fun _ => False) (finishLoop n [] stack k) fun _ k' => Steps rules ⟨k, [], [], frame⟩ ⟨k', [], [], frame⟩ ∧
      ∃ a', (∀ e ∈ a.entries, e ∈ a'.entries) ∧ h.Replicas m o a' k' ∧ ∀ e ∈ a'.entries, h.Mirrored a' e k' := by
  let I : Nat → List CellId → List CellId → Heap → Prop := fun n' seen stack' k' => k.Finishing rules frame seen stack' k' ∧
    seen.Nodup ∧ n' + seen.length = n ∧ ∃ a', (∀ e ∈ a.entries, e ∈ a'.entries) ∧ h.Replicating m o a' seen stack' k'
  refine (finishLoop_induct (I := I) (fun seen stack k' hI _ => ?_) (fun n' seen stack' rest k' c ⟨hf, hnd, hlen, a', hsub, hr'⟩ htop => ?_)
    n [] stack k ⟨.start hanchor hstack, List.nodup_nil, rfl, a, fun _ => id, hr⟩).imp
      fun _ k' ⟨_, seen, stack', ⟨hf, _, _, a', hsub, hr'⟩, hdone⟩ => ⟨hf.steps, a', hsub, hr'.replicas, fun e he => ?_⟩
  · obtain ⟨-, hnd, hlen, a', -, hr'⟩ := hI
    have := hr'.length_le hp hnd
    omega
  · refine (hr'.look hp hf hh.safe htop hset hsteady hfixed).imp fun found k'' ⟨hf', a'', hsub', hr''⟩ _ =>
      ⟨hf', List.nodup_cons.2 ⟨not_mem_of_dropWhile htop, hnd⟩, ?_, a'', fun e he => hsub' e (hsub e he), hr''⟩
    rw [List.length_cons]
    omega
  · have hseen := ((hr'.copied e.2).1 (List.mem_map.2 ⟨e, he, rfl⟩)).elim id fun hd =>
      (mem_or_of_dropWhile hd hdone).resolve_right List.not_mem_nil
    exact hr'.mirrored e he hseen

end Replicating

end Heap

/-- Finishing a pointer to a graph of which its label has no copies yet makes one copy of each object of the graph, and these
lead to each other as the objects do. -/
theorem Pointer.finish_replicates (hp : h.Portrait m o)
    (hh : Holding (.sparing rules.sealed) rules [] frame h (Pointer.tasks ⟨some o, .counted m⟩))
    (hfits : Pointer.Fits rules.sealed h ⟨some o, .counted m⟩) (hset : rules.Settled) (hsteady : ∀ c, ¬ rules.steady c)
    (hfixed : ∀ t, rules.fixed t ↔ h.LeadsTo o t) (hheld : .release o ∈ frame) :
    Ends (fun _ => False) (Pointer.finish ⟨some o, .counted m⟩ h) fun q k => Holding (.sparing rules.sealed) rules [] frame k q.tasks ∧
      ∃ r a, q = ⟨some r, .counted m⟩ ∧ (o, r) ∈ a.entries ∧ h.Replicas m o a k ∧ ∀ e ∈ a.entries, h.Mirrored a e k := by
  have hanchor : rules.Anchors h frame := fun d hd => by
    have hd := (hfixed d).1 hd
    induction hd with
    | refl => exact .held hheld
    | step hx hb ht ih => exact .object (ih ((hfixed _).2 hx)) ((hfixed _).2 hx) ⟨_, hb⟩ (Heap.mem_edges_of_leadsTo hb ht)
  unfold finish
  refine .bind (pull_anchored hh .nil hfits hset hsteady hanchor (.inr fun x hx => absurd hx List.not_mem_nil)) ?_
  rintro ⟨q, found⟩ k ⟨hpulls, htarget, hfits', hrun⟩
  obtain ⟨r, rfl, -, hcase⟩ :=
    hp.replicas.pull hp hh hrun ((hfixed o).2 .refl) .refl (fun _ r => Heap.notMem_entries_empty (o, r)) hpulls
  obtain ⟨-, hr, hu⟩ := hcase.resolve_left fun he => Heap.notMem_entries_empty _ he.1
  have htarget : found = some r := htarget
  subst htarget
  have hentries : (Memo.empty.put o r).entries = [(o, r)] := rfl
  have hstart : h.Replicating m o (Memo.empty.put o r) [] [r] k := by
    refine ⟨hr, fun d => ?_, fun e _ he => absurd he List.not_mem_nil, fun e he _ => ?_, fun e he => ?_⟩
    · simp [Memo.copies, hentries]
    · rw [hentries, List.mem_singleton] at he
      exact he ▸ hu
    · rw [hentries, List.mem_singleton] at he
      exact .inl (he ▸ rfl)
  have hh₁ := hh.run hrun
  have hhold : Holding (.sparing rules.sealed) rules [] (Pointer.tasks ⟨some r, .counted m⟩ ++ frame) k [] := ⟨hh₁.safe, by simp⟩
  refine .get_bind (.bind (hstart.finishLoop_spec hp hhold hset hsteady hfixed
    (fun d hd => (hanchor.run hh hrun (fun _ => id) d hd).subset fun t ht => List.mem_append_right _ ht)
    (fun d hd => by
      rw [List.mem_singleton.1 hd]
      exact ⟨hfits'.target r rfl, .held (.inl (by simp [Pointer.tasks]))⟩)
    (Nat.lt_of_le_of_lt hr.leaves.size k.size_lt_paths)) ?_)
  rintro - k' ⟨hsteps, a, hsub, hr', hm⟩
  exact .pure ⟨(hh₁.safe.steps hsteps).1.holding .rfl, r, a, rfl, hsub _ List.mem_cons_self, hr', hm⟩

end LazyHeap
