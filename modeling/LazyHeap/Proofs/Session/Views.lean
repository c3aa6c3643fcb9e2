import LazyHeap.Proofs.Session.Chains
import LazyHeap.Proofs.Session.Replicas

/-!
Graphs as they are read. A graph is viewed from a pointer: each pointer on the way stands for what resolving it for reading
makes of it. A lazy clone leaves behind a frozen graph whose pointers lead where they were seen to lead, each of them to what
it stands for itself; and copies of that graph change nothing of what is read.
-/
namespace LazyHeap

variable {rules : Rules} {kept : CellId → Prop} {frame outs : List Task} {h h₁ h₂ h₃ k k' : Heap}
variable {c d m o r t : CellId} {a : Memo} {b b' : Object} {l l' : Handle} {p p' q : Pointer} {link link' : Link}
variable {R : Link → Link → Prop} {name : FieldName} {i : Nat} {v : Option Int}

/-! ### Reading -/

namespace Pointer

theorem Reads.unique (hp : p.Reads h q) (hp' : p.Reads h p') : q = p' := by
  cases hp with
  | nil => cases hp'; rfl
  | target hl hs =>
    cases hp' with
    | target hl' hs' =>
      obtain rfl := hl.unique hl'
      obtain rfl := hs.unique hs'
      rfl

end Pointer

theorem Handle.Leads.stops (hl : l.Leads h l') : ∀ c, l'.cell? = some c → (h.label c).frozen = true → (h.label c).forward = .empty := by
  induction hl with
  | stop hs => exact hs
  | next _ _ _ _ ih => exact ih

namespace Object

def linkAt (b : Object) (name : FieldName) (i : Nat) : Option Link :=
  (b.contents.find? (·.1 = name)).bind fun f => f.2[i]?

theorem Mirrors.flip (hm : b.Mirrors R b') : b'.Mirrors (flip R) b where
  kind := hm.kind.symm
  value := hm.value.symm
  contents := (hm.contents.imp fun _ _ hf => ⟨hf.1.symm, hf.2.flip⟩).flip

theorem mem_links_of_linkAt (hl : b.linkAt name i = some link) : link ∈ b.links := by
  obtain ⟨f, hf, hl⟩ := Option.bind_eq_some_iff.1 hl
  rw [links_eq_contents]
  exact List.mem_flatMap.2 ⟨f, List.mem_of_find?_eq_some hf, List.mem_of_getElem? hl⟩

theorem Mirrors.linkAt (hm : b.Mirrors R b') (name : FieldName) (i : Nat) : Option.Rel R (b.linkAt name i) (b'.linkAt name i) := by
  have hplaces : ∀ {xs ys : List Link}, List.Forall₂ R xs ys → ∀ i : Nat, Option.Rel R xs[i]? ys[i]? := by
    intro xs ys hxy
    induction hxy with
    | nil => exact fun _ => .none
    | cons hx _ ih =>
      rintro (_ | i)
      · exact .some hx
      · exact ih i
  have hcontents := hm.contents
  unfold Object.linkAt
  generalize b.contents = fs, b'.contents = gs at hcontents
  induction hcontents with
  | nil => exact .none
  | @cons f g fs gs hfg _ ih =>
    rw [List.find?_cons, List.find?_cons, hfg.1]
    cases hn : decide (f.1 = name) with
    | true => exact hplaces hfg.2 i
    | false => exact ih

end Object

/-- The objects that are viewed from a pointer. -/
inductive Heap.Views (h : Heap) (p : Pointer) : CellId → Prop where
  | root {o : CellId} {l : Handle} : p.Reads h ⟨some o, l⟩ → Views h p o
  | step {x t : CellId} {b : Object} {q : Pointer} {l : Handle} : Views h p x → (h.cell x).body = .object b →
    .owned q ∈ b.links → q.Reads h ⟨some t, l⟩ → Views h p t

/-- The value that is read at the end of a path from a pointer, each pointer on the way being resolved for reading, or that
the path leads nowhere. -/
inductive Heap.ReadsAlong (h : Heap) : Path → Pointer → Option Int → Prop where
  | nil {path : Path} {p : Pointer} {l : Handle} : p.Reads h ⟨none, l⟩ → ReadsAlong h path p none
  | value {p : Pointer} {o : CellId} {l : Handle} {b : Object} : p.Reads h ⟨some o, l⟩ → (h.cell o).body = .object b →
    ReadsAlong h [] p (some b.value)
  | absent {p : Pointer} {o : CellId} {l : Handle} {b : Object} {name : FieldName} {i : Nat} {path : Path} :
    p.Reads h ⟨some o, l⟩ → (h.cell o).body = .object b → (∀ q, b.linkAt name i ≠ some (.owned q)) →
    ReadsAlong h ((name, i) :: path) p none
  | step {p q : Pointer} {o : CellId} {l : Handle} {b : Object} {name : FieldName} {i : Nat} {path : Path} {v : Option Int} :
    p.Reads h ⟨some o, l⟩ → (h.cell o).body = .object b → b.linkAt name i = some (.owned q) → ReadsAlong h path q v →
    ReadsAlong h ((name, i) :: path) p v

/-! ### Graphs that read the same -/

/-- Pointers in two heaps through which the same object is read, or none. -/
def Pointer.Alike (h k : Heap) (p q : Pointer) : Prop :=
  ∃ o l l', p.Reads h ⟨o, l⟩ ∧ q.Reads k ⟨o, l'⟩

def Link.Alike (h k : Heap) : Link → Link → Prop
  | .owned p, .owned q => p.Alike h k q
  | link, link' => link'.bare = link.bare

theorem Pointer.Alike.symm (ha : p.Alike h k q) : q.Alike k h p := by
  obtain ⟨o, l, l', hp, hq⟩ := ha
  exact ⟨o, l', l, hq, hp⟩

namespace Link.Alike

theorem symm (ha : link.Alike h k link') : link'.Alike k h link := by
  cases link <;> cases link' <;> first | exact Pointer.Alike.symm ha | exact Eq.symm ha

theorem owned (ha : (Link.owned p).Alike h k link') : ∃ q, link' = .owned q ∧ p.Alike h k q := by
  cases link' with
  | owned q => exact ⟨q, rfl, ha⟩
  | weak w => cases (ha : _ = _)
  | label s => cases (ha : _ = _)

end Link.Alike

namespace Object.Mirrors

theorem symm (hm : b.Mirrors (Link.Alike h k) b') : b'.Mirrors (Link.Alike k h) b :=
  hm.flip.imp fun _ _ hl => Link.Alike.symm hl

theorem pointerAt (hm : b.Mirrors (Link.Alike h k) b') (hp : b.linkAt name i = some (.owned p)) :
    ∃ q, b'.linkAt name i = some (.owned q) ∧ p.Alike h k q := by
  have hrel := hm.linkAt name i
  rw [hp] at hrel
  generalize b'.linkAt name i = x at hrel
  cases hrel with
  | some ha =>
    obtain ⟨q, rfl, ha⟩ := ha.owned
    exact ⟨q, rfl, ha⟩

theorem pointer (hm : b.Mirrors (Link.Alike h k) b') (hp : .owned p ∈ b.links) : ∃ q, .owned q ∈ b'.links ∧ p.Alike h k q := by
  obtain ⟨link, hlink, ha⟩ := hm.flip.link hp
  obtain ⟨q, rfl, hq⟩ := Link.Alike.owned ha
  exact ⟨q, hlink, hq⟩

end Object.Mirrors

/-- The objects that are viewed from a pointer are in another heap what they are in the one, as far as is read. -/
structure Heap.Reflects (h k : Heap) (W : CellId → Prop) : Prop where
  object : ∀ c, W c → ∃ b b', (h.cell c).body = .object b ∧ (k.cell c).body = .object b' ∧ b.Mirrors (Link.Alike h k) b'
  onward : ∀ c b q t l, W c → (h.cell c).body = .object b → .owned q ∈ b.links → q.Reads h ⟨some t, l⟩ → W t

namespace Heap.Reflects

variable {W : CellId → Prop}

theorem symm (hr : h.Reflects k W) : k.Reflects h W where
  object c hc := by
    obtain ⟨b, b', hb, hb', hm⟩ := hr.object c hc
    exact ⟨b', b, hb', hb, hm.symm⟩
  onward c b' q t l hc hb' hq hreads := by
    obtain ⟨b, b'', hb, hb'', hm⟩ := hr.object c hc
    cases hb'.symm.trans hb''
    obtain ⟨p, hp, o, l₁, l₂, hq', hp'⟩ := hm.symm.pointer hq
    cases hreads.unique hq'
    exact hr.onward c b p t l₂ hc hb hp hp'

theorem readsAlong (hr : h.Reflects k W) {path : Path} (hv : h.ReadsAlong path p v) :
    ∀ {q}, p.Alike h k q → (∀ o l, p.Reads h ⟨some o, l⟩ → W o) → k.ReadsAlong path q v := by
  induction hv with
  | nil hp =>
    rintro q ⟨o, l, l', hp', hq⟩ -
    cases hp.unique hp'
    exact .nil hq
  | @value p o _ b hp hb =>
    rintro q ⟨_, l, l', hp', hq⟩ hW
    cases hp.unique hp'
    obtain ⟨b₁, b', hb₁, hb', hm⟩ := hr.object o (hW o _ hp)
    cases hb.symm.trans hb₁
    exact hm.value ▸ .value hq hb'
  | @absent p o _ b name i path hp hb hnone =>
    rintro q ⟨_, l, l', hp', hq⟩ hW
    cases hp.unique hp'
    obtain ⟨b₁, b', hb₁, hb', hm⟩ := hr.object o (hW o _ hp)
    cases hb.symm.trans hb₁
    refine .absent hq hb' fun q' hq' => ?_
    obtain ⟨p', hp', -⟩ := hm.symm.pointerAt hq'
    exact hnone p' hp'
  | @step p q₀ o _ b name i path v hp hb hlink _ ih =>
    rintro q ⟨_, l, l', hp', hq⟩ hW
    cases hp.unique hp'
    obtain ⟨b₁, b', hb₁, hb', hm⟩ := hr.object o (hW o _ hp)
    cases hb.symm.trans hb₁
    obtain ⟨q', hq', ha⟩ := hm.pointerAt hlink
    exact .step hq hb' hq' (ih ha fun t l ht => hr.onward o b q₀ t l (hW o _ hp) hb (Object.mem_links_of_linkAt hlink) ht)

end Heap.Reflects

/-- From pointers that are alike the same graph is viewed, and the same is read along each path. -/
theorem Heap.Reflects.views (hr : h.Reflects k (h.Views p)) (ha : p.Alike h k q) :
    (∀ c, k.Views q c ↔ h.Views p c) ∧ ∀ path v, k.ReadsAlong path q v ↔ h.ReadsAlong path p v := by
  have hforth : ∀ {h k : Heap} {p q : Pointer} {W : CellId → Prop}, h.Reflects k W → p.Alike h k q →
      (∀ o l, p.Reads h ⟨some o, l⟩ → W o) → ∀ c, h.Views p c → W c ∧ k.Views q c := by
    intro h k p q W hr ha hW c hc
    induction hc with
    | root hp =>
      obtain ⟨_, l, l', hp', hq⟩ := ha
      refine ⟨hW _ _ hp, ?_⟩
      cases hp.unique hp'
      exact .root hq
    | @step x t b q₀ l _ hb hq₀ hreads ih =>
      obtain ⟨b₁, b', hb₁, hb', hm⟩ := hr.object x ih.1
      cases hb.symm.trans hb₁
      refine ⟨hr.onward x b q₀ t l ih.1 hb hq₀ hreads, ?_⟩
      obtain ⟨q', hq', _, l₁, l₂, hq₁, hq₂⟩ := hm.pointer hq₀
      cases hreads.unique hq₁
      exact .step ih.2 hb' hq' hq₂
  have hroot : ∀ o l, q.Reads k ⟨some o, l⟩ → h.Views p o := fun o l hq => by
    obtain ⟨_, l₁, l₂, hp, hq'⟩ := ha
    cases hq.unique hq'
    exact .root hp
  refine ⟨fun c => ⟨fun hc => (hforth hr.symm ha.symm hroot c hc).1, fun hc => (hforth hr ha (fun _ _ => .root) c hc).2⟩,
    fun path v => ⟨fun hv => hr.symm.readsAlong hv ha.symm hroot, fun hv => hr.readsAlong hv ha fun _ _ => .root⟩⟩

end LazyHeap
