import LazyHeap.Proofs.Lasting
import LazyHeap.Proofs.Reading
import LazyHeap.Proofs.Visiting
import LazyHeap.DeepClone
import Mathlib.Data.List.TakeWhile

/-!
Freezing a graph. Cells are frozen one after the other, each with its links brought up to date; whatever a frozen
cell leads to is frozen or still on the stack. When the stack is empty, all that was frozen leads to frozen cells.
-/
namespace LazyHeap

variable {rules : Rules} {locks : List Lock} {frame ins : List Task} {h k k' : Heap} {c d : CellId}
variable {o : Object} {E : Fault → Prop} {R : Link → Link → Prop} {sealed : CellId → Prop}

/-! ### Links -/

def Link.target? : Link → Option CellId
  | .owned p => p.target
  | _ => none

/-- What resolving for reading makes of a link. -/
def Link.Reads (h : Heap) : Link → Link → Prop
  | .owned p, .owned q => p.Reads h q
  | link, link' => link' = link

theorem Link.resolve_spec {link : Link} (hh : Holding .calm rules locks frame h link.tasks)
    (hl : link.Fits rules.sealed h) :
    Ends E (link.resolve h) fun y h' => y.2 = y.1.target? ∧ link.Reads h y.1 ∧ y.1.Fits rules.sealed h' ∧
      Run .calm rules locks frame h link.tasks h' y.1.tasks := by
  cases link with
  | owned p => exact .bind (Pointer.resolve_spec hh hl) fun q h' ⟨hreads, htarget, hfits, hr⟩ =>
      ⟨htarget, hreads, hfits, hr⟩
  | weak w => exact ⟨rfl, rfl, hl, .refl _ _ _ _⟩
  | label l => exact ⟨rfl, rfl, hl, .refl _ _ _ _⟩

theorem Object.leadsTo_iff {t : CellId} : o.LeadsTo t ↔ ∃ link ∈ o.links, link.target? = some t := by
  constructor
  · rintro ⟨p, hp, ht⟩
    exact ⟨.owned p, hp, ht⟩
  · rintro ⟨link, hl, ht⟩
    cases link with
    | owned p => exact ⟨p, hl, ht⟩
    | weak w => cases ht
    | label l => cases ht

/-- The same object with other links, each related to the one in its place. -/
structure Object.Settled (R : Link → Link → Prop) (o o' : Object) : Prop where
  kind : o'.kind = o.kind
  serial : o'.serial = o.serial
  value : o'.value = o.value
  contents : List.Forall₂ (fun a b => b.1 = a.1 ∧ List.Forall₂ R a.2 b.2) o.contents o'.contents

/-! ### Later moments -/

namespace Heap

/-- A later moment, while a graph is being frozen: labels are as they were, as far as they are there. -/
structure Cools (h k : Heap) : Prop where
  size : k.size = h.size
  scopes : k.scopes = h.scopes
  object : ∀ d, h.IsObject d → k.IsObject d
  destroyed : ∀ d, (h.cell d).destroyed = true → (k.cell d).destroyed = true
  frozen : ∀ d, (h.cell d).frozen = true → (k.cell d).frozen = true
  label : ∀ d, ¬ h.IsObject d → (k.cell d).destroyed = false → (k.cell d).body = (h.cell d).body

namespace Cools

protected theorem refl (h : Heap) : h.Cools h :=
  ⟨rfl, rfl, fun _ => id, fun _ => id, fun _ => id, fun _ _ _ => rfl⟩

theorem kept {hold : List Task} (hc : h.Cools k) (hk : k.Kept hold k') : h.Cools k' where
  size := hk.size.trans hc.size
  scopes := hk.scopes.trans hc.scopes
  object d hd := hk.grows.object d (hc.object d hd)
  destroyed d hd := hk.fades.destroyed d (hc.destroyed d hd)
  frozen d hf := (hk.fades.frozen d).trans (hc.frozen d hf)
  label d hd hl := by
    have hl' : (k.cell d).destroyed = false := by
      cases hdd : (k.cell d).destroyed with
      | false => rfl
      | true =>
        rw [hk.fades.destroyed d hdd] at hl
        cases hl
    exact (hk.fades.body_of_live hl).trans (hc.label d hd hl')

theorem update (hc : h.Cools k) {g : Cell → Cell} (ho : h.IsObject c)
    (hg : ∀ o, (k.cell c).body = .object o → ∃ o', (g (k.cell c)).body = .object o')
    (hd : (g (k.cell c)).destroyed = (k.cell c).destroyed)
    (hf : (k.cell c).frozen = true → (g (k.cell c)).frozen = true) : h.Cools (k.update c g) where
  size := (k.size_update c g).trans hc.size
  scopes := hc.scopes
  object d hdo := by
    obtain ⟨o, hb⟩ := hc.object d hdo
    rcases k.cell_update_cases c g d with he | ⟨rfl, -, he⟩ <;> rw [IsObject, he]
    · exact ⟨o, hb⟩
    · exact hg o hb
  destroyed d hdd := by
    rcases k.cell_update_cases c g d with he | ⟨rfl, -, he⟩ <;> rw [he]
    · exact hc.destroyed d hdd
    · rw [hd]
      exact hc.destroyed d hdd
  frozen d hdf := by
    rcases k.cell_update_cases c g d with he | ⟨rfl, -, he⟩ <;> rw [he]
    · exact hc.frozen d hdf
    · exact hf (hc.frozen d hdf)
  label d hdo hl := by
    rcases k.cell_update_cases c g d with he | ⟨rfl, -, he⟩
    · rw [he] at hl ⊢
      exact hc.label d hdo hl
    · exact absurd ho hdo

theorem isObject (hc : h.Cools k) (ho : k.IsObject d) (hl : (k.cell d).destroyed = false) : h.IsObject d := by
  refine Classical.by_contradiction fun hd => hd ?_
  obtain ⟨o, ho⟩ := ho
  exact ⟨o, (hc.label d hd hl).symm.trans ho⟩

end Cools

/-- The graph that is frozen between two moments: its objects have their links brought up to date, the others are as
they were. -/
structure Chills (R : Link → Link → Prop) (h k : Heap) : Prop extends Cools h k where
  body : ∀ d o, (h.cell d).body = .object o → (k.cell d).destroyed = false →
    ((k.cell d).frozen = (h.cell d).frozen ∧ (k.cell d).body = .object o) ∨
    ((h.cell d).frozen = false ∧ (k.cell d).frozen = true ∧
      ∃ o', (k.cell d).body = .object o' ∧ o.Settled R o')

/-- A cell that was frozen between two moments. -/
def Froze (h k : Heap) (d : CellId) : Prop := (h.cell d).frozen = false ∧ (k.cell d).frozen = true

/-- What is reached from what is held through objects that have been frozen meanwhile. -/
inductive Trail (h k : Heap) (frame : List Task) : CellId → Prop where
  | held {d : CellId} : k.Held frame d → Trail h k frame d
  | edge {x d : CellId} : Trail h k frame x → h.Froze k x → d ∈ (k.cell x).edges → Trail h k frame d

namespace Trail

theorem reach (ht : h.Trail k frame d) : k.Reach (k.Held frame) d := by
  induction ht with
  | held hd => exact .source hd
  | edge _ _ he ih => exact .edge ih he

theorem without (ht : h.Trail k frame d) (hc : (k.cell c).frozen = false) :
    (k.without c).Reach ((k.without c).Held frame) d := by
  induction ht with
  | held hd => exact .source hd
  | @edge x d _ hx he ih =>
    refine .edge ih ?_
    rwa [k.cell_without_ne]
    rintro rfl
    rw [hx.2] at hc
    cases hc

end Trail

end Heap

/-! ### One cell -/

theorem forall₂_exists_left {α β : Type} {P : α → β → Prop} {xs : List α} {ys : List β} (h : List.Forall₂ P xs ys)
    {y : β} (hy : y ∈ ys) : ∃ x ∈ xs, P x y := by
  induction h with
  | nil => cases hy
  | cons hp _ ih =>
    rcases List.mem_cons.1 hy with rfl | hy
    · exact ⟨_, List.mem_cons_self, hp⟩
    · obtain ⟨x, hx, hp⟩ := ih hy
      exact ⟨x, List.mem_cons_of_mem _ hx, hp⟩

theorem forall₂_right {α β : Type} {P : β → Prop} {xs : List α} {ys : List β}
    (h : List.Forall₂ (fun _ y => P y) xs ys) : ∀ y ∈ ys, P y := by
  induction h with
  | nil => exact nofun
  | cons hy _ ih => exact List.forall_mem_cons.2 ⟨hy, ih⟩

theorem settled_relink {new : Visited}
    (hnew : ∀ f ∈ o.fields, List.Forall₂ (fun link y => y.2 = y.1.target? ∧ R link y.1) f.links (new f.name)) :
    o.Settled R (o.relink (o.fields.map (·.name)) new) ∧ ∀ t,
      t ∈ (o.fields.map (·.name)).flatMap (fun n => (new n).filterMap (·.2)) ↔
        (o.relink (o.fields.map (·.name)) new).LeadsTo t := by
  have hfields : (o.relink (o.fields.map (·.name)) new).fields =
      o.fields.map fun f => { f with links := (new f.name).map Prod.fst } :=
    List.map_congr_left fun f hf => if_pos (List.mem_map_of_mem hf)
  refine ⟨⟨rfl, rfl, rfl, ?_⟩, fun t => ?_⟩
  · rw [Object.contents, Object.contents, hfields, List.map_map, List.forall₂_map_left_iff,
      List.forall₂_map_right_iff, List.forall₂_same]
    refine fun f hf => ⟨rfl, ?_⟩
    show List.Forall₂ R f.links ((new f.name).map Prod.fst)
    rw [List.forall₂_map_right_iff]
    exact (hnew f hf).imp fun _ _ hy => hy.2
  · rw [Object.leadsTo_iff, Object.links, hfields]
    simp only [List.flatMap_map, List.mem_flatMap, List.mem_filterMap, List.mem_map]
    constructor
    · rintro ⟨f, hf, y, hy, ht⟩
      have hy₂ := forall₂_right ((hnew f hf).imp fun _ _ hy => hy.1) y hy
      exact ⟨y.1, ⟨f, hf, y, hy, rfl⟩, hy₂ ▸ ht⟩
    · rintro ⟨_, ⟨f, hf, y, hy, rfl⟩, ht⟩
      have hy₂ := forall₂_right ((hnew f hf).imp fun _ _ hy => hy.1) y hy
      exact ⟨f, hf, y, hy, hy₂.trans ht⟩

/-- What bringing a link up to date has to say about it, at any moment while a graph is being frozen. -/
def Settling (R : Link → Link → Prop) (h : Heap) : Prop :=
  ∀ k link link', h.Cools k → (∀ c, k.Reach (k.Held link.tasks) c → k.Live c) → link.Reads k link' → R link link'

namespace Heap.Cools

theorem alive (hc : h.Cools k) (hl : k.Live d) : (h.cell d).destroyed = false :=
  Bool.eq_false_iff.2 fun hd => by
    have := hc.destroyed d hd
    rw [hl.destroyed] at this
    cases this

theorem label_eq (hc : h.Cools k) (hl : k.Live d) : k.label d = h.label d := by
  by_cases hd : h.IsObject d
  · obtain ⟨o, ho⟩ := hd
    obtain ⟨o', ho'⟩ := hc.object d ⟨o, ho⟩
    simp only [Heap.label, Cell.label?, ho, ho']
  · simp only [Heap.label, Cell.label?, hc.label d hd hl.destroyed]

theorem leads {l l' : Handle} (hc : h.Cools k) (hl : l.Leads k l')
    (hlive : ∀ c, l.cell? = some c → k.Reach (k.Held ins) c) (hall : ∀ c, k.Reach (k.Held ins) c → k.Live c) :
    l.Leads h l' := by
  induction hl with
  | stop hstop =>
    refine .stop fun c hcell => ?_
    rw [← hc.label_eq (hall c (hlive c hcell))]
    exact hstop c hcell
  | next hcell hf hne _ ih =>
    have heq := hc.label_eq (hall _ (hlive _ hcell))
    rw [heq] at hf hne ih
    exact .next hcell hf hne (ih fun d hd => Handle.reach_label (hlive _ hcell) (heq ▸ hd))

/-- If memos map frozen objects only, what a label sees is not changed by freezing what it does not map. -/
theorem stands {m : Memo} (hc : h.Cools k) (hs : k.Stands m c d)
    (hkeys : ∀ e ∈ m.entries, k.Live e.1 → (h.cell e.1).frozen = true) (hcopies : ∀ e ∈ m.entries, k.Live e.2)
    (hlive : k.Live c) : h.Stands m c d := by
  induction hs with
  | stop hstop => exact .stop fun hf => hstop (hc.frozen _ hf)
  | @next c d _ hf hget _ ih =>
    have hm := Memo.mem_of_get? hget
    exact .next (hkeys _ hm hlive) hget (ih (hcopies _ hm))

end Heap.Cools

/-- If memos map frozen objects only, bringing a link up to date makes the same of it while a graph is being frozen as
before. -/
theorem settling_reads {held : List Task} (hs : Safe rules ⟨h, locks, [], held⟩) (hcareful : rules.careful = true) :
    Settling (Link.Reads h) h := by
  intro k link link' hcool hall hreads
  cases link with
  | weak w => exact hreads
  | label l => exact hreads
  | owned p =>
    cases link' with
    | weak w => cases hreads
    | label l => cases hreads
    | owned q =>
      cases hreads with
      | nil => exact .nil
      | @target o r l l' hleads hsees =>
        have hhold : ∀ {d}, l.cell? = some d → k.Reach (k.Held (Link.tasks (.owned ⟨some o, l⟩))) d := fun hd =>
          .source <| (show k.Held (l.tasks ++ []) _ from Handle.held_of_cell? hd).imp_left fun ht =>
            List.mem_cons_of_mem _ (List.append_nil l.tasks ▸ ht)
        refine .target (hcool.leads hleads (fun _ => hhold) hall) ?_
        cases l' with
        | empty => exact hsees
        | root => exact hsees
        | counted c =>
          have hreach := hleads.reach (fun _ => hhold) c rfl
          have heq := hcool.label_eq (hall c hreach)
          have hbody : ∀ e ∈ (h.label c).memo.entries, ∃ s, (h.cell c).body = .label s ∧ (k.cell c).body = .label s ∧
              e ∈ s.memo.entries := fun e he => by
            cases hb : (h.cell c).body with
            | object x =>
              rw [Heap.label, Cell.label?, hb] at he
              cases he
            | label s =>
              rw [h.label_eq hb] at he
              exact ⟨s, rfl, (hcool.label c (by rintro ⟨x, hx⟩; rw [hb] at hx; cases hx)
                (hall c hreach).destroyed).trans hb, he⟩
          have hsees : k.Stands (k.label c).memo o r := hsees
          rw [heq] at hsees
          refine hcool.stands hsees (fun e he hl => ?_) (fun e he => ?_) (hall o (.source (.inl List.mem_cons_self)))
          · obtain ⟨s, hb, -, hm⟩ := hbody e he
            have hkeys := hs.abides.keys hcareful c
            rw [hb] at hkeys
            exact hkeys e hm (hs.live_of_not_destroyed rfl (hcool.alive hl)).alive
          · obtain ⟨s, -, hb, hm⟩ := hbody e he
            exact hall e.2 (.edge hreach (Heap.mem_edges_of_copy hb (List.mem_map_of_mem hm)))

/-- A link leads where it led before, or to a copy that some label has. -/
def Link.Strays (h : Heap) (link link' : Link) : Prop :=
  ∀ t, link'.target? = some t → link.target? = some t ∨
    ∃ x l, (h.cell x).body = .label l ∧ t ∈ l.memo.copies

theorem settling_strays (h : Heap) : Settling (Link.Strays h) h := by
  intro k link link' hcool hall hreads t ht
  cases link with
  | weak w => exact .inl (by rwa [show link' = .weak w from hreads] at ht)
  | label l => exact .inl (by rwa [show link' = .label l from hreads] at ht)
  | owned p =>
    cases link' with
    | weak w => cases hreads
    | label l => cases hreads
    | owned q =>
      cases hreads with
      | nil => exact .inl ht
      | @target o r l l' hleads hsees =>
        cases ht
        cases l' with
        | empty => exact .inl (congrArg some hsees.symm)
        | root => exact .inl (congrArg some hsees.symm)
        | counted c =>
          have hsees : k.Stands (k.label c).memo o t := hsees
          refine hsees.mem.imp (congrArg some ·.symm) fun hcopy => ?_
          have hreach : k.Reach (k.Held (Link.tasks (.owned ⟨some o, l⟩))) c :=
            hleads.reach (fun d hd => .source <| (show k.Held (l.tasks ++ []) d from Handle.held_of_cell? hd).imp_left
              fun ht => List.mem_cons_of_mem _ (List.append_nil l.tasks ▸ ht)) c rfl
          have hlive := hall c hreach
          cases hb : (k.cell c).body with
          | object x =>
            rw [Heap.label, Cell.label?, hb] at hcopy
            cases hcopy
          | label s =>
            rw [k.label_eq hb] at hcopy
            refine ⟨c, s, (hcool.label c (fun hc => ?_) hlive.destroyed).symm.trans hb, hcopy⟩
            obtain ⟨x, hx⟩ := hcool.object c hc
            rw [hb] at hx
            cases hx

theorem Object.Settled.strays {o' : Object} {t : CellId} (hs : o.Settled (Link.Strays h) o') (ht : o'.LeadsTo t) :
    o.LeadsTo t ∨ ∃ x l, (h.cell x).body = .label l ∧ t ∈ l.memo.copies := by
  obtain ⟨link', hlink', ht⟩ := Object.leadsTo_iff.1 ht
  rw [Object.links_eq_contents] at hlink'
  obtain ⟨b, hb, hlink'⟩ := List.mem_flatMap.1 hlink'
  obtain ⟨a, ha, -, hab⟩ := forall₂_exists_left hs.contents hb
  obtain ⟨link, hlink, hstray⟩ := forall₂_exists_left hab hlink'
  refine (hstray t ht).imp_left fun ht => Object.leadsTo_iff.2 ⟨link, ?_, ht⟩
  rw [Object.links_eq_contents]
  exact List.mem_flatMap.2 ⟨a, ha, hlink⟩

theorem Cell.frozen_freeze (x : Cell) : x.freeze.frozen = true := by
  unfold Cell.freeze
  split
  · next hf => exact hf
  · simp only [Cell.frozen, Flags.frozen]
    split <;> rfl

theorem Cell.destroyed_freeze (x : Cell) : x.freeze.destroyed = x.destroyed := by
  unfold Cell.freeze
  split <;> rfl

theorem freezeCell_spec (hh : Holding .calm rules [] frame k []) (hcool : h.Cools k)
    (hb : (k.cell c).body = .object o) (hc : k.Reach (k.Held frame) c) (hopen : rules.closed = true → rules.opened c)
    (hfixed : ¬ rules.fixed c) (hR : Settling R h) :
    Ends E (freezeCell c k) fun found k' => h.Cools k' ∧
      ((k.update c Cell.freeze).without c).Kept frame (k'.without c) ∧
      Steps rules ⟨k, [], [], frame⟩ ⟨k', [], [], frame⟩ ∧ (k'.cell c).frozen = true ∧
      ∃ o', (k'.cell c).body = .object o' ∧ o.Settled R o' ∧ ∀ t, t ∈ found ↔ o'.LeadsTo t := by
  unfold freezeCell
  refine .updateCell_bind (.readCell_bind ?_)
  have hlive := hh.safe.live_of_reach (hc : k.Reach (k.Held ([] ++ frame)) c)
  have hobj : h.IsObject c := hcool.isObject ⟨o, hb⟩ hlive.destroyed
  have hstep : Advance rules ⟨k, [], [], frame⟩ ⟨k.update c Cell.freeze, [], [], frame⟩ :=
    .freeze hfixed fun hcl => .inr (hopen hcl)
  have hcool₁ : h.Cools (k.update c Cell.freeze) := hcool.update hobj (fun o ho =>
    ⟨o, (Cell.freeze_body _).trans ho⟩) (Cell.destroyed_freeze _) fun _ => Cell.frozen_freeze _
  have hself : (k.update c Cell.freeze).cell c = (k.cell c).freeze := k.cell_update_self _ hlive.lt_size
  have hb₁ : ((k.update c Cell.freeze).cell c).body = .object o := by rw [hself, Cell.freeze_body, hb]
  have hc₁ : (k.update c Cell.freeze).Reach ((k.update c Cell.freeze).Held frame) c :=
    Heap.reach_update Cell.freeze_body hc
  have hh₁ : Holding .calm rules [] frame (k.update c Cell.freeze) [] := ⟨(hh.safe.step hstep).1, nofun⟩
  generalize k.update c Cell.freeze = k₁ at *
  rw [hb₁]
  have hunlocked : o.locked = true → E .selfWait := fun hl => by
    have hl : (k₁.cell c).locked = true := by
      rw [Cell.locked, hb₁]
      exact hl
    obtain ⟨key, hkey⟩ := (Cell.locked_iff _).1 hl
    cases (hh₁.safe.locks c key).1 hkey
  refine (visitLinks_spec (R := fun link y => y.2 = y.1.target? ∧ R link y.1) (I := fun _ _ k => h.Cools k) hh₁ hb₁ hc₁
    ⟨hfixed, fun hcl _ => hopen hcl⟩ (by simp) hunlocked hcool₁ (fun _ _ k' g hcool => ?_)
    fun f link rest past found k' _ _ _ _ hcool' hlink _ hh' => ?_).imp ?_
  · have hmap : ∀ x : Cell, (x.mapObject (·.put g)).flags = x.flags := fun x => by
      unfold Cell.mapObject
      split <;> rfl
    refine hcool.update hobj (fun o ho => ⟨o.put g, ?_⟩) (congrArg (·.destroyed) (hmap _)) fun hf =>
      (congrArg Flags.frozen (hmap _) :).trans hf
    simp only [Cell.mapObject, ho]
  · refine (Link.resolve_spec hh' hlink).imp ?_
    rintro y k'' ⟨hy, hreads, hfits, hr⟩
    refine ⟨hr, hfits, ⟨hy, hR k' link y.1 hcool' (fun d hd => ?_) hreads⟩, hcool'.kept hr.keeps⟩
    exact hh'.safe.live_of_reach (hd.subset fun _ => Or.imp_left (List.mem_append_left _))
  · rintro found k' ⟨new, hfound, hnew, hcore, hcool', -, hsteps, hkeeps⟩
    rw [List.filter_true] at hfound hcore
    obtain ⟨hsettled, hleads⟩ := settled_relink fun f hf => (hnew f hf rfl).2
    refine ⟨hcool', hkeeps, .head hstep hsteps, ?_, _, Cell.body_of_core hcore, hsettled, fun t => ?_⟩
    · rw [Cell.frozen_of_core hcore]
      show (k₁.cell c).frozen = true
      rw [hself, Cell.frozen_freeze]
    · rw [hfound]
      exact hleads t

/-! ### The loop -/

namespace Heap

/-- How many cells can still be frozen. -/
def unfrozen (h : Heap) : Nat := h.count fun x => !x.destroyed && !x.frozen

theorem unfrozen_le (h : Heap) : h.unfrozen ≤ h.size := by
  rw [unfrozen, count, total_eq_range]
  refine Nat.le_trans (List.sum_le_card_nsmul _ 1 fun n hn => ?_) (by simp)
  obtain ⟨c, -, rfl⟩ := List.mem_map.1 hn
  exact Bool.toNat_le _

/-- Freezing one cell, while the others stay as frozen as they are and no cell comes back. -/
theorem unfrozen_lt (hsize : k'.size = k.size)
    (hd : ∀ d, (k.cell d).destroyed = true → (k'.cell d).destroyed = true)
    (hf : ∀ d, (k.cell d).frozen = true → (k'.cell d).frozen = true) (hc : k.Live c)
    (hun : (k.cell c).frozen = false) (hfr : (k'.cell c).frozen = true) : k'.unfrozen < k.unfrozen := by
  rw [unfrozen, unfrozen, count, count, total_eq_range, total_eq_range, hsize]
  refine List.sum_lt_sum _ _ (fun d _ => ?_) ⟨c, List.mem_range.2 hc.lt_size, ?_⟩
  · have h₁ := hd d
    have h₂ := hf d
    revert h₁ h₂
    cases (k.cell d).destroyed <;> cases (k'.cell d).destroyed <;> cases (k.cell d).frozen <;>
      cases (k'.cell d).frozen <;> simp
  · simp [hc.destroyed, hun, hfr]

/-- A graph in the course of being frozen: what frozen cells lead to is frozen or on the stack. -/
structure Freezing (R : Link → Link → Prop) (h k : Heap) (frame : List Task) (stack : List CellId) : Prop
    extends Chills R h k where
  trail : ∀ d ∈ stack, k.IsObject d ∧ h.Trail k frame d
  closed : ∀ x o, h.Froze k x → (k.cell x).body = .object o → ∀ t, o.LeadsTo t →
    (k.cell t).frozen = true ∨ t ∈ stack

/-- One cell was frozen, its links were brought up to date, and values were given up. -/
structure FrozeOne (k k' : Heap) (frame : List Task) (c : CellId) : Prop where
  keeps : ((k.update c Cell.freeze).without c).Kept frame (k'.without c)
  frozen : (k'.cell c).frozen = true

namespace FrozeOne

theorem cell_ne (k : Heap) (hne : d ≠ c) : ((k.update c Cell.freeze).without c).cell d = k.cell d :=
  (cell_without_ne _ hne).trans (k.cell_update_ne _ hne)

theorem frozen_ne (hf : FrozeOne k k' frame c) (hne : d ≠ c) : (k'.cell d).frozen = (k.cell d).frozen := by
  have := hf.keeps.fades.frozen d
  rwa [cell_ne k hne, cell_without_ne _ hne] at this

theorem frozen_mono (hf : FrozeOne k k' frame c) (hd : (k.cell d).frozen = true) : (k'.cell d).frozen = true := by
  by_cases hne : d = c
  · subst hne
    exact hf.frozen
  · rw [hf.frozen_ne hne, hd]

theorem size (hf : FrozeOne k k' frame c) : k'.size = k.size := by
  have := hf.keeps.size
  simpa only [without, size_update] using this

theorem destroyed_ne (hf : FrozeOne k k' frame c) (hne : d ≠ c) (hd : (k.cell d).destroyed = true) :
    (k'.cell d).destroyed = true := by
  have := hf.keeps.fades.destroyed d
  rw [cell_ne k hne, cell_without_ne _ hne] at this
  exact this hd

theorem body_ne (hf : FrozeOne k k' frame c) (hne : d ≠ c) (hl : (k'.cell d).destroyed = false) :
    (k'.cell d).body = (k.cell d).body := by
  have := hf.keeps.fades.body_of_live (c := d)
  rw [cell_ne k hne, cell_without_ne _ hne] at this
  exact this hl

theorem body_of_leadsTo {x t : CellId} (hf : FrozeOne k k' frame c) (hne : x ≠ c) (hx : (k'.cell x).body = .object o)
    (ht : o.LeadsTo t) : (k.cell x).body = .object o := by
  have hbody := hf.keeps.fades.body x
  rw [cell_ne k hne, cell_without_ne _ hne] at hbody
  rcases hbody with he | ⟨he, -⟩
  · exact he.symm.trans hx
  · rw [hx] at he
    cases hb : (k.cell x).body with
    | label l =>
      rw [hb] at he
      cases he
    | object o₀ =>
      rw [hb] at he
      cases he
      exact absurd ht (o₀.not_leadsTo_emptied t)

theorem core_ne (hf : FrozeOne k k' frame c) (hne : d ≠ c) (hr : (k.without c).Reach ((k.without c).Held frame) d) :
    (k'.cell d).core = (k.cell d).core := by
  have hr' : ((k.update c Cell.freeze).without c).Reach (((k.update c Cell.freeze).without c).Held frame) d :=
    reach_congr hr rfl fun x => by
      by_cases hx : x = c
      · subst hx
        rw [edges_without_self, edges_without_self]
      · rw [cell_ne k hx, cell_without_ne _ hx]
  have := hf.keeps.cell d hr'
  rwa [cell_ne k hne, cell_without_ne _ hne] at this

theorem trail (hf : FrozeOne k k' frame c) (hun : (k.cell c).frozen = false) (ht : h.Trail k frame d) :
    h.Trail k' frame d := by
  induction ht with
  | held hd =>
    refine .held ?_
    have := hf.keeps.scopes
    rwa [Held, standing, show k'.scopes = k.scopes from this]
  | @edge x d hx hfx he ih =>
    have hne : x ≠ c := by
      rintro rfl
      rw [hfx.2] at hun
      cases hun
    have hcore := hf.core_ne hne (hx.without hun)
    refine .edge ih ⟨hfx.1, (Cell.frozen_of_core hcore).trans hfx.2⟩ ?_
    rwa [show (k'.cell x).edges = (k.cell x).edges from (congrArg Cell.edges hcore :)]

end FrozeOne

namespace Freezing

variable {stack rest found : List CellId}

protected theorem start (ho : h.IsObject c) (hc : h.Held frame c) : h.Freezing R h frame [c] where
  toCools := .refl h
  body _ _ hb _ := .inl ⟨rfl, hb⟩
  trail _ hd := by
    rw [List.mem_singleton.1 hd]
    exact ⟨ho, .held hc⟩
  closed _ _ hx := nomatch hx.1.symm.trans hx.2

theorem live (hz : h.Freezing R k frame stack) (hh : Holding .calm rules [] frame k []) (hd : d ∈ stack) :
    k.Live d := hh.safe.live_of_reach ((hz.trail d hd).2.reach : k.Reach (k.Held ([] ++ frame)) d)

theorem skip (hz : h.Freezing R k frame stack) (hh : Holding .calm rules [] frame k []) :
    h.Freezing R k frame (k.unfrozenOf stack) ∧
      ∀ d ∈ stack, (k.cell d).frozen = true ∨ d ∈ k.unfrozenOf stack := by
  have hsplit : ∀ d ∈ stack, (k.cell d).frozen = true ∨ d ∈ k.unfrozenOf stack := fun d hd => by
    have hd' := hd
    rw [← stack.takeWhile_append_dropWhile (p := fun c => (k.cell c).destroyed || (k.cell c).frozen)] at hd
    rcases List.mem_append.1 hd with hd | hd
    · have := List.mem_takeWhile_imp hd
      rw [(hz.live hh hd').destroyed, Bool.false_or] at this
      exact .inl this
    · exact .inr hd
  refine ⟨⟨hz.toChills, fun d hd => hz.trail d (List.dropWhile_subset _ hd), fun x o hx ho t ht => ?_⟩, hsplit⟩
  exact (hz.closed x o hx ho t ht).elim .inl (hsplit t)

theorem unfrozen_of_top (hst : k.unfrozenOf stack = c :: rest) (hl : k.Live c) : (k.cell c).frozen = false := by
  have hne : k.unfrozenOf stack ≠ [] := hst ▸ List.cons_ne_nil c rest
  have := List.head_dropWhile_not (fun c => (k.cell c).destroyed || (k.cell c).frozen) hne
  have hhead : (k.unfrozenOf stack).head hne = c := by simp only [hst, List.head_cons]
  rw [show (List.dropWhile _ stack).head hne = c from hhead, hl.destroyed, Bool.false_or] at this
  exact this

theorem step {o' : Object} (hz : h.Freezing R k frame (c :: rest)) (hf : FrozeOne k k' frame c)
    (hun : (k.cell c).frozen = false) (hl : k.Live c) (hb : (k.cell c).body = .object o) (hcool : h.Cools k')
    (hgrows : k.Grows k') (hfits : ∀ t, o'.LeadsTo t → k'.IsObject t) (hb' : (k'.cell c).body = .object o')
    (hsettled : o.Settled R o') (hfound : ∀ t, t ∈ found ↔ o'.LeadsTo t) :
    h.Freezing R k' frame (found.reverse ++ rest) := by
  have hunh : (h.cell c).frozen = false := by
    cases hfr : (h.cell c).frozen with
    | false => rfl
    | true => rw [hz.frozen c hfr] at hun; cases hun
  have htrail := hf.trail hun (hz.trail c (List.mem_cons_self ..)).2
  have hfroze : h.Froze k' c := ⟨hunh, hf.frozen⟩
  refine ⟨⟨hcool, fun d x hx hd => ?_⟩, fun d hd => ?_, fun x y hx hy t ht => ?_⟩
  · by_cases hne : d = c
    · subst hne
      rcases hz.body d x hx hl.destroyed with ⟨-, hsame⟩ | ⟨-, hfr, -⟩
      · rw [hb] at hsame
        cases hsame
        exact .inr ⟨hunh, hf.frozen, o', hb', hsettled⟩
      · rw [hfr] at hun
        cases hun
    · have hdk : (k.cell d).destroyed = false := by
        cases hdd : (k.cell d).destroyed with
        | false => rfl
        | true => rw [hf.destroyed_ne hne hdd] at hd; cases hd
      rw [hf.frozen_ne hne, hf.body_ne hne hd]
      exact hz.body d x hx hdk
  · rcases List.mem_append.1 hd with hd | hd
    · have ht := (hfound d).1 (List.mem_reverse.1 hd)
      exact ⟨hfits d ht, .edge htrail hfroze (mem_edges_of_leadsTo hb' ht)⟩
    · obtain ⟨ho, ht⟩ := hz.trail d (List.mem_cons_of_mem _ hd)
      exact ⟨hgrows.object d ho, hf.trail hun ht⟩
  · by_cases hne : x = c
    · subst hne
      rw [hb'] at hy
      cases hy
      exact .inr (List.mem_append_left _ (List.mem_reverse.2 ((hfound t).2 ht)))
    · have hsame := hf.body_of_leadsTo hne hy ht
      rcases hz.closed x y ⟨hx.1, (hf.frozen_ne hne).symm.trans hx.2⟩ hsame t ht with hfr | hm
      · exact .inl (hf.frozen_mono hfr)
      · rcases List.mem_cons.1 hm with rfl | hm
        · exact .inl hf.frozen
        · exact .inr (List.mem_append_right _ hm)

end Freezing

/-! #### Objects that have one owner when they are frozen -/

/-- An object to which one pointer leads at most: one in an object, or one that is held. -/
structure Lone (h : Heap) (frame : List Task) (t : CellId) : Prop where
  held : h.Held frame t → ∀ x o, (h.cell x).body = .object o → ¬ o.LeadsTo t
  same : ∀ x y o o', (h.cell x).body = .object o → (h.cell y).body = .object o' → o.LeadsTo t → o'.LeadsTo t → x = y
  once : ∀ x o, (h.cell x).body = .object o → (o.links.filterMap Link.target?).count t ≤ 1

namespace Lone

theorem of_unique {t : CellId} (hs : Sound sealed ⟨k, locks, [], frame⟩) (hone : (k.cell t).shared ≤ 1)
    (hcol : (k.cell t).flags.collected = false) : k.Lone frame t := by
  obtain ⟨hsame, hnone⟩ := hs.lone_of_unique hone hcol
  refine ⟨fun hheld x o hx ht => hnone hheld x (mem_edges_of_leadsTo hx ht), fun x y o o' hx hy ht ht' =>
    hsame x y (mem_edges_of_leadsTo hx ht) (mem_edges_of_leadsTo hy ht'), fun x o hx => ?_⟩
  have hlinks : ∀ links : List Link, (links.filterMap Link.target?).count t ≤ (links.flatMap Cell.linkEdges).count t := by
    intro links
    induction links with
    | nil => exact Nat.le_refl _
    | cons link links ih =>
      rw [List.flatMap_cons, List.count_append]
      cases ht : link.target? with
      | none =>
        rw [List.filterMap_cons_none ht]
        omega
      | some d =>
        have hedge : d ∈ Cell.linkEdges link := by
          cases link with
          | owned p => simp [Cell.linkEdges, show p.target = some d from ht]
          | _ => cases ht
        rw [List.filterMap_cons_some ht, List.count_cons]
        by_cases hd : d = t
        · have := List.count_pos_iff.2 (hd ▸ hedge)
          simp only [hd, beq_self_eq_true, if_true]
          omega
        · simp only [beq_iff_eq, hd, if_false]
          omega
  have hedges : (k.cell x).edges.count t ≤ k.inward t := k.le_total (fun y => y.edges.count t) rfl x
  have hshared := hs.shared t hcol
  simp only [Moment.claims, k.due_release] at hshared
  rw [Cell.edges, hx] at hedges
  have := hlinks o.links
  simp only at hedges
  omega

theorem step {t : CellId} {o' : Object} (hl : k.Lone frame t) (hf : FrozeOne k k' frame c) (hb : (k'.cell c).body = .object o')
    (hnot : ¬ o'.LeadsTo t) : k'.Lone frame t := by
  have hback : ∀ {x o}, (k'.cell x).body = .object o → o.LeadsTo t → (k.cell x).body = .object o := fun {x o} hx ht => by
    by_cases hxc : x = c
    · subst hxc
      rw [hb] at hx
      cases hx
      exact absurd ht hnot
    · exact hf.body_of_leadsTo hxc hx ht
  refine ⟨fun hheld x o hx ht => hl.held (hheld.imp_right fun hm => ?_) x o (hback hx ht) ht,
    fun x y o o' hx hy ht ht' => hl.same x y o o' (hback hx ht) (hback hy ht') ht ht', fun x o hx => ?_⟩
  · rwa [standing, ← show k'.scopes = k.scopes from hf.keeps.scopes]
  · by_cases ht : o.LeadsTo t
    · exact hl.once x o (hback hx ht)
    · rw [List.count_eq_zero.2 fun hm => ?_]
      · exact Nat.zero_le _
      · obtain ⟨link, hlink, htarget⟩ := List.mem_filterMap.1 hm
        exact ht (Object.leadsTo_iff.2 ⟨link, hlink, htarget⟩)

end Lone

/-- What was frozen earlier is frozen as it was. Of the objects that were frozen meanwhile when they had one owner, that
owner was frozen before them; so they are ranked by the time at which they were frozen, and still one pointer at most leads
to each. -/
structure Tidy (h k : Heap) (frame : List Task) : Prop where
  freezing : ∀ d, (h.cell d).frozen = true → (k.cell d).flags.freezing = (h.cell d).flags.freezing
  object : ∀ d, h.Froze k d → k.IsObject d
  owner : ∀ t, h.Froze k t → (k.cell t).flags.frozenSole = true → ∀ x, t ∈ (k.cell x).edges → h.Froze k x
  ranked : ∃ rank : CellId → Nat, ∀ x o t, h.Froze k x → (k.cell x).body = .object o → o.LeadsTo t → h.Froze k t →
    (k.cell t).flags.frozenSole = true → rank t < rank x
  lone : ∀ t, h.Froze k t → (k.cell t).flags.frozenSole = true → k.Lone frame t

namespace Tidy

protected theorem start (h : Heap) (frame : List Task) : h.Tidy h frame where
  freezing _ _ := rfl
  object _ hd := nomatch hd.1.symm.trans hd.2
  owner _ ht := nomatch ht.1.symm.trans ht.2
  ranked := ⟨fun _ => 0, fun _ _ _ hx => nomatch hx.1.symm.trans hx.2⟩
  lone _ ht := nomatch ht.1.symm.trans ht.2

private theorem owner_of_one (hs : Sound sealed ⟨k, locks, [], frame⟩) (ht : h.Trail k frame c) (hone : (k.cell c).shared = 1)
    (hl : k.Live c) : ∀ x, c ∈ (k.cell x).edges → h.Froze k x := fun x hx => by
  obtain ⟨hsame, hnone⟩ := hs.lone_of_unique (Nat.le_of_eq hone) hl.collected
  cases ht with
  | held hc => exact absurd hx (hnone hc x)
  | @edge y _ _ hy he => exact hsame y x he hx ▸ hy

theorem step {o' : Object} (ht : h.Tidy k frame) (hf : FrozeOne k k' frame c) (hs : Sound sealed ⟨k, locks, [], frame⟩)
    (htrail : h.Trail k frame c) (hl : k.Live c) (hun : (h.cell c).frozen = false) (hunk : (k.cell c).frozen = false)
    (hb : (k.cell c).body = .object o) (hb' : (k'.cell c).body = .object o') (hgrows : k.Grows k')
    (hstray : ∀ t, o'.LeadsTo t → o.LeadsTo t ∨ ∃ x l, (k.cell x).body = .label l ∧ t ∈ l.memo.copies) :
    h.Tidy k' frame := by
  have hfreezing : ∀ {d}, d ≠ c → (k'.cell d).flags.freezing = (k.cell d).flags.freezing := fun {d} hne => by
    have := hf.keeps.fades.freezing d
    rwa [FrozeOne.cell_ne k hne, cell_without_ne _ hne] at this
  have hback : ∀ {d}, d ≠ c → h.Froze k' d → h.Froze k d := fun hne hd => ⟨hd.1, (hf.frozen_ne hne).symm.trans hd.2⟩
  have hforth : ∀ {d}, h.Froze k d → h.Froze k' d := fun hd => ⟨hd.1, hf.frozen_mono hd.2⟩
  have hsole : ∀ {d}, d ≠ c → (k'.cell d).flags.frozenSole = true → (k.cell d).flags.frozenSole = true :=
    fun hne hd => (sole_of_freezing (hfreezing hne)).symm.trans hd
  have hedges : ∀ {x d}, x ≠ c → d ∈ (k'.cell x).edges → d ∈ (k.cell x).edges := fun {x d} hne hd => by
    have := hf.keeps.fades.mem_edges (c := x) (d := d)
    rw [FrozeOne.cell_ne k hne, cell_without_ne _ hne] at this
    exact this hd
  have hnot : ¬ h.Froze k c := fun hc => by
    rw [hc.2] at hunk
    cases hunk
  have hone : (k'.cell c).flags.frozenSole = true → (k.cell c).shared = 1 := fun hc => by
    refine Classical.by_contradiction fun hne => ?_
    have := hf.keeps.fades.freezing c
    rw [cell_without_self, cell_without_self, k.cell_update_self _ hl.lt_size, Cell.freeze, hunk] at this
    have hsole : (k'.cell c).flags.freezing = .sole := of_decide_eq_true hc
    rw [show (k'.cell c).flags.freezing = _ from this] at hsole
    simp [hne] at hsole
  -- whoever owns what is frozen with one owner was frozen before, or is the last cell that was frozen
  have hown : ∀ t, h.Froze k' t → (k'.cell t).flags.frozenSole = true → ∀ x, t ∈ (k.cell x).edges → h.Froze k x :=
    fun t hft hst x hx => by
      by_cases htc : t = c
      · subst htc
        exact owner_of_one hs htrail (hone hst) hl x hx
      · exact ht.owner t (hback htc hft) (hsole htc hst) x hx
  -- the last cell that was frozen leads to nothing that was frozen before it when it had one owner
  have hlast : ∀ t, h.Froze k' t → (k'.cell t).flags.frozenSole = true → ¬ o'.LeadsTo t := fun t hft hst hlead => by
    rcases hstray t hlead with hlead | ⟨z, l, hz, htl⟩
    · exact absurd (hown t hft hst c (mem_edges_of_leadsTo hb hlead)) hnot
    · obtain ⟨w, hw⟩ := ht.object z (hown t hft hst z (mem_edges_of_copy hz htl))
      rw [hz] at hw
      cases hw
  have hobject : ∀ d, h.Froze k' d → k'.IsObject d := fun d hd => by
    by_cases hne : d = c
    · exact hne ▸ ⟨o', hb'⟩
    · exact hgrows.object d (ht.object d (hback hne hd))
  obtain ⟨rank, hrank⟩ := ht.ranked
  refine ⟨fun d hd => ?_, hobject, fun t hft hst x hx => ?_, ⟨fun x => if x = c then 0 else rank x + 1,
    fun x y t hx hy hlead hft hst => ?_⟩, fun t hft hst => ?_⟩
  · have hne : d ≠ c := fun he => by
      rw [he, hun] at hd
      cases hd
    rw [hfreezing hne, ht.freezing d hd]
  · by_cases hxc : x = c
    · exact hxc ▸ ⟨hun, hf.frozen⟩
    · exact hforth (hown t hft hst x (hedges hxc hx))
  · by_cases hxc : x = c
    · subst hxc
      rw [hb'] at hy
      cases hy
      exact absurd hlead (hlast t hft hst)
    · show (if t = c then 0 else rank t + 1) < if x = c then 0 else rank x + 1
      rw [if_neg hxc]
      by_cases htc : t = c
      · rw [if_pos htc]
        exact Nat.succ_pos _
      · rw [if_neg htc]
        exact Nat.succ_lt_succ (hrank x y t (hback hxc hx) (hf.body_of_leadsTo hxc hy hlead) hlead (hback htc hft) (hsole htc hst))
  · have hlone : k.Lone frame t := by
      by_cases htc : t = c
      · subst htc
        exact .of_unique hs (Nat.le_of_eq (hone hst)) hl.collected
      · exact ht.lone t (hback htc hft) (hsole htc hst)
    exact hlone.step hf hb' (hlast t hft hst)

end Tidy

end Heap

theorem Heap.unfrozen_pos (hc : h.Live c) (hun : (h.cell c).frozen = false) : 0 < h.unfrozen := by
  have := h.le_total (fun x => (!x.destroyed && !x.frozen).toNat) rfl c
  rw [hc.destroyed, hun] at this
  exact this

/-- The loop freezes everything that the stack leads to, and never runs out of fuel. -/
theorem freezeLoop_spec (hR : Settling R h)
    (hopen : rules.closed = true → ∀ c, h.IsObject c → (h.cell c).frozen = false → rules.opened c)
    (hfixed : ∀ c, (h.cell c).frozen = false → ¬ rules.fixed c) : ∀ (n : Nat) (k : Heap) (stack : List CellId),
    k.unfrozen ≤ n → Holding .calm rules [] frame k [] → h.Freezing R k frame stack → h.Tidy k frame →
    Ends E (freezeLoop n stack k) fun _ k' => h.Freezing R k' frame [] ∧ h.Tidy k' frame ∧
      Steps rules ⟨k, [], [], frame⟩ ⟨k', [], [], frame⟩ ∧ (∀ c, (k.cell c).frozen = true → (k'.cell c).frozen = true) ∧
      ∀ d ∈ stack, (k'.cell d).frozen = true := by
  intro n
  induction n with
  | zero =>
    intro k stack hn hh hz htidy
    obtain ⟨hz', hskip⟩ := hz.skip hh
    unfold freezeLoop
    refine .get_bind ?_
    have hst : k.unfrozenOf stack = [] := by
      refine List.eq_nil_iff_forall_not_mem.2 fun c hc => ?_
      obtain ⟨c, rest, hst⟩ := List.exists_cons_of_ne_nil (List.ne_nil_of_mem hc)
      have hl := hz'.live hh (hst ▸ List.mem_cons_self ..)
      have := k.unfrozen_pos hl (Heap.Freezing.unfrozen_of_top hst hl)
      omega
    rw [hst] at hz' hskip ⊢
    exact ⟨hz', htidy, .refl, fun _ => id, fun d hd => (hskip d hd).resolve_right (List.not_mem_nil)⟩
  | succ n ih =>
    intro k stack hn hh hz htidy
    obtain ⟨hz', hskip⟩ := hz.skip hh
    unfold freezeLoop
    refine .get_bind ?_
    cases hst : k.unfrozenOf stack with
    | nil =>
      rw [hst] at hz' hskip
      exact ⟨hz', htidy, .refl, fun _ => id, fun d hd => (hskip d hd).resolve_right (List.not_mem_nil)⟩
    | cons c rest =>
      rw [hst] at hz' hskip
      have hl := hz'.live hh (List.mem_cons_self ..)
      have hun := Heap.Freezing.unfrozen_of_top hst hl
      have hunh : (h.cell c).frozen = false := by
        cases hfr : (h.cell c).frozen with
        | false => rfl
        | true => rw [hz.frozen c hfr] at hun; cases hun
      obtain ⟨⟨o, hb⟩, htrail⟩ := hz'.trail c (List.mem_cons_self ..)
      have hopen' : rules.closed = true → rules.opened c := fun hcl =>
        hopen hcl c (hz.toCools.isObject ⟨o, hb⟩ hl.destroyed) hunh
      refine .bind ((freezeCell_spec hh hz.toCools hb htrail.reach hopen' (hfixed c hunh) hR).and
        (freezeCell_spec hh (.refl k) hb htrail.reach hopen' (hfixed c hunh) (settling_strays k)))
        fun found k₁ ⟨⟨hcool, hkeeps, hsteps, hfr, o', hb', hsettled, hfound⟩, _, _, _, _, o'', hb'', hstrays, _⟩ => ?_
      cases hb'.symm.trans hb''
      have hf : k.FrozeOne k₁ frame c := ⟨hkeeps, hfr⟩
      obtain ⟨hsafe, hgrows⟩ := hh.safe.steps hsteps
      have hh₁ : Holding .calm rules [] frame k₁ [] := ⟨hsafe, nofun⟩
      have hfits : ∀ t, o'.LeadsTo t → k₁.IsObject t := fun t ⟨p, hp, ht⟩ => by
        have := hsafe.fits c
        rw [hb'] at this
        exact (this.2 _ hp).target t ht
      have hlt : k₁.unfrozen < k.unfrozen := Heap.unfrozen_lt hf.size (fun d hd => by
        by_cases hne : d = c
        · rw [hne, hl.destroyed] at hd
          cases hd
        · exact hf.destroyed_ne hne hd) (fun d => hf.frozen_mono) hl hun hfr
      have htidy₁ : h.Tidy k₁ frame := htidy.step hf hh.safe.toSound htrail hl hunh hun hb hb' hgrows (fun _ => hstrays.strays)
      refine (ih k₁ _ (by omega) hh₁ (hz'.step hf hun hl hb hcool hgrows hfits hb' hsettled hfound) htidy₁).imp
        fun _ k₂ ⟨hz₂, htidy₂, hsteps₂, hmono, hall⟩ => ⟨hz₂, htidy₂, hsteps.trans hsteps₂,
          fun d hd => hmono d (hf.frozen_mono hd), fun d hd => ?_⟩
      rcases hskip d hd with hd | hd
      · exact hmono d (hf.frozen_mono hd)
      · rcases List.mem_cons.1 hd with rfl | hd
        · exact hmono _ hfr
        · exact hall d (List.mem_append_right _ hd)

namespace Heap.Freezing

theorem body_of_frozen {x t : CellId} (hz : h.Freezing R k frame []) (hs : Sound sealed ⟨k, locks, [], frame⟩)
    (hx : (k.cell x).body = .object o) (hf : (h.cell x).frozen = true) (ht : o.LeadsTo t) : (h.cell x).body = .object o := by
  have hl : (k.cell x).destroyed = false := Bool.eq_false_iff.2 fun hd => by
    have hedge := mem_edges_of_leadsTo hx ht
    rw [hs.destroyed_edges hd] at hedge
    cases hedge
  obtain ⟨o₀, ho₀⟩ := hz.isObject ⟨o, hx⟩ hl
  rcases hz.body x o₀ ho₀ hl with ⟨-, hsame⟩ | ⟨hun, -, -⟩
  · rwa [← hsame, hx] at ho₀
  · rw [hf] at hun
    cases hun

theorem closed_of {opened : CellId → Prop} (hz : h.Freezing R k frame []) (hs : Sound sealed ⟨k, locks, [], frame⟩)
    (hc : h.Closed opened) : k.Closed opened := fun x o ho hf hx t ht => by
  cases hfr : (h.cell x).frozen with
  | false => exact (hz.closed x o ⟨hfr, hf⟩ ho t ht).resolve_right List.not_mem_nil
  | true => exact hz.frozen t (hc x o (hz.body_of_frozen hs ho hfr ht) hfr hx t ht)

theorem tiered_of {opened : CellId → Prop} (hz : h.Freezing R k frame []) (hs : Sound sealed ⟨k, locks, [], frame⟩)
    (htidy : h.Tidy k frame) (ht : h.Tiered opened) : k.Tiered opened := by
  obtain ⟨old, hold⟩ := ht.ranked
  obtain ⟨new, hnew⟩ := htidy.ranked
  have hsame : ∀ {d}, (h.cell d).frozen = true → (k.cell d).flags.frozenSole = true → (h.cell d).flags.frozenSole = true :=
    fun hd => (sole_of_freezing (htidy.freezing _ hd)).symm.trans
  obtain ⟨bound, hbound⟩ : ∃ n, ∀ d < h.size, old d < n := by
    refine ⟨(List.range h.size).foldr (fun d n => max (old d + 1) n) 0, fun d hd => ?_⟩
    have hd := List.mem_range.2 hd
    generalize List.range h.size = ds at hd
    induction ds with
    | nil => cases hd
    | cons e ds ih =>
      rcases List.mem_cons.1 hd with rfl | hd
      · exact Nat.lt_of_lt_of_le (Nat.lt_succ_self _) (Nat.le_max_left _ _)
      · exact Nat.lt_of_lt_of_le (ih hd) (Nat.le_max_right _ _)
  refine ⟨fun x l hl v hv ho => Bool.eq_false_iff.2 fun hsole => ?_,
    fun d => if (h.cell d).frozen then old d else bound + new d, fun x o t hx hxs hxo hlead hts hto => ?_⟩
  · have hedge := mem_edges_of_copy hl hv
    cases hfr : (h.cell v).frozen with
    | false =>
      obtain ⟨o, hob⟩ := htidy.object x (htidy.owner v ⟨hfr, frozen_of_sole hsole⟩ hsole x hedge)
      rw [hl] at hob
      cases hob
    | true =>
      have hlab : (h.cell x).body = .label l := by
        refine (hz.label x (fun hx => ?_) (Bool.eq_false_iff.2 fun hd => ?_)).symm.trans hl
        · obtain ⟨o, hob⟩ := hz.object x hx
          rw [hl] at hob
          cases hob
        · rw [hs.destroyed_edges hd] at hedge
          cases hedge
      have := ht.copies x l hlab v hv ho
      rw [hsame hfr hsole] at this
      cases this
  · show (if (h.cell t).frozen = true then old t else bound + new t) < if (h.cell x).frozen = true then old x else bound + new x
    by_cases hfx : (h.cell x).frozen = true
    · have hbody := hz.body_of_frozen hs hx hfx hlead
      -- the only owner of what was frozen since then is not one that was frozen before
      have hft : (h.cell t).frozen = true := by
        rw [← Bool.not_eq_false]
        intro hun
        have hfroze := htidy.owner t ⟨hun, frozen_of_sole hts⟩ hts x (mem_edges_of_leadsTo hx hlead)
        rw [hfroze.1] at hfx
        cases hfx
      rw [if_pos hft, if_pos hfx]
      exact hold x o t hbody (hsame hfx hxs) hxo hlead (hsame hft hts) hto
    · rw [if_neg hfx]
      by_cases hft : (h.cell t).frozen = true
      · rw [if_pos hft]
        exact Nat.lt_of_lt_of_le (hbound t (lt_size_of_frozen hft)) (Nat.le_add_right _ _)
      · rw [if_neg hft]
        exact Nat.add_lt_add_left (hnew x o t ⟨Bool.eq_false_iff.2 hfx, frozen_of_sole hxs⟩ hx hlead
          ⟨Bool.eq_false_iff.2 hft, frozen_of_sole hts⟩ hts) _

end Heap.Freezing

/-- Freezing a graph freezes what its root leads to, and after it the laws hold as before. -/
theorem freezeGraph_spec (hR : Settling R h) (hh : Holding .calm rules [] frame h []) (ho : h.IsObject c)
    (hc : h.Held frame c) (hfixed : ∀ d, (h.cell d).frozen = false → ¬ rules.fixed d) :
    Ends E (freezeGraph c h) fun _ k => h.Freezing R k frame [] ∧ h.Tidy k frame ∧
      Course rules ⟨h, [], [], frame⟩ ⟨k, [], [], frame⟩ ∧ Safe rules ⟨k, [], [], frame⟩ ∧
      (k.cell c).frozen = true := by
  let opened : CellId → Prop := fun d => rules.opened d ∨ (h.IsObject d ∧ (h.cell d).frozen = false)
  have hsafe : Safe rules ⟨h, [], [], frame⟩ := hh.safe
  have hopened : Safe { rules with opened := opened } ⟨h, [], [], frame⟩ := hsafe.exempt fun _ => .inl
  unfold freezeGraph
  have hheld : Holding .calm { rules with opened := opened } [] frame h [] := ⟨hopened, nofun⟩
  refine .get_bind ((freezeLoop_spec hR (by exact fun _ d hd hun => .inr ⟨hd, hun⟩) (by exact hfixed) _ h [c]
    h.unfrozen_le hheld (.start ho hc) (.start h frame)).imp fun _ k ⟨hz, htidy, hsteps, _, hall⟩ =>
      ⟨hz, htidy, .of_steps hsteps, ?_, hall c (List.mem_singleton.2 rfl)⟩)
  obtain ⟨hk, hgrows⟩ := hopened.steps hsteps
  exact ⟨hk.toFirm, {
    keys := hk.abides.keys
    apart := fun hap => ⟨(hk.abides.apart hap).common, fun x l hl hf hx => (hk.abides.apart hap).shut x l hl hf
      fun hop => hop.elim hx fun hobj => by
        obtain ⟨o, hob⟩ := hgrows.object x hobj.1
        rw [hl] at hob
        cases hob⟩
    closed := fun hcl hlen => hz.closed_of hk.toSound (hsafe.abides.closed hcl hlen)
    tiered := fun hcl => hz.tiered_of hk.toSound htidy (hsafe.abides.tiered hcl)
    root := hk.abides.root }, hk.sealed⟩

end LazyHeap
