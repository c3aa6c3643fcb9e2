import LazyHeap.Proofs.Tolls
import Mathlib.Algebra.BigOperators.Ring.Finset

/-!
How much is left to do when the copies of a graph are completed. An object that was not looked into counts with its cost.
A label that may still get copies counts with the cost of all copies that it may get. Resolving a link raises this
workload by the toll for the link at most: a copy that is entered in a memo is one less to come, and a copy that is not
entered is paid for by the toll.
-/
namespace LazyHeap

variable {manner : Manner} {rules : Rules} {locks : List Lock} {frame hold ins : List Task} {h h' k : Heap}
variable {c d o r : CellId} {x y : Object} {l l' : Handle} {p q : Pointer} {S : CellId → Prop}
variable {tolls : CellId → Nat} {out : CellId → Prop} {seen : List CellId} {m m' : Memo}

/-! ### Sums over cells -/

theorem sum_range_le {f g : Nat → Nat} {m n : Nat} (hle : ∀ i < m, f i ≠ 0 → i < n ∧ f i ≤ g i) :
    ∑ i ∈ Finset.range m, f i ≤ ∑ i ∈ Finset.range n, g i := by
  rw [← Finset.sum_filter_ne_zero]
  have hmem : ∀ i ∈ (Finset.range m).filter (f · ≠ 0), i < n ∧ f i ≤ g i := fun i hi =>
    hle i (Finset.mem_range.1 (Finset.mem_filter.1 hi).1) (Finset.mem_filter.1 hi).2
  exact (Finset.sum_le_sum fun i hi => (hmem i hi).2).trans
    (Finset.sum_le_sum_of_subset fun i hi => Finset.mem_range.2 (hmem i hi).1)

theorem sum_range_add_le {f g : Nat → Nat} {a c m n : Nat} (hc : c < n) (hca : f c + a ≤ g c)
    (hle : ∀ i < m, i ≠ c → f i ≠ 0 → i < n ∧ f i ≤ g i) :
    ∑ i ∈ Finset.range m, f i + a ≤ ∑ i ∈ Finset.range n, g i := by
  have hmem : c ∈ Finset.range n := Finset.mem_range.2 hc
  rw [← Finset.add_sum_erase _ g hmem]
  have hrest : ∑ i ∈ Finset.range m, f i ≤ f c + ∑ i ∈ (Finset.range n).erase c, g i := by
    have hsplit := sum_range_le (f := f) (g := fun i => if i = c then f c else g i) (m := m) (n := n) fun i hi hne => by
      by_cases hic : i = c
      · exact ⟨hic ▸ hc, by simp [hic]⟩
      · simpa [hic] using hle i hi hic hne
    rw [← Finset.add_sum_erase _ _ hmem, if_pos rfl] at hsplit
    refine hsplit.trans (Nat.add_le_add_left (Nat.le_of_eq (Finset.sum_congr rfl fun i hi => ?_)) _)
    exact if_neg (Finset.ne_of_mem_erase hi)
  omega

/-! ### The workload -/

/-- The memo of a label that may still get copies: the label is not frozen, or no other follows it yet. -/
def Cell.openMemo? (x : Cell) : Option Memo :=
  x.label?.bind fun s => if !x.destroyed && (!s.frozen || s.forward = .empty) then some s.memo else none

theorem Cell.openMemo?_eq_some {x : Cell} : x.openMemo? = some m ↔
    ∃ s, x.body = .label s ∧ x.destroyed = false ∧ (s.frozen = false ∨ s.forward = .empty) ∧ s.memo = m := by
  cases hb : x.body with
  | object o => simp [openMemo?, label?, hb]
  | label s => simp [openMemo?, label?, hb, and_assoc]

theorem Cell.openMemo?_object {x : Cell} {o : Object} (hb : x.body = .object o) : x.openMemo? = none := by
  simp [openMemo?, label?, hb]

/-- What a copy of the object in a cell costs, if it is frozen. -/
def Cell.frozenCost (tolls : CellId → Nat) (x : Cell) : Nat := if x.frozen then x.cost tolls else 0

namespace Cell

theorem frozenCost_le_cost (x : Cell) : x.frozenCost tolls ≤ x.cost tolls := by
  unfold frozenCost
  split
  · exact Nat.le_refl _
  · exact Nat.zero_le _

theorem frozenCost_of_unfrozen {x : Cell} (hf : x.frozen = false) : x.frozenCost tolls = 0 := by
  simp [frozenCost, hf]

theorem frozenCost_of_frozen {x : Cell} (hf : x.frozen = true) : x.frozenCost tolls = x.cost tolls := if_pos hf

theorem frozenCost_label {x : Cell} {s : Label} (hb : x.body = .label s) : x.frozenCost tolls = 0 :=
  Nat.le_zero.1 ((cost_label hb : x.cost tolls = 0) ▸ x.frozenCost_le_cost)

end Cell

namespace Heap

/-- What the copy of an object costs that is frozen and not in a memo. -/
def missing (tolls : CellId → Nat) (h : Heap) (m : Memo) (o : CellId) : Nat :=
  if m.get? o = none then (h.cell o).frozenCost tolls else 0

/-- What copies of all that is frozen and not in a memo would cost. -/
def backlog (tolls : CellId → Nat) (h : Heap) (m : Memo) : Nat := ∑ o ∈ Finset.range h.size, h.missing tolls m o

/-- What a cell has left to do. -/
def share (tolls : CellId → Nat) (seen : List CellId) (h : Heap) (c : CellId) : Nat :=
  (if c ∈ seen then 0 else (h.cell c).cost tolls) + ((h.cell c).openMemo?.map (h.backlog tolls)).getD 0

def workload (tolls : CellId → Nat) (seen : List CellId) (h : Heap) : Nat :=
  ∑ c ∈ Finset.range h.size, h.share tolls seen c

/-- There are no leaves, whose fields are not all followed. -/
def Leafless (h : Heap) : Prop := ∀ c o, (h.cell c).body = .object o → (h.cell c).destroyed = false → o.kind ≠ .leaf

instance (h : Heap) : Decidable h.Leafless :=
  decidable_of_iff (∀ c < h.size, ∀ o ∈ (h.cell c).object?, (h.cell c).destroyed = false → o.kind ≠ .leaf) <| by
    refine ⟨fun hl c o hb => hl c (IsObject.lt_size ⟨o, hb⟩) o (by rw [Cell.object?, hb]; rfl), fun hl c _ o ho => hl c o ?_⟩
    unfold Cell.object? at ho
    split at ho
    · next b hb => rw [hb, Option.some.inj ho]
    · cases ho

/-- Nothing gets frozen, and neither copies of what is frozen nor what was not looked into get more expensive. -/
structure Eases (tolls : CellId → Nat) (seen : List CellId) (h h' : Heap) : Prop where
  size : h.size ≤ h'.size
  thawed : ∀ c, h.IsObject c → (h.cell c).frozen = false → h'.IsObject c ∧ (h'.cell c).frozen = false
  cost : ∀ c, c < h.size → c ∉ seen → (h'.cell c).cost tolls ≤ (h.cell c).cost tolls
  frozen : ∀ c, (h'.cell c).frozenCost tolls ≤ (h.cell c).frozenCost tolls
  leafless : h.Leafless → h'.Leafless

namespace Eases

protected theorem refl (tolls : CellId → Nat) (seen : List CellId) (h : Heap) : h.Eases tolls seen h :=
  ⟨Nat.le_refl _, fun _ ho hf => ⟨ho, hf⟩, fun _ _ _ => Nat.le_refl _, fun _ => Nat.le_refl _, id⟩

protected theorem trans (h₁ : h.Eases tolls seen h') (h₂ : h'.Eases tolls seen k) : h.Eases tolls seen k where
  size := Nat.le_trans h₁.size h₂.size
  thawed c ho hf := (h₁.thawed c ho hf).elim (h₂.thawed c)
  cost c hlt hc := Nat.le_trans (h₂.cost c (Nat.lt_of_lt_of_le hlt h₁.size) hc) (h₁.cost c hlt hc)
  frozen c := Nat.le_trans (h₂.frozen c) (h₁.frozen c)
  leafless hl := h₂.leafless (h₁.leafless hl)

theorem of_leaves (hv : h.Leaves S h') (hg : h.Grows h')
    (hthawed : ∀ c, ¬ S c → h.IsObject c → (h'.cell c).frozen = false)
    (hcost : ∀ c, ¬ S c → c < h.size → (h'.cell c).cost tolls ≤ (h.cell c).cost tolls)
    (hfrozen : ∀ c, ¬ S c ∨ h.size ≤ c → (h'.cell c).frozenCost tolls = 0)
    (hleaf : h.Leafless → ∀ c o, ¬ S c ∨ h.size ≤ c → (h'.cell c).body = .object o → o.kind ≠ .leaf) :
    h.Eases tolls seen h' where
  size := hv.size
  thawed c ho hf := by
    refine ⟨hg.object c ho, ?_⟩
    by_cases hS : S c
    · rw [hv.frozen hS ho.lt_size, hf]
    · exact hthawed c hS ho
  cost c hlt _ := by
    by_cases hS : S c
    · exact hv.cost_le hS hlt
    · exact hcost c hS hlt
  frozen c := by
    by_cases hout : ¬ S c ∨ h.size ≤ c
    · exact hfrozen c hout ▸ Nat.zero_le _
    · obtain ⟨hS, hlt⟩ := not_or.1 hout
      have hS := not_not.1 hS
      have hlt := Nat.not_le.1 hlt
      rw [Cell.frozenCost, Cell.frozenCost, hv.frozen hS hlt]
      split
      · exact hv.cost_le hS hlt
      · exact Nat.le_refl _
  leafless hl c o' hb hd' := by
    by_cases hout : ¬ S c ∨ h.size ≤ c
    · exact hleaf hl c o' hout hb
    · obtain ⟨hS, hlt⟩ := not_or.1 hout
      have hS := not_not.1 hS
      have hlt := Nat.not_le.1 hlt
      have hd : (h.cell c).destroyed = false := Bool.eq_false_iff.2 fun hd => by
        rw [hv.destroyed c hlt hd] at hd'
        cases hd'
      cases hb₀ : (h.cell c).body with
      | label s =>
        obtain ⟨s', hs', -⟩ := hv.label c s hS hlt hb₀ hd'
        rw [hb] at hs'
        cases hs'
      | object x =>
        obtain ⟨y, hy, hsame⟩ := hv.object c x hS hb₀ hd'
        cases hb.symm.trans hy
        rw [hsame.kind]
        exact hl c x hb₀ hd

theorem of_labels (hv : h.Leaves S h') (hg : h.Grows h')
    (hlabel : ∀ c, ¬ S c ∨ h.size ≤ c → ∃ s, (h'.cell c).body = .label s) : h.Eases tolls seen h' := by
  refine .of_leaves hv hg (fun c hc hobj => ?_) (fun c hc _ => ?_) (fun c hc => ?_) fun _ c o hc hb => ?_
  · obtain ⟨x, hx⟩ := hg.object c hobj
    obtain ⟨s, hs⟩ := hlabel c (.inl hc)
    rw [hx] at hs
    cases hs
  · obtain ⟨s, hs⟩ := hlabel c (.inl hc)
    exact Cell.cost_label hs ▸ Nat.zero_le _
  · obtain ⟨s, hs⟩ := hlabel c hc
    exact Cell.frozenCost_label hs
  · obtain ⟨s, hs⟩ := hlabel c hc
    rw [hb] at hs
    cases hs

theorem of_kept (hk : h.Kept hold k) : h.Eases tolls seen k :=
  .of_labels (hk.leaves (S := fun _ => True)) hk.grows fun c hc => by
    rw [k.cell_of_size_le (hk.size ▸ hc.resolve_left fun h => h trivial)]
    exact ⟨_, rfl⟩

theorem forked {s : Label} (hf : h.Forked hold k c s m) : h.Eases tolls seen k :=
  .of_labels hf.leaves hf.spares.grows fun d hd => by
    rcases hd with hd | hd
    · exact not_not.1 hd ▸ ⟨_, hf.old⟩
    · rcases Nat.eq_or_lt_of_le hd with rfl | hd
      · exact ⟨_, hf.new⟩
      · rw [k.cell_of_size_le (hf.size ▸ hd)]
        exact ⟨_, rfl⟩

theorem recycled (hr : h.Recycled h' l x r hold) (hv : h.Leaves (· ≠ r) h') (hx : (h.cell r).body = .object x)
    (hd : (h.cell r).destroyed = false) : h.Eases tolls seen h' := by
  have hcase : ∀ {c}, ¬ c ≠ r ∨ h.size ≤ c → c = r ∨ h'.cell c = .void := fun hc =>
    hc.imp not_not.1 fun hc => h'.cell_of_size_le (hr.size ▸ hc)
  refine .of_leaves hv hr.grows (fun c hc _ => ?_) (fun c hc _ => ?_) (fun c hc => ?_) fun hl c o hc hb => ?_
  · exact not_not.1 hc ▸ Cell.frozen_of_core hr.core
  · have hc := not_not.1 hc
    subst hc
    rw [Cell.cost_of_core hr.core, Cell.cost_object hx hd]
    refine (Cell.cost_le_object rfl).trans (Nat.le_of_eq ?_)
    split
    · exact Object.cost_bound _ _
    · rfl
  · rcases hcase hc with rfl | hc
    · exact Cell.frozenCost_of_unfrozen (Cell.frozen_of_core hr.core)
    · rw [hc]
      rfl
  · rcases hcase hc with rfl | hc
    · cases (congrArg Cell.body hr.core :).symm.trans hb
      have := hl c x hx hd
      split <;> exact this
    · rw [hc] at hb
      cases hb

theorem copied {label : CellId} {s : Label} (hc : h.Copied h' l x r) (hv : h.Leaves (· ≠ label) h') (hg : h.Grows h')
    (hlabel : (h'.cell label).body = .label s) (hx : (h.cell o).body = .object x) (hd : (h.cell o).destroyed = false) :
    h.Eases tolls seen h' := by
  have hcase : ∀ {c}, ¬ c ≠ label ∨ h.size ≤ c → c = label ∨ c = r ∨ h'.cell c = .void := fun hd =>
    hd.imp not_not.1 fun hd => (Nat.eq_or_lt_of_le hd).imp (fun hd => hd.symm.trans hc.new.symm) fun hd =>
      h'.cell_of_size_le (hc.size ▸ hd)
  refine .of_leaves hv hg (fun c hcl hobj => ?_) (fun c hc _ => ?_) (fun c hcs => ?_) fun hl c y hcs hb => ?_
  · obtain ⟨x, hx⟩ := hg.object c hobj
    rw [not_not.1 hcl, hlabel] at hx
    cases hx
  · exact not_not.1 hc ▸ Cell.cost_label hlabel ▸ Nat.zero_le _
  · rcases hcase hcs with rfl | rfl | hcs
    · exact Cell.frozenCost_label hlabel
    · exact Cell.frozenCost_of_unfrozen (Cell.frozen_of_core hc.core)
    · rw [hcs]
      rfl
  · rcases hcase hcs with rfl | rfl | hcs
    · cases hlabel.symm.trans hb
    · cases (congrArg Cell.body hc.core :).symm.trans hb
      exact hl o x hx hd
    · rw [hcs] at hb
      cases hb

/-- Copies that are missing in a memo that is not smaller do not get more expensive. -/
theorem backlog_le (he : h.Eases tolls seen h')
    (hm : ∀ o, (h'.cell o).destroyed = false → m'.get? o = none → m.get? o = none) :
    h'.backlog tolls m' ≤ h.backlog tolls m := by
  refine sum_range_le fun o _ hne => ?_
  unfold missing at hne ⊢
  split at hne
  · next hnone =>
    have hd : (h'.cell o).destroyed = false := Bool.eq_false_iff.2 fun hd => hne <| Nat.le_zero.1 <|
      (Cell.cost_of_destroyed hd : (h'.cell o).cost tolls = 0) ▸ Cell.frozenCost_le_cost _
    rw [if_pos hnone, if_pos (hm o hd hnone)]
    refine ⟨Nat.lt_of_not_le fun hlt => hne (Nat.le_zero.1 ?_), he.frozen o⟩
    have := he.frozen o
    rwa [h.cell_of_size_le hlt] at this
  · exact absurd rfl hne

end Eases

/-! ### How the workload changes -/

theorem share_le (he : h.Eases tolls seen h') (hv : h.Leaves S h') (hc : S c) (hlt : c < h.size) :
    h'.share tolls seen c ≤ h.share tolls seen c := by
  refine Nat.add_le_add ?_ ?_
  · split
    · exact Nat.le_refl _
    · next hseen => exact he.cost c hlt hseen
  · cases hopen : (h'.cell c).openMemo? with
    | none => exact Nat.zero_le _
    | some m =>
      obtain ⟨s, hs, hd', hstate, rfl⟩ := Cell.openMemo?_eq_some.1 hopen
      have hd : (h.cell c).destroyed = false := Bool.eq_false_iff.2 fun hd => by
        rw [hv.destroyed c hlt hd] at hd'
        cases hd'
      cases hb : (h.cell c).body with
      | object x =>
        obtain ⟨y, hy, -⟩ := hv.object c x hc hb hd'
        rw [hs] at hy
        cases hy
      | label s₀ =>
        obtain ⟨s', hs', hsame⟩ := hv.label c s₀ hc hlt hb hd'
        cases hs.symm.trans hs'
        rw [hsame.frozen, hsame.forward] at hstate
        rw [Cell.openMemo?_eq_some.2 ⟨s₀, hb, hd, hstate, rfl⟩, hsame.memo]
        exact he.backlog_le fun _ _ => id

theorem share_label {s : Label} (hb : (h.cell c).body = .label s) (hd : (h.cell c).destroyed = false)
    (hs : s.frozen = false ∨ s.forward = .empty) : h.share tolls seen c = h.backlog tolls s.memo := by
  rw [share, Cell.cost_label hb, Cell.openMemo?_eq_some.2 ⟨s, hb, hd, hs, rfl⟩]
  simp

theorem share_label_le {s : Label} (hb : (h.cell c).body = .label s) : h.share tolls seen c ≤ h.backlog tolls s.memo := by
  cases hopen : (h.cell c).openMemo? with
  | none =>
    rw [share, Cell.cost_label hb, hopen]
    simp
  | some m =>
    obtain ⟨s', hs', hd, hstate, -⟩ := Cell.openMemo?_eq_some.1 hopen
    cases hb.symm.trans hs'
    exact Nat.le_of_eq (share_label hb hd hstate)

theorem share_object {o : Object} (hb : (h.cell c).body = .object o) :
    h.share tolls seen c = if c ∈ seen then 0 else (h.cell c).cost tolls := by
  rw [share, Cell.openMemo?_object hb]
  simp

theorem workload_kept (hk : h.Kept hold k) : k.workload tolls seen ≤ h.workload tolls seen :=
  sum_range_le fun _ hlt _ => ⟨hk.size ▸ hlt, share_le (.of_kept hk) (hk.leaves (S := fun _ => True)) trivial (hk.size ▸ hlt)⟩

theorem workload_forked {s : Label} (hf : h.Forked hold k c s m) (hlive : (h.cell c).destroyed = false) :
    k.workload tolls seen ≤ h.workload tolls seen := by
  have he : h.Eases tolls seen k := .forked hf
  have hlt : c < h.size := lt_size_of_cell_ne fun hvoid => by
    rw [hvoid] at hlive
    cases hlive
  have hold : k.share tolls seen c = 0 := by
    have hclosed : (k.cell c).openMemo? = none := Option.eq_none_iff_forall_ne_some.2 fun m' hm' => by
      obtain ⟨s', hs', -, hstate, -⟩ := Cell.openMemo?_eq_some.1 hm'
      cases hf.old.symm.trans hs'
      exact hstate.elim (fun h => nomatch hf.frozen.symm.trans h) nofun
    rw [share, hclosed, Cell.cost_label hf.old]
    simp
  have hnew : k.share tolls seen h.size ≤ h.share tolls seen c := by
    rw [share_label hf.body hlive (.inr hf.last)]
    refine (share_label_le hf.new).trans (he.backlog_le fun o hd hnone => ?_)
    refine Memo.get?_eq_none_iff.2 fun e he heo => ?_
    rcases hf.keeps e he with hm | hd'
    · exact Memo.get?_eq_none_iff.1 hnone e hm heo
    · rw [heo, hd] at hd'
      cases hd'
  rw [workload, hf.size, Finset.sum_range_succ]
  refine sum_range_add_le hlt (by rw [hold, Nat.zero_add]; exact hnew) fun i hi hic _ => ⟨hi, ?_⟩
  exact share_le he hf.leaves hic hi

theorem workload_recycled (hr : h.Recycled h' l x r hold) (hv : h.Leaves (· ≠ r) h') (hx : (h.cell r).body = .object x)
    (hd : (h.cell r).destroyed = false) : h'.workload tolls seen ≤ h.workload tolls seen := by
  have he : h.Eases tolls seen h' := .recycled hr hv hx hd
  refine sum_range_le fun c hlt _ => ?_
  have hlt : c < h.size := hr.size ▸ hlt
  refine ⟨hlt, ?_⟩
  by_cases hc : c = r
  · subst hc
    rw [share_object hx, share_object (congrArg Cell.body hr.core :)]
    split
    · exact Nat.le_refl _
    · next hseen => exact he.cost c hlt hseen
  · exact share_le he hv hc hlt

theorem share_copied (hc : h.Copied h' l x r) : h'.share tolls seen h.size ≤ x.cost tolls := by
  have hcore := hc.core
  rw [hc.new] at hcore
  rw [share_object (congrArg Cell.body hcore :)]
  split
  · exact Nat.zero_le _
  · rw [Cell.cost_of_core hcore]
    exact (Cell.cost_le_object rfl).trans (Nat.le_of_eq (Object.cost_copyFor _ _ _))

theorem workload_copied {label : CellId} {s : Label} (hc : h.Copied h' l x r) (hv : h.Leaves (· ≠ label) h')
    (hg : h.Grows h') (hs : (h.cell label).body = .label s) (hlive : (h.cell label).destroyed = false) (hs' : (h'.cell label).body = .label s)
    (hx : (h.cell o).body = .object x) (hd : (h.cell o).destroyed = false) :
    h'.workload tolls seen ≤ h.workload tolls seen + x.cost tolls := by
  have he : h.Eases tolls seen h' := .copied hc hv hg hs' hx hd
  rw [workload, hc.size, Finset.sum_range_succ]
  refine Nat.add_le_add (sum_range_le fun i hi _ => ⟨hi, ?_⟩) (share_copied hc)
  by_cases hil : i = label
  · subst hil
    cases hopen : (h'.cell i).openMemo? with
    | none => exact (Nat.le_of_eq (by rw [share, hopen, Cell.cost_label hs']; simp)).trans (Nat.zero_le _)
    | some m =>
      obtain ⟨t, ht, -, hstate, -⟩ := Cell.openMemo?_eq_some.1 hopen
      cases hs'.symm.trans ht
      rw [share_label hs hlive hstate]
      exact (share_label_le hs').trans (he.backlog_le fun _ _ => id)
  · exact share_le he hv hil hi

theorem workload_noted {label : CellId} {s : Label} (hc : h.Copied h' l x r) (hv : h.Leaves (· ≠ label) h')
    (hg : h.Grows h') (hs : (h.cell label).body = .label s) (hlive : (h.cell label).destroyed = false) (hun : s.frozen = false)
    (hs' : (h'.cell label).body = .label { s with written := true, memo := s.memo.put o r })
    (hx : (h.cell o).body = .object x) (hd : (h.cell o).destroyed = false) (hf : (h.cell o).frozen = true)
    (hnone : s.memo.get? o = none) : h'.workload tolls seen ≤ h.workload tolls seen := by
  have he : h.Eases tolls seen h' := .copied hc hv hg hs' hx hd
  have hlt : label < h.size := lt_size_of_cell_ne fun hvoid => by
    rw [hvoid] at hlive
    cases hlive
  have hlo : o < h.size := IsObject.lt_size ⟨x, hx⟩
  have hmemo : h'.backlog tolls (s.memo.put o r) + x.cost tolls ≤ h.backlog tolls s.memo := by
    refine sum_range_add_le hlo ?_ fun i hi hio hne => ?_
    · rw [missing, if_neg (by rw [Memo.get?_put_self r hnone]; exact nofun), missing, if_pos hnone, Nat.zero_add,
        Cell.frozenCost_of_frozen hf, Cell.cost_object hx hd]
    · rw [missing, Memo.get?_put_of_ne _ _ hio] at hne ⊢
      refine ⟨Nat.lt_of_not_le fun hle => hne ?_, ?_⟩
      · have := he.frozen i
        rw [h.cell_of_size_le hle] at this
        split
        · exact Nat.le_zero.1 this
        · rfl
      · unfold missing
        split
        · exact he.frozen i
        · exact Nat.zero_le _
  rw [workload, hc.size, Finset.sum_range_succ]
  refine sum_range_add_le hlt ?_ fun i hi hil _ => ⟨hi, share_le he hv hil hi⟩
  rw [share_label hs hlive (.inl hun)]
  exact (Nat.add_le_add (share_label_le hs') (share_copied hc)).trans hmemo

/-- What is in a field of an object that was looked into makes no difference, unless the object is frozen. -/
theorem putField_eases {f : Field} (hb : (h.cell c).body = .object x) (hc : c ∈ seen) (hf : (h.cell c).frozen = false) :
    h.Eases tolls seen (h.putField c f) ∧ (h.putField c f).workload tolls seen ≤ h.workload tolls seen := by
  have hd := h.putField_differs c f
  have hbody := putField_body (f := f) hb
  have hfrozen : ((h.putField c f).cell c).frozen = false := (putField_frozen hb c).trans hf
  have he : h.Eases tolls seen (h.putField c f) := by
    refine ⟨Nat.le_of_eq hd.size.symm, fun d hobj hun => ⟨(putField_grows hb).object d hobj, (putField_frozen hb d).trans hun⟩,
      fun d _ hseen => ?_, fun d => ?_, fun hl d y hy hdd => ?_⟩
    · rw [hd.others d fun he => hseen (he ▸ hc)]
    · by_cases hdc : d = c
      · rw [hdc, Cell.frozenCost_of_unfrozen hfrozen]
        exact Nat.zero_le _
      · rw [hd.others d hdc]
    · by_cases hdc : d = c
      · subst hdc
        rw [hbody] at hy
        cases hy
        rw [putField_self hb] at hdd
        exact hl d x hb hdd
      · rw [hd.others d hdc] at hy hdd
        exact hl d y hy hdd
  refine ⟨he, sum_range_le fun d hlt _ => ⟨hd.size ▸ hlt, ?_⟩⟩
  by_cases hdc : d = c
  · rw [hdc, share_object hbody, if_pos hc]
    exact Nat.zero_le _
  · rw [share, share, hd.others d hdc]
    refine Nat.add_le_add_left ?_ _
    cases (h.cell d).openMemo? with
    | none => exact Nat.le_refl _
    | some m => exact he.backlog_le fun _ _ => id

/-- Looking up an object for change raises the workload by the toll for the object at most. -/
theorem Got.workload_le (hg : h.Got l o hold h' r) (ht : h.Tolled tolls out) (hout : ∀ c, out c → (h.cell c).frozen = false)
    (hlive : ∀ r, h.Sees l o r ∨ l = .counted r → h.Live r) (hun : ∀ c, l = .counted c → (h.label c).frozen = false) :
    h.Eases tolls seen h' ∧ h'.workload tolls seen ≤ h.workload tolls seen + tolls o := by
  cases hg with
  | found _ _ hk => exact ⟨.of_kept hk, (workload_kept hk).trans (Nat.le_add_right _ _)⟩
  | @recycled label r s x hl hs hst _ hx hr hv =>
    subst hl
    have hsees : h.Sees (.counted label) o r := by
      show h.Stands (h.label label).memo o r
      rwa [h.label_eq hs]
    have hd := (hlive r (.inl hsees)).destroyed
    exact ⟨.recycled hr hv hx hd, (workload_recycled hr hv hx hd).trans (Nat.le_add_right _ _)⟩
  | @copied label source r s x hl hs hst hf hx hc hsp hmemo hv =>
    subst hl
    have hsees : h.Sees (.counted label) o source := by
      show h.Stands (h.label label).memo o source
      rwa [h.label_eq hs]
    have hd := (hlive source (.inl hsees)).destroyed
    have hlabel : (h.cell label).destroyed = false := (hlive label (.inr rfl)).destroyed
    rcases hmemo with ⟨hsole, hs'⟩ | ⟨hnone, hs'⟩
    · refine ⟨.copied hc hv hsp.grows hs' hx hd, (workload_copied hc hv hsp.grows hs hlabel hs' hx hd).trans (Nat.add_le_add_left ?_ _)⟩
      -- what is not entered in the memo is paid for
      have hnot : ¬ out source := fun ho => nomatch hf.symm.trans (hout source ho)
      have hpaid := ht.sole source hnot hsole
      rw [Cell.cost_object hx hd] at hpaid
      exact hpaid.trans (ht.sees hsees fun c hc => (hlive c (.inr hc)).destroyed)
    · have hun' : s.frozen = false := by
        have := hun label rfl
        rwa [h.label_eq hs] at this
      exact ⟨.copied hc hv hsp.grows hs' hx hd,
        (workload_noted hc hv hsp.grows hs hlabel hun' hs' hx hd hf hnone).trans (Nat.le_add_right _ _)⟩

end Heap

theorem Handle.Forwards.workload_le (hf : l.Forwards hold h k l')
    (hlive : ∀ c, l.Leads h (.counted c) → (h.cell c).destroyed = false) :
    h.Eases tolls seen k ∧ k.workload tolls seen ≤ h.workload tolls seen := by
  cases hf with
  | stop _ _ hk => exact ⟨.of_kept hk, Heap.workload_kept hk⟩
  | fork hl hf => exact ⟨.forked hf, Heap.workload_forked hf (hlive _ hl)⟩

/-- Resolving a pointer for change raises the workload by the toll for the pointer at most. -/
theorem Pointer.Pulls.workload_le (hp : Pulls hold h h' p q) (ht : h.Tolled tolls out)
    (hout : ∀ c, out c → h.IsObject c ∧ (h.cell c).frozen = false)
    (hreach : ∀ c, p.label.cell? = some c → h.Reach (h.Held (p.tasks ++ hold)) c)
    (hlead : ∀ c, p.label.Leads h (.counted c) → h.IsLabel c ∧ h.Live c) :
    h.Eases tolls seen h' ∧ h'.workload tolls seen ≤ h.workload tolls seen + (Link.owned p).toll tolls := by
  cases hp with
  | same _ hk =>
    subst hk
    exact ⟨.refl _ _ _, Nat.le_add_right _ _⟩
  | @moved k o r l l' hfr hf hl hg =>
    have hlive : ∀ c, l.Leads h (.counted c) → (h.cell c).destroyed = false := fun c hc => (hlead c hc).2.destroyed
    obtain ⟨he₁, hw₁⟩ : h.Eases tolls seen k ∧ k.workload tolls seen ≤ h.workload tolls seen := hf.workload_le hlive
    have hout' : ∀ c, out c → (k.cell c).frozen = false := fun c hc => by
      obtain ⟨hobj, hun⟩ := hout c hc
      rw [hf.leaves.frozen (fun hlc => ?_) hobj.lt_size, hun]
      obtain ⟨-, s, hs⟩ := (hlead c hlc).1
      obtain ⟨x, hx⟩ := hobj
      rw [hs] at hx
      cases hx
    obtain ⟨he₂, hw₂⟩ : k.Eases tolls seen h' ∧ _ := hg.workload_le (ht.forwards hf hlive) hout' hl (hf.unfrozen hreach)
    exact ⟨he₁.trans he₂, hw₂.trans (Nat.add_le_add_right hw₁ _)⟩

/-! ### At the start -/

/-- The workload at the start is less than the number of rounds that a traversal is given. -/
theorem Heap.workload_le_paths (htolls : ∀ c, tolls c ≤ 2 ^ h.total fun x => x.edges.length) :
    h.workload tolls seen ≤ h.paths := by
  let n := h.size
  let e := h.total fun x => x.edges.length
  have htotal : e = ∑ c ∈ Finset.range n, (h.cell c).edges.length := total_eq_range h _
  have hcost : ∀ c, (h.cell c).cost tolls ≤ 1 + (h.cell c).edges.length * 2 ^ e := fun c =>
    Cell.cost_le fun _ t _ _ => htolls t
  have hall : ∑ c ∈ Finset.range n, (h.cell c).cost tolls ≤ n + e * 2 ^ e := by
    refine (Finset.sum_le_sum fun c _ => hcost c).trans (Nat.le_of_eq ?_)
    rw [Finset.sum_add_distrib, ← Finset.sum_mul, ← htotal]
    simp
  have hbacklog : ∀ m, h.backlog tolls m ≤ n + e * 2 ^ e := fun m => by
    refine le_trans (Finset.sum_le_sum fun c _ => ?_) hall
    unfold missing
    split
    · exact Cell.frozenCost_le_cost _
    · exact Nat.zero_le _
  have hshare : ∀ c, h.share tolls seen c ≤ (h.cell c).cost tolls + (n + e * 2 ^ e) := fun c => by
    refine Nat.add_le_add ?_ ?_
    · split
      · exact Nat.zero_le _
      · exact Nat.le_refl _
    · cases (h.cell c).openMemo? with
      | none => exact Nat.zero_le _
      | some m => exact hbacklog m
  have hsum : h.workload tolls seen ≤ (n + 1) * (n + e * 2 ^ e) := by
    refine (Finset.sum_le_sum fun c _ => hshare c).trans ?_
    rw [Finset.sum_add_distrib, Finset.sum_const, Finset.card_range, nsmul_eq_mul, Nat.cast_id, Nat.add_mul, Nat.one_mul, Nat.add_comm]
    exact Nat.add_le_add_left hall _
  have hpow : 1 ≤ 2 ^ e := Nat.one_le_two_pow
  calc h.workload tolls seen ≤ (n + 1) * (n + e * 2 ^ e) := hsum
    _ ≤ (n + 1) * ((n + e) * 2 ^ e) := by
      refine Nat.mul_le_mul_left _ ?_
      rw [Nat.add_mul]
      exact Nat.add_le_add_right (Nat.le_mul_of_pos_right _ hpow) _
    _ ≤ 2 ^ n * (2 ^ (n + e) * 2 ^ e) :=
      Nat.mul_le_mul Nat.lt_two_pow_self (Nat.mul_le_mul_right _ (Nat.le_of_lt Nat.lt_two_pow_self))
    _ = 2 ^ (2 * e + 2 * n) := by
      rw [← Nat.pow_add, ← Nat.pow_add]
      congr 1
      omega
    _ ≤ h.paths := by
      rw [paths, Nat.one_shiftLeft]
      exact Nat.pow_le_pow_right (by decide) (Nat.le_add_right _ _)

end LazyHeap
