import LazyHeap.Proofs.Abiding
import LazyHeap.Resolve

/-!
Walks through memos. The entries of a memo lead to younger cells, so following them comes to an end. Two labels see the
same as long as a walk cannot tell their memos from each other.
-/
namespace LazyHeap

variable {h h' : Heap} {c d o r x : CellId} {l : Handle} {s : Label} {m m' : Memo} {P : CellId → Prop}

/-! ### Following a memo -/

namespace Heap

theorem label_eq (hb : (h.cell c).body = .label s) : h.label c = s := by
  rw [label, Cell.label?, hb]
  rfl

/-- Where the entries of a memo lead from an object, for as long as it is frozen. -/
inductive Stands (h : Heap) (m : Memo) : CellId → CellId → Prop where
  | stop {c : CellId} : ((h.cell c).frozen = true → m.get? c = none) → Stands h m c c
  | next {c d e : CellId} : (h.cell c).frozen = true → m.get? c = some d → Stands h m d e → Stands h m c e

/-- What a label sees in the place of an object. The root and the empty handle see the object itself. -/
def Sees (h : Heap) (l : Handle) (o r : CellId) : Prop :=
  match l with
  | .counted c => h.Stands (h.label c).memo o r
  | _ => r = o

end Heap

theorem Memo.mem_of_get? (hd : m.get? c = some d) : (c, d) ∈ m.entries := by
  rw [Memo.get?, Option.map_eq_some_iff] at hd
  obtain ⟨e, he, rfl⟩ := hd
  have hkey : e.1 = c := by simpa using List.find?_some he
  exact hkey ▸ List.mem_of_find?_eq_some he

theorem Memo.get?_eq_none_iff : m.get? c = none ↔ ∀ e ∈ m.entries, e.1 ≠ c := by
  simp [Memo.get?]

namespace Heap

/-- Following a memo comes to an end, since each entry that is followed has a younger source. -/
theorem walk_ok (h : Heap) (hm : ∀ e ∈ m.entries, e.1 < e.2) : ∀ (n : Nat) (c : CellId),
    (m.entries.filter fun e => c ≤ e.1).length ≤ n → ∃ d, h.walk m n c = .ok d ∧ h.Stands m c d := by
  intro n
  induction n with
  | zero =>
    intro c hn
    have hnone : m.get? c = none := Memo.get?_eq_none_iff.2 fun e he heq => by
      have : e ∈ m.entries.filter fun e => c ≤ e.1 := List.mem_filter.2 ⟨he, by simp [heq]⟩
      rw [List.length_eq_zero_iff.1 (Nat.le_zero.1 hn)] at this
      cases this
    exact ⟨c, by simp [walk, hnone], .stop fun _ => hnone⟩
  | succ n ih =>
    intro c hn
    by_cases hf : (h.cell c).frozen = true
    · cases hd : m.get? c with
      | none => exact ⟨c, by simp [walk, hd], .stop fun _ => hd⟩
      | some d =>
        have hmem := Memo.mem_of_get? hd
        have hcd : c < d := hm _ hmem
        -- the entry of `c` itself is among the sources from `c` on, but not among those from `d` on
        have hsub : (m.entries.filter fun e => d ≤ e.1).length <
            (m.entries.filter fun e => c ≤ e.1).length := by
          have hfilter : (m.entries.filter fun e => d ≤ e.1) =
              (m.entries.filter fun e => c ≤ e.1).filter fun e => d ≤ e.1 := by
            rw [List.filter_filter]
            refine List.filter_congr fun e _ => ?_
            by_cases hde : d ≤ e.1
            · simp [hde, Nat.le_of_lt (Nat.lt_of_lt_of_le hcd hde)]
            · simp [hde]
          rw [hfilter]
          refine List.length_filter_lt_length_iff_exists.2 ⟨(c, d), List.mem_filter.2 ⟨hmem, by simp⟩, ?_⟩
          simpa using hcd
        obtain ⟨e, he, hs⟩ := ih d (by omega)
        exact ⟨e, by unfold walk; simpa only [hf, if_true, hd] using he, .next hf hd hs⟩
    · exact ⟨c, by unfold walk; rw [if_neg hf], .stop fun hf' => absurd hf' hf⟩

namespace Stands

theorem mem (hs : h.Stands m c d) : d = c ∨ d ∈ m.copies := by
  induction hs with
  | stop _ => exact .inl rfl
  | next _ hd _ ih =>
    refine .inr (ih.elim (fun heq => ?_) id)
    exact heq ▸ List.mem_map_of_mem (Memo.mem_of_get? hd)

theorem stops (hs : h.Stands m c d) : (h.cell d).frozen = true → m.get? d = none := by
  induction hs with
  | stop hs => exact hs
  | next _ _ _ ih => exact ih

theorem congr (hs : h.Stands m c d) (hf : ∀ c, (h'.cell c).frozen = (h.cell c).frozen) : h'.Stands m c d := by
  induction hs with
  | stop hs => exact .stop fun hc => hs (hf _ ▸ hc)
  | next hc hd _ ih => exact .next (by rw [hf, hc]) hd ih

theorem unique {e : CellId} (hd : h.Stands m c d) (he : h.Stands m c e) : d = e := by
  induction hd with
  | stop hs =>
    cases he with
    | stop _ => rfl
    | next hf hget _ => simp [hs hf] at hget
  | next hf hget _ ih =>
    cases he with
    | stop hs => simp [hs hf] at hget
    | next _ hget' he => exact ih (Option.some.inj (hget.symm.trans hget') ▸ he)

end Stands

/-- What a label sees is where the walk through its memo ends. -/
theorem standIn_of_stands (hb : (h.cell c).body = .label s) (hm : ∀ e ∈ s.memo.entries, e.1 < e.2)
    (hs : h.Stands s.memo o r) : h.standIn c o = .ok r := by
  obtain ⟨r', hr', hs'⟩ := h.walk_ok hm s.memo.size o (List.length_filter_le _ _)
  rw [hs.unique hs', standIn, h.label_eq hb]
  exact hr'

theorem exists_stands (h : Heap) (hm : ∀ e ∈ m.entries, e.1 < e.2) (o : CellId) : ∃ r, h.Stands m o r := by
  obtain ⟨r, -, hs⟩ := h.walk_ok hm m.size o (List.length_filter_le _ _)
  exact ⟨r, hs⟩

/-! ### Walks that cannot be told apart -/

/-- The objects that a walk along the entries of a memo comes to. -/
inductive Passes (h : Heap) (m : Memo) : CellId → CellId → Prop where
  | here {o : CellId} : Passes h m o o
  | next {o p x : CellId} : (h.cell o).frozen = true → m.get? o = some p → Passes h m p x → Passes h m o x

theorem Stands.passes (hs : h.Stands m o r) : h.Passes m o r := by
  induction hs with
  | stop _ => exact .here
  | next hf hget _ ih => exact .next hf hget ih

/-- Two memos and two heaps between which no walk tells the difference, as long as it stays among some objects: these
have the same entries and are as frozen, and their copies are among them. -/
structure Alike (h : Heap) (m : Memo) (h' : Heap) (m' : Memo) (P : CellId → Prop) : Prop where
  frozen : ∀ o, P o → (h'.cell o).frozen = (h.cell o).frozen
  entries : ∀ o, P o → m'.get? o = m.get? o
  copies : ∀ o p, P o → m.get? o = some p → P p

namespace Alike

protected theorem symm (ha : h.Alike m h' m' P) : h'.Alike m' h m P where
  frozen o ho := (ha.frozen o ho).symm
  entries o ho := (ha.entries o ho).symm
  copies o p ho hget := ha.copies o p ho (ha.entries o ho ▸ hget)

theorem stands (ha : h.Alike m h' m' P) (hs : h.Stands m o r) (ho : P o) : h'.Stands m' o r := by
  induction hs with
  | stop hs =>
    apply Stands.stop
    rw [ha.frozen _ ho, ha.entries _ ho]
    exact hs
  | next hf hget _ ih =>
    apply Stands.next
    · rw [ha.frozen _ ho, hf]
    · rw [ha.entries _ ho, hget]
    · exact ih (ha.copies _ _ ho hget)

theorem passes (ha : h.Alike m h' m' P) (hx : h.Passes m o x) (ho : P o) : h'.Passes m' o x := by
  induction hx with
  | here => exact .here
  | next hf hget _ ih =>
    apply Passes.next
    · rw [ha.frozen _ ho, hf]
    · rw [ha.entries _ ho, hget]
    · exact ih (ha.copies _ _ ho hget)

end Alike

theorem Passes.mem (hx : h.Passes m o x) : x = o ∨ x ∈ m.copies := by
  induction hx with
  | here => exact .inl rfl
  | next _ hget _ ih =>
    have hp := List.mem_map_of_mem (f := Prod.snd) (Memo.mem_of_get? hget)
    exact .inr (ih.elim (fun heq => heq ▸ hp) id)

/-! ### Entries whose source is there -/

/-- The entries of a memo whose sources are still there. -/
def current (h : Heap) (m : Memo) : Memo := ⟨m.entries.filter fun e => (h.cell e.1).alive⟩

theorem mem_current {e : CellId × CellId} :
    e ∈ (h.current m).entries ↔ e ∈ m.entries ∧ (h.cell e.1).alive = true := List.mem_filter

theorem get?_current {o : CellId} (m : Memo) (ho : (h.cell o).alive = true) : (h.current m).get? o = m.get? o := by
  unfold current Memo.get?
  rw [List.find?_filter]
  congr 2
  funext e
  by_cases he : e.1 = o
  · simp [he, ho]
  · simp [he]

/-! ### Labels that are kept -/

theorem label_of_kept {hold : List Task} (hk : h.Kept hold h') (hc : h.Reach (h.Held hold) c) :
    h'.label c = h.label c := by
  have hbody : (h'.cell c).body = (h.cell c).body := hk.body hc
  simp only [label, Cell.label?, hbody]

namespace Sees

theorem of_kept {hold : List Task} (hk : h.Kept hold h') (hs : h'.Sees l o r)
    (hl : ∀ c, l = .counted c → h.Reach (h.Held hold) c) : h.Sees l o r := by
  cases l with
  | counted c =>
    have hs : h'.Stands (h'.label c).memo o r := hs
    rw [label_of_kept hk (hl c rfl)] at hs
    exact hs.congr fun d => (hk.fades.frozen d).symm
  | _ => exact hs

/-- What a label sees is the object itself, or one of the label's copies. -/
theorem reach {hold : List Task} (hs : h.Sees l o r) (ho : h.Reach (h.Held hold) o)
    (hl : ∀ c, l = .counted c → h.Reach (h.Held hold) c) : h.Reach (h.Held hold) r := by
  cases l with
  | counted c =>
    have hs : h.Stands (h.label c).memo o r := hs
    rcases hs.mem with rfl | hr
    · exact ho
    · cases hb : (h.cell c).body with
      | object x =>
        rw [label, Cell.label?, hb] at hr
        cases hr
      | label s =>
        rw [h.label_eq hb] at hr
        exact .edge (hl c rfl) (mem_edges_of_copy hb hr)
  | _ => exact Eq.mpr (congrArg (h.Reach (h.Held hold)) (hs : r = o)) ho

end Sees

end Heap

end LazyHeap
