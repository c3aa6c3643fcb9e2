import LazyHeap.Proofs.Session.Chains

/-!
Walks advance. Each entry of a memo leads from an object to one that was made later, so the entries of a memo never go
round, a walk takes each of them at most once, and it comes to its end within as many steps as the memo has entries.
-/
namespace LazyHeap

variable {h : Heap} {m : Memo} {c d o r : CellId} {s : Label} {n : Nat}

namespace Heap

/-- How many entries of a memo are followed, from an object to another one. Each of them leads on from a frozen object. -/
inductive Strides (h : Heap) (m : Memo) : Nat → CellId → CellId → Prop where
  | here {c : CellId} : Strides h m 0 c c
  | next {n : Nat} {c d e : CellId} : (h.cell c).frozen = true → m.get? c = some d → Strides h m n d e →
    Strides h m (n + 1) c e

/-- A walk that ends has taken no more steps than it was given. -/
theorem strides_of_walk (hw : h.walk m n c = .ok d) : ∃ k ≤ n, h.Strides m k c d := by
  fun_induction walk h m n c with
  | case1 n c hf hget =>
    cases hw
    exact ⟨0, Nat.zero_le n, .here⟩
  | case2 c hf e hget => cases hw
  | case3 c hf e n hget ih =>
    obtain ⟨k, hk, hs⟩ := ih hw
    exact ⟨k + 1, Nat.succ_le_succ hk, .next hf hget hs⟩
  | case4 n c hf =>
    cases hw
    exact ⟨0, Nat.zero_le n, .here⟩

theorem lt_of_entries (hm : ∀ e ∈ m.entries, e.1 < e.2) (hr : Relation.TransGen (fun a b => (a, b) ∈ m.entries) o r) :
    o < r := by
  induction hr with
  | single he => exact hm _ he
  | tail _ he ih => exact Nat.lt_trans ih (hm _ he)

end Heap

namespace Situation

variable {x : Situation} {m : Moment}

/-- In every run in which no header is changed by hand, at any moment: the value of an entry was made later than its source,
so entries never lead round. A walk from any object comes to its end in as many steps as the memo has entries, or less, at
an object that is not frozen or has no entry; and where the label is there, it ends at an object with owners if it started
at one. No request that comes next gives up a walk. -/
theorem strides_of_runs (hrun : Runs HeadersKept initial x) (hm : Course {} x.moment m) :
    (∀ c s, (m.heap.cell c).body = .label s →
      (∀ e ∈ s.memo.entries, m.heap.IsObject e.1 ∧ m.heap.IsObject e.2 ∧ e.1 < e.2) ∧
      (∀ o r, Relation.TransGen (fun a b => (a, b) ∈ s.memo.entries) o r → o < r) ∧
      ∀ o, ∃ n r, n ≤ s.memo.size ∧ m.heap.Strides s.memo n o r ∧ m.heap.standIn c o = .ok r ∧
        ((m.heap.cell r).frozen = true → s.memo.get? r = none) ∧
        (m.heap.Live c → (m.heap.cell o).alive = true → (m.heap.cell r).alive = true)) ∧
    ∀ rs, Request.OnlyAll (fun _ op => op ≠ .header .change) rs →
      Request.runAll x.locked rs x.session ≠ .error .memoLoop := by
  have ha := at_headersKept hrun
  have hs : Safe {} m := (Safe.initial fun _ => id).course (ha.course_moment.trans hm)
  constructor
  · intro c s hb
    have hfits := hs.fits c
    rw [hb] at hfits
    have horder : ∀ e ∈ s.memo.entries, e.1 < e.2 := fun e he => (hfits.entries e he).2.2
    refine ⟨hfits.entries, fun o r => Heap.lt_of_entries horder, fun o => ?_⟩
    obtain ⟨r, hr⟩ := m.heap.exists_stands horder o
    have hstand := Heap.standIn_of_stands hb horder hr
    have hwalk := hstand
    rw [Heap.standIn, m.heap.label_eq hb] at hwalk
    obtain ⟨n, hn, hstrides⟩ := Heap.strides_of_walk hwalk
    refine ⟨n, r, hn, hstrides, hstand, hr.stops, fun hc ho => ?_⟩
    rcases hr.mem with rfl | hmem
    · exact ho
    · exact (hs.live_of_edge hc (Heap.mem_edges_of_copy hb hmem)).alive
  · intro rs hrs he
    rcases misuse_of_runAll ha hrs he with h | h | h <;> cases h

theorem strides_of_copiedNode : ∃ x s, initial.after copiedNode = some x ∧ (x.session.heap.cell 1).body = .label s ∧
    s.memo.entries = [(2, 3)] ∧ (∃ n ≤ 1, x.session.heap.Strides s.memo n 2 3) ∧ (x.session.heap.cell 3).alive = true ∧
    ∀ rs, Request.OnlyAll (fun _ op => op ≠ .header .change) rs →
      Request.runAll x.locked rs x.session ≠ .error .memoLoop := by
  obtain ⟨x, hx, h⟩ : ∃ x, initial.after copiedNode = some x ∧ (((x.session.heap.cell 1).label?).map (·.memo.entries),
      x.session.heap.standIn 1 2, (x.session.heap.cell 1).shared, (x.session.heap.cell 1).destroyed,
      (x.session.heap.cell 1).flags.collected, (x.session.heap.cell 2).alive) = (some [(2, 3)], .ok 3, 3, false, false, true) :=
    Option.map_eq_some_iff.1 (by cbv)
  simp only [Prod.mk.injEq] at h
  obtain ⟨hlabel, hseen, hshared, hdestroyed, hcollected, halive⟩ := h
  obtain ⟨s, hs, hentries⟩ := Option.map_eq_some_iff.1 hlabel
  have hlive : x.session.heap.Live 1 := ⟨hshared ▸ by decide, hdestroyed, hcollected⟩
  obtain ⟨hlabels, hruns⟩ := strides_of_runs (runs_of_after rfl hx (by simp [copiedNode])) .refl
  obtain ⟨-, -, hwalks⟩ := hlabels 1 s (Cell.body_of_label? hs)
  obtain ⟨n, r, hn, hstrides, hstand, -, hleft⟩ := hwalks 2
  cases hseen.symm.trans hstand
  refine ⟨x, s, hx, Cell.body_of_label? hs, hentries, ⟨n, ?_, hstrides⟩, hleft hlive halive, hruns⟩
  rwa [Memo.size, hentries] at hn

end Situation

end LazyHeap
