import LazyHeap.Proofs.Round.Sorting
import Mathlib.Logic.Relation

/-!
The accounts of a round. Marking takes each edge that leaves a cell it looked into off the count of its target; the scan
gives back what leaves the cells that are live. What is missing from a count between the phases is thus known in terms of
colours alone, in whatever order candidates and edges are taken.
-/
namespace LazyHeap

/-- The edges that leave the cells of a sort. -/
def Heap.edgesFrom (h : Heap) (p : CellId → Bool) : List CellId := h.out ((List.range h.size).filter p)

/-- The same heap, in which candidates and the edges of each cell come in some other order. -/
structure Heap.Rearranged (h k : Heap) : Prop where
  size : k.size = h.size
  edges : ∀ c, (k.cell c).edges.Perm (h.cell c).edges
  shared : ∀ c, (k.cell c).shared = (h.cell c).shared
  flags : ∀ c, (k.cell c).flags = (h.cell c).flags
  locked : ∀ c, (k.cell c).locked = (h.cell c).locked
  candidates : k.candidates.toList.Perm h.candidates.toList

/-- What is known of the counts on which a round works. `s` is what marking from the candidates leaves, `s'` what the scan
from the roots leaves; a marked cell is one that is gray between the two. -/
structure Accounted (h : Heap) (s s' : Survey) (roots : List CellId) : Prop where
  marked : ∀ c, s.heap.colour c = .gray → (s.heap.cell c).reachable +
    (h.edgesFrom fun x => s.heap.colour x = .gray ∧ x ∉ s.shut).count c = (h.cell c).shared
  settled : ∀ c, s'.heap.colour c ≠ .gray
  closed : ∀ c, s.heap.colour c = .gray → s'.heap.colour c = .black → c ∉ s.shut →
    ∀ d ∈ (h.cell c).edges, s.heap.colour d = .gray ∧ s'.heap.colour d = .black
  counted : ∀ c, s.heap.colour c = .gray →
    (s'.heap.cell c).reachable + (h.edgesFrom fun x => s'.heap.colour x = .white).count c = (h.cell c).shared
  white : ∀ c, s'.heap.colour c = .white → s.heap.colour c = .gray ∧ (s'.heap.cell c).reachable = 0 ∧
    ∃ r ∈ roots, s'.heap.colour r = .white ∧
      Relation.ReflTransGen (fun x d => d ∈ (h.cell x).edges ∧ s'.heap.colour d = .white) r c
  once : (reachLog s roots).Nodup
  reached : ∀ c, c ∈ reachLog s roots ↔ s.heap.colour c = .gray ∧ s'.heap.colour c = .black ∧ c ∉ s.shut

variable {h k : Heap} {roots shut traced dark : List CellId} {c : CellId}

namespace Heap

theorem count_edgesFrom (h : Heap) {p : CellId → Bool} {cs : List CellId} (hn : cs.Nodup)
    (hcs : ∀ x, x ∈ cs ↔ x < h.size ∧ p x = true) (c : CellId) : (h.edgesFrom p).count c = (h.out cs).count c := by
  have hperm : ((List.range h.size).filter p).Perm cs :=
    (List.perm_ext_iff_of_nodup (List.nodup_range.filter p) hn).2 fun x => by
      rw [List.mem_filter, List.mem_range, hcs]
  exact (hperm.flatMap_right _).count_eq c

theorem out_append (h : Heap) (cs ds : List CellId) : h.out (cs ++ ds) = h.out cs ++ h.out ds := List.flatMap_append

namespace Rearranged

protected theorem refl (h : Heap) : h.Rearranged h :=
  ⟨rfl, fun _ => .refl _, fun _ => rfl, fun _ => rfl, fun _ => rfl, .refl _⟩

theorem inward (hk : h.Rearranged k) (c : CellId) : k.inward c = h.inward c := by
  simp only [Heap.inward, Heap.total_eq_range, hk.size, (hk.edges _).count_eq]

theorem ready (hk : h.Rearranged k) (hr : h.Ready) : k.Ready where
  inward_le c := by
    rw [hk.inward, hk.shared]
    exact hr.inward_le c
  shared_dead c hd := by
    rw [hk.shared]
    exact hr.shared_dead c (by rwa [Cell.destroyed, hk.flags] at hd)
  collected c hc := by
    rw [Cell.destroyed, hk.flags]
    exact hr.collected c (by rwa [hk.flags] at hc)
  colour c := by
    rw [hk.flags]
    exact hr.colour c

end Rearranged

end Heap

namespace Marked

variable {s : Heap}

theorem gray_iff (hm : Marked h s roots [] shut traced) : s.colour c = .gray ↔ c ∈ shut ++ traced :=
  hm.marking.gray c

/-- The cells that marking has looked into are the gray ones that it has not shut. -/
theorem traced_iff (hr : h.Ready) (hm : Marked h s roots [] shut traced) :
    c ∈ traced ↔ s.colour c = .gray ∧ c ∉ shut := by
  rw [hm.gray_iff]
  constructor
  · exact fun ht => ⟨List.mem_append_right _ ht, (hm.graph hr).not_shut ht⟩
  · rintro ⟨hl, hs⟩
    exact (List.mem_append.1 hl).resolve_left hs

end Marked

namespace Scanning

variable {s : Heap} {lit : List CellId}

theorem listed_of_colour (hg : Graph h roots shut traced) (hs : Scanning h s roots shut traced dark lit [])
    (hc : s.colour c = .gray ∨ s.colour c = .white) : c ∈ shut ++ traced := by
  refine Classical.by_contradiction fun hl => ?_
  rw [Heap.colour, hs.reaching.sorting.others c hl] at hc
  exact hc.elim (hg.ready.colour c).1 (hg.ready.colour c).2

theorem colour_ne_gray (hg : Graph h roots shut traced) (hs : Scanning h s roots shut traced dark lit [])
    (hroots : ∀ c ∈ roots, s.colour c ≠ .gray) (c : CellId) : s.colour c ≠ .gray := fun hc =>
  hs.not_gray hg hroots ((hg.found c).1 (hs.listed_of_colour hg (.inl hc))) hc

/-- The lit cells are the marked ones that are black and were not shut. -/
theorem lit_iff (hg : Graph h roots shut traced) (hs : Scanning h s roots shut traced dark lit []) :
    c ∈ lit ↔ c ∈ traced ∧ s.colour c = .black := by
  constructor
  · intro hc
    exact ⟨hs.reaching.lit_traced c hc, (hs.reaching.sorting.listed c (List.mem_append_right _ hc)).2.1⟩
  · rintro ⟨ht, hb⟩
    have hlisted := (hs.reaching.sorting.colour_black_iff (List.mem_append_right _ ht)).1 hb
    exact (List.mem_append.1 hlisted).resolve_left fun hd => hg.not_shut ht (hs.reaching.dark_shut c (by simpa using hd))

theorem traced_of_white (hg : Graph h roots shut traced) (hs : Scanning h s roots shut traced dark lit [])
    (hc : s.colour c = .white) : c ∈ traced ∧ (s.cell c).reachable = 0 := by
  have hl := hs.listed_of_colour hg (.inr hc)
  have hb : c ∉ [] ++ dark ++ lit := fun hb => by
    rw [(hs.reaching.sorting.listed c hb).2.1] at hc
    cases hc
  exact ((hs.reaching.sorting.rest c hl hb).resolve_left fun hg' => by rw [hc] at hg'; cases hg').2

/-- A white cell is found from a root, and everything on the way is white: from a black cell only black ones are found,
and what is locked was not looked into. -/
theorem white_path (hg : Graph h roots shut traced) (hs : Scanning h s roots shut traced dark lit [])
    (hroots : ∀ c ∈ roots, s.colour c ≠ .gray) (hf : h.Found roots c) (hc : s.colour c = .white) :
    ∃ r ∈ roots, s.colour r = .white ∧
      Relation.ReflTransGen (fun x d => d ∈ (h.cell x).edges ∧ s.colour d = .white) r c := by
  induction hf with
  | @root c hr => exact ⟨c, hr, hc, .refl⟩
  | @edge x c hx hl he ih =>
    have hmem := (hg.found x).2 hx
    have ht : x ∈ traced := (List.mem_append.1 hmem).resolve_left fun hsh => by
      rw [hg.locked x hsh] at hl
      cases hl
    have hw : s.colour x = .white := by
      by_cases hb : x ∈ [] ++ dark ++ lit
      · have hlit := (hs.lit_iff hg).2 ⟨ht, (hs.reaching.sorting.listed x hb).2.1⟩
        have hblack := hs.reaching.sorting.closed c (List.mem_flatMap.2 ⟨x, hlit, he⟩)
        rw [(hs.reaching.sorting.listed c hblack).2.1] at hc
        cases hc
      · exact ((hs.reaching.sorting.rest x hmem hb).resolve_left (hs.not_gray hg hroots hx)).1
    obtain ⟨r, hr, hrw, hpath⟩ := ih hw
    exact ⟨r, hr, hrw, hpath.tail ⟨he, hc⟩⟩

/-- What a count lacks at the end are the edges from white cells: those from other cells were given back. -/
theorem count_white (hg : Graph h roots shut traced) (hs : Scanning h s roots shut traced dark lit [])
    (hroots : ∀ c ∈ roots, s.colour c ≠ .gray) (hc : c ∈ shut ++ traced) :
    (s.cell c).reachable + (h.edgesFrom fun x => s.colour x = .white).count c = (h.cell c).shared := by
  have hblack : ∀ x ∈ lit, s.colour x = .black := fun x hx => ((hs.lit_iff hg).1 hx).2
  have hnlit : lit.Nodup := (List.nodup_append.1 hs.reaching.sorting.nodup).2.1
  have hnwhite : (traced.filter fun x => s.colour x = .white).Nodup := hg.nodup_traced.filter _
  have hperm : traced.Perm (lit ++ traced.filter fun x => s.colour x = .white) := by
    refine (List.perm_ext_iff_of_nodup hg.nodup_traced (List.nodup_append.2 ⟨hnlit, hnwhite, ?_⟩)).2 fun x => ?_
    · rintro x hx y hy rfl
      have hw := of_decide_eq_true (List.mem_filter.1 hy).2
      rw [hblack x hx] at hw
      cases hw
    · rw [List.mem_append, hs.lit_iff hg, List.mem_filter, decide_eq_true_eq]
      constructor
      · intro hx
        have hgray := hs.colour_ne_gray hg hroots x
        have hl := List.mem_append_right shut hx
        rcases Classical.em (x ∈ [] ++ dark ++ lit) with hb | hb
        · exact .inl ⟨hx, (hs.reaching.sorting.listed x hb).2.1⟩
        · exact .inr ⟨hx, ((hs.reaching.sorting.rest x hl hb).resolve_left hgray).1⟩
      · rintro (hx | hx) <;> exact hx.1
  have hfrom : (h.edgesFrom fun x => s.colour x = .white).count c =
      (h.out (traced.filter fun x => s.colour x = .white)).count c := by
    refine h.count_edgesFrom hnwhite (fun x => ?_) c
    rw [List.mem_filter]
    refine and_congr_left fun hw => ⟨fun hx => hg.lt_size (List.mem_append_right _ hx), fun _ => ?_⟩
    exact (hs.traced_of_white hg (of_decide_eq_true hw)).1
  have hcount := hs.reaching.sorting.count c hc
  have hsplit : (h.out traced).count c =
      (h.out lit).count c + (h.out (traced.filter fun x => s.colour x = .white)).count c := by
    rw [← List.count_append, ← h.out_append]
    exact (hperm.flatMap_right _).count_eq c
  omega

end Scanning

theorem Marked.accounted (hr : h.Ready) {s : Survey} (hm : Marked h s.heap roots [] s.shut traced) :
    ∃ s', (scanPass s.shut).enterAll s roots = .ok s' ∧ Accounted h s s' roots := by
  obtain ⟨s', dark, hscan, -, hroots, hs⟩ := hm.scan hr
  have hg := hm.graph hr
  have hsort := hs.reaching.sorting
  refine ⟨s', hscan, ?_⟩
  exact {
    marked := fun c hc => by
      rw [h.count_edgesFrom hg.nodup_traced fun x => ?_]
      · exact hm.marking.count c (hm.gray_iff.1 hc)
      · rw [decide_eq_true_eq, hm.traced_iff hr]
        exact (and_iff_right_of_imp fun hx => hg.lt_size (hm.gray_iff.1 hx.1)).symm
    settled := hs.colour_ne_gray hg hroots
    closed := fun c hc hb hn d hd => by
      have hlit := (hs.lit_iff hg).2 ⟨(hm.traced_iff hr).2 ⟨hc, hn⟩, hb⟩
      obtain ⟨hl, hd, -⟩ := hsort.listed d (hsort.closed d (List.mem_flatMap.2 ⟨c, hlit, hd⟩))
      exact ⟨hm.gray_iff.2 hl, hd⟩
    counted := fun c hc => hs.count_white hg hroots (hm.gray_iff.1 hc)
    white := fun c hc => by
      obtain ⟨ht, hzero⟩ := hs.traced_of_white hg hc
      have hl := List.mem_append_right s.shut ht
      exact ⟨hm.gray_iff.2 hl, hzero, hs.white_path hg hroots ((hg.found c).1 hl) hc⟩
    once := (List.reverse_perm _).nodup_iff.1 (List.nodup_append.1 hsort.nodup).2.1
    reached := fun c => by
      rw [← List.mem_reverse, hs.lit_iff hg, hm.traced_iff hr, and_right_comm, and_assoc] }

/-- When a round can be opened, it marks and scans without fault, and its accounts are in order. -/
theorem Heap.Ready.accounted (hr : h.Ready) :
    ∃ s roots s', markCandidates ⟨h.rounding, [], []⟩ [] h.candidates.toList = .ok (s, roots) ∧
      (scanPass s.shut).enterAll s roots = .ok s' ∧ Accounted h s s' roots := by
  obtain ⟨s, roots, traced, hmark, hm, -⟩ :=
    markCandidates_spec hr.rounding (s := ⟨h.rounding, [], []⟩) h.candidates.toList (.start hr.rounding)
  obtain ⟨s', hscan, ha⟩ := hm.accounted hr.rounding
  exact ⟨s, roots, s', hmark, hscan, ha.marked, ha.settled, ha.closed, ha.counted, ha.white, ha.once, ha.reached⟩

end LazyHeap
