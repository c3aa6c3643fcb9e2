import LazyHeap.Proofs.Round.Claiming

/-!
A round waits for nothing. Marking tries locks only, and shuts what is locked. Whatever is traced after that was traced
while marking, hence it is not locked: a reach starts at cells that were marked and stops at those that are shut, a scan
goes on from white cells only, and what is claimed is white.
-/
namespace LazyHeap

variable {h : Heap} {s : Survey} {roots shut traced dark lit stack : List CellId} {c x : CellId}

/-- Reaching traces only what was traced while marking. -/
theorem Reaching.traces (hg : Graph h roots shut traced) (hshut : s.shut = shut)
    (hr : Reaching h s.heap roots shut traced stack dark lit) (hx : reachPass.Traces .none false s stack x) :
    x ∈ traced := by
  -- a cell that is not passed over is not shut
  have hopen : ∀ {s : Survey} {c : CellId} {rest dark lit : List CellId},
      Reaching h s.heap roots shut traced (c :: rest) dark lit → s.shut = shut → ¬ Pass.Skips s c → c ∈ traced := by
    intro s c rest dark lit hr hshut hskip
    obtain ⟨hd, hc⟩ := hr.top hg
    apply (hc.resolve_left _).1
    intro hs
    exact hskip (by simp [Pass.Skips, hshut, hs])
  induction hx generalizing dark lit with
  | top hskip _ => exact hopen hr hshut hskip
  | skip hskip _ ih =>
    obtain ⟨hd, -⟩ := hr.top hg
    exact ih hshut (hr.darken (by simpa [Pass.Skips, hd, hshut] using hskip))
  | shut _ _ ht _ _ => cases ht
  | inner _ _ _ _ hi => exact hi.elim
  | later hskip _ hv _ ih =>
    obtain ⟨s', new, hv', -, hr'⟩ := hr.light hg (hopen hr hshut hskip)
    rw [hr.sorting.marks.edges, hv'] at hv
    cases hv
    exact ih hshut hr'

namespace Scanning

variable {opened : List CellId}

theorem visit_traces (hg : Graph h roots shut traced) {k : Heap} (hs : Scanning h k roots shut traced dark lit opened)
    (hc : c ∈ shut ++ traced) (hx : Inner.scan shut k c x) : x ∈ traced := by
  obtain ⟨hgray, hlive, hx⟩ := hx
  rw [Bool.or_eq_true, decide_eq_true_eq, List.contains_eq_mem, decide_eq_true_eq] at hlive
  exact (hs.live hg hc hgray hlive).traces hg (s := ⟨_, shut, []⟩) rfl hx

theorem traces (hg : Graph h roots shut traced) (hshut : s.shut = shut)
    (hs : Scanning h s.heap roots shut traced dark lit stack)
    (hx : (scanPass shut).Traces (.scan shut) false s stack x) : x ∈ traced := by
  induction hx generalizing dark lit with
  | top _ _ => exact hs.open_traced _ List.mem_cons_self
  | skip hskip _ ih =>
    obtain ⟨ht, hd, hn, -⟩ := hs.top hg hshut
    rw [Pass.Skips, hd, hn] at hskip
    cases hskip
  | shut _ _ ht _ _ => cases ht
  | @inner s c d x rest pre post found k _ _ he hv hi =>
    have hedges : ∀ e ∈ pre ++ d :: post, e ∈ shut ++ traced := fun e hm => by
      rw [← he, hs.reaching.sorting.marks.edges] at hm
      exact hg.edge (hs.top hg hshut).1 hm
    have hpre : ∀ e ∈ pre, e ∈ shut ++ traced := fun e hm => hedges e (List.mem_append_left _ hm)
    obtain ⟨k', new, dark', hv', -, -, hs'⟩ := hs.visitAll hg [] hpre
    rw [hv'] at hv
    cases hv
    exact hs'.visit_traces hg (hedges d (by simp)) hi
  | later _ _ hv _ ih =>
    obtain ⟨k', new, dark', hv', -, hs'⟩ := hs.step hg hshut
    rw [hv'] at hv
    cases hv
    exact ih hshut hs'

theorem tracesAll (hg : Graph h roots shut traced) {cs : List CellId} (hshut : s.shut = shut)
    (hs : Scanning h s.heap roots shut traced dark lit []) (hcs : ∀ c ∈ cs, c ∈ shut ++ traced)
    (hx : (scanPass shut).TracesAll (.scan shut) s cs x) : x ∈ traced := by
  induction hx generalizing dark lit with
  | inner hi => exact hs.visit_traces hg (hcs _ List.mem_cons_self) hi
  | @here s c x cs found k hv hx =>
    obtain ⟨k, new, dark', hv', -, -, hs'⟩ := hs.visitAll hg [] fun d hd =>
      hcs d (List.mem_singleton.1 hd ▸ List.mem_cons_self)
    rw [hv', List.append_nil] at hv
    cases hv
    rw [List.append_nil] at hs'
    exact Scanning.traces (s := { s with heap := k, trail := found ++ s.trail }) hg hshut hs' hx
  | later he _ ih =>
    obtain ⟨s', dark', he', -, hshut', -, hs'⟩ := hs.enter hg hshut (hcs _ List.mem_cons_self)
    rw [he'] at he
    cases he
    exact ih hshut' hs' fun d hd => hcs d (List.mem_cons_of_mem _ hd)

end Scanning

namespace Claiming

variable {claimed : List CellId}

theorem traces (hw : h.Claimable s.shut) (hs : Claiming h s.heap claimed) (hstack : stack ⊆ claimed)
    (hx : collectPass.Traces .none false s stack x) : h.colour x = .white := by
  induction hx generalizing claimed with
  | top _ _ => exact hs.white _ (hstack List.mem_cons_self)
  | skip _ _ ih => exact ih hw hs (List.Subset.trans (List.subset_cons_self _ _) hstack)
  | shut _ _ ht _ _ => cases ht
  | inner _ _ _ _ hi => exact hi.elim
  | @later s c x rest found k _ _ hv _ ih =>
    obtain ⟨k', new, hv', hs', -⟩ := hs.visitAll hw [] (s.heap.cell c).edges
    rw [hv', List.append_nil] at hv
    cases hv
    apply ih hw hs'
    apply List.append_subset.2
    constructor
    · exact List.subset_append_left _ _
    · intro d hd
      exact List.mem_append_right _ (hstack (List.mem_cons_of_mem _ hd))

theorem tracesAll {cs : List CellId} (hw : h.Claimable s.shut) (hs : Claiming h s.heap s.trail)
    (hopen : ∀ x ∈ s.trail, ∀ d ∈ (h.cell x).edges, h.colour d = .white → d ∈ s.trail)
    (hx : collectPass.TracesAll .none s cs x) : h.colour x = .white := by
  induction hx with
  | inner hi => exact hi.elim
  | @here s c x cs found k hv hx =>
    obtain ⟨k', new, hv', hs', -⟩ := hs.visitAll hw [] [c]
    rw [hv', List.append_nil] at hv
    cases hv
    exact Claiming.traces (s := { s with heap := k, trail := found ++ s.trail }) hw hs' (List.subset_append_left _ _) hx
  | later he _ ih =>
    obtain ⟨s₁, he', hshut, hs₁, -, -, hopen₁⟩ := hs.enter _ hw hopen
    rw [he'] at he
    cases he
    exact ih (hshut ▸ hw) hs₁ hopen₁

end Claiming

/-- When a round can be opened, it traces after marking only what it traced to the end while marking, and nothing of that
is locked. -/
theorem Heap.tracedFirst_of_tracedLater {h : Heap} (hr : h.Ready) (hb : h.Buffered) {x : CellId} (hx : h.TracedLater x) :
    h.TracedFirst x ∧ (h.cell x).locked = false := by
  have hr := hr.rounding
  obtain ⟨s, roots, traced, hmark, hm, -, -, hfirst⟩ :=
    markCandidates_spec hr (s := ⟨h.rounding, [], []⟩) h.candidates.toList (.start hr)
  have hg := hm.graph hr
  suffices ht : x ∈ traced from ⟨(hfirst x ht).resolve_left List.not_mem_nil, hg.unlocked x ht⟩
  cases hx with
  | scan hmark' hx =>
    rw [hmark] at hmark'
    cases hmark'
    exact (hm.scanning hr).tracesAll hg rfl (fun c hc => hm.mem_of_found (.root hc)) hx
  | @collect _ s₂ _ _ hmark' hscan hx =>
    rw [hmark] at hmark'
    cases hmark'
    obtain ⟨s₁, hscan', hshut, hsort⟩ := scan_spec hr hm
    obtain rfl : s₁ = s₂ := Except.ok.inj (hscan'.symm.trans hscan)
    have hu := hsort.unbuffer hr hb.nodup hb.candidates
    have halive : ∀ c, h.rounding.Found roots c → (h.rounding.cell c).alive = true := fun c hc =>
      hr.alive_of_found hm.alive hc
    have hclaim := hu.claimable hr halive fun c hc => hm.locked c (hshut ▸ hc : c ∈ s.shut)
    have hwhite := Claiming.tracesAll (s := ⟨_, s₁.shut, []⟩) hclaim (.start _) (fun _ hc => nomatch hc) hx
    obtain ⟨hf, hns⟩ := (hu.white x).1 hwhite
    apply (List.mem_append.1 ((hg.found x).2 hf)).resolve_left
    intro hs
    exact hns (.locked (hm.locked x hs))

end LazyHeap
