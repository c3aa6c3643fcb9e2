import LazyHeap.Proofs.Particles.Draws
import LazyHeap.Proofs.Session.Isolation

/-!
Whole simulations. After a step all that the population reaches is frozen, so the particles can be finished; their histories are
then read, and once the population is dropped a round leaves nothing but the root label. What is read are the numbers of the plain
simulation.
-/
namespace LazyHeap

variable {rules : Rules} {frame hold : List Task} {h k : Heap} {c : CellId} {p q : Pointer} {ps : List Pointer}
variable {annals : CellId → List Int} {vs : List Int} {vss : List (List Int)}

/-! ### A population at rest -/

namespace Heap

theorem Reach.frozen (hr : h.Reach (h.Held (ps.flatMap Pointer.tasks)) c)
    (hs : Safe rules ⟨h, [], [], ps.flatMap Pointer.tasks ++ frame⟩)
    (hu : h.Uncopied annals) (hset : rules.Settled) (hclosed : rules.closed = true) (hlenient : rules.lenient = false)
    (hfits : ∀ p ∈ ps, p.Fits rules.sealed h) (hps : ∀ p ∈ ps, p.Resting h) (hc : h.IsObject c) : (h.cell c).frozen = true := by
  induction hr with
  | @source c hheld =>
    have hheld := hheld.resolve_right fun hstanding => hs.toSound.not_object_of_standing hstanding hc
    obtain ⟨p, hp, ht⟩ := List.mem_flatMap.1 hheld
    rcases List.mem_append.1 ht with ht | ht
    · exact (hps p hp).frozen c (by simpa using ht)
    · exact absurd (by simpa [Handle.tasks] using ht) ((hfits p hp).label.not_object hc)
  | @edge x c hx he ih =>
    have hreach : h.Reach (h.Held (ps.flatMap Pointer.tasks ++ frame)) x :=
      hx.subset fun _ => Or.imp_left (List.mem_append_left _)
    cases hb : (h.cell x).body with
    | object b =>
      have hlead : b.LeadsTo c := hs.toSound.leadsTo_of_edge hb he hc
      exact hs.abides.closed hclosed hlenient x b hb (ih ⟨b, hb⟩) (hset x) c hlead
    | label s =>
      -- a label that copied nothing leads to another label at most
      have hmemo : s.memo.copies = [] := congrArg (List.map _) (hu.memo x s hb (hs.live_of_reach hreach).destroyed)
      have hfits := hs.fits x
      rw [show (Moment.heap _).cell x = h.cell x from rfl, hb] at hfits
      rw [Cell.edges, hb] at he
      exact absurd (by simpa [hmemo] using he) (hfits.forward.not_object hc)

/-- What a population at rest does not reach may be forgotten; then all is ready for finishing it. -/
theorem Uncopied.ready (hu : h.Uncopied annals) (hs : Safe rules ⟨h, [], [], ps.flatMap Pointer.tasks ++ frame⟩)
    (hset : rules.Settled) (hclosed : rules.closed = true) (hlenient : rules.lenient = false)
    (hfits : ∀ p ∈ ps, p.Fits rules.sealed h) (hps : ∀ p ∈ ps, p.Resting h) :
    ∃ annals', (h.Chronicle true annals' fun _ => False) ∧ ∀ p ∈ ps, p.past annals' = p.past annals := by
  classical
  let reached : CellId → Prop := h.Reach (h.Held (ps.flatMap Pointer.tasks))
  let annals' : CellId → List Int := fun c => if reached c then annals c else []
  have hsame : ∀ {c}, reached c → annals' c = annals c := fun hc => if_pos hc
  refine ⟨annals', ⟨fun c b hb hd _ hpast => ?_, fun c s hs hd e he => ?_, fun c => ?_⟩, fun p hp => ?_⟩
  · have hc : reached c := by
      by_contra hc
      exact hpast (if_neg hc)
    rw [hsame hc]
    refine ⟨(hu.tells hb hd).congr fun t ht => hsame (.edge hc (mem_edges_of_leadsTo hb ht)), fun _ hun => ?_⟩
    exact absurd (hun.symm.trans (hc.frozen hs hu hset hclosed hlenient hfits hps ⟨b, hb⟩)) Bool.false_ne_true
  · rw [hu.memo c s hs hd] at he
    cases he
  · by_cases hc : reached c
    · rw [hsame hc]
      exact hu.chronicle.short c
    · rw [show annals' c = [] from if_neg hc]
      exact Nat.zero_le c
  · exact Pointer.past_congr fun t ht => hsame (.source (.inl (List.mem_flatMap.2 ⟨p, hp, p.mem_tasks ht⟩)))

theorem Thawed.complete {sealed : CellId → Prop} (ht : h.Thawed) (hs : Sound sealed ⟨h, [], [], hold⟩) :
    h.Complete h.IsObject where
  object _ := id
  thawed := ht
  onward c o t _ ho := by
    rintro ⟨q, hq, htarget⟩
    have hfits := hs.fits c
    rw [show (Moment.heap _).cell c = h.cell c from rfl, ho] at hfits
    exact (hfits.2 _ hq).target t htarget

end Heap

namespace Particles

section Finishing

variable (hset : rules.Settled) (hsteady : ∀ c, ¬ rules.steady c) (hfixed : ∀ c, ¬ rules.fixed c) (hclosed : rules.closed = true)
include hset hsteady hfixed hclosed

/-- Finishing the particles one after the other leaves each with its history. -/
theorem finishAll_spec (hps : List.Forall₂ (Pointer.Recalls rules.sealed annals h) vss ps) :
    ∀ {frame : List Task}, (∀ p ∈ ps, p.Labelled) → Safe rules ⟨h, [], [], ps.flatMap Pointer.tasks ++ frame⟩ →
    (h.Chronicle true annals fun _ => False) → h.Leafless →
    Ends (fun _ => False) (ps.mapM Pointer.finish h) fun qs k => ∃ annals', (∀ c < h.size, annals' c = annals c) ∧ h.Grows k ∧
      k.scopes = h.scopes ∧ Safe rules ⟨k, [], [], qs.flatMap Pointer.tasks ++ frame⟩ ∧
      (k.Chronicle true annals' fun _ => False) ∧ List.Forall₂ (Pointer.Recalls rules.sealed annals' k) vss qs := by
  induction ps generalizing h annals vss with
  | nil =>
    intro frame _ hs hc _
    cases hps
    exact ⟨annals, fun _ _ => rfl, .refl h, rfl, hs, hc, .nil⟩
  | cons p ps ih =>
    intro frame hlab hs hc hleaf
    obtain _ | @⟨vs, _, vss, _, hp, hps⟩ := hps
    obtain ⟨hl, hlab⟩ := List.forall_mem_cons.1 hlab
    have hh : Holding (.sparing rules.sealed) rules [] (ps.flatMap Pointer.tasks ++ frame) h p.tasks :=
      hs.holding (.of_eq (List.append_assoc ..))
    rw [List.mapM_cons]
    refine .bind (Pointer.finish_tells hh hp.fits hset hsteady hfixed hclosed hleaf hl hc (hp.past.trans_ne hp.nonempty)) ?_
    rintro q h₁ ⟨hh₁, hfits, hg₁, hscopes₁, hleaf₁, annals₁, hold₁, hc₁, hpast⟩
    have hs₁ : Safe rules ⟨h₁, [], [], ps.flatMap Pointer.tasks ++ (q.tasks ++ frame)⟩ :=
      (hh₁.safe.step (.arrange (List.perm_append_comm_assoc ..))).1
    refine .bind (ih (hps.imp fun _ _ hp => hp.later hg₁ hold₁) hlab hs₁ hc₁ hleaf₁) ?_
    rintro qs k ⟨annals₂, hold₂, hg₂, hscopes₂, hs₂, hc₂, hqs⟩
    refine .pure ⟨annals₂, fun c hc => (hold₂ c (Nat.lt_of_lt_of_le hc hg₁.size)).trans (hold₁ c hc), hg₁.trans hg₂,
      hscopes₂.trans hscopes₁, ?_, hc₂, .cons (Pointer.Recalls.later ⟨hfits, hpast.trans hp.past, hp.nonempty⟩ hg₂ hold₂) hqs⟩
    exact (hs₂.step (.arrange (by
      rw [List.flatMap_cons, List.append_assoc]
      exact List.perm_append_comm_assoc ..))).1

/-- Before the first step nothing is to be finished; after a step all particles are at rest, and can be finished. -/
theorem finishPopulation_spec (hlenient : rules.lenient = false)
    (hps : List.Forall₂ (Pointer.Recalls rules.sealed annals h) vss ps)
    (hs : Safe rules ⟨h, [], [], ps.flatMap Pointer.tasks ++ frame⟩)
    (hu : h.Uncopied annals) (hrest : h.Thawed ∨ ∀ p ∈ ps, p.Resting h) :
    Ends (fun _ => False) (ps.mapM Pointer.finish h) fun qs k => ∃ ready annals', k.scopes = [] ∧
      Safe rules ⟨k, [], [], qs.flatMap Pointer.tasks ++ frame⟩ ∧ (k.Chronicle ready annals' fun _ => False) ∧
      List.Forall₂ (Pointer.Recalls rules.sealed annals' k) vss qs := by
  have hrecalls : ∀ p ∈ ps, ∃ vs ∈ vss, p.Recalls rules.sealed annals h vs := fun p hp => forall₂_exists_left hps hp
  rcases hrest with hthawed | hresting
  · have hh : Holding .calm rules [] frame h (ps.flatMap Pointer.tasks) := hs.holding (.refl _)
    have hsame : ps.mapM Pointer.finish h = .ok (ps.map id, h) := mapM_same fun p hp => by
      obtain ⟨vs, -, hr⟩ := hrecalls p hp
      exact (hthawed.complete hs.toSound).finish_same hh hr.fits.target
    rw [List.map_id] at hsame
    exact .of_ok hsame ⟨false, annals, hu.scopes, hs, hu.chronicle, hps⟩
  · have hfits : ∀ p ∈ ps, p.Fits rules.sealed h := fun p hp => (hrecalls p hp).elim fun _ hr => hr.2.fits
    obtain ⟨annals', hc, hpast⟩ := hu.ready hs hset hclosed hlenient hfits hresting
    have hps' : List.Forall₂ (Pointer.Recalls rules.sealed annals' h) vss ps :=
      ((List.forall₂_and_left _ _).2 ⟨hpast, hps.flip⟩).flip.imp fun vs p ⟨hpast, hr⟩ =>
        ⟨hr.fits, hpast.trans hr.past, hr.nonempty⟩
    refine (finishAll_spec hset hsteady hfixed hclosed hps' (fun p hp => .inr (hresting p hp).label) hs hc hu.leafless).imp ?_
    rintro qs k ⟨annals'', -, -, hscopes, hs', hc', hqs⟩
    exact ⟨true, annals'', hscopes.trans hu.scopes, hs', hc', hqs⟩

end Finishing
end Particles

/-! ### The end -/

theorem Heap.Collected.only_root {o : RoundOutcome} (hc : h.Collected k [] o) (hs : Safe rules ⟨k, [], [], []⟩)
    (hscopes : k.scopes = []) (hne : c ≠ rootCell) : (k.cell c).destroyed = true := by
  by_contra hd
  refine hne ((hc.left c (Bool.eq_false_iff.2 hd)).subset (fun d hheld => ?_) |>.eq_of_edges hs.abides.root)
  have hstanding := hheld.resolve_left List.not_mem_nil
  rw [Heap.standing, hscopes] at hstanding
  simpa using hstanding

theorem Heap.Uncopied.initial : Heap.initial.Uncopied fun _ => [] where
  chronicle := ⟨fun c b hb => (by cases (body_initial c).symm.trans hb), fun c s hs _ e he => rfl, fun c => Nat.zero_le c⟩
  past c := by
    rintro ⟨b, hb⟩
    cases (body_initial c).symm.trans hb
  memo c s hs _ := by
    cases (body_initial c).symm.trans hs
    rfl
  scopes := rfl

namespace Particles

variable {particles : Nat} {draws : List StepDraws}

/-- What is reported of a population whose histories can be read. It is dropped, and a round leaves nothing of it. -/
private theorem report_spec {ready : Bool} {E : Fault → Prop} (hps : List.Forall₂ (Pointer.Recalls rules.sealed annals h) vss ps)
    (hs : Safe rules ⟨h, [], [], ps.flatMap Pointer.tasks ++ []⟩) (hc : h.Chronicle ready annals fun _ => False)
    (hscopes : h.scopes = []) :
    Ends E ((do
      let valued ← ps.mapM readValue
      let population := valued.map (·.1)
      let lengths ← population.mapM historyLength
      population.forM Pointer.drop
      let round ← collectCycles
      return ⟨valued.filterMap (·.2), lengths.foldl max 0, round, (← get).totals⟩ : HeapM Summary) h) fun s k =>
        s.values = (vss.map List.head?).filterMap id ∧ s.longest = (vss.map List.length).foldl max 0 ∧
        ∀ c, c ≠ rootCell → (k.cell c).destroyed = true := by
  have hh : Holding .calm rules [] [] h (ps.flatMap Pointer.tasks) := hs.holding (.refl _)
  refine .bind (readValues_spec hps hh hc) fun ys h₁ ⟨hvalues, hys, hr₁⟩ => ?_
  have hc₁ : h₁.Chronicle ready annals fun _ => False := hc.kept (show h.Kept [] h₁ from hr₁.keeps)
  have hlent : Holding .calm rules [] ((ys.map (·.1)).flatMap Pointer.tasks ++ []) h₁ [] := (hh.run hr₁).focus (.refl _)
  refine .bind (historyLengths_spec hys hlent hc₁ fun t ht => List.mem_append_left _ ht) fun ns h₂ ⟨hns, hr₂⟩ => ?_
  have hrun₂ := hr₁.trans hr₂.widen
  refine .bind (dropAll_spec (hh.run hrun₂)) fun _ h₃ hr₃ => ?_
  have hrun₃ := hrun₂.trans hr₃
  refine .bind (collectCycles_spec (hh.run hrun₃)) fun o k ⟨hcol, hr₄⟩ => .get_bind (.pure ?_)
  have hrun := hrun₃.trans hr₄
  refine ⟨?_, congrArg (List.foldl max 0) hns, fun c hc =>
    hcol.only_root (hh.run hrun).safe (hrun.keeps.scopes.trans hscopes) hc⟩
  calc ys.filterMap (·.2) = (ys.map (·.2)).filterMap id := by rw [List.filterMap_map]; rfl
    _ = (vss.map List.head?).filterMap id := by rw [hvalues]

/-- With draws that fit, the simulation comes to its end; it gives what the plain simulation gives, each history has a state for
each step and one for the start, and nothing is left in the heap. -/
theorem simulate_spec (cycles : Bool) (settings : Settings) (hp : 0 < particles) (hd : ∀ d ∈ draws, d.Fits particles) :
    Ends (fun _ => False) (simulate cycles particles draws { Heap.initial with settings := some settings }) fun s k =>
      s.values = plainValues particles draws ∧ s.longest = draws.length + 1 ∧
      ∀ c, c ≠ rootCell → (k.cell c).destroyed = true := by
  let rules : Rules := { closed := true }
  have hset : rules.Settled := fun _ => id
  have hnone : ∀ c : CellId, ¬ (fun _ => False) c := fun _ => id
  have hstart : Advance rules ⟨.initial, [], [], []⟩ ⟨{ Heap.initial with settings := some settings }, [], [], []⟩ :=
    .clerical rfl (Nat.le_refl _)
  have hs := ((Safe.initial fun _ => id).step hstart).1
  have hu : Heap.Uncopied (fun _ => []) { Heap.initial with settings := some settings } :=
    Heap.Uncopied.initial.of_cells rfl rfl
  have hthawed : Heap.Thawed { Heap.initial with settings := some settings } := by
    rintro c ⟨b, hb⟩
    cases (Heap.body_initial c).symm.trans hb
  unfold simulate
  refine .bind (newParticles_spec particles hs hu) fun ps h₁ ⟨annals₁, he₁, hps, hthawed₁⟩ => ?_
  have hd' : ∀ d ∈ draws, d.Fits (List.replicate particles [(0 : Int)]).length := by
    rw [List.length_replicate]
    exact hd
  refine .bind (steps_spec hset hnone hnone hps hd' he₁.safe he₁.uncopied (.inl (hthawed₁ hthawed))) ?_
  rintro qs h₂ ⟨annals₂, he₂, hqs, hrest⟩
  refine .bind (finishPopulation_spec hset hnone hnone rfl rfl hqs he₂.safe he₂.uncopied hrest) ?_
  rintro rs h₃ ⟨ready, annals₃, hscopes, hs₃, hc₃, hrs⟩
  refine (report_spec hrs hs₃ hc₃ hscopes).imp fun s k ⟨hvalues, hlongest, hleft⟩ => ?_
  obtain ⟨hhist, hplain⟩ := (Histories.start particles).steps hd
  rw [Nat.add_comm] at hhist
  rw [List.map_replicate] at hplain
  exact ⟨hvalues.trans (hhist.heads.trans hplain), hlongest.trans (hhist.longest hp), hleft⟩

end Particles

/-! ### The program -/

namespace Plan

variable {p : Plan} {draws : List Particles.StepDraws}

theorem validate_settings (hp : p.threshold ≠ some 0) : p.settings.validate = .ok () := by
  have hthreshold : p.threshold.getD 10000 ≠ 0 := by
    cases hn : p.threshold with
    | none => decide
    | some n => exact fun he => hp (hn.trans (congrArg some he))
  exact (if_neg hthreshold).trans (if_neg (by decide : ¬ Settings.largestMemoCapacity < 16))

/-- Whatever is asked for, so long as the threshold is not zero, and whatever is drawn: the simulation comes to its end, and the
first two lines that the program prints are the values of the plain simulation and a longest history with a state for each step and
one for the start. No object is left. What is drawn from a generator is such a list of draws. -/
theorem run_simulates (hp : p.threshold ≠ some 0) (hd : p.Fits draws) : (∀ g, p.Fits (p.draws g)) ∧
    ∃ s k, (Particles.simulate p.cycles p.population draws).run { Heap.initial with settings := some p.settings } = .ok (s, k) ∧
      p.run draws = ⟨0, "final values: [" ++ ", ".intercalate ((Particles.plainValues p.population draws).map toString) ++ "]\n" ++
        "longest history: " ++ toString (p.steps + 1) ++ "\n" ++ s.statistics, ""⟩ ∧
      ∀ c, c ≠ rootCell → (k.cell c).destroyed = true := by
  obtain ⟨s, k, hend, hvalues, hlongest, hleft⟩ :=
    (Particles.simulate_spec p.cycles p.settings p.population_pos hd.steps).exists_ok
  have hrun : (Particles.simulate p.cycles p.population draws).run { Heap.initial with settings := some p.settings } =
    .ok (s, k) := hend
  refine ⟨p.fits_draws, s, k, hrun, ?_, hleft⟩
  rw [run, validate_settings hp]
  dsimp only
  rw [hrun, ← hvalues, ← hd.length, ← hlongest]
  rfl

/-- A plan with everything that can be asked for, and what is drawn for it from its seed. -/
theorem run_simulates_threeParticles :
    let p : Plan := { particles := 3, steps := 2, threshold := some 1, autoCollect := true, cycles := true }
    let draws : List Particles.StepDraws := [⟨[2, -2, -3], [2, 0, 2]⟩, ⟨[3, -2, 0], [2, 1, 1]⟩]
    (p.threshold ≠ some 0 ∧ p.Fits draws) ∧ (∀ g, p.Fits (p.draws g)) ∧
    ∃ s k, (Particles.simulate p.cycles p.population draws).run { Heap.initial with settings := some p.settings } = .ok (s, k) ∧
      p.run draws = ⟨0, "final values: [-3, 0, 0]\nlongest history: 3\n" ++ s.statistics, ""⟩ ∧
      ∀ c, c ≠ rootCell → (k.cell c).destroyed = true := by
  intro p draws
  have hp : p.threshold ≠ some 0 := by decide
  have hd : p.Fits draws := ⟨rfl, List.forall_mem_cons.2 ⟨⟨rfl, rfl, by decide⟩, List.forall_mem_singleton.2 ⟨rfl, rfl, by decide⟩⟩⟩
  refine ⟨⟨hp, hd⟩, ?_⟩
  have hprints : "final values: [" ++ ", ".intercalate ((Particles.plainValues p.population draws).map toString) ++ "]\n" ++
      "longest history: " ++ toString (p.steps + 1) ++ "\n" = "final values: [-3, 0, 0]\nlongest history: 3\n" := by decide
  have hruns := run_simulates hp hd
  rwa [hprints] at hruns

end Plan
end LazyHeap
