import LazyHeap.Proofs.Particles.Resampling
import LazyHeap.Plan

/-!
Draws, and what they make of numbers. Whatever the generator is, what is drawn for a plan fits it. The values that the histories
begin with are moved and replaced as plain numbers would be, and each step makes each history longer by one.
-/
namespace LazyHeap

namespace Particles

/-! ### What is drawn -/

namespace Generator

variable (g : Generator) (n count : Nat) (s : g.State)

theorem length_many : (g.many n count s).1.length = count := by
  induction count generalizing s with
  | zero => rfl
  | succ count ih => rw [many, List.length_cons, ih]

theorem many_le : ∀ x ∈ (g.many n count s).1, x ≤ n := by
  induction count generalizing s with
  | zero => exact fun x hx => absurd hx List.not_mem_nil
  | succ count ih =>
    rw [many]
    exact List.forall_mem_cons.2 ⟨Nat.le_of_lt_succ (g.upTo n s).1.isLt, ih _⟩

end Generator

theorem StepDraws.draw_fits (g : Generator) {particles : Nat} (hp : 0 < particles) (s : g.State) :
    (StepDraws.draw g particles s).1.Fits particles := by
  rw [draw]
  refine ⟨(List.length_map _).trans (g.length_many ..), g.length_many .., fun a ha => ?_⟩
  exact Nat.lt_of_le_of_lt (g.many_le _ _ _ a ha) (Nat.sub_one_lt_of_lt hp)

theorem length_drawSteps (g : Generator) (particles n : Nat) (s : g.State) : (drawSteps g particles n s).length = n := by
  induction n generalizing s with
  | zero => rfl
  | succ n ih => rw [drawSteps, List.length_cons, ih]

theorem drawSteps_fits (g : Generator) {particles : Nat} (n : Nat) (hp : 0 < particles) (s : g.State) :
    ∀ d ∈ drawSteps g particles n s, d.Fits particles := by
  induction n generalizing s with
  | zero => exact fun d hd => absurd hd List.not_mem_nil
  | succ n ih =>
    rw [drawSteps]
    exact List.forall_mem_cons.2 ⟨StepDraws.draw_fits g hp s, ih _⟩

/-! ### The plain simulation -/

/-- A step of the plain simulation: each value moves, and the new values are those of the drawn ancestors. -/
def StepDraws.values (vs : List Int) (d : StepDraws) : List Int :=
  d.ancestors.map fun a => (vs.zipWith (· + ·) d.deltas).getD a 0

/-- The plain simulation: numbers in the place of particles. -/
def plainValues (particles : Nat) (draws : List StepDraws) : List Int :=
  draws.foldl StepDraws.values (List.replicate particles 0)

/-- Histories for so many particles, all of one length. -/
structure Histories (particles length : Nat) (vss : List (List Int)) : Prop where
  size : vss.length = particles
  lengths : ∀ vs ∈ vss, vs.length = length

variable {particles length : Nat} {vss : List (List Int)} {d : StepDraws} {draws : List StepDraws}

namespace Histories

theorem start (particles : Nat) : Histories particles 1 (List.replicate particles [0]) :=
  ⟨List.length_replicate, fun _ hvs => List.eq_of_mem_replicate hvs ▸ rfl⟩

theorem step (hh : Histories particles length vss) (hd : d.Fits particles) : Histories particles (length + 1) (d.histories vss) ∧
    (d.histories vss).map (·.headD 0) = d.values (vss.map (·.headD 0)) := by
  have hget : ∀ a ∈ d.ancestors, ∃ (ha : a < vss.length) (hb : a < d.deltas.length),
      (vss.zipWith moved d.deltas).getD a [] = moved vss[a] d.deltas[a] := fun a ha => by
    have ha := hd.bound a ha
    have hvss : a < vss.length := hh.size ▸ ha
    have hdeltas : a < d.deltas.length := hd.deltas ▸ ha
    refine ⟨hvss, hdeltas, ?_⟩
    rw [List.getD_eq_getElem _ _ (by rw [List.length_zipWith]; exact Nat.lt_min.2 ⟨hvss, hdeltas⟩), List.getElem_zipWith]
  refine ⟨⟨(d.length_histories vss).trans hd.ancestors, fun vs hvs => ?_⟩, ?_⟩
  · obtain ⟨a, ha, rfl⟩ := List.mem_map.1 hvs
    obtain ⟨hvss, hdeltas, he⟩ := hget a ha
    rw [he]
    exact congrArg Nat.succ (hh.lengths _ (List.getElem_mem hvss))
  · rw [StepDraws.histories, StepDraws.values, List.map_map]
    refine List.map_congr_left fun a ha => ?_
    obtain ⟨hvss, hdeltas, he⟩ := hget a ha
    have hlt : a < ((vss.map (·.headD 0)).zipWith (· + ·) d.deltas).length := by
      rw [List.length_zipWith, List.length_map]
      exact Nat.lt_min.2 ⟨hvss, hdeltas⟩
    rw [List.getD_eq_getElem _ _ hlt, List.getElem_zipWith, List.getElem_map]
    exact congrArg (·.headD 0) he

theorem steps (hh : Histories particles length vss) (hd : ∀ d ∈ draws, d.Fits particles) :
    Histories particles (length + draws.length) (draws.foldl StepDraws.histories vss) ∧
      (draws.foldl StepDraws.histories vss).map (·.headD 0) = draws.foldl StepDraws.values (vss.map (·.headD 0)) := by
  induction draws generalizing vss length with
  | nil => exact ⟨hh, rfl⟩
  | cons d draws ih =>
    obtain ⟨hd, hdraws⟩ := List.forall_mem_cons.1 hd
    obtain ⟨hstep, hvalues⟩ := hh.step hd
    obtain ⟨hsteps, hplain⟩ := ih hstep hdraws
    rw [List.foldl_cons, List.foldl_cons, List.length_cons, ← hvalues, Nat.add_comm draws.length, ← Nat.add_assoc]
    exact ⟨hsteps, hplain⟩

theorem heads (hh : Histories particles (length + 1) vss) : (vss.map List.head?).filterMap id = vss.map (·.headD 0) := by
  rw [List.filterMap_map, ← List.filterMap_eq_map]
  refine List.filterMap_congr fun vs hvs => ?_
  obtain ⟨v, vs, rfl⟩ := List.exists_cons_of_length_eq_add_one (hh.lengths vs hvs)
  rfl

theorem longest (hh : Histories particles length vss) (hp : 0 < particles) : (vss.map List.length).foldl max 0 = length := by
  have hlengths : vss.map List.length = List.replicate particles length :=
    List.eq_replicate_iff.2 ⟨(List.length_map _).trans hh.size, fun n hn => by
      obtain ⟨vs, hvs, rfl⟩ := List.mem_map.1 hn
      exact hh.lengths vs hvs⟩
  have hsame : ∀ n, (List.replicate n length).foldl max length = length := fun n => by
    induction n with
    | zero => rfl
    | succ n ih => rw [List.replicate_succ, List.foldl_cons, Nat.max_self, ih]
  obtain ⟨n, rfl⟩ := Nat.exists_eq_succ_of_ne_zero (Nat.ne_of_gt hp)
  rw [hlengths, List.replicate_succ, List.foldl_cons, Nat.zero_max, hsame]

end Histories
end Particles

/-! ### Draws for a plan -/

namespace Plan

theorem population_pos (p : Plan) : 0 < p.population := Nat.le_max_right _ _

/-- Draws for a plan: what fits its population, for each step. -/
structure Fits (p : Plan) (draws : List Particles.StepDraws) : Prop where
  length : draws.length = p.steps
  steps : ∀ d ∈ draws, d.Fits p.population

/-- What is drawn for a plan fits it, whatever the generator is. -/
theorem fits_draws (p : Plan) (g : Particles.Generator) : p.Fits (p.draws g) :=
  ⟨Particles.length_drawSteps .., Particles.drawSteps_fits g p.steps p.population_pos _⟩

end Plan
end LazyHeap
