import LazyHeap.Proofs.Round.Accounting
import LazyHeap.Proofs.Round.Waiting
import LazyHeap.Proofs.Session.Ledger

/-!
Collection. A round may start whenever references are given up; whatever it destroys was out of reach, and nothing
else is touched. Garbage is always found again: between two operations each cell that is out of reach is reached from a
candidate, so a round that is asked for leaves nothing of it.
-/
namespace LazyHeap

variable {h : Heap} {source source' : CellId → Prop} {c d : CellId}

namespace Heap

theorem Reach.from_one (hr : h.Reach source c) : ∃ d, source d ∧ h.Reach (· = d) c := by
  induction hr with
  | source hd => exact ⟨_, hd, .source rfl⟩
  | edge _ he ih =>
    obtain ⟨d, hd, hr⟩ := ih
    exact ⟨d, hd, .edge hr he⟩

theorem Reach.eq_of_edges (hr : h.Reach (· = d) c) (hd : (h.cell d).edges = []) : c = d := by
  induction hr with
  | source hc => exact hc
  | edge _ he ih =>
    rw [ih, hd] at he
    cases he

end Heap

/-! ### Rounds inside of operations -/

/-- A moment of a run: between two steps of an operation, or between two operations. -/
def Moment.Reached (m : Moment) : Prop := Steps {} ⟨.initial, [], [], []⟩ m

/-- A task that comes to more than its own work starts a round. -/
theorem Heap.work_or_openRound {t : Task} {new : List Task} {h' : Heap} (hp : h.perform t = .ok (h', new)) :
    h.work t = .ok (h', new) ∨
      ∃ k o, h.work t = .ok (k, []) ∧ k.inRound = false ∧ k.openRound = .ok (h', new, o) := by
  rcases h.perform_cases t with heq | ⟨k, hw, hround, heq⟩
  · exact .inl (heq ▸ hp)
  · have hopen := heq.symm.trans hp
    rcases hr : k.openRound with e | ⟨k', us, o⟩
    · rw [hr] at hopen
      cases hopen
    · rw [hr] at hopen
      cases hopen
      exact .inr ⟨k, o, hw, hround, hr⟩

/-- While the tasks are performed a round starts: on the heap `k`, with the tasks `us` left to do. -/
inductive Heap.Opens (k : Heap) (us : List Task) : Heap → List Task → Prop where
  | here {h h' : Heap} {t : Task} {new : List Task} {o : RoundOutcome} : h.work t = .ok (k, []) → k.inRound = false →
    k.openRound = .ok (h', new, o) → h.perform t = .ok (h', new) → Opens k us h (t :: us)
  | later {h h' : Heap} {t : Task} {ts new : List Task} : h.perform t = .ok (h', new) → Opens k us h' (new ++ ts) →
    Opens k us h (t :: ts)

namespace Moment.Reached

variable {locks : List Lock} {ts us held : List Task} {k : Heap}

/-- Whatever tasks are performed at a moment of a run, all that they come to is a moment of the run again. -/
theorem perform {t : Task} {new : List Task} {h' : Heap} (hm : Reached ⟨h, locks, t :: ts, held⟩)
    (hp : h.perform t = .ok (h', new)) : Reached ⟨h', locks, new ++ ts, held⟩ := by
  rcases Heap.work_or_openRound hp with hw | ⟨k, o, hw, hround, hopen⟩
  · exact hm.tail (.work hw)
  · have hk : Reached ⟨k, locks, ts, held⟩ := hm.tail (.work hw)
    exact hk.tail (.openRound hround hopen)

/-- So is each point at which a round starts meanwhile. -/
theorem opens (hm : Reached ⟨h, locks, ts, held⟩) (ho : k.Opens us h ts) :
    k.inRound = false ∧ Reached ⟨k, locks, us, held⟩ := by
  induction ho with
  | here hw hround _ _ => exact ⟨hround, hm.tail (.work hw)⟩
  | later hp _ ih => exact ih (hm.perform hp)

/-- Between two steps of an operation, or between two operations, some of what is held is given up, but not what a lock is
taken through. Each point at which a round starts meanwhile is a moment of the run. -/
theorem opens_of_perm {hand : List Task} (hm : Reached ⟨h, locks, [], hand⟩) (hp : hand.Perm (ts ++ held))
    (hg : h.Guarded locks held) (ho : k.Opens us h ts) : k.inRound = false ∧ Reached ⟨k, locks, us, held⟩ :=
  opens ((hm.tail (.arrange hp)).tail (.begin hg)) ho

end Moment.Reached

namespace Situation

variable {x y : Situation}

theorem reached_of_runs (hrun : Runs HeadersKept initial x) : x.moment.Reached :=
  (at_headersKept hrun).course_moment.lawless

/-- At every moment of a run at which no round is under way a round can be run. It destroys only what neither somebody
outside of the cells nor anything that is locked leads to; whatever is left has its value, and loses one count for each
edge that came from what is gone; and the outcome says how much is gone. -/
theorem sweep_of_reached {m : Moment} (hm : m.Reached) (hround : m.heap.inRound = false) :
    ∃ k new o h' garbage, m.heap.openRound = .ok (k, new, o) ∧ k.drain new = .ok h' ∧ m.heap.Swept h' garbage ∧
      o.collected = garbage.length ∧ h'.totals = m.heap.totals.add o := by
  have hsafe : Safe {} m := ((Safe.initial fun _ => id).steps hm).1
  obtain ⟨k, new, o, h', garbage, hopen, hdrain, hswept, hcount, -, htotals, -⟩ := hsafe.sweep hround
  exact ⟨k, new, o, h', garbage, hopen, hdrain, hswept, hcount, htotals⟩

/-- A node that leads to itself, and to which nothing else leads any more. -/
def lostRing : List (Op × Args) :=
  [(.label .spawn, { Args.blank with dest := some "l" }),
    (.pointer .new, { Args.blank with dest := some "p", value := some (.int 3), within := some "l" }),
    (.object .link, { Args.blank with a := some "p", field := some "next", b := some "p" }),
    (.pointer .drop, { Args.blank with a := some "p" })]

theorem sweep_of_lostRing : ∃ x, initial.after lostRing = some x ∧ ∃ k new o h' garbage,
    x.moment.heap.openRound = .ok (k, new, o) ∧ k.drain new = .ok h' ∧ x.moment.heap.Swept h' garbage ∧
      o.collected = garbage.length ∧ h'.totals = x.moment.heap.totals.add o := by
  obtain ⟨x, hx, hround⟩ : ∃ x, initial.after lostRing = some x ∧ x.session.heap.inRound = false :=
    Option.map_eq_some_iff.1 (by cbv)
  exact ⟨x, hx, sweep_of_reached (reached_of_runs (runs_of_after rfl hx (by simp [lostRing]))) hround⟩

/-- At every moment of a run at which no round is under way a round can be opened, and it waits for nothing: after it
has marked, which it does trying locks only, it traces only what it traced to the end while it marked, and no lock of
that is held. (The lock of the candidate buffer is no lock of a moment: who holds it gives nothing up.) -/
theorem waits_of_reached {m : Moment} (hm : m.Reached) (hround : m.heap.inRound = false) :
    (∃ r, m.heap.openRound = .ok r) ∧ ∀ c, m.heap.TracedLater c →
      m.heap.TracedFirst c ∧ (m.heap.cell c).locked = false ∧ ∀ k, (c, k) ∉ m.locks := by
  have hsafe : Safe {} m := ((Safe.initial fun _ => id).steps hm).1
  obtain ⟨h', roots, whites, -, hopen⟩ := hsafe.openRound hround
  refine ⟨⟨_, hopen⟩, fun c hc => ?_⟩
  obtain ⟨hfirst, hfree⟩ := Heap.tracedFirst_of_tracedLater (hsafe.ready hround) hsafe.buffered hc
  refine ⟨hfirst, hfree, fun k hk => ?_⟩
  rw [(Cell.locked_iff _).2 ⟨k, (hsafe.locks c k).2 hk⟩] at hfree
  cases hfree

/-- A node that leads to itself and to another one. -/
def ringBesideNode : List (Op × Args) :=
  [(.label .spawn, { Args.blank with dest := some "l" }),
    (.pointer .new, { Args.blank with dest := some "p", value := some (.int 3), within := some "l" }),
    (.pointer .new, { Args.blank with dest := some "q", value := some (.int 4), within := some "l" }),
    (.object .link, { Args.blank with a := some "p", field := some "next", b := some "p" }),
    (.object .link, { Args.blank with a := some "p", field := some "alt", b := some "q" })]

theorem waits_of_lostRing : ∃ x s y, initial.after ringBesideNode = some x ∧
    (Attempt.takeLock { Args.blank with a := some "q", field := some "next" }).run x.session =
      .ok (.ok (some (3, .next)), s) ∧
    after ⟨s, .lock 3 .next :: x.around⟩ [(.pointer .drop, { Args.blank with a := some "p" })] = some y ∧
    y.moment.locks = [(3, some .next)] ∧ y.moment.heap.TracedLater 1 ∧ y.moment.heap.TracedFirst 1 ∧
    ∀ k, (1, k) ∉ y.moment.locks := by
  obtain ⟨x, hx, h⟩ : ∃ x, initial.after ringBesideNode = some x ∧ (x.locked,
      ((Attempt.takeLock { Args.blank with a := some "q", field := some "next" }).run x.session).toOption.map fun r =>
        (r.1.toOption, (after ⟨r.2, .lock 3 .next :: x.around⟩ [(.pointer .drop, { Args.blank with a := some "p" })]).map
          fun y => (y.moment.locks, y.session.heap.inRound,
            (markCandidates ⟨y.session.heap.rounding, [], []⟩ [] y.session.heap.candidates.toList).toOption.map fun q =>
              (q.2, (q.1.heap.cell 1).flags.colour, (q.1.heap.cell 1).reachable,
                ((q.1.heap.update 1 (·.setColour .black)).cell 1).destroyed, q.1.shut)))) =
        (false, some (some (some (3, .next)), some ([(3, some .next)], false, some ([1, 2], .gray, 2, false, [3])))) :=
    Option.map_eq_some_iff.1 (by cbv)
  simp only [Prod.mk.injEq, Option.map_eq_some_iff] at h
  obtain ⟨hfree, ⟨r, s⟩, htake, hr, y, hy, hlocks, hround, ⟨q, roots⟩, hmark, rfl, hgray, hlive, hthere, hshut⟩ := h
  cases ok_of_toOption hr
  have htake := ok_of_toOption htake
  have hlater : y.moment.heap.TracedLater 1 := .scan (ok_of_toOption hmark) <| .inner ⟨hgray, by simp [hlive],
    .top (by simp [Pass.Skips, hthere, show q.shut = [3] from hshut]) (absurd · (by decide))⟩
  have hrun : Runs HeadersKept initial y :=
    ((runs_of_after rfl hx (by simp [ringBesideNode])).tail (.lock hfree htake)).trans
      ((steps_of_after (fun _ p hp => List.mem_singleton.1 hp ▸ rfl) hy (by simp)).lift id fun _ _ => And.left)
  obtain ⟨hfirst, -, hopen⟩ := (waits_of_reached (reached_of_runs hrun) hround).2 1 hlater
  exact ⟨x, s, y, hx, htake, hy, hlocks, hlater, hfirst, hopen⟩

/-- At every moment of a run at which no round is under way, and in whatever order the candidates and the edges of each
cell come, a round marks and scans without a count running below zero, and its accounts are in order: after marking a count
lacks exactly the edges from marked cells that were not shut, after the scan those from white cells, and each cell that the
scan reached from was traced once. -/
theorem accounts_of_reached {m : Moment} (hm : m.Reached) (hround : m.heap.inRound = false) (hk : m.heap.Rearranged h) :
    ∃ s roots s', markCandidates ⟨h.rounding, [], []⟩ [] h.candidates.toList = .ok (s, roots) ∧
      (scanPass s.shut).enterAll s roots = .ok s' ∧ Accounted h s s' roots := by
  have hsafe : Safe {} m := ((Safe.initial fun _ => id).steps hm).1
  exact (hk.ready (hsafe.ready hround)).accounted

theorem accounts_of_lostRing : ∃ x, initial.after lostRing = some x ∧ ∃ s roots s',
    markCandidates ⟨x.moment.heap.rounding, [], []⟩ [] x.moment.heap.candidates.toList = .ok (s, roots) ∧
      (scanPass s.shut).enterAll s roots = .ok s' ∧ Accounted x.moment.heap s s' roots := by
  obtain ⟨x, hx, hround⟩ : ∃ x, initial.after lostRing = some x ∧ x.session.heap.inRound = false :=
    Option.map_eq_some_iff.1 (by cbv)
  exact ⟨x, hx, accounts_of_reached (reached_of_runs (runs_of_after rfl hx (by simp [lostRing]))) hround (.refl _)⟩

/-- At every moment of a run at which no round is under way the buffer has each buffered cell once, and no other. Those
cells are purple and all others are black, whatever a round has claimed is destroyed, and the hold of the buffer that is
left out when a cell is asked whether it is unique is the hold that the buffer has. -/
theorem candidates_of_reached {m : Moment} (hm : m.Reached) (hround : m.heap.inRound = false) :
    (∀ c, m.heap.candidates.toList.count c = if (m.heap.cell c).flags.buffered then 1 else 0) ∧
      (∀ c, (m.heap.cell c).flags.colour = .black ∧ (m.heap.cell c).flags.buffered = false ∨
        (m.heap.cell c).flags.colour = .purple ∧ (m.heap.cell c).flags.buffered = true) ∧
      (∀ c, (m.heap.cell c).flags.collected = true → (m.heap.cell c).destroyed = true) ∧
      ∀ c, (m.heap.cell c).unique = true ↔
        (m.heap.cell c).shared = 1 ∧ (m.heap.cell c).weak = 1 + m.heap.candidates.toList.count c := by
  have hsafe : Safe {} m := ((Safe.initial fun _ => id).steps hm).1
  have hb := hsafe.buffered
  have hcount : ∀ c, m.heap.candidates.toList.count c = if (m.heap.cell c).flags.buffered then 1 else 0 := fun c => by
    simp only [hb.nodup.count, hb.candidates]
  refine ⟨hcount, fun c => ?_, (hsafe.ready hround).collected, fun c => ?_⟩
  · have := hb.colour c
    cases hbuf : (m.heap.cell c).flags.buffered with
    | true => exact .inr ⟨by rw [this, hbuf]; rfl, rfl⟩
    | false => exact .inl ⟨by rw [this, hbuf]; rfl, rfl⟩
  · rw [hcount, Cell.unique]
    cases (m.heap.cell c).flags.buffered <;> simp

theorem candidates_of_lostRing : ∃ x, initial.after lostRing = some x ∧
    x.moment.heap.candidates.toList.count 2 = 1 ∧ (x.moment.heap.cell 2).flags.buffered = true := by
  obtain ⟨x, hx, h⟩ : ∃ x, initial.after lostRing = some x ∧
      (x.session.heap.inRound, (x.session.heap.cell 2).flags.buffered) = (false, true) :=
    Option.map_eq_some_iff.1 (by cbv)
  obtain ⟨hround, hbuf⟩ := Prod.mk.inj h
  have hbuf : (x.moment.heap.cell 2).flags.buffered = true := hbuf
  refine ⟨x, hx, ?_, hbuf⟩
  rw [(candidates_of_reached (reached_of_runs (runs_of_after rfl hx (by simp [lostRing]))) hround).1 2, if_pos hbuf]

/-- A ring that another ring leads to. By hand its count is lowered, so that a round collects it too early, and then raised
again, so that it is traced once more when the other ring is lost as well. -/
def miscountedRing : List (Op × Args) :=
  [(.pointer .new, { Args.blank with dest := some "b", value := some (.int 1) }),
    (.object .link, { Args.blank with a := some "b", field := some "next", b := some "b" }),
    (.pointer .new, { Args.blank with dest := some "a", value := some (.int 2) }),
    (.object .link, { Args.blank with a := some "a", field := some "next", b := some "a" }),
    (.object .link, { Args.blank with a := some "a", field := some "alt", b := some "b" }),
    (.weak .downgrade, { Args.blank with a := some "b", dest := some "w" }),
    (.collector .collect, Args.blank),
    (.header .change, { Args.blank with change := some "dec_shared", a := some "b" }),
    (.pointer .drop, { Args.blank with a := some "b" }),
    (.collector .collect, Args.blank),
    (.header .change, { Args.blank with change := some "inc_shared", weak := some "w" }),
    (.pointer .drop, { Args.blank with a := some "a" }),
    (.collector .collect, Args.blank)]

/-- Counts that are changed by hand can leave a white cell behind, although no flag is changed by hand and no round is
under way. The cell is destroyed. -/
theorem white_of_miscountedRing : ∃ x, initial.after miscountedRing = some x ∧
    Runs (fun _ args op => op = .header .change → args.change = some "dec_shared" ∨ args.change = some "inc_shared") initial x ∧
    x.session.heap.inRound = false ∧ (x.session.heap.cell 1).flags.colour = .white ∧
    (x.session.heap.cell 1).destroyed = true := by
  obtain ⟨x, hx, h⟩ : ∃ x, initial.after miscountedRing = some x ∧ (x.session.heap.inRound,
      (x.session.heap.cell 1).flags.colour, (x.session.heap.cell 1).destroyed) = (false, .white, true) :=
    Option.map_eq_some_iff.1 (by cbv)
  obtain ⟨hround, h⟩ := Prod.mk.inj h
  obtain ⟨hcolour, hdestroyed⟩ := Prod.mk.inj h
  exact ⟨x, hx, runs_of_after rfl hx (by simp [miscountedRing]), hround, hcolour, hdestroyed⟩

/-! ### Rounds between operations -/

variable {careful apart closed : Bool}

theorem held_iff : x.moment.heap.Held x.moment.held c ↔ c ∈ x.references ∨ c = rootCell := by
  by_cases hc : c = rootCell
  · exact ⟨fun _ => .inr hc, fun _ => .inr (hc ▸ List.mem_cons_self)⟩
  · have hcount := count_held x c
    rw [if_neg hc] at hcount
    simp only [Heap.Held, ← List.count_pos_iff, hc, or_false]
    omega

theorem At.reach_references {h' : Heap} (hroot : (h'.cell rootCell).edges = []) (hc : c ≠ rootCell)
    (hr : h'.Reach (fun d => d ∈ x.references ∨ d = rootCell) c) : h'.Reach (· ∈ x.references) c := by
  obtain ⟨d, hd | rfl, hr⟩ := hr.from_one
  · exact hr.subset fun _ he => he ▸ hd
  · exact absurd (hr.eq_of_edges hroot) hc

/-- What is out of reach of all references from outside is reached from a candidate. -/
theorem At.found (ha : x.At (.initial careful apart closed)) (hc : c ≠ rootCell)
    (hd : (x.session.heap.cell c).destroyed = false) (hr : ¬ x.session.heap.Reach (· ∈ x.references) c) :
    ∃ d ∈ x.session.heap.candidates.toList, (x.session.heap.cell d).alive = true ∧
      (x.session.heap.cell d).flags.colour = .purple ∧ (x.session.heap.cell d).flags.buffered = true ∧
      x.session.heap.Reach (· = d) c := by
  obtain ⟨hs, -⟩ := ha.moment
  have hlive : ∀ {d}, (x.session.heap.cell d).destroyed = false → x.session.heap.Live d := fun hd =>
    hs.live_of_not_destroyed rfl hd
  have hheld : ∀ {d}, x.session.heap.Reach (x.moment.heap.Held x.moment.held) d → x.session.heap.Reach (· = d) c → False :=
    fun {d} hd hdc => hr <| At.reach_references ha.safe.abides.root hc <|
      hdc.mono (fun _ he => he ▸ hd.subset fun _ => held_iff.1) fun _ _ _ he hy => .edge hy he
  obtain ⟨d, hsrc, hdc⟩ := (hs.covered c hd (hlive hd).collected).from_one
  rcases hsrc with hsrc | hsrc | hsrc | hsrc | ⟨k, hsrc⟩
  · exact (hheld (.source hsrc) hdc).elim
  · cases hsrc
  · cases hsrc
  · have hdd : (x.session.heap.cell d).destroyed = false := by
      rw [← Bool.not_eq_true]
      intro hdd
      rw [hdc.eq_of_edges (hs.destroyed_edges hdd), show (x.session.heap.cell d).destroyed = true from hdd] at hd
      cases hd
    have hbuf := (hs.buffered.candidates d).1 hsrc
    exact ⟨d, hsrc, (hlive hdd).alive, (hs.buffered.colour d).trans (if_pos hbuf), hbuf, hdc⟩
  · exact (hheld (hs.guarded _ hsrc) hdc).elim

end Situation

end LazyHeap
