import LazyHeap.Round.Basic

/-!
Giving up references. A count that falls to zero destroys the cell; a count that does not may have cut the
last way into a garbage cycle, so the cell becomes a candidate of the collector. Performing a task lowers the
weight of what is left to do, so a list of tasks always comes to an end.
-/
namespace LazyHeap
namespace Heap

/-- Destroys the value of a cell. What it owned becomes tasks: its contents, the label that made it, and
the weak count that stands for the value. -/
def destroy (h : Heap) (c : CellId) : Except Fault (Heap × List Task) :=
  let x := h.cell c
  if x.flags.destroyed then .error (.destroyedTwice x.kind)
  else
    let h := h.update c fun x => { x with flags.destroyed := true, body := x.body.emptied }
    let h := match x.body with
      | .object o => h.record (.dropped o.serial)
      | .label _ => h
    .ok (h, x.body.tasks ++ [.disown c, .unpin c])

/-- Makes a cell a candidate. The caller holds it weakly; that hold passes to the buffer, unless the cell is
in the buffer already or cannot be a root any more. A newly buffered candidate may start a round. -/
def buffer (h : Heap) (c : CellId) : Except Fault (Heap × List Task) :=
  let flags := (h.cell c).flags
  if flags.collected || flags.destroyed then .ok (h, [.unpin c])
  else
    let h := h.update c fun x => (x.setColour .purple).setBuffered true
    if flags.buffered then .ok (h, [.unpin c])
    else
      let h := { h with candidates := h.candidates.push c }.fixSettings
      let settings := h.settingsInForce
      if settings.autoCollect && settings.due h.candidates.size && !h.inRound then
        match h.openRound with
        | .error e => .error e
        | .ok (h, ts, _) => .ok (h, ts)
      else .ok (h, [])

/-- Performs one task and returns those that it leads to, which come before all others. -/
def perform (h : Heap) : Task → Except Fault (Heap × List Task)
  | .release c =>
    let x := h.cell c
    if x.flags.collected then .ok (h, [])
    else match x.shared with
      | 0 => .error (.sharedUnderflow x.kind)
      | n + 1 =>
        let h := h.update c fun x => { x with shared := n, weak := x.weak + 1 }
        if n = 0 then
          match h.destroy c with
          | .error e => .error e
          | .ok (h, ts) => .ok (h, ts ++ [.unpin c])
        else h.buffer c
  | .unpin c =>
    let x := h.cell c
    match x.weak with
    | 0 => .error (.weakUnderflow x.kind)
    | n + 1 => .ok (h.update c fun x => { x with weak := n }, [])
  | .perish c => (h.update c fun x => { x with shared := 0 }).destroy c
  | .disown c =>
    match (h.cell c).owner with
    | none => .ok (h, [])
    | some l => .ok (h.update c fun x => { x with owner := none }, [.unpin l])
  | .closeRound o => .ok ({ h with inRound := false, totals := h.totals.add o }, [])

private theorem destroy_load {h h' : Heap} {c : CellId} {ts : List Task}
    (hd : h.destroy c = .ok (h', ts)) : h'.load + Task.weights ts ≤ h.load := by
  simp only [destroy] at hd
  split at hd
  · cases hd
  · next hn =>
    have hc : c < h.size := Nat.lt_of_not_le fun hle => by
      simp [h.cell_of_size_le hle, Cell.void] at hn
    have hu := h.total_update Cell.load
      (fun x => { x with flags.destroyed := true, body := x.body.emptied }) hc
    simp only [Except.ok.injEq, Prod.mk.injEq] at hd
    obtain ⟨rfl, rfl⟩ := hd
    simp only [Cell.load, hn, if_true] at hu
    have hrec : ∀ (k : Heap) (e : Event), (k.record e).load = k.load := fun _ _ => rfl
    simp only [Task.weights_append, Task.weights_cons, Task.weights_nil, Task.weight]
    have : ∀ k : Heap, (match (h.cell c).body with
        | .object o => k.record (.dropped o.serial)
        | .label _ => k).load = k.load := by
      intro k
      split <;> rfl
    rw [this]
    simp only [load, candidates_update]
    simp at hu
    omega

private theorem buffer_load {h h' : Heap} {c : CellId} {ts : List Task}
    (hb : h.buffer c = .ok (h', ts)) : h'.load + Task.weights ts ≤ h.load + 2 := by
  have hu := h.load_update_eq c (fun x => (x.setColour .purple).setBuffered true) rfl
  simp only [buffer] at hb
  split at hb
  · cases hb
    simp [Task.weight]
  · split at hb
    · cases hb
      simp [Task.weight, hu]
    · have hp : ∀ k : Heap, ({ k with candidates := k.candidates.push c }.fixSettings).load =
          k.load + 1 := by
        intro k
        simp [load, total, fixSettings]
        omega
      split at hb
      · split at hb
        · cases hb
        · next hr =>
          cases hb
          have := openRound_load hr
          rw [hp, hu] at this
          omega
      · cases hb
        rw [hp, hu]
        simp

theorem perform_load {h h' : Heap} {t : Task} {ts : List Task}
    (hp : h.perform t = .ok (h', ts)) : h'.load + Task.weights ts < h.load + t.weight := by
  cases t with
  | release c =>
    simp only [perform] at hp
    split at hp
    · cases hp
      simp [Task.weight]
    · split at hp
      · cases hp
      · next n _ =>
        have hu := h.load_update_eq c (fun x => { x with shared := n, weak := x.weak + 1 }) rfl
        split at hp
        · split at hp
          · cases hp
          · next hd =>
            cases hp
            have := destroy_load hd
            simp only [Task.weights_append, Task.weights_cons, Task.weights_nil, Task.weight]
            omega
        · have := buffer_load hp
          simp only [Task.weight]
          omega
  | unpin c =>
    simp only [perform] at hp
    split at hp
    · cases hp
    · next n _ =>
      cases hp
      rw [h.load_update_eq c (fun x => { x with weak := n }) rfl]
      simp [Task.weight]
  | perish c =>
    have hu := h.load_update_eq c (fun x => { x with shared := 0 }) rfl
    have := destroy_load hp
    simp only [Task.weight]
    omega
  | disown c =>
    simp only [perform] at hp
    split at hp
    · cases hp
      simp [Task.weight]
    · cases hp
      rw [h.load_update_eq c (fun x => { x with owner := none }) rfl]
      simp [Task.weight]
  | closeRound o =>
    cases hp
    simp [Task.weight, load, total]

def drain (h : Heap) (ts : List Task) : Except Fault Heap :=
  match ts with
  | [] => .ok h
  | t :: rest =>
    match _performed : h.perform t with
    | .error e => .error e
    | .ok (h', new) => h'.drain (new ++ rest)
termination_by h.load + Task.weights ts
decreasing_by
  have := perform_load _performed
  simp only [Task.weights_append, Task.weights_cons]
  omega

end Heap

def settle (ts : List Task) : HeapM Unit := fun h => (h.drain ts).map fun h => ((), h)

def collectCycles : HeapM RoundOutcome := do
  let (h, ts, outcome) ← (← get).openRound
  set h
  settle ts
  return outcome

/-- Runs a round if enough candidates are buffered and no round is under way. -/
def collectIfDue : HeapM (Option RoundOutcome) := do
  modify Heap.fixSettings
  let h ← get
  if h.settingsInForce.due h.candidates.size && !h.inRound then
    return some (← collectCycles)
  else return none

end LazyHeap
