/-!
Named things, kept in the order of their names. Looking a name up after an insertion gives what was inserted,
and an insertion or a removal leaves all other names alone.
-/
namespace LazyHeap

/-- Pairs of a name and a value, sorted by name, each name once. -/
abbrev NameMap (α : Type) := List (String × α)

namespace NameMap

variable {α : Type}

def get? (m : NameMap α) (name : String) : Option α := (m.find? (·.1 = name)).map (·.2)

def erase (m : NameMap α) (name : String) : NameMap α := m.filter (·.1 ≠ name)

def insert (m : NameMap α) (name : String) (a : α) : NameMap α :=
  m.filter (·.1 < name) ++ (name, a) :: m.filter (name < ·.1)

private theorem find?_filter_of_keeps (m : NameMap α) (name : String) (p : String → Bool)
    (hp : p name = true) :
    (m.filter fun e => p e.1).find? (·.1 = name) = m.find? (·.1 = name) := by
  rw [List.find?_filter]
  congr 1
  funext e
  by_cases h : e.1 = name <;> simp [h, hp]

private theorem find?_filter_of_drops (m : NameMap α) (name : String) (p : String → Bool)
    (hp : p name = false) : (m.filter fun e => p e.1).find? (·.1 = name) = none := by
  rw [List.find?_filter, List.find?_eq_none]
  intro e _ he
  simp only [decide_eq_true_eq] at he
  rw [he.2, hp] at he
  exact Bool.false_ne_true he.1

theorem get?_insert_self (m : NameMap α) (name : String) (a : α) :
    (m.insert name a).get? name = some a := by
  have := find?_filter_of_drops m name (fun s => s < name)
    (decide_eq_false (String.lt_irrefl name))
  have hself : ∀ rest : NameMap α, ((name, a) :: rest).find? (·.1 = name) = some (name, a) :=
    fun rest => List.find?_cons_of_pos (decide_eq_true rfl)
  rw [insert, get?, List.find?_append, this, Option.none_or, hself, Option.map_some]

theorem get?_insert_of_ne (m : NameMap α) {name other : String} (a : α) (hne : other ≠ name) :
    (m.insert name a).get? other = m.get? other := by
  have hcons : ∀ rest : NameMap α, ((name, a) :: rest).find? (·.1 = other) =
      rest.find? (·.1 = other) := fun rest =>
    List.find?_cons_of_neg fun h => hne (of_decide_eq_true h).symm
  simp only [insert, get?, List.find?_append, hcons]
  by_cases hlt : other < name
  · have h₁ := find?_filter_of_keeps m other (fun s => s < name) (decide_eq_true hlt)
    have h₂ := find?_filter_of_drops m other (fun s => name < s)
      (decide_eq_false (String.lt_asymm hlt))
    rw [h₁, h₂, Option.or_none]
  · have hgt : name < other := by
      rcases Decidable.em (name < other) with h | h
      · exact h
      · exact absurd (String.le_antisymm (String.not_lt.1 h) (String.not_lt.1 hlt)) hne
    have h₁ := find?_filter_of_drops m other (fun s => s < name) (decide_eq_false hlt)
    have h₂ := find?_filter_of_keeps m other (fun s => name < s) (decide_eq_true hgt)
    rw [h₁, h₂, Option.none_or]

theorem get?_erase_self (m : NameMap α) (name : String) : (m.erase name).get? name = none := by
  have := find?_filter_of_drops m name (fun s => s ≠ name)
    (decide_eq_false (not_not_intro rfl))
  simp only [erase, get?, this, Option.map_none]

theorem get?_erase_of_ne (m : NameMap α) {name other : String} (hne : other ≠ name) :
    (m.erase name).get? other = m.get? other := by
  have := find?_filter_of_keeps m other (fun s => s ≠ name) (decide_eq_true hne)
  simp only [erase, get?, this]

/-! ### Contents, in any order -/

theorem mem_of_get? {m : NameMap α} {name : String} {a : α} (h : m.get? name = some a) : (name, a) ∈ m := by
  obtain ⟨e, he, rfl⟩ := Option.map_eq_some_iff.1 h
  have hname := List.find?_some he
  rw [← of_decide_eq_true hname]
  exact List.mem_of_find?_eq_some he

theorem ne_of_get?_eq_none {m : NameMap α} {name : String} (h : m.get? name = none) : ∀ e ∈ m, e.1 ≠ name := by
  intro e he hname
  have := List.find?_eq_none.1 (Option.map_eq_none_iff.1 h) e he
  simp [hname] at this

theorem mem_erase {m : NameMap α} {name : String} {e : String × α} : e ∈ m.erase name ↔ e ∈ m ∧ e.1 ≠ name := by
  simp [erase]

theorem erase_of_none {m : NameMap α} {name : String} (h : m.get? name = none) : m.erase name = m :=
  List.filter_eq_self.2 fun e he => by simpa using ne_of_get?_eq_none h e he

theorem insert_perm (m : NameMap α) (name : String) (a : α) : (m.insert name a).Perm ((name, a) :: m.erase name) := by
  refine List.perm_middle.trans (.cons _ ?_)
  induction m with
  | nil => exact .nil
  | cons e m ih =>
    simp only [erase, List.filter_cons] at ih ⊢
    rcases Decidable.em (e.1 = name) with rfl | hne
    · simpa [String.lt_irrefl] using ih
    · rcases Decidable.em (e.1 < name) with hlt | hge
      · simpa [hlt, hne, String.lt_asymm hlt] using ih.cons e
      · have hgt : name < e.1 := by
          rcases Decidable.em (name < e.1) with h | h
          · exact h
          · exact absurd (String.le_antisymm (String.not_lt.1 h) (String.not_lt.1 hge)) hne
        simpa [hgt, hne, hge] using List.perm_middle.trans (ih.cons e)

/-- Each name stands for one thing. -/
def Distinct (m : NameMap α) : Prop := (m.map (·.1)).Nodup

theorem Distinct.erase {m : NameMap α} (h : m.Distinct) (name : String) : (m.erase name).Distinct :=
  h.sublist (List.filter_sublist.map _)

theorem Distinct.insert {m : NameMap α} (h : m.Distinct) (name : String) (a : α) : (m.insert name a).Distinct := by
  have herase : ((m.erase name).map (·.1)).Nodup := h.erase name
  refine ((insert_perm m name a).map (·.1)).nodup_iff.2 (List.nodup_cons.2 ⟨fun hm => ?_, herase⟩)
  obtain ⟨e, he, hname⟩ := List.mem_map.1 hm
  exact (mem_erase.1 he).2 hname

theorem Distinct.perm_erase {m : NameMap α} (h : m.Distinct) {name : String} {a : α} (ha : m.get? name = some a) :
    m.Perm ((name, a) :: m.erase name) := by
  induction m with
  | nil => cases ha
  | cons e m ih =>
    obtain ⟨hnot, hm⟩ := List.nodup_cons.1 (show ((e :: m).map (·.1)).Nodup from h)
    rcases Decidable.em (e.1 = name) with rfl | hne
    · have hrest : NameMap.erase m e.1 = m := List.filter_eq_self.2 fun e' he' => by
        simpa using fun heq : e'.1 = e.1 => hnot (List.mem_map.2 ⟨e', he', heq⟩)
      have hself : NameMap.erase (e :: m) e.1 = m := (List.filter_cons_of_neg (by simp)).trans hrest
      have : a = e.2 := by simpa [get?] using ha.symm
      rw [hself, this]
    · have ha' : NameMap.get? m name = some a := by simpa [get?, hne] using ha
      have hself : NameMap.erase (e :: m) name = e :: NameMap.erase m name :=
        List.filter_cons_of_pos (by simpa using hne)
      rw [hself]
      exact ((ih hm ha').cons e).trans (.swap _ _ _)

theorem Distinct.get?_of_mem {m : NameMap α} (h : m.Distinct) {e : String × α} (he : e ∈ m) :
    m.get? e.1 = some e.2 := by
  cases hg : m.get? e.1 with
  | none => exact absurd rfl (ne_of_get?_eq_none hg e he)
  | some a =>
    rcases List.mem_cons.1 ((h.perm_erase hg).mem_iff.1 he) with heq | hm
    · rw [heq]
    · exact absurd rfl (mem_erase.1 hm).2

end NameMap

end LazyHeap
