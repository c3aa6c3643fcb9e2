import LazyHeap.Proofs.Fields
import Mathlib.Data.List.Forall2

/-!
Visits to all links of an object. Each wanted field ends up with what the visits made of its links, the others stay
as they are, and the visits come upon cells in the order of the fields.
-/
namespace LazyHeap

variable {manner : Manner} {rules : Rules} {locks : List Lock} {frame : List Task} {h h' : Heap} {c : CellId}
variable {o : Object} {f : Field} {name : FieldName} {E : Fault → Prop}

/-- What a visit makes of each link of a field: the new link, and the cell it came upon. -/
abbrev Visited := FieldName → List (Link × Option CellId)

namespace Object

/-- The object with the links that visits to some of its fields left there. -/
def relink (o : Object) (names : List FieldName) (new : Visited) : Object :=
  { o with fields := o.fields.map fun f => if f.name ∈ names then { f with links := (new f.name).map Prod.fst } else f }

variable {names : List FieldName} {new new' : Visited} {links : List (Link × Option CellId)}

theorem relink_nil (o : Object) (new : Visited) : o.relink [] new = o := by
  simp [relink]

theorem names_relink : (o.relink names new).fields.map (·.name) = o.fields.map (·.name) := by
  simp only [relink, List.map_map]
  refine List.map_congr_left fun f _ => ?_
  simp only [Function.comp]
  split <;> rfl

theorem field?_relink (hn : (o.fields.map (·.name)).Nodup) (hf : (o.relink names new).field? name = some f)
    (hname : name ∉ names) : o.field? name = some f := by
  obtain ⟨g, hg, hgf⟩ := List.mem_map.1 (mem_of_field? hf)
  have hfn := name_of_field? hf
  have hgn : g.name = name := by
    rw [← hfn, ← hgf]
    split <;> rfl
  have hgname : g.name ∉ names := fun hm => hname (hgn ▸ hm)
  rw [if_neg hgname] at hgf
  subst hgf
  exact hgn ▸ field?_of_mem hn hg

theorem relink_append (hn : (o.fields.map (·.name)).Nodup) (hf : o.field? name = some f) (hun : f.locked = false)
    (hname : name ∉ names) :
    (o.relink names new).put ⟨name, false, links.map Prod.fst⟩ =
      o.relink (names ++ [name]) (Function.update new name links) := by
  simp only [put, updateField, relink, List.map_map]
  congr 1
  refine List.map_congr_left fun g hg => ?_
  have hgn : (if g.name ∈ names then { g with links := (new g.name).map Prod.fst } else g).name = g.name := by
    split <;> rfl
  simp only [Function.comp, hgn]
  by_cases hgf : g.name = name
  · subst hgf
    have : g = f := Option.some.inj ((field?_of_mem hn hg).symm.trans hf)
    subst this
    simp [hun]
  · have hup : Function.update new name links g.name = new g.name := Function.update_of_ne hgf _ _
    simp only [hgf, hup, if_false, List.mem_append, List.mem_singleton, or_false]

end Object

def Object.linksAt (o : Object) (name : FieldName) : List Link := ((o.field? name).map (·.links)).getD []

theorem Object.linksAt_of_field? (hf : o.field? name = some f) : o.linksAt name = f.links := by
  rw [linksAt, hf]
  rfl

theorem Object.linksAt_wanted (hn : (o.fields.map (·.name)).Nodup) (wanted : FieldName → Bool) :
    ((o.fields.map (·.name)).filter wanted).flatMap o.linksAt =
      (o.fields.filter fun f => wanted f.name).flatMap (·.links) := by
  rw [List.filter_map, List.flatMap_map]
  exact List.flatMap_congr fun f hf => linksAt_of_field? (field?_of_mem hn (List.mem_filter.1 hf).1)

/-- Visiting the links of an object: `R` says what a visit makes of a link, and `I` what holds meanwhile, given the links
that were visited and what was found so far. -/
theorem visitLinks_spec {wanted : FieldName → Bool} {visit : Link → HeapM (Link × Option CellId)}
    {R : Link → Link × Option CellId → Prop} {I : List Link → List CellId → Heap → Prop}
    (hh : Holding manner rules locks frame h []) (hb : (h.cell c).body = .object o)
    (hc : h.Within manner frame c) (hopen : h.Editable rules c)
    (hlocks : ∀ x ∈ locks, (h.without c).Within manner frame x.1)
    (hwait : o.locked = true → E .selfWait) (hI : I [] [] h)
    (hput : ∀ past found k g, I past found k → I past found (k.putField c g))
    (hvisit : ∀ f link rest past found k, f ∈ o.fields → wanted f.name = true → link ∈ f.links →
      past ++ [link] <+: (o.fields.filter fun f => wanted f.name).flatMap (·.links) → I past found k →
      link.Fits rules.sealed k → h.Grows k →
      Holding manner rules ((c, some f.name) :: locks) (rest ++ frame) k link.tasks →
      Ends E (visit link k) fun y k' =>
        Run manner rules ((c, some f.name) :: locks) (rest ++ frame) k link.tasks k' y.1.tasks ∧
          y.1.Fits rules.sealed k' ∧ R link y ∧ I (past ++ [link]) (found ++ y.2.toList) k') :
    Ends E (visitFields c wanted visit h) fun found h' => ∃ new : Visited,
      found = ((o.fields.map (·.name)).filter wanted).flatMap (fun n => (new n).filterMap (·.2)) ∧
      (∀ f ∈ o.fields, wanted f.name = true → f.locked = false ∧ List.Forall₂ R f.links (new f.name)) ∧
      (h'.cell c).core = { h.cell c with
        body := .object (o.relink ((o.fields.map fun f : Field => f.name).filter wanted) new) }.core ∧
      I ((o.fields.filter fun f => wanted f.name).flatMap (·.links)) found h' ∧ h.Grows h' ∧ Steps rules ⟨h, locks, [], frame⟩ ⟨h', locks, [], frame⟩ ∧
      (h.without c).Keeps manner frame (h'.without c) := by
  have hfits := hh.safe.fits c
  rw [show (Moment.heap _).cell c = h.cell c from rfl, hb] at hfits
  have hn := hfits.1
  have hbody : ∀ {k : Heap} {names new}, (k.cell c).core =
      { h.cell c with body := .object (o.relink names new) }.core → (k.cell c).body = .object (o.relink names new) :=
    fun hk => (congrArg Cell.body hk :)
  rw [← Object.linksAt_wanted hn wanted]
  refine (visitFields_spec (fun done found k => ∃ new : Visited,
      found = done.flatMap (fun n => (new n).filterMap (·.2)) ∧
      (∀ f ∈ o.fields, f.name ∈ done → f.locked = false ∧ List.Forall₂ R f.links (new f.name)) ∧
      (k.cell c).core = { h.cell c with body := .object (o.relink done new) }.core ∧ I (done.flatMap o.linksAt) found k ∧
      h.Grows k)
    hh hb hlocks ⟨fun _ => [], rfl, nofun, by rw [Object.relink_nil, ← hb], hI, .refl h⟩ ?_).imp
      fun found h' ⟨⟨new, hfound, hnew, hcore, hI', hg⟩, hsteps, hkeeps, _⟩ => ?_
  · intro done name rest found k x hnames ⟨new, hfound, hnew, hcore, hIk, hg⟩ hhk hkeeps hx hxn
    rw [hbody hcore] at hx
    cases hx
    have hnodup := hn.filter wanted
    have hdone : name ∉ done := fun hm => by
      rw [hnames] at hnodup
      exact (List.nodup_append.1 hnodup).2.2 name hm name List.mem_cons_self rfl
    have hmem : name ∈ (o.fields.map (·.name)).filter wanted := by
      rw [hnames]
      exact List.mem_append_right _ List.mem_cons_self
    obtain ⟨hmem, hwanted⟩ := List.mem_filter.1 hmem
    obtain ⟨f, hf⟩ := Object.field?_of_mem_names (hxn ▸ hmem)
    have hf₀ := Object.field?_relink hn hf hdone
    have hfm := Object.mem_of_field? hf₀
    have hfname := Object.name_of_field? hf₀
    have hck : k.Within manner frame c := (hkeeps.within hc.without_self).without
    have hgput : h.Grows (k.putField c ⟨name, true, []⟩) := hg.trans (Heap.putField_grows (hbody hcore))
    refine (visitField_spec (fun past ys k' => List.Forall₂ R past ys ∧
        I (done.flatMap o.linksAt ++ past) (found ++ ys.filterMap (·.2)) k' ∧ (∀ y ∈ ys, y.1.Fits rules.sealed k') ∧ h.Grows k') hhk (hbody hcore) hf
      (fun hl => hwait (List.any_eq_true.2 ⟨f, hfm, hl⟩)) hck (hkeeps.editable hc hb hopen)
      (fun y hy => hkeeps.within (hlocks y hy))
      ⟨.nil, by simpa using hput _ found k ⟨name, true, []⟩ hIk, nofun, hgput⟩
      (fun past link rest' ys k' hd ⟨hys, hIk', hfit, hg'⟩ _ hh' => ?_) fun ys k' ⟨_, _, hfit, _⟩ => hfit).imp ?_
    · have hlink : link ∈ f.links := hd ▸ List.mem_append_right _ List.mem_cons_self
      have hprefix : done.flatMap o.linksAt ++ past ++ [link] <+: (o.fields.filter fun f => wanted f.name).flatMap (·.links) := by
        rw [← Object.linksAt_wanted hn wanted, hnames, List.flatMap_append, List.flatMap_cons, Object.linksAt_of_field? hf₀, hd,
          List.append_assoc, List.prefix_append_right_inj]
        exact ⟨rest' ++ rest.flatMap o.linksAt, by simp⟩
      subst hfname
      refine (hvisit f link _ _ _ k' hfm hwanted hlink hprefix hIk'
        ((hfits.2 link (List.mem_flatMap.2 ⟨f, hfm, hlink⟩)).grows hg') hg' hh').imp
          fun y k'' ⟨hr, hy, hR, hI''⟩ => ⟨hr, List.rel_append hys (.cons hR .nil), ?_, fun z hz => ?_, hg'.trans hr.keeps.grows⟩
      · have hlast : [y].filterMap (·.2) = y.2.toList := by
          cases hy₂ : y.2 <;> simp [hy₂]
        rw [List.filterMap_append, hlast, ← List.append_assoc, ← List.append_assoc]
        exact hI''
      · rcases List.mem_append.1 hz with hz | hz
        · exact (hfit z hz).grows hr.keeps.grows
        · exact List.mem_singleton.1 hz ▸ hy
    · rintro more k' ⟨ys, k₂, hun, ⟨hys, hI₂, -, hg₂⟩, rfl, rfl, hk₂, hcore', hsteps, hkeeps'⟩
      rw [Object.relink_append hn hf₀ hun hdone] at hcore'
      have hcore'' : _ = { h.cell c with
          body := .object (o.relink (done ++ [name]) (Function.update new name ys)) }.core := hcore'.trans
        (congrArg (fun y : Cell => { y with
          body := .object (o.relink (done ++ [name]) (Function.update new name ys)) }) hcore :)
      have hold : ∀ n ∈ done, Function.update new name ys n = new n := fun n hm =>
        Function.update_of_ne (fun he : n = name => hdone (he ▸ hm)) _ _
      have hb₂ : (k₂.cell c).body = .object ((o.relink done new).put ⟨name, true, []⟩) := by
        refine hk₂.body ?_ (Heap.putField_body (hbody hcore))
        have hd₂ := Heap.putField_differs k c ⟨name, true, []⟩
        exact hck.without_self.of_without hd₂.scopes fun y hy => by rw [hd₂.others y hy]
      have hIall : I ((done ++ [name]).flatMap o.linksAt) (found ++ ys.filterMap (·.2)) k₂ := by
        rwa [List.flatMap_append, List.flatMap_singleton, Object.linksAt_of_field? hf₀]
      refine ⟨⟨Function.update new name ys, ?_, fun g hg hgn => ?_, hcore'', hput _ _ _ _ hIall,
        hg₂.trans (Heap.putField_grows hb₂)⟩, hsteps, hkeeps', _, hbody hcore'', Object.names_relink⟩
      · rw [List.flatMap_append, List.flatMap_singleton, Function.update_self, hfound]
        congr 1
        exact List.flatMap_congr fun n hm => by rw [hold n hm]
      · rcases List.mem_append.1 hgn with hgn | hgn
        · rw [hold _ hgn]
          exact hnew g hg hgn
        · rw [List.mem_singleton] at hgn
          have : g = f := Option.some.inj ((Object.field?_of_mem hn hg).symm.trans (hgn ▸ hf₀))
          subst this
          rw [hgn, Function.update_self]
          exact ⟨hun, hys⟩
  · refine ⟨new, hfound, fun f hf hw => hnew f hf (List.mem_filter.2 ⟨List.mem_map_of_mem hf, hw⟩), hcore, hI', hg,
      hsteps, hkeeps⟩

theorem Object.relink_map {names : List FieldName} {new : Visited} (g : Link → Link)
    (hnew : ∀ f ∈ o.fields, f.name ∈ names → List.Forall₂ (fun link y => y.1 = g link) f.links (new f.name)) :
    o.relink names new = { o with fields := o.fields.map fun f =>
      if f.name ∈ names then { f with links := f.links.map g } else f } := by
  simp only [relink]
  congr 1
  refine List.map_congr_left fun f hf => ?_
  split
  · next hm =>
    have hmap : List.Forall₂ Eq ((new f.name).map Prod.fst) (f.links.map g) := by
      rw [List.forall₂_map_left_iff, List.forall₂_map_right_iff]
      exact (hnew f hf hm).flip
    rw [List.forall₂_eq_eq_eq] at hmap
    rw [hmap]
  · rfl

end LazyHeap
