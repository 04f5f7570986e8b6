import ShaderVariants.Proofs.Upstream

/-! # Which edits a pipeline refuses

An import is refused on the word of a search over the imports that are there already: it must not be
possible to get from its target back to its source. In a pipeline made by edits that is the same as
to ask whether the imports would go round in a circle with the new one among them
(`Orderable.cyclic_iff`). One direction closes the circle by hand. The other needs no argument about
paths through the new import: if the search finds nothing, the import is accepted, what is accepted
can be ordered again, and nothing that can be ordered goes round in a circle.

`Accepts` and `Refuses` say by worlds and imports alone what becomes of an edit, and `view` is all
that can be asked of a pipeline. It stays the same through an edit iff the edit is refused
(`refused_iff_unchanged`). -/
namespace ShaderVariants.Pipeline
open Relation

/-! ## Circles of imports -/

/-- Imports lead from some world back to it. -/
def Cyclic (p : Pipeline) : Prop := ∃ w, p.Leads w w

variable {p : Pipeline}

theorem Leads.withImport {u w : String} (h : p.Leads u w) (i : Import) :
    (p.withImport i).Leads u w := by
  refine TransGen.mono (fun u w hi => ?_) _ _ h
  obtain ⟨j, hj, hends⟩ := hi
  exact ⟨j, List.mem_append_left _ hj, hends⟩

theorem leads_withImport (p : Pipeline) (i : Import) :
    (p.withImport i).Leads i.source i.target :=
  .single ⟨i, List.mem_append_right _ List.mem_cons_self, rfl, rfl⟩

theorem Orderable.not_cyclic (h : p.Orderable) : ¬ p.Cyclic := by
  intro hcyclic
  obtain ⟨w, hw⟩ := hcyclic
  exact Nat.lt_irrefl _ (h.idxOf_lt hw)

/-- The search finds a way back iff the import would close a circle. -/
theorem Orderable.cyclic_iff (h : p.Orderable) {operator source target : String}
    (hsource : source ∈ p.worlds.keys) (htarget : target ∈ p.worlds.keys) :
    (p.withImport ⟨operator, source, target⟩).Cyclic ↔ p.reaches target source = true := by
  constructor
  · intro hcyclic
    by_contra hfree
    exact (h.connect ⟨hsource, htarget, Bool.eq_false_iff.mpr hfree⟩).not_cyclic hcyclic
  · intro hreaches
    have hnew := p.leads_withImport ⟨operator, source, target⟩
    refine ⟨source, ?_⟩
    rcases (h.reaches_iff.mp hreaches).2 with rfl | hback
    · exact hnew
    · exact hnew.trans (hback.withImport _)

/-! ## What becomes of an edit -/

/-- A world has to be new, and an import has to be between declared worlds and close no circle. -/
def Accepts (p : Pipeline) : Edit → Prop
  | .declare world => world.name ∉ p.worlds.keys
  | .connect operator source target => source ∈ p.worlds.keys ∧ target ∈ p.worlds.keys ∧
      ¬ (p.withImport ⟨operator, source, target⟩).Cyclic

/-- The error of each edit that is refused. An unknown source is reported before an unknown target,
and a circle only between declared worlds. -/
inductive Refuses (p : Pipeline) : Edit → PipelineError → Prop
  | duplicate {world : World} (hworld : world.name ∈ p.worlds.keys) :
      Refuses p (.declare world) (.duplicateWorld p.name world.name)
  | unknownSource {operator source target : String} (hsource : source ∉ p.worlds.keys) :
      Refuses p (.connect operator source target) (.unknownWorld p.name source)
  | unknownTarget {operator source target : String} (hsource : source ∈ p.worlds.keys)
      (htarget : target ∉ p.worlds.keys) :
      Refuses p (.connect operator source target) (.unknownWorld p.name target)
  | cyclic {operator source target : String} (hsource : source ∈ p.worlds.keys)
      (htarget : target ∈ p.worlds.keys)
      (hcyclic : (p.withImport ⟨operator, source, target⟩).Cyclic) :
      Refuses p (.connect operator source target) (.cyclicImport p.name source target)

theorem accepts_or_refuses (p : Pipeline) (e : Edit) :
    p.Accepts e ∨ ∃ error, p.Refuses e error := by
  cases e with
  | declare world =>
    by_cases hworld : world.name ∈ p.worlds.keys
    · exact Or.inr ⟨_, .duplicate hworld⟩
    · exact Or.inl hworld
  | connect operator source target =>
    by_cases hsource : source ∈ p.worlds.keys
    · by_cases htarget : target ∈ p.worlds.keys
      · by_cases hcyclic : (p.withImport ⟨operator, source, target⟩).Cyclic
        · exact Or.inr ⟨_, .cyclic hsource htarget hcyclic⟩
        · exact Or.inl ⟨hsource, htarget, hcyclic⟩
      · exact Or.inr ⟨_, .unknownTarget hsource htarget⟩
    · exact Or.inr ⟨_, .unknownSource hsource⟩

namespace Orderable
variable {e : Edit} {error : PipelineError}

theorem accepts_iff_admits (h : p.Orderable) : p.Accepts e ↔ p.Admits e := by
  cases e with
  | declare world => exact Iff.rfl
  | connect operator source target =>
    refine and_congr_right fun hsource => and_congr_right fun htarget => ?_
    rw [h.cyclic_iff hsource htarget, Bool.not_eq_true]

theorem attempt_of_accepts (h : p.Orderable) (he : p.Accepts e) :
    p.attempt e = (.ok (), p.apply e) :=
  attempt_of_admits (h.accepts_iff_admits.mp he)

theorem attempt_of_refuses (h : p.Orderable) (he : p.Refuses e error) :
    p.attempt e = (.error error, p) := by
  have hunknown : ∀ {w}, w ∉ p.worlds.keys → p.worlds.contains w = false := fun hw =>
    Bool.eq_false_iff.mpr (mt OrderedMap.contains_iff.mp hw)
  cases he with
  | duplicate hworld => exact if_pos (OrderedMap.contains_iff.mpr hworld)
  | unknownSource hsource =>
    rw [attempt, Pipeline.connect, hunknown hsource]
    rfl
  | unknownTarget hsource htarget =>
    rw [attempt, Pipeline.connect, OrderedMap.contains_iff.mpr hsource, hunknown htarget]
    rfl
  | cyclic hsource htarget hcyclic =>
    rw [attempt, Pipeline.connect, OrderedMap.contains_iff.mpr hsource,
      OrderedMap.contains_iff.mpr htarget, (h.cyclic_iff hsource htarget).mp hcyclic]
    rfl

theorem attempt_error_iff (h : p.Orderable) :
    (p.attempt e).1 = .error error ↔ p.Refuses e error := by
  refine ⟨fun herror => ?_, fun hrefuses => congrArg Prod.fst (h.attempt_of_refuses hrefuses)⟩
  rcases p.accepts_or_refuses e with haccepts | ⟨error', hrefuses⟩
  · rw [h.attempt_of_accepts haccepts] at herror
    cases herror
  · rw [h.attempt_of_refuses hrefuses] at herror
    exact Except.error.inj herror ▸ hrefuses

theorem attempt_ok_iff (h : p.Orderable) : (p.attempt e).1 = .ok () ↔ p.Accepts e := by
  refine ⟨fun hok => ?_, fun haccepts => congrArg Prod.fst (h.attempt_of_accepts haccepts)⟩
  rcases p.accepts_or_refuses e with haccepts | ⟨error, hrefuses⟩
  · exact haccepts
  · rw [h.attempt_of_refuses hrefuses] at hok
    cases hok

end Orderable

/-! ## What can be asked of a pipeline -/

/-- The worlds with their attributes in order of declaration, their topological order and ranks,
which of them reach which, and the operators between any two. -/
structure View where
  worlds : OrderedMap String World
  order : List String
  rank : String → Option Nat
  reaches : String → String → Bool
  operators : String → String → List String

def view (p : Pipeline) : View where
  worlds := p.worlds
  order := p.order
  rank := p.rank?
  reaches := p.reaches
  operators := p.operators

/-- A new world shows in the worlds, and a new import in the operators between its ends. -/
theorem view_apply_ne {e : Edit} (h : p.Accepts e) : (p.apply e).view ≠ p.view := by
  intro hsame
  cases e with
  | declare world =>
    have hworlds : p.worlds.insert world.name world = p.worlds := congrArg View.worlds hsame
    have hfind := p.worlds.find?_insert world.name world world.name
    rw [hworlds, if_pos rfl, OrderedMap.find?_eq_none_iff.mpr h] at hfind
    cases hfind
  | connect operator source target =>
    have hnew : (p.withImport ⟨operator, source, target⟩).operators source target =
        operator :: p.operators source target := by
      simp [operators, withImport]
    have hold : (p.withImport ⟨operator, source, target⟩).operators source target =
        p.operators source target :=
      congrFun (congrFun (congrArg View.operators hsame) source) target
    exact List.cons_ne_self operator _ (hnew.symm.trans hold)

/-- After any edits, refused ones among them, a new edit is accepted iff it declares a new world or
connects two declared worlds by an import that closes no circle; so no world is connected to itself.
If it is refused, the error is the one that `Refuses` names. An edit that is refused leaves all that
can be asked of the pipeline as it was, and one that is accepted does not. -/
theorem refused_iff_unchanged (name : String) (edits : List Edit) (e : Edit) :
    let p := edits.foldl edit { name }
    ((p.attempt e).1 = .ok () ↔ p.Accepts e) ∧
    (∀ operator world, ¬ p.Accepts (.connect operator world world)) ∧
    (∀ error, (p.attempt e).1 = .error error ↔ p.Refuses e error) ∧
    ((∃ error, (p.attempt e).1 = .error error) ↔ (p.attempt e).2.view = p.view) := by
  intro p
  have h : p.Orderable := orderable_edits name edits
  refine ⟨h.attempt_ok_iff, ?_, fun error => h.attempt_error_iff, ?_⟩
  · intro operator world haccepts
    exact haccepts.2.2 ⟨world, p.leads_withImport ⟨operator, world, world⟩⟩
  · rcases p.accepts_or_refuses e with haccepts | ⟨error, hrefuses⟩
    · rw [h.attempt_of_accepts haccepts]
      exact iff_of_false nofun (view_apply_ne haccepts)
    · rw [h.attempt_of_refuses hrefuses]
      exact iff_of_true ⟨error, rfl⟩ rfl

end ShaderVariants.Pipeline
