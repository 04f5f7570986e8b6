import Mathlib.Data.List.Perm.Basic
import ShaderVariants.Proofs.PipelineOrder

/-! # The order of worlds is canonical

`attempt_cases` says all that an edit of a pipeline can do, so the worlds and imports of a pipeline
are those of the accepted edits (`edits_eq`). Whatever is declared and connected, a pipeline keeps
some order in which imports lead forward: a new world goes to the end, and a new import is accepted
only if its target does not reach its source, so that all the target reaches can be moved behind the
rest (`Orderable.connect`). Releasing worlds then never gets stuck (`release_perm`). Of two orders
that lead forward, the first difference decides which is less. The first world of any of them is
ready, and `release` takes the first declared world that is, so no other order is less than its own
(`release_least`). -/
namespace ShaderVariants.Pipeline
open ShaderVariants.Graph Relation

/-! ## Lists in which imports lead forward -/

/-- No import into a listed world comes from that world or from one behind it. -/
structure Forward (imports : List Import) (l : List String) : Prop where
  irrefl : ∀ w ∈ l, w ∉ sources imports w
  pairwise : l.Pairwise fun w u => u ∉ sources imports w

namespace Forward
variable {imports : List Import} {l l' : List String}

theorem sublist (h : Forward imports l) (hl : l'.Sublist l) : Forward imports l' :=
  ⟨fun w hw => h.irrefl w (hl.subset hw), h.pairwise.sublist hl⟩

theorem append (h : Forward imports l) (h' : Forward imports l')
    (hcross : ∀ w ∈ l, ∀ u ∈ l', u ∉ sources imports w) : Forward imports (l ++ l') :=
  ⟨List.forall_mem_append.mpr ⟨h.irrefl, h'.irrefl⟩,
    List.pairwise_append.mpr ⟨h.pairwise, h'.pairwise, hcross⟩⟩

/-- Further imports do no harm if they too lead forward. -/
theorem more {added : List Import} (h : Forward imports l) (h' : Forward added l) :
    Forward (imports ++ added) l := by
  have hsources : ∀ w, sources (imports ++ added) w = sources imports w ++ sources added w := by
    intro w
    rw [sources, List.filter_append, List.map_append]
    rfl
  refine ⟨fun w hw => ?_, (h.pairwise.and h'.pairwise).imp fun {w u} hu => ?_⟩
  · rw [hsources]
    exact List.not_mem_append (h.irrefl w hw) (h'.irrefl w hw)
  · rw [hsources]
    exact List.not_mem_append hu.1 hu.2

/-- The first world has to wait for none. -/
theorem isReady_head {w : String} {waiting : List String} (h : Forward imports (w :: l))
    (hperm : (w :: l).Perm waiting) : isReady imports waiting w = true := by
  refine isReady_iff.mpr fun u hu hwait => ?_
  rcases List.mem_cons.mp (hperm.mem_iff.mpr hwait) with rfl | hl
  · exact h.irrefl u List.mem_cons_self hu
  · exact List.rel_of_pairwise_cons h.pairwise hl hu

/-- Where every import leads to a later place, imports lead forward. -/
theorem of_idxOf_lt (hnodup : l.Nodup)
    (h : ∀ i ∈ imports, l.idxOf i.source < l.idxOf i.target) : Forward imports l := by
  refine ⟨fun w _ hw => ?_, List.pairwise_iff_getElem.mpr fun a b ha hb hab hu => ?_⟩
  · obtain ⟨i, hi, hsource, htarget⟩ := mem_sources.mp hw
    have hlt := h i hi
    rw [hsource, htarget] at hlt
    exact Nat.lt_irrefl _ hlt
  · obtain ⟨i, hi, hsource, htarget⟩ := mem_sources.mp hu
    have hlt := h i hi
    rw [hsource, htarget, hnodup.idxOf_getElem b hb, hnodup.idxOf_getElem a ha] at hlt
    omega

end Forward

/-- The worlds that pass a test behind those that do not. -/
def moveBack (r : String → Bool) (l : List String) : List String :=
  l.filter (fun w => !r w) ++ l.filter r

theorem moveBack_perm (r : String → Bool) (l : List String) : (moveBack r l).Perm l :=
  List.perm_append_comm.trans (List.filter_append_perm r l)

/-- Worlds can be moved back together with all that they have imports into. -/
theorem Forward.moveBack {imports : List Import} {l : List String} {r : String → Bool}
    (h : Forward imports l)
    (hclosed : ∀ w ∈ l, ∀ u ∈ sources imports w, r u = true → r w = true) :
    Forward imports (moveBack r l) := by
  refine (h.sublist List.filter_sublist).append (h.sublist List.filter_sublist) ?_
  intro w hw u hu hsource
  obtain ⟨hl, hout⟩ := List.mem_filter.mp hw
  rw [hclosed w hl u hsource (List.mem_filter.mp hu).2] at hout
  cases hout

/-- An import from what stays to what is moved back leads forward. -/
theorem forward_across {i : Import} {l : List String} {r : String → Bool}
    (hsource : r i.source = false) (htarget : r i.target = true) :
    Forward [i] (moveBack r l) := by
  have hends : ∀ {w u}, u ∈ sources [i] w → r u = false ∧ r w = true := by
    intro w u hu
    obtain ⟨j, hj, rfl, rfl⟩ := mem_sources.mp hu
    obtain rfl := List.mem_singleton.mp hj
    exact ⟨hsource, htarget⟩
  have hstay : ∀ w ∈ l.filter (fun w => !r w), ∀ u, u ∉ sources [i] w := by
    intro w hw u hu
    have hout := (List.mem_filter.mp hw).2
    rw [(hends hu).2] at hout
    cases hout
  have hback : ∀ u ∈ l.filter r, ∀ w, u ∉ sources [i] w := by
    intro u hu w hsources
    have hin := (List.mem_filter.mp hu).2
    rw [(hends hsources).1] at hin
    cases hin
  refine ⟨fun w _ hw => ?_, List.pairwise_append.mpr ⟨?_, ?_, ?_⟩⟩
  · obtain ⟨hout, hin⟩ := hends hw
    rw [hout] at hin
    cases hin
  · exact List.pairwise_of_forall_mem_list fun w hw u _ => hstay w hw u
  · exact List.pairwise_of_forall_mem_list fun w _ u hu => hback u hu w
  · exact fun w hw u _ => hstay w hw u

/-! ## Releasing worlds -/

section Release
variable {imports : List Import} {waiting l : List String}

/-- If the worlds have an order at all, every one of them is released. -/
theorem release_perm (hperm : l.Perm waiting) (h : Forward imports l) :
    (release imports waiting).Perm waiting := by
  fun_induction release imports waiting generalizing l with
  | case1 waiting hnone =>
    cases l with
    | nil => exact hperm
    | cons w l =>
      have hready := h.isReady_head hperm
      exact absurd hready (List.find?_eq_none.mp hnone w (hperm.subset List.mem_cons_self))
  | case2 waiting v hv ih =>
    have hmem : v ∈ waiting := List.mem_of_find?_eq_some hv
    refine ((ih (hperm.erase v) (h.sublist List.erase_sublist)).cons v).trans ?_
    exact (List.perm_cons_erase hmem).symm

/-- An order that differs from the order of release is greater at the first difference. -/
theorem release_least {index : String → Nat}
    (hindex : waiting.Pairwise fun u w => index u < index w) (hperm : l.Perm waiting)
    (h : Forward imports l) (hne : l ≠ release imports waiting) :
    List.Lex (· < ·) ((release imports waiting).map index) (l.map index) := by
  fun_induction release imports waiting generalizing l with
  | case1 waiting hnone =>
    cases l with
    | nil => exact absurd rfl hne
    | cons w l =>
      have hready := h.isReady_head hperm
      exact absurd hready (List.find?_eq_none.mp hnone w (hperm.subset List.mem_cons_self))
  | case2 waiting v hv ih =>
    cases l with
    | nil =>
      have hmem := List.mem_of_find?_eq_some hv
      exact absurd (hperm.mem_iff.mpr hmem) List.not_mem_nil
    | cons w l =>
      by_cases hw : w = v
      · subst hw
        have hrest := h.sublist (List.sublist_cons_self w l)
        refine .cons (ih (hindex.sublist List.erase_sublist) ?_ hrest fun he => hne (he ▸ rfl))
        exact (List.cons_perm_iff_perm_erase.mp hperm).2
      · -- the first world of the order is ready, but `v` is declared before it
        refine .rel ?_
        obtain ⟨_, as, bs, rfl, hbefore⟩ := List.find?_eq_some_iff_append.mp hv
        have hready := h.isReady_head hperm
        have hmem := hperm.subset List.mem_cons_self
        rcases List.mem_append.mp hmem with has | hvbs
        · have hnot := hbefore w has
          rw [hready] at hnot
          cases hnot
        · have hbs := (List.mem_cons.mp hvbs).resolve_left hw
          exact List.rel_of_pairwise_cons (List.pairwise_append.mp hindex).2.1 hbs

end Release

/-! ## Editing a pipeline -/

inductive Edit where
  | declare (world : World)
  | connect (operator source target : String)

/-- The world that an edit declares. -/
def Edit.world? : Edit → Option World
  | .declare world => some world
  | .connect .. => none

/-- The import that an edit adds. -/
def Edit.import? : Edit → Option Import
  | .declare _ => none
  | .connect operator source target => some ⟨operator, source, target⟩

/-- What comes of an edit, and the pipeline after it. -/
def attempt (p : Pipeline) : Edit → Except PipelineError Unit × Pipeline
  | .declare world => p.declare world
  | .connect operator source target => p.connect operator source target

def edit (p : Pipeline) (e : Edit) : Pipeline := (p.attempt e).2

/-- The pipeline with one more import, whether or not that would be accepted. -/
def withImport (p : Pipeline) (i : Import) : Pipeline := { p with imports := p.imports ++ [i] }

/-- The edit as it is made where nothing speaks against it. -/
def apply (p : Pipeline) : Edit → Pipeline
  | .declare world => { p with worlds := p.worlds.insert world.name world }
  | .connect operator source target => p.withImport ⟨operator, source, target⟩

/-- What is looked at before an edit is made. -/
def Admits (p : Pipeline) : Edit → Prop
  | .declare world => world.name ∉ p.worlds.keys
  | .connect _ source target =>
    source ∈ p.worlds.keys ∧ target ∈ p.worlds.keys ∧ p.reaches target source = false

theorem attempt_of_admits {p : Pipeline} {e : Edit} (h : p.Admits e) :
    p.attempt e = (.ok (), p.apply e) := by
  cases e with
  | declare world => exact if_neg (mt OrderedMap.contains_iff.mp h)
  | connect operator source target =>
    obtain ⟨hsource, htarget, hfree⟩ := h
    rw [attempt, connect, OrderedMap.contains_iff.mpr hsource, OrderedMap.contains_iff.mpr htarget,
      hfree]
    rfl

/-- An edit is made, or it is refused and the pipeline stays as it is. -/
theorem attempt_cases (p : Pipeline) (e : Edit) :
    (p.Admits e ∧ p.attempt e = (.ok (), p.apply e)) ∨
      ∃ error, p.attempt e = (.error error, p) := by
  by_cases h : p.Admits e
  · exact Or.inl ⟨h, attempt_of_admits h⟩
  right
  cases e with
  | declare world =>
    have hworld : world.name ∈ p.worlds.keys := not_not.mp h
    exact ⟨_, if_pos (OrderedMap.contains_iff.mpr hworld)⟩
  | connect operator source target =>
    rw [attempt, connect]
    split
    · exact ⟨_, rfl⟩
    rename_i hsource
    split
    · exact ⟨_, rfl⟩
    rename_i htarget
    split
    · exact ⟨_, rfl⟩
    rename_i hfree
    refine absurd ⟨?_, ?_, by simpa using hfree⟩ h
    · exact OrderedMap.contains_iff.mp (by simpa using hsource)
    · exact OrderedMap.contains_iff.mp (by simpa using htarget)

/-! ## Accepted edits -/

/-- Those of the edits, made one after the other, that are not refused. -/
def accepted (p : Pipeline) : List Edit → List Edit
  | [] => []
  | e :: rest =>
    match (p.attempt e).1 with
    | .ok _ => e :: (p.edit e).accepted rest
    | .error _ => (p.edit e).accepted rest

theorem entries_apply {p : Pipeline} {e : Edit} (h : p.Admits e) :
    (p.apply e).worlds.entries = p.worlds.entries ++ e.world?.toList.map fun w => (w.name, w) := by
  cases e with
  | declare world => exact OrderedMap.put_of_not_mem h world
  | connect => exact (List.append_nil _).symm

theorem imports_apply (p : Pipeline) (e : Edit) :
    (p.apply e).imports = p.imports ++ e.import?.toList := by
  cases e with
  | declare => exact (List.append_nil _).symm
  | connect => rfl

theorem filterMap_cons_toList {α β : Type} (f : α → Option β) (a : α) (l : List α) :
    (a :: l).filterMap f = (f a).toList ++ l.filterMap f := by
  cases h : f a <;> simp [h]

/-- What was declared and connected is what was accepted, in that order. -/
theorem edits_eq (p : Pipeline) (edits : List Edit) :
    (edits.foldl edit p).worlds.entries = p.worlds.entries ++
        ((p.accepted edits).filterMap Edit.world?).map (fun w => (w.name, w)) ∧
      (edits.foldl edit p).imports = p.imports ++ (p.accepted edits).filterMap Edit.import? := by
  induction edits generalizing p with
  | nil => exact ⟨(List.append_nil _).symm, (List.append_nil _).symm⟩
  | cons e rest ih =>
    obtain ⟨hworlds, himports⟩ := ih (p.edit e)
    rw [List.foldl_cons, hworlds, himports, accepted]
    rcases p.attempt_cases e with ⟨hadmits, hattempt⟩ | ⟨error, hattempt⟩
    · have hedit : p.edit e = p.apply e := congrArg Prod.snd hattempt
      rw [hattempt, hedit, entries_apply hadmits, imports_apply, filterMap_cons_toList,
        filterMap_cons_toList, List.map_append, List.append_assoc, List.append_assoc]
      exact ⟨rfl, rfl⟩
    · have hedit : p.edit e = p := congrArg Prod.snd hattempt
      rw [hattempt, hedit]
      exact ⟨rfl, rfl⟩

/-! ## What edits keep -/

/-- Imports are between declared worlds and can all lead forward. -/
structure Orderable (p : Pipeline) : Prop where
  declared : ∀ i ∈ p.imports, i.source ∈ p.worlds.keys ∧ i.target ∈ p.worlds.keys
  forward : ∃ l, l.Perm p.worlds.keys ∧ Forward p.imports l

namespace Orderable
variable {p : Pipeline}

/-- A new world has no imports yet, so it can stand at the end. -/
theorem declare (h : p.Orderable) {world : World} (hnew : p.Admits (.declare world)) :
    (p.apply (.declare world)).Orderable := by
  have hkeys : (p.apply (.declare world)).worlds.keys = p.worlds.keys ++ [world.name] := by
    rw [OrderedMap.keys, entries_apply hnew, List.map_append]
    rfl
  obtain ⟨l, hperm, hforward⟩ := h.forward
  refine ⟨fun i hi => ?_, l ++ [world.name], ?_, ?_⟩
  · rw [hkeys]
    exact ⟨List.mem_append_left _ (h.declared i hi).1, List.mem_append_left _ (h.declared i hi).2⟩
  · rw [hkeys]
    exact hperm.append_right _
  · have hnone : ∀ w, world.name ∉ sources p.imports w := by
      intro w hw
      obtain ⟨i, hi, hsource, _⟩ := mem_sources.mp hw
      exact hnew (hsource ▸ (h.declared i hi).1)
    refine hforward.append ⟨?_, List.pairwise_singleton _ _⟩ ?_
    · intro w hw
      rw [List.mem_singleton] at hw
      exact hw ▸ hnone w
    · intro w _ u hu
      rw [List.mem_singleton] at hu
      exact hu ▸ hnone w

/-- All that the target of a new import reaches can stand behind the rest, and the source is in the
rest. -/
theorem connect (h : p.Orderable) {operator source target : String}
    (hadmits : p.Admits (.connect operator source target)) :
    (p.apply (.connect operator source target)).Orderable := by
  obtain ⟨hsource, htarget, hfree⟩ := hadmits
  obtain ⟨l, hperm, hforward⟩ := h.forward
  refine ⟨fun i hi => ?_, moveBack (p.reaches target) l, (moveBack_perm _ l).trans hperm, ?_⟩
  · rcases List.mem_append.mp hi with hi | hi
    · exact h.declared i hi
    · obtain rfl := List.mem_singleton.mp hi
      exact ⟨hsource, htarget⟩
  · refine (hforward.moveBack fun w hw u hu hreach => ?_).more ?_
    · -- what has an import from a reached world is reached
      have hstep : Edge p.feeds p.worlds.keys u w := ⟨mem_feeds.mpr hu, hperm.subset hw⟩
      exact reaches_iff.mpr ⟨htarget, (reaches_iff.mp hreach).2.tail hstep⟩
    · exact forward_across hfree (reaches_iff.mpr ⟨htarget, .refl⟩)

theorem edit (h : p.Orderable) (e : Edit) : (p.edit e).Orderable := by
  rw [Pipeline.edit]
  rcases p.attempt_cases e with ⟨hadmits, hattempt⟩ | ⟨error, hattempt⟩
  · rw [hattempt]
    cases e with
    | declare world => exact h.declare hadmits
    | connect operator source target => exact h.connect hadmits
  · rw [hattempt]
    exact h

end Orderable

theorem orderable_edits (name : String) (edits : List Edit) :
    (edits.foldl edit { name }).Orderable := by
  refine List.foldlRecOn edits edit ⟨?_, [], List.Perm.nil, ?_⟩ fun p hp e _ => hp.edit e
  · exact List.forall_mem_nil _
  · exact ⟨List.forall_mem_nil _, List.Pairwise.nil⟩

/-! ## The canonical order -/

/-- Every declared world once, and before the worlds that it has imports into. -/
structure IsOrder (p : Pipeline) (l : List String) : Prop where
  worlds : l.Perm p.worlds.keys
  imports : ∀ i ∈ p.imports, l.idxOf i.source < l.idxOf i.target

theorem IsOrder.forward {p : Pipeline} {l : List String} (h : p.IsOrder l) : Forward p.imports l :=
  .of_idxOf_lt (h.worlds.nodup_iff.mpr p.worlds.nodup_keys) h.imports

theorem Orderable.isOrder {p : Pipeline} (h : p.Orderable) : p.IsOrder p.order := by
  obtain ⟨l, hperm, hforward⟩ := h.forward
  have hworlds : p.order.Perm p.worlds.keys := release_perm hperm hforward
  refine ⟨hworlds, fun i hi => ?_⟩
  obtain ⟨hsource, htarget⟩ := h.declared i hi
  have hedge : Edge (sources p.imports) p.worlds.keys i.target i.source :=
    ⟨mem_sources.mpr ⟨i, hi, rfl, rfl⟩, hsource⟩
  exact (p.order_settled.path (hworlds.mem_iff.mpr htarget) (.single hedge)).2

/-- The place of a world among the declarations. -/
def declarationIndex (p : Pipeline) (world : String) : Nat := p.worlds.keys.idxOf world

/-- After any edits, refused ones among them, the worlds and imports are those of the accepted
edits. The order of the worlds is one in which these imports lead forward, and it is less than every
other such order, by declaration, at their first difference. -/
theorem order_canonical (name : String) (edits : List Edit) :
    let p := edits.foldl edit { name }
    p.worlds.entries =
      ((accepted { name } edits).filterMap Edit.world?).map (fun w => (w.name, w)) ∧
    p.imports = (accepted { name } edits).filterMap Edit.import? ∧
    p.IsOrder p.order ∧ ∀ l, p.IsOrder l → l ≠ p.order →
      List.Lex (· < ·) (p.order.map p.declarationIndex) (l.map p.declarationIndex) := by
  intro p
  obtain ⟨hworlds, himports⟩ := edits_eq { name } edits
  refine ⟨hworlds, himports, (orderable_edits name edits).isOrder, fun l hl hne => ?_⟩
  exact release_least (pairwise_idxOf p.worlds.nodup_keys) hl.worlds hl.forward hne

end ShaderVariants.Pipeline
