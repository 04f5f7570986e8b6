import ShaderVariants.Proofs.AttributeSlots
import ShaderVariants.Proofs.Following

/-! # What attribute references come to mean

References are replaced in place while they are read, one slot after the other. A slot is written at
its own turn only, so it still has its former value then. What it refers to may have been replaced
before, or may have its own turn later. Resolving is thus a pass over slots that point to each other
(`get?_resolve`), and `Resolved` says what every slot ends up with. The counts are those of slots as
they were before (`count_resolve`). -/
namespace ShaderVariants

namespace Indirection
variable {r : Indirection} {components components' : Components} {t : AttributeSlot}

theorem isMarked_of_parse? {value : String} (h : parse? value = some r) :
    isMarked value = true := by
  unfold parse? at h
  split at h
  · rename_i cs hcs
    rw [isMarked, hcs]
    rfl
  · cases h

/-! ## The slot that is referred to -/

/-- The slot is that of the last implementation which has the attribute. -/
structure Names (r : Indirection) (components : Components) (t : AttributeSlot) : Prop where
  component : t.component = r.component
  key : t.key = r.key
  isSome : (t.get? components).isSome = true
  last : ∀ n, t.implementation < n →
    AttributeSlot.get? ⟨r.component, n, r.key⟩ components = none

def slot? (r : Indirection) (components : Components) : Option AttributeSlot :=
  (components.find? r.component).bind fun c =>
    (c.implementations.zipIdx.reverse.find? fun i => (i.1.attributes.find? r.key).isSome).map
      fun i => ⟨r.component, i.2, r.key⟩

theorem Names.unique {t' : AttributeSlot} (h : r.Names components t) (h' : r.Names components t') :
    t = t' := by
  obtain ⟨component, n, key⟩ := t
  obtain ⟨component', n', key'⟩ := t'
  obtain ⟨rfl, rfl, hsome, hlast⟩ := h
  obtain ⟨rfl, rfl, hsome', hlast'⟩ := h'
  have hle : n' ≤ n := Nat.le_of_not_lt fun hlt => by simp [hlast n' hlt] at hsome'
  have hge : n ≤ n' := Nat.le_of_not_lt fun hlt => by simp [hlast' n hlt] at hsome
  rw [Nat.le_antisymm hge hle]

/-- What stands behind the last element of a kind is not of that kind. -/
theorem find?_reverse_zipIdx {α : Type} (p : α → Bool) {l : List α} {a : α} {n : Nat}
    (h : l.zipIdx.reverse.find? (fun i => p i.1) = some (a, n)) :
    l[n]? = some a ∧ p a = true ∧ ∀ m b, n < m → l[m]? = some b → p b = false := by
  obtain ⟨ha, later, earlier, hsplit, hlater⟩ := List.find?_eq_some_iff_append.mp h
  have hmem : ∀ b m, l[m]? = some b ↔ (b, m) ∈ later ++ (a, n) :: earlier := by
    intro b m
    rw [← hsplit, List.mem_reverse, List.mem_zipIdx_iff_getElem?]
  have horder : (later ++ (a, n) :: earlier).Pairwise fun x y => y.2 < x.2 := by
    rw [← hsplit, List.pairwise_reverse, ← List.pairwise_map, List.zipIdx_map_snd]
    exact List.pairwise_lt_range'
  refine ⟨(hmem a n).mpr (by simp), ha, fun m b hlt hb => ?_⟩
  rcases List.mem_append.mp ((hmem b m).mp hb) with hin | hin
  · simpa using hlater (b, m) hin
  · rcases List.mem_cons.mp hin with heq | hin
    · have := congrArg Prod.snd heq
      omega
    · have := List.rel_of_pairwise_cons (List.pairwise_append.mp horder).2.1 hin
      omega

theorem slot?_names (h : r.slot? components = some t) : r.Names components t := by
  obtain ⟨c, hc, h⟩ := Option.bind_eq_some_iff.mp h
  obtain ⟨⟨i, n⟩, hfind, rfl⟩ := Option.map_eq_some_iff.mp h
  obtain ⟨hi, hhas, hlast⟩ := find?_reverse_zipIdx
    (fun i : Implementation => (i.attributes.find? r.key).isSome) hfind
  refine ⟨rfl, rfl, ?_, fun m hlt => ?_⟩
  · simpa [AttributeSlot.get?, hc, hi] using hhas
  · rw [AttributeSlot.get?, hc, Option.bind_some]
    cases hj : c.implementations[m]? with
    | none => rfl
    | some j => exact Option.not_isSome_iff_eq_none.mp (by simpa using hlast m j hlt hj)

theorem isSome_slot? : (r.slot? components).isSome = true ↔
    ∃ t : AttributeSlot, t.component = r.component ∧ t.key = r.key ∧
      (t.get? components).isSome = true := by
  constructor
  · intro h
    obtain ⟨t, ht⟩ := Option.isSome_iff_exists.mp h
    have hnames := slot?_names ht
    exact ⟨t, hnames.component, hnames.key, hnames.isSome⟩
  · rintro ⟨⟨component, n, key⟩, rfl, rfl, h⟩
    obtain ⟨value, hvalue⟩ := Option.isSome_iff_exists.mp h
    obtain ⟨c, i, hc, hi, hvalue⟩ := AttributeSlot.get?_eq_some_iff.mp hvalue
    rw [slot?, hc, Option.bind_some, Option.isSome_map, List.find?_isSome]
    exact ⟨(i, n), List.mem_reverse.mpr (List.mem_zipIdx_iff_getElem?.mpr hi),
      Option.isSome_iff_exists.mpr ⟨value, hvalue⟩⟩

theorem slot?_eq_some_iff : r.slot? components = some t ↔ r.Names components t := by
  refine ⟨slot?_names, fun h => ?_⟩
  obtain ⟨t', ht'⟩ := Option.isSome_iff_exists.mp
    (isSome_slot?.mpr ⟨t, h.component, h.key, h.isSome⟩)
  rw [ht', (slot?_names ht').unique h]

theorem findSome?_eq_bind {α β : Type} (f : α → Option β) (l : List α) :
    l.findSome? f = (l.find? fun a => (f a).isSome).bind f := by
  induction l with
  | nil => rfl
  | cons a l ih =>
    rw [List.findSome?_cons, List.find?_cons]
    cases hf : f a with
    | none => simpa using ih
    | some b => simp [hf]

/-- What a reference stands for is what is read from the slot it names. -/
theorem value?_eq (r : Indirection) (components : Components) :
    r.value? components = (r.slot? components).bind (·.get? components) := by
  rw [value?, slot?, Option.bind_assoc]
  refine Option.bind_congr fun c hc => ?_
  have hlast : (c.implementations.filterMap (·.attributes.find? r.key)).getLast? =
      c.implementations.zipIdx.reverse.findSome? fun i => i.1.attributes.find? r.key := by
    have himplementations : c.implementations.zipIdx.map Prod.fst = c.implementations :=
      List.zipIdx_map_fst 0 c.implementations
    conv_lhs => rw [← himplementations]
    rw [List.getLast?_filterMap, ← List.map_reverse, List.findSome?_map]
    rfl
  rw [hlast, findSome?_eq_bind, Option.bind_map]
  refine Option.bind_congr fun i hi => ?_
  have hget := List.mem_zipIdx_iff_getElem?.mp (List.mem_reverse.mp (List.mem_of_find?_eq_some hi))
  simp [AttributeSlot.get?, hc, hget]

theorem Names.of_all (hall : AttributeSlot.all components = AttributeSlot.all components')
    (h : r.Names components t) : r.Names components' t := by
  have hsome : ∀ s : AttributeSlot,
      (s.get? components).isSome = true ↔ (s.get? components').isSome = true := fun s => by
    rw [← AttributeSlot.mem_all, hall, AttributeSlot.mem_all]
  refine ⟨h.component, h.key, (hsome t).mp h.isSome, fun n hlt => ?_⟩
  rw [← Option.not_isSome_iff_eq_none, ← hsome, h.last n hlt]
  simp

theorem slot?_of_all (hall : AttributeSlot.all components = AttributeSlot.all components')
    (r : Indirection) : r.slot? components = r.slot? components' := by
  ext t
  rw [slot?_eq_some_iff, slot?_eq_some_iff]
  exact ⟨fun h => h.of_all hall, fun h => h.of_all hall.symm⟩

/-! ## One slot after the other -/

open Following

/-- The slot that a value refers to. -/
def pointer (components : Components) (value : Option String) : Option AttributeSlot :=
  (value.bind parse?).bind (·.slot? components)

theorem pointer_of_all (hall : AttributeSlot.all components = AttributeSlot.all components') :
    pointer components = pointer components' := by
  funext value
  simp only [pointer, slot?_of_all hall]

/-- A pointer leads to a slot that is there. -/
theorem mem_all_of_pointer {value : Option String} (h : pointer components value = some t) :
    t ∈ AttributeSlot.all components := by
  obtain ⟨r, _, ht⟩ := Option.bind_eq_some_iff.mp h
  exact AttributeSlot.mem_all.mpr (slot?_names ht).isSome

section Step
variable {slot : AttributeSlot} {count : IndirectionCount} {value : String}

theorem resolveSlot_of_absent (h : slot.get? components = none) :
    resolveSlot (components, count) slot = (components, count) := by
  simp only [resolveSlot, h]

theorem resolveSlot_of_none (h : slot.get? components = some value)
    (hpointer : pointer components (some value) = none) :
    resolveSlot (components, count) slot =
      (components, { count with unresolved := count.unresolved + 1 }) := by
  have hvalue : (parse? value).bind (·.value? components) = none := by
    simp only [value?_eq, ← Option.bind_assoc]
    rw [show (parse? value).bind (·.slot? components) = none from hpointer, Option.bind_none]
  simp only [resolveSlot, h, hvalue]

theorem resolveSlot_of_some (h : slot.get? components = some value)
    (hpointer : pointer components (some value) = some t) {replacement : String}
    (ht : t.get? components = some replacement) :
    resolveSlot (components, count) slot =
      (slot.set components replacement, { count with resolved := count.resolved + 1 }) := by
  have hvalue : (parse? value).bind (·.value? components) = some replacement := by
    simp only [value?_eq, ← Option.bind_assoc]
    rw [show (parse? value).bind (·.slot? components) = some t from hpointer, Option.bind_some, ht]
  simp only [resolveSlot, h, hvalue]

end Step

theorem shape_resolveSlot (state : Components × IndirectionCount) (slot : AttributeSlot) :
    (resolveSlot state slot).1.map Component.shape = state.1.map Component.shape := by
  obtain ⟨components, count⟩ := state
  unfold resolveSlot
  dsimp only
  split
  · rfl
  · split
    · exact slot.shape_set components _
    · rfl

/-- One turn follows the pointer of its slot. -/
theorem get?_resolveSlot (components : Components) (count : IndirectionCount)
    (slot : AttributeSlot) :
    (fun t : AttributeSlot => t.get? (resolveSlot (components, count) slot).1) =
      follow (pointer components) (fun t => t.get? components) slot := by
  cases hget : slot.get? components with
  | none =>
    rw [resolveSlot_of_absent hget, follow_of_none (by rw [hget]; rfl)]
  | some value =>
    cases hpointer : pointer components (some value) with
    | none => rw [resolveSlot_of_none hget hpointer, follow_of_none (by rw [hget, hpointer])]
    | some t =>
      obtain ⟨replacement, ht⟩ := Option.isSome_iff_exists.mp
        (AttributeSlot.mem_all.mp (mem_all_of_pointer hpointer))
      rw [resolveSlot_of_some hget hpointer ht, follow_of_some (by rw [hget, hpointer])]
      funext x
      rw [AttributeSlot.get?_set, Function.update_apply, hget, ht]
      rfl

theorem shape_foldl_resolveSlot (slots : List AttributeSlot)
    (state : Components × IndirectionCount) :
    (slots.foldl resolveSlot state).1.map Component.shape = state.1.map Component.shape := by
  induction slots generalizing state with
  | nil => rfl
  | cons slot rest ih => exact (ih _).trans (shape_resolveSlot state slot)

theorem get?_foldl_resolveSlot (slots : List AttributeSlot)
    (components : Components) (count : IndirectionCount) :
    (fun t : AttributeSlot => t.get? (slots.foldl resolveSlot (components, count)).1) =
      pass (pointer components) slots fun t => t.get? components := by
  induction slots generalizing components count with
  | nil => rfl
  | cons slot rest ih =>
    have hshape := shape_resolveSlot (components, count) slot
    have hpointer := pointer_of_all (AttributeSlot.all_of_shape hshape)
    rw [List.foldl_cons, ← Prod.mk.eta (p := resolveSlot (components, count) slot), ih,
      get?_resolveSlot, hpointer]
    rfl

end Indirection

/-! ## What becomes of the slots of one closure -/

namespace AttributeSlot
variable {components : Components} {slot : AttributeSlot}

/-- The value starts as a reference does. -/
def isMarked (slot : AttributeSlot) (components : Components) : Bool :=
  (slot.get? components).any Indirection.isMarked

/-- The value is a reference to an attribute that some implementation of the component has. -/
def isReference (slot : AttributeSlot) (components : Components) : Bool :=
  ((slot.get? components).bind Indirection.parse?).any fun r =>
    (all components).any fun t => t.component = r.component && t.key = r.key

theorem isReference_eq (slot : AttributeSlot) (components : Components) :
    slot.isReference components =
      (Indirection.pointer components (slot.get? components)).isSome := by
  rw [isReference, Indirection.pointer]
  cases (slot.get? components).bind Indirection.parse? with
  | none => rfl
  | some r =>
    rw [Option.any_some, Option.bind_some, Bool.eq_iff_iff, Indirection.isSome_slot?]
    simp [mem_all, and_comm, and_assoc]

theorem isMarked_of_isReference (h : slot.isReference components = true) :
    slot.isMarked components = true := by
  rw [isReference_eq] at h
  obtain ⟨t, ht⟩ := Option.isSome_iff_exists.mp h
  obtain ⟨r, hr, _⟩ := Option.bind_eq_some_iff.mp ht
  obtain ⟨value, hvalue, hparse⟩ := Option.bind_eq_some_iff.mp hr
  rw [isMarked, hvalue, Option.any_some]
  exact Indirection.isMarked_of_parse? hparse

theorem not_isReference (h : slot.isMarked components = false) :
    slot.isReference components = false := by
  by_contra hreference
  rw [isMarked_of_isReference (Bool.eq_true_of_not_eq_false hreference)] at h
  cases h

/-- Nothing is read through a pointer where there is no reference. -/
theorem pointer_eq_none (h : slot.isReference components = false) :
    Indirection.pointer components (slot.get? components) = none := by
  rw [← Option.not_isSome_iff_eq_none, ← isReference_eq, h]
  exact Bool.false_ne_true

theorem marked_eq (components : Components) :
    marked components = (all components).filter (·.isMarked components) := by
  simp only [marked, all, List.filter_flatMap, List.filter_map]
  refine List.flatMap_congr fun e he => List.flatMap_congr fun i hi => ?_
  have hkeys : i.1.attributes.keys = i.1.attributes.entries.map Prod.fst := rfl
  rw [hkeys, List.filter_map, List.map_map]
  refine congrArg (List.map _) (List.filter_congr fun a ha => ?_)
  have hget : get? ⟨e.1, i.2, a.1⟩ components = some a.2 :=
    get?_eq_some_iff.mpr ⟨e.2, i.1, OrderedMap.find?_eq_some_iff.mpr he,
      List.mem_zipIdx_iff_getElem?.mp hi, OrderedMap.find?_eq_some_iff.mpr ha⟩
  simp [isMarked, hget]

end AttributeSlot

namespace Indirection
open Following
variable {components : Components}

/-- What resolving makes of all slots, in their order. -/
structure Resolved (before after : Components) : Prop where
  /-- Nothing else changes. -/
  shape : after.map Component.shape = before.map Component.shape
  plain : ∀ s : AttributeSlot, s.isMarked before = false → s.get? after = s.get? before
  /-- The slot that is referred to was resolved by then if it stands first. -/
  reference : ∀ (s t : AttributeSlot) (r : Indirection), (s.get? before).bind parse? = some r →
    r.Names before t → s.get? after =
      if (AttributeSlot.all before).idxOf t < (AttributeSlot.all before).idxOf s then t.get? after
      else t.get? before
  dangling : ∀ s : AttributeSlot, s.isMarked before = true → s.isReference before = false →
    s.get? after = s.get? before

theorem get?_resolve (components : Components) (count : IndirectionCount) :
    (fun t : AttributeSlot => t.get? (resolve components count).1) =
      pass (pointer components) (AttributeSlot.all components) fun t => t.get? components := by
  rw [resolve, get?_foldl_resolveSlot, AttributeSlot.marked_eq]
  exact pass_filter (AttributeSlot.nodup_all components) fun s _ hmarked =>
    AttributeSlot.pointer_eq_none (AttributeSlot.not_isReference hmarked)

theorem shape_resolve (components : Components) (count : IndirectionCount) :
    (resolve components count).1.map Component.shape = components.map Component.shape :=
  shape_foldl_resolveSlot _ _

/-- What has been counted before does not matter. -/
theorem resolve_fst (components : Components) (count : IndirectionCount) :
    (resolve components count).1 = (resolve components {}).1 := by
  refine AttributeSlot.ext_get? ?_ fun slot => ?_
  · rw [shape_resolve, shape_resolve]
  · exact congrFun ((get?_resolve components count).trans (get?_resolve components {}).symm) slot

/-- A slot that refers to nothing keeps its value, marked or not. -/
theorem get?_resolve_of_not_reference (count : IndirectionCount) {s : AttributeSlot}
    (h : s.isReference components = false) :
    s.get? (resolve components count).1 = s.get? components :=
  (congrFun (get?_resolve components count) s).trans
    (pass_apply_of_none (AttributeSlot.nodup_all components) (AttributeSlot.pointer_eq_none h))

theorem resolved_resolve (components : Components) (count : IndirectionCount) :
    Resolved components (resolve components count).1 where
  shape := shape_resolve components count
  plain s hmarked := get?_resolve_of_not_reference count (AttributeSlot.not_isReference hmarked)
  reference s t r hr ht := by
    have hget : ∀ x : AttributeSlot, x.get? (resolve components count).1 =
        pass (pointer components) (AttributeSlot.all components) (·.get? components) x :=
      congrFun (get?_resolve components count)
    have hs : s ∈ AttributeSlot.all components := by
      obtain ⟨value, hvalue, _⟩ := Option.bind_eq_some_iff.mp hr
      exact AttributeSlot.mem_all.mpr (hvalue ▸ rfl)
    have hpointer : pointer components (s.get? components) = some t := by
      rw [pointer, hr, Option.bind_some]
      exact slot?_eq_some_iff.mpr ht
    rw [hget, hget]
    exact pass_apply_of_some (AttributeSlot.nodup_all components) hs hpointer
  dangling s _ hreference := get?_resolve_of_not_reference count hreference

/-! ## Counting -/

theorem count_resolveSlot {slot : AttributeSlot} (h : slot ∈ AttributeSlot.all components)
    (count : IndirectionCount) : (resolveSlot (components, count) slot).2 =
      if slot.isReference components then { count with resolved := count.resolved + 1 }
      else { count with unresolved := count.unresolved + 1 } := by
  obtain ⟨value, hvalue⟩ := Option.isSome_iff_exists.mp (AttributeSlot.mem_all.mp h)
  rw [AttributeSlot.isReference_eq, hvalue]
  cases hpointer : pointer components (some value) with
  | none =>
    rw [resolveSlot_of_none hvalue hpointer]
    rfl
  | some t =>
    obtain ⟨replacement, ht⟩ := Option.isSome_iff_exists.mp
      (AttributeSlot.mem_all.mp (mem_all_of_pointer hpointer))
    rw [resolveSlot_of_some hvalue hpointer ht]
    rfl

/-- A turn does not change what the other slots are. -/
theorem isReference_resolveSlot {slot s : AttributeSlot} (hne : s ≠ slot)
    (count : IndirectionCount) :
    s.isReference (resolveSlot (components, count) slot).1 = s.isReference components := by
  have hshape := shape_resolveSlot (components, count) slot
  have hget : s.get? (resolveSlot (components, count) slot).1 = s.get? components :=
    (congrFun (get?_resolveSlot components count slot) s).trans (follow_apply_of_ne hne)
  rw [AttributeSlot.isReference_eq, AttributeSlot.isReference_eq, hget,
    pointer_of_all (AttributeSlot.all_of_shape hshape)]

theorem count_foldl_resolveSlot {slots : List AttributeSlot} (hnodup : slots.Nodup)
    (hslots : ∀ s ∈ slots, s ∈ AttributeSlot.all components) (count : IndirectionCount) :
    (slots.foldl resolveSlot (components, count)).2 =
      { resolved := count.resolved + slots.countP (·.isReference components)
        unresolved := count.unresolved + slots.countP (!·.isReference components) } := by
  induction slots generalizing components count with
  | nil => rfl
  | cons slot rest ih =>
    obtain ⟨hnew, hrest⟩ := List.nodup_cons.mp hnodup
    let next := resolveSlot (components, count) slot
    have hsame : ∀ s ∈ rest, s.isReference next.1 = s.isReference components := fun s hs =>
      isReference_resolveSlot (fun he : s = slot => hnew (he ▸ hs)) count
    have hyes : rest.countP (·.isReference next.1) = rest.countP (·.isReference components) :=
      List.countP_congr fun s hs => by rw [hsame s hs]
    have hno : rest.countP (!·.isReference next.1) = rest.countP (!·.isReference components) :=
      List.countP_congr fun s hs => by rw [hsame s hs]
    have hall := AttributeSlot.all_of_shape (shape_resolveSlot (components, count) slot)
    have hnext : ∀ s ∈ rest, s ∈ AttributeSlot.all next.1 := fun s hs =>
      hall ▸ hslots s (List.mem_cons_of_mem slot hs)
    have hcount := count_resolveSlot (hslots slot List.mem_cons_self) count
    show (rest.foldl resolveSlot (next.1, next.2)).2 = _
    rw [ih hrest hnext, hyes, hno, show next.2 = _ from hcount, List.countP_cons, List.countP_cons]
    cases slot.isReference components with
    | true => simp; omega
    | false => simp; omega

theorem count_resolve (components : Components) (count : IndirectionCount) :
    (resolve components count).2 =
      { resolved := count.resolved +
          ((AttributeSlot.all components).filter (·.isReference components)).length
        unresolved := count.unresolved + ((AttributeSlot.all components).filter fun s =>
          s.isMarked components && !s.isReference components).length } := by
  have hslots : ∀ s ∈ AttributeSlot.marked components, s ∈ AttributeSlot.all components :=
    fun s hs => (List.mem_filter.mp (AttributeSlot.marked_eq components ▸ hs)).1
  have hnodup : (AttributeSlot.marked components).Nodup :=
    AttributeSlot.marked_eq components ▸ (AttributeSlot.nodup_all components).filter _
  have hyes : ∀ s ∈ AttributeSlot.all components,
      (s.isReference components && s.isMarked components) = true ↔
        s.isReference components = true := fun s _ => by
    rw [Bool.and_eq_true]
    exact and_iff_left_of_imp AttributeSlot.isMarked_of_isReference
  rw [resolve, count_foldl_resolveSlot hnodup hslots, AttributeSlot.marked_eq, List.countP_filter,
    List.countP_filter, List.countP_congr hyes]
  simp only [Bool.and_comm, List.countP_eq_length_filter]

end Indirection

end ShaderVariants
