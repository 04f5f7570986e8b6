import ShaderVariants.Indirection
import ShaderVariants.Proofs.Maps

/-! # The slots of attributes

The attributes of a closure are read and written through slots. Writing one slot changes what is
read there and nothing else: no other slot (`get?_set`), no key and no order (`shape_set`). The
slots are the places where something is read (`mem_all`), so they stay the same under writing, and
components of one shape are told apart by what is read (`ext_get?`). -/
namespace ShaderVariants

/-! ## Shapes -/

/-- An implementation without the values of its attributes. All else is kept, the keys too. -/
def Implementation.shape (i : Implementation) : Implementation :=
  { i with attributes := i.attributes.map fun _ => "" }

def Component.shape (c : Component) : Component :=
  { c with implementations := c.implementations.map Implementation.shape }

theorem Component.name_shape (c : Component) : c.shape.name = c.name := rfl

theorem Implementation.shape_modify (i : Implementation) (key value : String) :
    shape { i with attributes := i.attributes.modify key fun _ => value } = i.shape := by
  have hblank : (i.attributes.modify key fun _ => value).map (fun _ => "") =
      i.attributes.map fun _ => "" := OrderedMap.map_modify fun _ => rfl
  simp only [shape, hblank]

theorem Implementation.ext_shape {i i' : Implementation} (hshape : i.shape = i'.shape)
    (hfind : ∀ key, i.attributes.find? key = i'.attributes.find? key) : i = i' := by
  obtain ⟨_, _, _, _, _, _, attributes, _, _⟩ := i
  obtain ⟨_, _, _, _, _, _, attributes', _, _⟩ := i'
  obtain ⟨rfl, rfl, rfl, rfl, rfl, rfl, hblank, rfl, rfl⟩ := (Implementation.mk.injEq ..).mp hshape
  have hkeys := congrArg OrderedMap.keys hblank
  rw [OrderedMap.keys_map, OrderedMap.keys_map] at hkeys
  obtain rfl : attributes = attributes' := OrderedMap.ext_find? hkeys hfind
  rfl

theorem Component.ext_shape {c c' : Component} (hshape : c.shape = c'.shape)
    (hfind : ∀ (n : Nat) (key : String),
      c.implementations[n]?.bind (fun i => i.attributes.find? key) =
        c'.implementations[n]?.bind fun i => i.attributes.find? key) : c = c' := by
  obtain ⟨_, _, _, implementations, _, _, _, _⟩ := c
  obtain ⟨_, _, _, implementations', _, _, _, _⟩ := c'
  obtain ⟨rfl, rfl, rfl, hblank, rfl, rfl, rfl, rfl⟩ := (Component.mk.injEq ..).mp hshape
  obtain rfl : implementations = implementations' := by
    refine List.ext_getElem? fun n => ?_
    have hn := congrArg (·[n]?) hblank
    simp only [List.getElem?_map] at hn
    cases hi : implementations[n]? with
    | none =>
      rw [hi] at hn
      exact (Option.map_eq_none_iff.mp hn.symm).symm
    | some i =>
      rw [hi] at hn
      obtain ⟨i', hi', hsame⟩ := Option.map_eq_some_iff.mp hn.symm
      rw [hi', Implementation.ext_shape hsame.symm fun key => by simpa [hi, hi'] using hfind n key]
  rfl

/-- Lists that a key tells apart have nothing in common. -/
theorem nodup_flatMap_of_key {α β κ : Type} {l : List α} {f : α → List β} (key : α → κ)
    (proj : β → κ) (hkeys : (l.map key).Nodup) (hproj : ∀ a ∈ l, ∀ b ∈ f a, proj b = key a)
    (hparts : ∀ a ∈ l, (f a).Nodup) : (l.flatMap f).Nodup := by
  rw [List.nodup_flatMap]
  refine ⟨hparts, (List.pairwise_map.mp hkeys).imp_of_mem fun {a a'} ha ha' hne b hb hb' => ?_⟩
  exact hne ((hproj a ha b hb).symm.trans (hproj a' ha' b hb'))

namespace AttributeSlot
variable {components components' : Components} {slot : AttributeSlot}

/-- All slots, in the order of components, implementations and attributes. -/
def all (components : Components) : List AttributeSlot :=
  components.entries.flatMap fun e =>
    e.2.implementations.zipIdx.flatMap fun i => i.1.attributes.keys.map fun key => ⟨e.1, i.2, key⟩

/-! ## Reading -/

theorem get?_eq_some_iff {value : String} : slot.get? components = some value ↔
    ∃ c i, components.find? slot.component = some c ∧
      c.implementations[slot.implementation]? = some i ∧
      i.attributes.find? slot.key = some value := by
  simp only [get?, Option.bind_eq_some_iff]
  constructor
  · rintro ⟨c, hc, i, hi, hvalue⟩
    exact ⟨c, i, hc, hi, hvalue⟩
  · rintro ⟨c, i, hc, hi, hvalue⟩
    exact ⟨c, hc, i, hi, hvalue⟩

theorem mem_all : slot ∈ all components ↔ (slot.get? components).isSome = true := by
  simp only [all, List.mem_flatMap, List.mem_map, Option.isSome_iff_exists, get?_eq_some_iff]
  constructor
  · rintro ⟨⟨name, c⟩, he, ⟨i, n⟩, hi, key, hkey, rfl⟩
    obtain ⟨value, hvalue⟩ := Option.isSome_iff_exists.mp (OrderedMap.find?_isSome_iff.mpr hkey)
    exact ⟨value, c, i, OrderedMap.find?_eq_some_iff.mpr he, List.mem_zipIdx_iff_getElem?.mp hi,
      hvalue⟩
  · rintro ⟨value, c, i, hc, hi, hvalue⟩
    exact ⟨(slot.component, c), OrderedMap.find?_eq_some_iff.mp hc, (i, slot.implementation),
      List.mem_zipIdx_iff_getElem?.mpr hi, slot.key,
      OrderedMap.find?_isSome_iff.mp (hvalue ▸ rfl), rfl⟩

theorem nodup_all (components : Components) : (all components).Nodup := by
  refine nodup_flatMap_of_key Prod.fst AttributeSlot.component components.distinct ?_ fun e _ => ?_
  · intro e _ slot hslot
    obtain ⟨i, _, hslot⟩ := List.mem_flatMap.mp hslot
    obtain ⟨key, _, rfl⟩ := List.mem_map.mp hslot
    rfl
  · have hidx : (e.2.implementations.zipIdx.map Prod.snd).Nodup := by
      rw [List.zipIdx_map_snd]
      exact List.nodup_range'
    refine nodup_flatMap_of_key Prod.snd AttributeSlot.implementation hidx ?_ fun i _ => ?_
    · intro i _ slot hslot
      obtain ⟨key, _, rfl⟩ := List.mem_map.mp hslot
      rfl
    · exact i.1.attributes.nodup_keys.map fun key key' h => congrArg AttributeSlot.key h

/-! ## Writing -/

theorem get?_set (slot : AttributeSlot) (components : Components) (value : String)
    (t : AttributeSlot) : t.get? (slot.set components value) =
      if t = slot then (slot.get? components).map fun _ => value else t.get? components := by
  obtain ⟨component, implementation, key⟩ := slot
  obtain ⟨component', implementation', key'⟩ := t
  simp only [get?, set, Components.toOrderedMap_revise, OrderedMap.find?_modify,
    AttributeSlot.mk.injEq]
  by_cases hcomponent : component = component'
  · subst hcomponent
    cases components.find? component with
    | none => simp
    | some c =>
      simp only [if_true, Option.map_some, Option.bind_some, List.getElem?_modify, true_and]
      by_cases himplementation : implementation = implementation'
      · subst himplementation
        cases c.implementations[implementation]? with
        | none => simp
        | some i =>
          by_cases hkey : key = key'
          · simp [OrderedMap.find?_modify, hkey]
          · simp [OrderedMap.find?_modify, hkey, Ne.symm hkey]
      · have hother : implementation' ≠ implementation := Ne.symm himplementation
        cases c.implementations[implementation']? <;> simp [himplementation, hother]
  · have hother : component' ≠ component := Ne.symm hcomponent
    simp [hcomponent, hother]

theorem shape_set (slot : AttributeSlot) (components : Components) (value : String) :
    (slot.set components value).map Component.shape = components.map Component.shape := by
  refine OrderedMap.map_modify fun c => ?_
  have himplementations : (c.implementations.modify slot.implementation fun i =>
      { i with attributes := i.attributes.modify slot.key fun _ => value }).map
        Implementation.shape = c.implementations.map Implementation.shape := by
    refine List.ext_getElem? fun n => ?_
    rw [List.getElem?_map, List.getElem?_modify, List.getElem?_map]
    cases c.implementations[n]? with
    | none => rfl
    | some i =>
      simp only [Option.map_eq_map, Option.map_some]
      split
      · rw [Implementation.shape_modify]
      · rfl
  simp only [Component.shape, himplementations]

theorem all_shape (components : Components) :
    all (components.reviseAll Component.shape Component.name_shape) = all components := by
  show (components.entries.map _).flatMap _ = _
  simp only [List.flatMap_map, Component.shape, Implementation.shape, List.zipIdx_map,
    OrderedMap.keys_map, all, Prod.map, id]

theorem all_of_shape (h : components.map Component.shape = components'.map Component.shape) :
    all components = all components' := by
  have hshape : components.reviseAll Component.shape Component.name_shape =
      components'.reviseAll Component.shape Component.name_shape := Components.ext h
  rw [← all_shape components, hshape, all_shape]

/-- Components of one shape are the same if what is read from them is. -/
theorem ext_get? (hshape : components.map Component.shape = components'.map Component.shape)
    (hget : ∀ slot : AttributeSlot, slot.get? components = slot.get? components') :
    components = components' := by
  refine Components.ext (OrderedMap.ext_find? ?_ fun name => ?_)
  · rw [← OrderedMap.keys_map components.toOrderedMap Component.shape, hshape, OrderedMap.keys_map]
  · have hfind := congrArg (OrderedMap.find? · name) hshape
    simp only [OrderedMap.find?_map] at hfind
    cases hc : components.find? name with
    | none =>
      rw [hc] at hfind
      exact (Option.map_eq_none_iff.mp hfind.symm).symm
    | some c =>
      rw [hc] at hfind
      obtain ⟨c', hc', hsame⟩ := Option.map_eq_some_iff.mp hfind.symm
      rw [hc', Component.ext_shape hsame.symm fun n key => ?_]
      simpa [get?, hc, hc'] using hget ⟨name, n, key⟩

end AttributeSlot

end ShaderVariants
