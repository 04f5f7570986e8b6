import ShaderVariants.Proofs.LegalWorlds

/-! # The definitions of a placed shader and their survivors

Placing a closure gives every implementation one definition in each world that it may occupy, and
numbers them as they were declared (`unflagged_ofComponents`). Of those that meet in a slot one
survives. The contest runs over interleaved candidates for several worlds at once, but its outcome
is a matter of positions: the first implementation that the schedule asks for, or else the last
(`Closure.prevails_of_chosen?`). `placed_by_declaration` says both of a closure as it was
declared. -/
namespace ShaderVariants

/-! ## One definition for each place -/

/-- Component, implementation with its position, and world of all that is to be placed, in the order
of declaration. -/
def Components.places (components : Components) :
    List (Component × (Implementation × Nat) × String) :=
  Component.allPlaces components.values

/-- The definition apart from whether it is an entry. -/
def Definition.unflagged (d : Definition) : Definition := { d with isEntry := false }

/-- The definition of a place, as it was declared but for some attributes that are added. -/
def Definition.ofPlace (p : Component × (Implementation × Nat) × String)
    (added : List (String × String)) (id : Nat) : Definition where
  id := id
  component := p.1.name
  world := p.2.2
  alternate := p.2.1.1.alternate
  dataType := p.1.dataType
  attributes := p.2.1.1.attributes.insertAll added
  body := p.2.1.1.body
  span := p.2.1.1.span

namespace ShaderIR
variable {ir : ShaderIR}

/-- Placing a component appends the definitions of its places. -/
theorem WellFormed.unflagged_place (h : ir.WellFormed) (asked : List (String × Nat))
    (c : Component) : (ir.place asked c).definitions.map Definition.unflagged =
      ir.definitions.map Definition.unflagged ++
        ((c.places.map fun p => (c, p)).zipIdx ir.nextId).map fun x => .ofPlace x.1 [] x.2 := by
  rw [h.definitions_place, List.map_append, List.map_map, numbered, Component.candidates_eq,
    List.zipIdx_map, List.map_map, List.map_map, List.zipIdx_map, List.map_map]
  rfl

theorem WellFormed.unflagged_foldl_place (h : ir.WellFormed) (asked : List (String × Nat))
    (cs : List Component) :
    (cs.foldl (ShaderIR.place asked) ir).definitions.map Definition.unflagged =
      ir.definitions.map Definition.unflagged ++
        ((Component.allPlaces cs).zipIdx ir.nextId).map fun x => .ofPlace x.1 [] x.2 := by
  induction cs generalizing ir with
  | nil => simp [Component.allPlaces]
  | cons c cs ih =>
    rw [List.foldl_cons, ih (h.place asked c), h.unflagged_place, nextId_place,
      Component.allPlaces_cons, List.zipIdx_append, List.map_append, List.append_assoc,
      List.length_map]

theorem unflagged_ofComponents (shader : String) (pipeline : Pipeline) (components : Components)
    (asked : List (String × Nat)) :
    (ofComponents shader pipeline components asked).definitions.map Definition.unflagged =
      components.places.zipIdx.map fun x => .ofPlace x.1 [] x.2 :=
  (wellFormed_empty shader pipeline).unflagged_foldl_place asked components.values

end ShaderIR

/-! ## Who prevails in a slot -/

namespace Component

/-- The implementation at a position may occupy the world. -/
def OccupiesAt (c : Component) (w : String) (k : Nat) : Prop :=
  ∃ i, c.implementations[k]? = some i ∧ i.worlds.contains w = true

/-- The implementation at a position may occupy the world, and the selections ask for it. -/
def AskedAt (c : Component) (selections : List Selection) (w : String) (k : Nat) : Prop :=
  ∃ i, c.implementations[k]? = some i ∧ i.worlds.contains w = true ∧ i.isAsked selections = true

/-- Of the implementations that may occupy the world, the one at this position is the first that is
asked for or, if none is, the last. -/
def Prevails (c : Component) (selections : List Selection) (w : String) (k : Nat) : Prop :=
  (c.AskedAt selections w k ∧ ∀ j < k, ¬ c.AskedAt selections w j) ∨
    ((∀ j, ¬ c.AskedAt selections w j) ∧ c.OccupiesAt w k ∧ ∀ j, c.OccupiesAt w j → j ≤ k)

theorem mem_occupants {c : Component} {w : String} {i : Implementation} {k : Nat} :
    (i, k) ∈ c.occupants w ↔ c.implementations[k]? = some i ∧ i.worlds.contains w = true := by
  rw [occupants, List.mem_filter, List.mem_zipIdx_iff_getElem?]

theorem pairwise_occupants (c : Component) (w : String) :
    (c.occupants w).Pairwise fun x y => x.2 < y.2 := by
  have hpositions : (c.implementations.zipIdx.map Prod.snd).Pairwise (· < ·) := by
    rw [List.zipIdx_map_snd]
    exact List.pairwise_lt_range'
  exact (List.pairwise_map.mp hpositions).sublist List.filter_sublist

end Component

namespace Closure
variable {closure : Closure} {schedule : Schedule} {c : Component}

/-- The occupant that is chosen for a slot prevails there. -/
theorem prevails_of_chosen? (hc : c ∈ closure.components.values) {w : String} {i : Implementation}
    {k : Nat}
    (hchosen : c.chosen? (Choosing.run closure schedule).asked w = some (i, k)) :
    c.Prevails (closure.selections schedule c) w k := by
  have hasked : ∀ x ∈ c.occupants w,
      (Choosing.run closure schedule).asked.contains (c.name, x.2) = true ↔
        x.1.isAsked (closure.selections schedule c) = true := by
    intro x hx
    rw [List.contains_iff_mem]
    exact mem_asked hc (List.mem_filter.mp hx).1
  have hsorted := c.pairwise_occupants w
  rcases Option.or_eq_some_iff.mp hchosen with hfind | ⟨hnone, hlast⟩
  · left
    obtain ⟨hask, l₁, l₂, hsplit, hbefore⟩ := List.find?_eq_some_iff_append.mp hfind
    have hmem : (i, k) ∈ c.occupants w := hsplit ▸ List.mem_append_right l₁ List.mem_cons_self
    obtain ⟨hget, hworld⟩ := Component.mem_occupants.mp hmem
    refine ⟨⟨i, hget, hworld, (hasked _ hmem).mp hask⟩, fun j hj hother => ?_⟩
    obtain ⟨i', hget', hworld', hask'⟩ := hother
    have hmem' := Component.mem_occupants.mpr ⟨hget', hworld'⟩
    -- positions grow, so an earlier one stands before the first that is asked for
    have hask' := (hasked _ hmem').mpr hask'
    rw [hsplit] at hmem' hsorted
    rcases List.mem_append.mp hmem' with hm | hm
    · have hnot := hbefore _ hm
      rw [hask'] at hnot
      cases hnot
    · have hle : k ≤ j := by
        rcases List.mem_cons.mp hm with he | hm
        · exact Nat.le_of_eq (congrArg Prod.snd he).symm
        · exact Nat.le_of_lt (List.rel_of_pairwise_cons (List.pairwise_append.mp hsorted).2.1 hm)
      omega
  · right
    obtain ⟨init, hinit⟩ := List.getLast?_eq_some_iff.mp hlast
    refine ⟨fun j hother => ?_, ?_, fun j hother => ?_⟩
    · obtain ⟨i', hget', hworld', hask'⟩ := hother
      have hmem' := Component.mem_occupants.mpr ⟨hget', hworld'⟩
      exact List.find?_eq_none.mp hnone _ hmem' ((hasked _ hmem').mpr hask')
    · exact ⟨i, Component.mem_occupants.mp (List.mem_of_getLast? hlast)⟩
    · obtain ⟨i', hother⟩ := hother
      have hmem' := Component.mem_occupants.mpr hother
      rw [hinit] at hmem' hsorted
      rcases List.mem_append.mp hmem' with hm | hm
      · have hlt := (List.pairwise_append.mp hsorted).2.2 _ hm _ List.mem_cons_self
        exact Nat.le_of_lt hlt
      · rw [List.mem_singleton] at hm
        exact Nat.le_of_eq (congrArg Prod.snd hm)

end Closure

/-- Added attributes change the implementations of places and no more. -/
theorem Component.allPlaces_attach (cs : List Component) (f : String → List (String × String)) :
    allPlaces (cs.map fun c => c.attach (f c.name)) = (allPlaces cs).map fun p =>
      (p.1.attach (f p.1.name), ({ p.2.1.1 with
        attributes := p.2.1.1.attributes.insertAll (f p.1.name) }, p.2.1.2), p.2.2) := by
  rw [allPlaces, List.flatMap_map, allPlaces, List.map_flatMap]
  refine List.flatMap_congr fun c _ => ?_
  rw [places_attach, List.map_map, List.map_map]
  rfl

/-- A candidate's id is its position among all places. -/
theorem Component.getElem?_allPlaces {c : Component} {before : List Component}
    {p : (Implementation × Nat) × String} {id : Nat}
    (h : (p, id) ∈ c.places.zipIdx (allPlaces before).length) (after : List Component) :
    (allPlaces (before ++ c :: after))[id]? = some (c, p) := by
  obtain ⟨hle, hget⟩ := List.mk_mem_zipIdx_iff_le_and_getElem?_sub.mp h
  have hlt := (List.getElem?_eq_some_iff.mp hget).1
  rw [allPlaces, List.flatMap_append, ← allPlaces, ← allPlaces, allPlaces_cons,
    List.getElem?_append_right hle, List.getElem?_append_left (by simpa using hlt),
    List.getElem?_map, hget]
  rfl

/-! ## The survivors of a closure -/

namespace Closure
variable {closure : Closure} {schedule : Schedule} {c : Component}

/-- The definitions are those of the places, with what the schedule adds. -/
theorem unflagged_placed (closure : Closure) (schedule : Schedule) :
    (closure.placed schedule).definitions.map Definition.unflagged =
      closure.components.places.zipIdx.map fun x =>
        .ofPlace x.1 (closure.added schedule.attributes x.1.1.name) x.2 := by
  rw [placed_eq, ShaderIR.unflagged_ofComponents, Components.places, attributed,
    Components.values_attach, Component.allPlaces_attach, List.zipIdx_map, List.map_map]
  rfl

/-- A slot that can be occupied has a survivor, the definition of the implementation that prevails
there. -/
theorem survivor_prevails (hc : c ∈ closure.components.values) {w : String}
    (hoccupied : c.occupies w = true) :
    ∃ d i k, (closure.placed schedule).survivor? c.name w = some d ∧
      closure.components.places[d.id]? = some (c, (i, k), w) ∧
      c.Prevails (closure.selections schedule c) w k := by
  have hw := closure.wellFormed_placed schedule
  obtain ⟨before, after, hsplit⟩ := List.append_of_mem hc
  have hsplit' : (closure.attributed schedule.attributes).values =
      (before.map fun c => c.attach (closure.added schedule.attributes c.name)) ++
        c.attach (closure.added schedule.attributes c.name) ::
          after.map fun c => c.attach (closure.added schedule.attributes c.name) := by
    rw [attributed, Components.values_attach, hsplit, List.map_append, List.map_cons]
  have hplaced := ShaderIR.placedAt_split closure.name closure.pipeline hsplit'
    (Choosing.run closure schedule).asked
  rw [← placed_eq, Component.allPlaces_attach, List.length_map] at hplaced
  have hwinner : (c.winner? (Choosing.run closure schedule).asked
      (Component.allPlaces before).length w).isSome = true := by
    rw [Component.isSome_winner?_eq]
    exact hoccupied
  obtain ⟨⟨⟨i, k⟩, id⟩, he⟩ := Option.isSome_iff_exists.mp hwinner
  have hs : (closure.placed schedule).survivorId? c.name w = some id := by
    refine (hplaced.survivorId?_eq w).trans ?_
    rw [Component.winner?_attach, he]
    rfl
  have hchosen : c.chosen? (Choosing.run closure schedule).asked w = some (i, k) := by
    rw [← c.map_fst_winner?, he]
    rfl
  obtain ⟨d, hd, rfl, _⟩ := hw.indexed _ _ _ hs
  refine ⟨d, i, k, ?_, ?_, prevails_of_chosen? hc hchosen⟩
  · rw [ShaderIR.survivor?, hs]
    exact hw.definition?_iff.mpr ⟨hd, rfl⟩
  · rw [Components.places, hsplit]
    exact Component.getElem?_allPlaces
      (Component.mem_entrants.mp (Component.mem_of_winner? he)) after

/-- What placement makes of a closure under a schedule. There is one definition for each place, with
the attributes that the schedule adds, and its id is the number of the place, counted from zero by
component, implementation and world. A slot that some implementation may occupy has as its survivor
the definition of the first that the schedule asks for or, if it asks for none of them, of the last;
no other slot has one. -/
theorem placed_by_declaration (closure : Closure) (schedule : Schedule) :
    let placed := closure.placed schedule
    let places := closure.components.places
    placed.definitions.map Definition.unflagged = places.zipIdx.map (fun x =>
      .ofPlace x.1 (closure.added schedule.attributes x.1.1.name) x.2) ∧
    (∀ c ∈ closure.components.values, ∀ w, c.occupies w = true →
      ∃ d i k, placed.survivor? c.name w = some d ∧ places[d.id]? = some (c, (i, k), w) ∧
        c.Prevails (closure.selections schedule c) w k) ∧
    ∀ name w, (placed.survivor? name w).isSome = true →
      ∃ c ∈ closure.components.values, c.name = name ∧ c.occupies w = true := by
  intro placed places
  refine ⟨closure.unflagged_placed schedule,
    fun c hc w hoccupied => survivor_prevails hc hoccupied, fun name w hsome => ?_⟩
  obtain ⟨d, hd⟩ := Option.isSome_iff_exists.mp hsome
  obtain ⟨id, hid, _⟩ := Option.bind_eq_some_iff.mp hd
  have hoccupied : closure.isOccupied name w = true := by
    rw [← closure.isSome_survivorId? schedule, hid]
    rfl
  obtain ⟨c, hc, hw⟩ := (Option.any_eq_true _ _).mp hoccupied
  exact ⟨c, OrderedMap.mem_values_of_find? hc, Components.name_of_find? hc, hw⟩

end Closure

/-- A fur of four kinds, two of them in both stages. -/
def furComponent : Component where
  name := "fur"
  dataType := "vec4"
  aliases := ["fur"]
  constrained := .ofList ["vs", "fs"]
  implementations :=
    [{ alternate := some "none", worlds := .ofList ["vs", "fs"], body := .expr (.literal "0" {}) },
      { alternate := some "shells", worlds := .ofList ["fs"], body := .expr (.literal "1" {}) },
      { alternate := some "fins", worlds := .ofList ["vs", "fs"], body := .expr (.literal "2" {}) },
      { alternate := some "strands", worlds := .ofList ["fs"], body := .expr (.literal "3" {}) }]

def furShader : Closure :=
  Closure.addComponent { name := "furry", pipeline := lightShader.pipeline } furComponent

/-- Asks for the second and the fourth kind. -/
def furSchedule : Schedule where
  choices := .ofList [("fur", [{ world := "fs", alternate := some "strands" },
    { world := "fs", alternate := some "shells" }])]

/-- In the later stage the first kind that was asked for survives, though not the first that was
named; in the earlier one, where none was asked for, the last that may be there. -/
theorem placed_by_declaration_furShader :
    (∃ d, (furShader.placed furSchedule).survivor? "fur" "fs" = some d ∧ d.id = 2 ∧
      furComponent.Prevails (furShader.selections furSchedule furComponent) "fs" 1) ∧
    ∃ d, (furShader.placed furSchedule).survivor? "fur" "vs" = some d ∧ d.id = 3 ∧
      furComponent.Prevails (furShader.selections furSchedule furComponent) "vs" 2 := by
  have hslot : ∀ w id k, furComponent.occupies w = true →
      ((furShader.placed furSchedule).survivor? "fur" w).map Definition.id = some id →
      (furShader.components.places[id]?).map (·.2.1.2) = some k →
      ∃ d, (furShader.placed furSchedule).survivor? "fur" w = some d ∧ d.id = id ∧
        furComponent.Prevails (furShader.selections furSchedule furComponent) w k := by
    intro w id k hoccupied hid hposition
    obtain ⟨d, i, j, hd, hplace, hprevails⟩ := (Closure.placed_by_declaration furShader
      furSchedule).2.1 furComponent List.mem_cons_self w hoccupied
    obtain ⟨d', hd', rfl⟩ := Option.map_eq_some_iff.mp hid
    obtain rfl : d = d' := Option.some.inj (hd.symm.trans hd')
    rw [hplace] at hposition
    obtain rfl : j = k := Option.some.inj hposition
    exact ⟨d, hd, rfl, hprevails⟩
  exact ⟨hslot "fs" 2 1 (by decide +kernel) (by decide +kernel) (by decide +kernel),
    hslot "vs" 3 2 (by decide +kernel) (by decide +kernel) (by decide +kernel)⟩

end ShaderVariants
