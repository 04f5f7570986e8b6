import ShaderVariants.Proofs.Index

/-! # Who holds a slot

The candidates of a component contest the slots of its worlds one after the other. Of those that
contest one slot, the first that was asked for holds it in the end, and without any the last
(`winner?_eq`). Placing a component installs exactly these holders and leaves other components
alone, so the survivors of a component can be read off its own candidates, whatever is placed before
or after it (`placedAt_ofComponents`). A survivor is an entry if any occupant of its slot is, and
its id depends on nothing that was asked for but who won (`PlacedAt.eq_winner`). -/
namespace ShaderVariants

/-! ## The contest of one slot -/

/-- The slot after all contestants have come. -/
def Slot.winner? : List Slot → Option Slot
  | [] => none
  | s :: l => some (l.foldl Slot.contest s)

theorem Slot.winner?_eq (l : List Slot) : Slot.winner? l =
    ((l.find? (·.isAsked)).or l.getLast?).map fun s => { s with isEntry := l.any (·.isEntry) } := by
  cases l with
  | nil => rfl
  | cons s l =>
    show some (l.foldl Slot.contest s) = _
    induction l generalizing s with
    | nil =>
      obtain ⟨holder, isAsked, isEntry⟩ := s
      cases isAsked <;> simp
    | cons t l ih =>
      rw [List.foldl_cons, ih]
      cases hs : s.isAsked with
      | true => simp [contest, hs, Bool.or_assoc]
      | false =>
        -- the newcomer takes the slot, and the entry flag with it
        cases ht : t.isAsked with
        | true => simp [contest, hs, ht, Bool.or_assoc]
        | false =>
          cases l with
          | nil => simp [contest, hs, ht]
          | cons u l => simp [contest, hs, ht, Bool.or_assoc, List.find?_cons]

namespace Component

/-- A candidate in the contest, under its id. -/
def contestant (x : (Definition × Bool) × Nat) : Slot := ⟨x.2, x.1.2, x.1.1.isEntry⟩

theorem find?_slots (candidates : List (Definition × Bool)) (first : Nat) (w : String) :
    (slots candidates first).find? w =
      Slot.winner? (((candidates.zipIdx first).filter (·.1.1.world = w)).map contestant) := by
  have hfold : ∀ (l : List ((Definition × Bool) × Nat)) (m : OrderedMap String Slot),
      (l.foldl (fun slots x => slots.insert x.1.1.world ((slots.find? x.1.1.world).elim
        (contestant x) (·.contest (contestant x)))) m).find? w =
      ((l.filter (·.1.1.world = w)).map contestant).foldl
        (fun slot new => some (slot.elim new (·.contest new))) (m.find? w) := by
    intro l
    induction l with
    | nil => intro m; rfl
    | cons x l ih =>
      intro m
      rw [List.foldl_cons, ih, OrderedMap.find?_insert, List.filter_cons]
      by_cases hw : x.1.1.world = w
      · simp [hw]
      · simp [hw]
  have hwinner : ∀ (l : List Slot) (s : Slot),
      l.foldl (fun slot new => some (slot.elim new (·.contest new))) (some s) =
        some (l.foldl Slot.contest s) := by
    intro l
    induction l with
    | nil => intro s; rfl
    | cons t l ih => intro s; exact ih (s.contest t)
  refine (hfold _ ∅).trans ?_
  cases ((candidates.zipIdx first).filter (·.1.1.world = w)).map contestant with
  | nil => rfl
  | cons s l => exact hwinner l s

/-- The places that the implementations of a component may take, in the order of its candidates. -/
def places (c : Component) : List ((Implementation × Nat) × String) :=
  c.implementations.zipIdx.flatMap fun i => i.1.worlds.toList.map fun w => (i, w)

/-- The places of several components, each with its component. -/
def allPlaces (cs : List Component) : List (Component × (Implementation × Nat) × String) :=
  cs.flatMap fun c => c.places.map fun p => (c, p)

theorem allPlaces_cons (c : Component) (cs : List Component) :
    allPlaces (c :: cs) = (c.places.map fun p => (c, p)) ++ allPlaces cs :=
  List.flatMap_cons

theorem candidates_eq (c : Component) (pipeline : Pipeline) (asked : List (String × Nat)) :
    c.candidates pipeline asked =
      c.places.map fun p => (c.define p.1.1 pipeline p.2, asked.contains (c.name, p.1.2)) := by
  rw [candidates, places, List.map_flatMap]
  simp only [List.map_map]
  rfl

/-- The implementations that may occupy a world, with their positions. -/
def occupants (c : Component) (w : String) : List (Implementation × Nat) :=
  c.implementations.zipIdx.filter (·.1.worlds.contains w)

theorem map_fst_occupants (c : Component) (w : String) :
    (c.occupants w).map Prod.fst = c.implementations.filter (·.worlds.contains w) := by
  conv_rhs => rw [← List.zipIdx_map_fst 0 c.implementations, List.filter_map]
  rfl

/-- Each occupant of a world has one place there. -/
theorem filter_places (c : Component) (w : String) :
    (c.places.filter (·.2 = w)).map Prod.fst = c.occupants w := by
  have hone : ∀ worlds : OrderedSet String,
      worlds.toList.filter (· = w) = if worlds.contains w then [w] else [] := by
    intro worlds
    rw [List.filter_eq, worlds.distinct.count]
    by_cases hw : w ∈ worlds.toList
    · rw [if_pos hw, if_pos (OrderedSet.contains_iff.mpr hw)]
      rfl
    · rw [if_neg hw, if_neg fun h => hw (OrderedSet.contains_iff.mp h)]
      rfl
  rw [places, occupants]
  induction c.implementations.zipIdx with
  | nil => rfl
  | cons i l ih =>
    have hfilter : (i.1.worlds.toList.map fun world => (i, world)).filter (·.2 = w) =
        (i.1.worlds.toList.filter (· = w)).map fun world => (i, world) := by
      rw [List.filter_map]
      rfl
    rw [List.flatMap_cons, List.filter_append, List.map_append, ih, hfilter, hone,
      List.filter_cons]
    cases i.1.worlds.contains w <;> rfl

/-- The occupants of a world, each with the id of its candidate for that world. -/
def entrants (c : Component) (first : Nat) (w : String) : List ((Implementation × Nat) × Nat) :=
  ((c.places.zipIdx first).filter (·.1.2 = w)).map fun x => (x.1.1, x.2)

theorem mem_entrants {c : Component} {first : Nat} {w : String}
    {e : (Implementation × Nat) × Nat} :
    e ∈ c.entrants first w ↔ ((e.1, w), e.2) ∈ c.places.zipIdx first := by
  rw [entrants, List.mem_map]
  constructor
  · intro hparts
    obtain ⟨⟨⟨i, w'⟩, id⟩, hx, rfl⟩ := hparts
    obtain ⟨hmem, hw⟩ := List.mem_filter.mp hx
    obtain rfl : w' = w := of_decide_eq_true hw
    exact hmem
  · intro he
    exact ⟨_, List.mem_filter.mpr ⟨he, decide_eq_true rfl⟩, rfl⟩

/-- An id belongs to one occupant of one world. -/
theorem entrants_inj {c : Component} {first : Nat} {w w' : String}
    {e e' : (Implementation × Nat) × Nat} (he : e ∈ c.entrants first w)
    (he' : e' ∈ c.entrants first w') (hid : e.2 = e'.2) : e = e' ∧ w = w' := by
  have hget := List.mem_zipIdx (mem_entrants.mp he)
  have hget' := List.mem_zipIdx (mem_entrants.mp he')
  obtain ⟨i, id⟩ := e
  obtain ⟨i', id'⟩ := e'
  obtain rfl : id = id' := hid
  have hsame : (i, w) = (i', w') := hget.2.2.trans hget'.2.2.symm
  cases hsame
  exact ⟨rfl, rfl⟩

theorem map_fst_entrants (c : Component) (first : Nat) (w : String) :
    (c.entrants first w).map Prod.fst = c.occupants w := by
  rw [entrants, List.map_map, ← filter_places]
  conv_rhs => rw [← List.zipIdx_map_fst first c.places, List.filter_map, List.map_map]
  rfl

/-- The contestants of a slot are the occupants of its world. -/
theorem contestants_eq (c : Component) (pipeline : Pipeline) (asked : List (String × Nat))
    (first : Nat) (w : String) :
    (((c.candidates pipeline asked).zipIdx first).filter (·.1.1.world = w)).map contestant =
      (c.entrants first w).map fun e =>
        ⟨e.2, asked.contains (c.name, e.1.2), e.1.1.isEntryIn pipeline w⟩ := by
  rw [candidates_eq, List.zipIdx_map, List.filter_map, List.map_map, entrants, List.map_map]
  refine List.map_congr_left fun x hx => ?_
  obtain rfl : x.1.2 = w := of_decide_eq_true (List.mem_filter.mp hx).2
  rfl

/-- The occupant that holds a slot. -/
def chosen? (c : Component) (asked : List (String × Nat)) (w : String) :
    Option (Implementation × Nat) :=
  ((c.occupants w).find? fun i => asked.contains (c.name, i.2)).or (c.occupants w).getLast?

/-- The occupant that holds a slot, with the id of its candidate. -/
def winner? (c : Component) (asked : List (String × Nat)) (first : Nat) (w : String) :
    Option ((Implementation × Nat) × Nat) :=
  ((c.entrants first w).find? fun e => asked.contains (c.name, e.1.2)).or
    (c.entrants first w).getLast?

theorem map_fst_winner? (c : Component) (asked : List (String × Nat)) (first : Nat) (w : String) :
    (c.winner? asked first w).map Prod.fst = c.chosen? asked w := by
  rw [winner?, chosen?, ← c.map_fst_entrants first, List.find?_map, List.getLast?_map,
    ← Option.map_or]
  rfl

theorem mem_of_winner? {c : Component} {asked : List (String × Nat)} {first : Nat} {w : String}
    {e : (Implementation × Nat) × Nat} (h : c.winner? asked first w = some e) :
    e ∈ c.entrants first w := by
  rcases Option.or_eq_some_iff.mp h with h | ⟨_, h⟩
  · exact List.mem_of_find?_eq_some h
  · exact List.mem_of_getLast? h

theorem winner?_eq_none_iff {c : Component} {asked : List (String × Nat)} {first : Nat}
    {w : String} : c.winner? asked first w = none ↔ c.entrants first w = [] := by
  rw [winner?, Option.or_eq_none_iff, List.getLast?_eq_none_iff]
  refine ⟨And.right, fun h => ⟨?_, h⟩⟩
  rw [h]
  rfl

/-- A slot is free only if nobody can occupy it, whatever was asked for. -/
theorem isSome_winner? (c : Component) (asked asked' : List (String × Nat)) (first : Nat)
    (w : String) : (c.winner? asked first w).isSome = (c.winner? asked' first w).isSome := by
  rw [Bool.eq_iff_iff, Option.isSome_iff_ne_none, Option.isSome_iff_ne_none, ne_eq, ne_eq,
    winner?_eq_none_iff, winner?_eq_none_iff]

/-- The holder of a slot is known by its id. -/
theorem winner?_eq_of_id {c : Component} {asked asked' : List (String × Nat)} {first : Nat}
    {w : String} {e e' : (Implementation × Nat) × Nat} (he : c.winner? asked first w = some e)
    (he' : c.winner? asked' first w = some e') (hid : e.2 = e'.2) :
    c.winner? asked' first w = c.winner? asked first w := by
  rw [he, he', (entrants_inj (mem_of_winner? he) (mem_of_winner? he') hid).1]

theorem nodup_entrants (c : Component) (first : Nat) (w : String) :
    (c.entrants first w).Nodup := by
  refine List.Nodup.of_map Prod.snd ?_
  have hids : ((c.places.zipIdx first).map Prod.snd).Nodup := by
    rw [List.zipIdx_map_snd]
    exact List.nodup_range' 1
  rw [entrants, List.map_map]
  exact hids.sublist (List.filter_sublist.map Prod.snd)

/-- Asking changes the holder of a slot iff it asks for an occupant other than the last. -/
theorem winner?_eq_iff {c : Component} {asked : List (String × Nat)} {first : Nat} {w : String} :
    c.winner? asked first w = c.winner? [] first w ↔
      ∀ e ∈ (c.entrants first w).dropLast, asked.contains (c.name, e.1.2) = false := by
  have hnone : c.winner? [] first w = (c.entrants first w).getLast? := by
    have hfind : (c.entrants first w).find? (fun _ => false) = none :=
      List.find?_eq_none.mpr fun _ _ => Bool.false_ne_true
    simp [winner?, hfind]
  have hnodup := c.nodup_entrants first w
  rw [hnone, winner?]
  rcases List.eq_nil_or_concat (c.entrants first w) with hnil | ⟨init, last, hlast⟩
  · simp [hnil]
  · rw [List.concat_eq_append] at hlast
    rw [hlast] at hnodup ⊢
    rw [List.dropLast_concat, List.getLast?_concat, List.find?_append, Option.or_assoc]
    cases hfind : init.find? fun e => asked.contains (c.name, e.1.2) with
    | none =>
      -- whether the last was asked for makes no difference
      have hrest : (([last].find? fun e => asked.contains (c.name, e.1.2)).or (some last)) =
          some last := by
        rw [List.find?_cons]
        split <;> rfl
      have hinit : ∀ e ∈ init, asked.contains (c.name, e.1.2) = false := fun e he =>
        Bool.eq_false_iff.mpr (List.find?_eq_none.mp hfind e he)
      exact iff_of_true hrest hinit
    | some e =>
      have hmem := List.mem_of_find?_eq_some hfind
      have hask := List.find?_some hfind
      refine iff_of_false (fun heq => ?_) fun hall => ?_
      · have hsame : e = last := Option.some.inj heq
        exact (List.nodup_append.mp hnodup).2.2 e hmem last List.mem_cons_self hsame
      · rw [hall e hmem] at hask
        cases hask

/-- Some implementation that may occupy the world has its value as an output there. -/
def isOutput (c : Component) (pipeline : Pipeline) (w : String) : Bool :=
  c.implementations.any fun i => i.worlds.contains w && i.isEntryIn pipeline w

theorem any_entrants (c : Component) (pipeline : Pipeline) (first : Nat) (w : String) :
    ((c.entrants first w).any fun e => e.1.1.isEntryIn pipeline w) = c.isOutput pipeline w := by
  have hfst : ((c.entrants first w).any fun e => e.1.1.isEntryIn pipeline w) =
      ((c.entrants first w).map Prod.fst).any fun i => i.1.isEntryIn pipeline w := by
    rw [List.any_map]
    rfl
  rw [hfst, map_fst_entrants, occupants, List.any_filter, isOutput]
  conv_rhs => rw [← List.zipIdx_map_fst 0 c.implementations, List.any_map]
  rfl

/-- The slot of a world goes to the winner, and is an entry if any occupant is. -/
theorem find?_slots_candidates (c : Component) (pipeline : Pipeline) (asked : List (String × Nat))
    (first : Nat) (w : String) :
    (slots (c.candidates pipeline asked) first).find? w = (c.winner? asked first w).map fun e =>
      ⟨e.2, asked.contains (c.name, e.1.2), c.isOutput pipeline w⟩ := by
  rw [find?_slots, contestants_eq, Slot.winner?_eq, List.find?_map, List.getLast?_map,
    ← Option.map_or, Option.map_map, List.any_map, ← c.any_entrants pipeline first]
  rfl

end Component

namespace ShaderIR
variable {ir : ShaderIR}

/-! ## Adding candidates -/

/-- The candidates as definitions, with ids from `first` on. -/
def numbered (candidates : List (Definition × Bool)) (first : Nat) : List Definition :=
  (candidates.zipIdx first).map fun x => { x.1.1 with id := x.2 }

theorem mem_numbered {c : Component} {pipeline : Pipeline} {asked : List (String × Nat)}
    {first : Nat} {d : Definition} : d ∈ numbered (c.candidates pipeline asked) first ↔
      ∃ w, ∃ e ∈ c.entrants first w, d = { c.define e.1.1 pipeline w with id := e.2 } := by
  rw [numbered, Component.candidates_eq, List.zipIdx_map, List.map_map, List.mem_map]
  constructor
  · intro hparts
    obtain ⟨x, hx, rfl⟩ := hparts
    exact ⟨x.1.2, (x.1.1, x.2), Component.mem_entrants.mpr hx, rfl⟩
  · intro hparts
    obtain ⟨w, e, he, rfl⟩ := hparts
    exact ⟨_, Component.mem_entrants.mp he, rfl⟩

def addAll (ir : ShaderIR) (candidates : List (Definition × Bool)) : ShaderIR :=
  candidates.foldl (fun ir d => ir.add d.1) ir

theorem definitions_addAll (candidates : List (Definition × Bool)) (ir : ShaderIR) :
    (ir.addAll candidates).definitions = ir.definitions ++ numbered candidates ir.nextId := by
  induction candidates generalizing ir with
  | nil => simp [addAll, numbered]
  | cons x l ih =>
    have hcons : ir.addAll (x :: l) = (ir.add x.1).addAll l := rfl
    rw [hcons, ih]
    simp [numbered, add, List.zipIdx_cons]

theorem index_addAll (candidates : List (Definition × Bool)) (ir : ShaderIR) :
    (ir.addAll candidates).index = ir.index := by
  induction candidates generalizing ir with
  | nil => rfl
  | cons x l ih => exact ih (ir.add x.1)

theorem WellFormed.addAll (h : ir.WellFormed) (candidates : List (Definition × Bool)) :
    (ir.addAll candidates).WellFormed :=
  List.foldlRecOn _ _ h fun _ hir d _ => hir.add d.1

/-! ## Awarding slots -/

/-- The definition as an entry, if it holds one of the slots as an entry. -/
def promote (slots : List Slot) (d : Definition) : Definition :=
  { d with isEntry := d.isEntry || slots.any fun s => s.holder = d.id && s.isEntry }

theorem definitions_award (ir : ShaderIR) (slot : Slot) :
    (ir.award slot).definitions = ir.definitions.map (promote [slot]) := by
  unfold award
  split
  · rename_i he
    rw [modify, definitions_install]
    refine List.map_congr_left fun d _ => ?_
    by_cases hid : d.id = slot.holder
    · simp [promote, he, hid]
    · simp [promote, he, hid, Ne.symm hid]
  · rename_i he
    rw [definitions_install, map_eq_self]
    intro d _
    simp [promote, he]

theorem definitions_foldl_award (l : List Slot) (ir : ShaderIR) :
    (l.foldl award ir).definitions = ir.definitions.map (promote l) := by
  induction l generalizing ir with
  | nil =>
    rw [List.foldl_nil, map_eq_self]
    intro d _
    simp [promote]
  | cons s l ih =>
    rw [List.foldl_cons, ih, definitions_award, List.map_map]
    refine List.map_congr_left fun d _ => ?_
    simp [promote, Bool.or_assoc]

theorem index_award (ir : ShaderIR) (slot : Slot) :
    (ir.award slot).index = (ir.install slot.holder).index := by
  unfold award
  split <;> rfl

/-- Awarding slots of different worlds makes each holder the survivor of its world. -/
theorem survivorId?_foldl_award {name : String} (l : List (String × Slot)) (h : ir.WellFormed)
    (hl : ∀ e ∈ l, ∃ d ∈ ir.definitions,
      d.id = e.2.holder ∧ d.component = name ∧ d.world = e.1)
    (hdistinct : (l.map Prod.fst).Nodup) (n w : String) :
    ((l.map Prod.snd).foldl award ir).survivorId? n w =
      if n = name then ((OrderedMap.lookup w l).map Slot.holder).or (ir.survivorId? n w)
      else ir.survivorId? n w := by
  induction l generalizing ir with
  | nil => simp [OrderedMap.lookup]
  | cons e l ih =>
    obtain ⟨hnew, hrest⟩ := List.nodup_cons.mp hdistinct
    obtain ⟨d, hd, hid, hcomponent, hworld⟩ := hl e List.mem_cons_self
    have hslot : (ir.award e.2).survivorId? n w =
        if name = n ∧ e.1 = w then some e.2.holder else ir.survivorId? n w := by
      rw [survivorId?, index_award, ← survivorId?,
        survivorId?_install (h.definition?_iff.mpr ⟨hd, hid⟩), hcomponent, hworld]
    have hl' : ∀ e' ∈ l, ∃ d ∈ (ir.award e.2).definitions,
        d.id = e'.2.holder ∧ d.component = name ∧ d.world = e'.1 := by
      intro e' he'
      obtain ⟨d', hd', hfields⟩ := hl e' (List.mem_cons_of_mem e he')
      rw [definitions_award]
      exact ⟨_, List.mem_map_of_mem hd', hfields⟩
    rw [List.map_cons, List.foldl_cons, ih (h.award e.2) hl' hrest, hslot, OrderedMap.lookup]
    by_cases hn : n = name
    · by_cases hw : e.1 = w
      · have hnone : OrderedMap.lookup w l = none := by
          cases hlookup : OrderedMap.lookup w l with
          | none => rfl
          | some slot =>
            have hmem := (OrderedMap.lookup_eq_some_iff hrest).mp hlookup
            exact absurd (List.mem_map_of_mem hmem) (hw ▸ hnew)
        simp [hn, hw, hnone]
      · simp [hn, hw]
    · simp [hn, Ne.symm hn]

/-! ## Placing a component -/

/-- The slots that a component's candidates contest when they are placed. -/
def slotsOf (ir : ShaderIR) (asked : List (String × Nat)) (c : Component) (first : Nat) :
    OrderedMap String Slot :=
  Component.slots (c.candidates ir.pipeline asked) first

theorem place_eq (ir : ShaderIR) (asked : List (String × Nat)) (c : Component) :
    ir.place asked c = (ir.slotsOf asked c ir.nextId).values.foldl award
      (ir.addAll (c.candidates ir.pipeline asked)) :=
  rfl

theorem find?_slotsOf (ir : ShaderIR) (asked : List (String × Nat)) (c : Component) (first : Nat)
    (w : String) : (ir.slotsOf asked c first).find? w = (c.winner? asked first w).map fun e =>
      ⟨e.2, asked.contains (c.name, e.1.2), c.isOutput ir.pipeline w⟩ :=
  c.find?_slots_candidates ir.pipeline asked first w

theorem winner_of_slotsOf {asked : List (String × Nat)} {c : Component} {first : Nat} {w : String}
    {slot : Slot} (h : (w, slot) ∈ (ir.slotsOf asked c first).entries) :
    ∃ e, c.winner? asked first w = some e ∧ e.2 = slot.holder ∧
      slot.isEntry = c.isOutput ir.pipeline w := by
  have hfind := OrderedMap.find?_eq_some_iff.mpr h
  rw [find?_slotsOf] at hfind
  obtain ⟨e, he, rfl⟩ := Option.map_eq_some_iff.mp hfind
  exact ⟨e, he, rfl, rfl⟩

theorem holder_slotsOf {asked : List (String × Nat)} {c : Component} {first : Nat} {w : String}
    {slot : Slot} (h : (w, slot) ∈ (ir.slotsOf asked c first).entries) :
    ∃ d ∈ numbered (c.candidates ir.pipeline asked) first,
      first ≤ d.id ∧ d.id = slot.holder ∧ d.component = c.name ∧ d.world = w := by
  obtain ⟨e, he, hid, _⟩ := winner_of_slotsOf h
  have hmem := Component.mem_of_winner? he
  have hle := List.le_snd_of_mem_zipIdx (Component.mem_entrants.mp hmem)
  exact ⟨_, mem_numbered.mpr ⟨w, e, hmem, rfl⟩, hle, hid, rfl, rfl⟩

theorem WellFormed.definitions_place (h : ir.WellFormed) (asked : List (String × Nat))
    (c : Component) : (ir.place asked c).definitions = ir.definitions ++
      (numbered (c.candidates ir.pipeline asked) ir.nextId).map
        (promote (ir.slotsOf asked c ir.nextId).values) := by
  have hold : ir.definitions.map (promote (ir.slotsOf asked c ir.nextId).values) =
      ir.definitions := by
    refine map_eq_self fun d hd => ?_
    -- ids of candidates are new
    have hnone : ((ir.slotsOf asked c ir.nextId).values.any fun s =>
        s.holder = d.id && s.isEntry) = false := by
      refine List.any_eq_false.mpr fun _ hslot => ?_
      obtain ⟨⟨w, slot⟩, he, rfl⟩ := List.mem_map.mp hslot
      obtain ⟨e, _, hle, hid, _⟩ := holder_slotsOf he
      have hlt := h.below d.id (mem_ids.mpr ⟨d, hd, rfl⟩)
      have hne : slot.holder ≠ d.id := by omega
      simp [hne]
    simp [promote, hnone]
  rw [place_eq, definitions_foldl_award, definitions_addAll, List.map_append, hold]

theorem WellFormed.survivorId?_place (h : ir.WellFormed) (asked : List (String × Nat))
    (c : Component) (n w : String) : (ir.place asked c).survivorId? n w =
      if n = c.name then
        (((ir.slotsOf asked c ir.nextId).find? w).map Slot.holder).or (ir.survivorId? n w)
      else ir.survivorId? n w := by
  have hold : (ir.addAll (c.candidates ir.pipeline asked)).survivorId? n w =
      ir.survivorId? n w := by
    rw [survivorId?, index_addAll, ← survivorId?]
  rw [place_eq, ← hold]
  refine survivorId?_foldl_award _ (h.addAll _) (fun e he => ?_) (OrderedMap.distinct _) n w
  obtain ⟨d, hd, _, hfields⟩ := holder_slotsOf he
  rw [definitions_addAll]
  exact ⟨d, List.mem_append_right _ hd, hfields⟩

theorem WellFormed.place (h : ir.WellFormed) (asked : List (String × Nat)) (c : Component) :
    (ir.place asked c).WellFormed := by
  rw [place_eq]
  exact List.foldlRecOn _ _ (h.addAll _) fun _ hir slot _ => hir.award slot

theorem addAll_frame (candidates : List (Definition × Bool)) (ir : ShaderIR) :
    (ir.addAll candidates).pipeline = ir.pipeline ∧
      (ir.addAll candidates).nextId = ir.nextId + candidates.length := by
  induction candidates generalizing ir with
  | nil => exact ⟨rfl, rfl⟩
  | cons x l ih =>
    obtain ⟨hpipeline, hnext⟩ := ih (ir.add x.1)
    have hone : (ir.add x.1).nextId = ir.nextId + 1 := rfl
    refine ⟨hpipeline, hnext.trans ?_⟩
    rw [hone, List.length_cons, Nat.add_assoc, Nat.add_comm 1]

theorem award_frame (l : List Slot) (ir : ShaderIR) :
    (l.foldl award ir).pipeline = ir.pipeline ∧ (l.foldl award ir).nextId = ir.nextId := by
  refine List.foldlRecOn (motive := fun ir' => ir'.pipeline = ir.pipeline ∧ ir'.nextId = ir.nextId)
    l award ⟨rfl, rfl⟩ fun ir' hir slot _ => ?_
  have hinstall : (ir'.install slot.holder).pipeline = ir'.pipeline ∧
      (ir'.install slot.holder).nextId = ir'.nextId := by
    unfold install
    split <;> exact ⟨rfl, rfl⟩
  obtain ⟨hpipeline, hnext⟩ := hinstall
  unfold award
  split <;> exact ⟨hpipeline.trans hir.1, hnext.trans hir.2⟩

theorem pipeline_place (ir : ShaderIR) (asked : List (String × Nat)) (c : Component) :
    (ir.place asked c).pipeline = ir.pipeline := by
  rw [place_eq, (award_frame _ _).1, (addAll_frame _ _).1]

/-- How many ids a component takes does not depend on what was asked for. -/
theorem nextId_place (ir : ShaderIR) (asked : List (String × Nat)) (c : Component) :
    (ir.place asked c).nextId = ir.nextId + c.places.length := by
  rw [place_eq, (award_frame _ _).2, (addAll_frame _ _).2, Component.candidates_eq,
    List.length_map]

theorem slotsOf_place (ir : ShaderIR) (asked : List (String × Nat)) (c other : Component)
    (first : Nat) : (ir.place asked other).slotsOf asked c first = ir.slotsOf asked c first := by
  rw [slotsOf, slotsOf, pipeline_place]

/-- A component was placed, with ids from `first` on: its candidates are definitions, and the
holders of its slots are their survivors. -/
structure PlacedAt (ir : ShaderIR) (asked : List (String × Nat)) (c : Component) (first : Nat) :
    Prop where
  definitions : ∀ d ∈ numbered (c.candidates ir.pipeline asked) first,
    promote (ir.slotsOf asked c first).values d ∈ ir.definitions
  survivors : ∀ w, ir.survivorId? c.name w =
    ((ir.slotsOf asked c first).find? w).map Slot.holder

variable {asked : List (String × Nat)} {c : Component} {first : Nat}

theorem WellFormed.placedAt_place (h : ir.WellFormed)
    (hfree : ∀ w, ir.survivorId? c.name w = none) :
    (ir.place asked c).PlacedAt asked c ir.nextId := by
  refine ⟨fun d hd => ?_, fun w => ?_⟩
  · rw [slotsOf_place, h.definitions_place]
    rw [pipeline_place] at hd
    exact List.mem_append_right _ (List.mem_map_of_mem hd)
  · rw [slotsOf_place, h.survivorId?_place, if_pos rfl, hfree, Option.or_none]

/-- Placing another component changes nothing about one that was placed. -/
theorem PlacedAt.place (hp : ir.PlacedAt asked c first) (h : ir.WellFormed) {other : Component}
    (hne : c.name ≠ other.name) : (ir.place asked other).PlacedAt asked c first := by
  refine ⟨fun d hd => ?_, fun w => ?_⟩
  · rw [slotsOf_place, h.definitions_place]
    rw [pipeline_place] at hd
    exact List.mem_append_left _ (hp.definitions d hd)
  · rw [slotsOf_place, h.survivorId?_place, if_neg hne]
    exact hp.survivors w

theorem PlacedAt.foldl_place (hp : ir.PlacedAt asked c first) (h : ir.WellFormed)
    {others : List Component} (hne : ∀ other ∈ others, c.name ≠ other.name) :
    (others.foldl (ShaderIR.place asked) ir).PlacedAt asked c first := by
  induction others generalizing ir with
  | nil => exact hp
  | cons other others ih =>
    exact ih (hp.place h (hne other List.mem_cons_self)) (h.place asked other)
      fun o ho => hne o (List.mem_cons_of_mem other ho)

theorem nextId_foldl_place (asked : List (String × Nat)) (cs : List Component) (ir : ShaderIR) :
    (cs.foldl (ShaderIR.place asked) ir).nextId =
      ir.nextId + (Component.allPlaces cs).length := by
  induction cs generalizing ir with
  | nil => rfl
  | cons c cs ih =>
    rw [List.foldl_cons, ih, nextId_place, Component.allPlaces_cons, List.length_append,
      List.length_map, Nat.add_assoc]

/-- Placing components takes no slots but their own. -/
theorem WellFormed.survivorId?_foldl_place (h : ir.WellFormed) (asked : List (String × Nat))
    {others : List Component} {n : String} (hne : ∀ other ∈ others, n ≠ other.name) (w : String) :
    (others.foldl (ShaderIR.place asked) ir).survivorId? n w = ir.survivorId? n w := by
  induction others generalizing ir with
  | nil => rfl
  | cons other others ih =>
    rw [List.foldl_cons, ih (h.place asked other) fun o ho => hne o (List.mem_cons_of_mem other ho),
      h.survivorId?_place, if_neg (hne other List.mem_cons_self)]

theorem WellFormed.foldl_place (h : ir.WellFormed) (asked : List (String × Nat))
    (cs : List Component) : (cs.foldl (ShaderIR.place asked) ir).WellFormed :=
  List.foldlRecOn _ _ h fun _ hir c _ => hir.place asked c

/-- What became of a component in a placed shader depends on its own candidates only. Their ids
follow those of the components before it. -/
theorem placedAt_split (shader : String) (pipeline : Pipeline) {components : Components}
    {before after : List Component} (hsplit : components.values = before ++ c :: after)
    (asked : List (String × Nat)) :
    (ofComponents shader pipeline components asked).PlacedAt asked c
      (Component.allPlaces before).length := by
  have hnames := components.nodup_names
  rw [hsplit, List.map_append, List.map_cons, List.nodup_append, List.nodup_cons] at hnames
  obtain ⟨_, ⟨hafter, _⟩, hbefore⟩ := hnames
  have hempty := wellFormed_empty shader pipeline
  have hw := hempty.foldl_place asked before
  have hfree : ∀ w, (before.foldl (ShaderIR.place asked) { shader, pipeline }).survivorId?
      c.name w = none := by
    intro w
    rw [hempty.survivorId?_foldl_place asked fun o ho he =>
      hbefore _ (List.mem_map_of_mem ho) _ List.mem_cons_self he.symm]
    simp [survivorId?]
  have hplaced : ((before.foldl (ShaderIR.place asked) { shader, pipeline }).place asked c).PlacedAt
      asked c _ := hw.placedAt_place hfree
  rw [nextId_foldl_place, Nat.zero_add] at hplaced
  rw [ofComponents, hsplit, List.foldl_append, List.foldl_cons]
  exact hplaced.foldl_place (hw.place asked c) fun o ho he =>
    hafter (he ▸ List.mem_map_of_mem ho)

/-- The ids of a component's candidates do not even depend on what was asked for. -/
theorem placedAt_ofComponents (shader : String) (pipeline : Pipeline) {components : Components}
    (hc : c ∈ components.values) :
    ∃ first, ∀ asked, (ofComponents shader pipeline components asked).PlacedAt asked c first := by
  obtain ⟨before, after, hsplit⟩ := List.append_of_mem hc
  exact ⟨_, placedAt_split shader pipeline hsplit⟩

theorem pipeline_ofComponents (shader : String) (pipeline : Pipeline) (components : Components)
    (asked : List (String × Nat)) :
    (ofComponents shader pipeline components asked).pipeline = pipeline :=
  List.foldlRecOn (motive := fun ir => ir.pipeline = pipeline) _ _ rfl fun ir hir c _ =>
    (pipeline_place ir asked c).trans hir

/-- A slot's holder is promoted exactly if the slot is an entry. -/
theorem promote_winner {w : String} {e : (Implementation × Nat) × Nat}
    (he : c.winner? asked first w = some e) :
    promote (ir.slotsOf asked c first).values { c.define e.1.1 ir.pipeline w with id := e.2 } =
      { c.define e.1.1 ir.pipeline w with id := e.2, isEntry := c.isOutput ir.pipeline w } := by
  have hmem := Component.mem_of_winner? he
  have hentry : (e.1.1.isEntryIn ir.pipeline w ||
      (ir.slotsOf asked c first).values.any fun s => s.holder = e.2 && s.isEntry) =
        c.isOutput ir.pipeline w := by
    rw [Bool.eq_iff_iff, Bool.or_eq_true, List.any_eq_true]
    constructor
    · intro h
      rcases h with hown | ⟨slot, hslot, hpass⟩
      · rw [← c.any_entrants ir.pipeline first]
        exact List.any_eq_true.mpr ⟨e, hmem, hown⟩
      · obtain ⟨⟨w', slot⟩, hentry, rfl⟩ := List.mem_map.mp hslot
        obtain ⟨e', he', hid, hout⟩ := winner_of_slotsOf hentry
        obtain ⟨hholder, hisEntry⟩ := Bool.and_eq_true_iff.mp hpass
        -- the slot is the one of this world, since nobody holds two
        have hworld := (Component.entrants_inj (Component.mem_of_winner? he') hmem
          (hid.trans (of_decide_eq_true hholder))).2
        rwa [hout, hworld] at hisEntry
    · intro hout
      refine Or.inr ⟨⟨e.2, asked.contains (c.name, e.1.2), true⟩, ?_, by simp⟩
      have hfind : (ir.slotsOf asked c first).find? w =
          some ⟨e.2, asked.contains (c.name, e.1.2), true⟩ := by
        rw [find?_slotsOf, he, hout]
        rfl
      exact OrderedMap.mem_values_of_find? hfind
  rw [promote, ← hentry]
  rfl

theorem PlacedAt.survivorId?_eq (hp : ir.PlacedAt asked c first) (w : String) :
    ir.survivorId? c.name w = (c.winner? asked first w).map Prod.snd := by
  rw [hp.survivors, find?_slotsOf, Option.map_map]
  rfl

/-- The winner of a slot stands among the definitions. -/
theorem PlacedAt.mem_winner (hp : ir.PlacedAt asked c first) {w : String}
    {e : (Implementation × Nat) × Nat} (he : c.winner? asked first w = some e) :
    ({ c.define e.1.1 ir.pipeline w with id := e.2, isEntry := c.isOutput ir.pipeline w } :
      Definition) ∈ ir.definitions := by
  rw [← promote_winner he]
  exact hp.definitions _ (mem_numbered.mpr ⟨w, e, Component.mem_of_winner? he, rfl⟩)

/-- A survivor is the definition of the winner of its slot. -/
theorem PlacedAt.eq_winner (hp : ir.PlacedAt asked c first) (h : ir.WellFormed) {d : Definition}
    (hd : d ∈ ir.definitions) (hs : ir.isSurvivor d = true) (hcomponent : d.component = c.name) :
    ∃ e, c.winner? asked first d.world = some e ∧
      d = { c.define e.1.1 ir.pipeline d.world with
        id := e.2, isEntry := c.isOutput ir.pipeline d.world } := by
  have hslot := isSurvivor_iff.mp hs
  rw [hcomponent, hp.survivorId?_eq] at hslot
  obtain ⟨e, he, hid⟩ := Option.map_eq_some_iff.mp hslot
  exact ⟨e, he, h.eq_of_id hd (hp.mem_winner he) hid.symm⟩

/-- The survivor of a slot is the definition of the chosen occupant. -/
theorem PlacedAt.survivor (hp : ir.PlacedAt asked c first) (h : ir.WellFormed) {d : Definition}
    (hd : d ∈ ir.definitions) (hs : ir.isSurvivor d = true) (hcomponent : d.component = c.name) :
    ∃ i, c.chosen? asked d.world = some i ∧
      d = { c.define i.1 ir.pipeline d.world with id := d.id, isEntry := d.isEntry } := by
  obtain ⟨e, he, hdef⟩ := hp.eq_winner h hd hs hcomponent
  refine ⟨e.1, ?_, ?_⟩
  · rw [← c.map_fst_winner? asked first, he]
    rfl
  · rw [hdef]
    rfl

end ShaderIR

end ShaderVariants
