import ShaderVariants.Proofs.VariantMeaning
import ShaderVariants.Proofs.WorldCycles

/-! # The dependency graph of any representation

Nothing here asks how the dependencies came about. A definition may depend on itself, on one that
lost its slot, or on an id that is gone; only dependencies between stored definitions count, and
ids tell these apart. The two searches run over ids, and their edges are the dependencies
(`edge_iff_dependsOn`). So the cycle search finds something exactly if there is a cycle, and pruning
keeps exactly what the surviving entries lead to (`mem_prune_iff_needed`). What is kept is needed in
what is left as well (`Needed.prune`), and pruning has nothing to do a second time. -/
namespace ShaderVariants.ShaderIR
open Relation ShaderVariants.Graph

variable {ir : ShaderIR}

/-! ## Paths over ids and paths over definitions -/

theorem edge_iff_dependsOn (hids : ir.ids.Nodup) {a b : Nat} :
    Edge ir.reads ir.ids a b ↔ ∃ d e, ir.DependsOn d e ∧ d.id = a ∧ e.id = b := by
  rw [Edge, reads]
  constructor
  · rintro ⟨hb, hmem⟩
    cases hd : ir.definition? a with
    | none => simp [hd] at hb
    | some d =>
      obtain ⟨hdm, hid⟩ := (definition?_iff hids).mp hd
      obtain ⟨e, hem, rfl⟩ := mem_ids.mp hmem
      rw [hd] at hb
      exact ⟨d, e, ⟨hdm, hem, hb⟩, hid, rfl⟩
  · rintro ⟨d, e, ⟨hd, he, hdep⟩, rfl, rfl⟩
    rw [(definition?_iff hids).mpr ⟨hd, rfl⟩]
    exact ⟨hdep, mem_ids.mpr ⟨e, he, rfl⟩⟩

theorem DependsOn.edge (hids : ir.ids.Nodup) {d e : Definition} (h : ir.DependsOn d e) :
    Edge ir.reads ir.ids d.id e.id :=
  (edge_iff_dependsOn hids).mpr ⟨d, e, h, rfl, rfl⟩

/-- What a search reaches from a definition is the id of one that it leads to. -/
theorem exists_path_of_edges (hids : ir.ids.Nodup) {d : Definition} (hd : d ∈ ir.definitions)
    {b : Nat} (h : ReflTransGen (Edge ir.reads ir.ids) d.id b) :
    ∃ e ∈ ir.definitions, e.id = b ∧ ReflTransGen ir.DependsOn d e := by
  induction h with
  | refl => exact ⟨d, hd, rfl, .refl⟩
  | tail _ hstep ih =>
    obtain ⟨e, he, rfl, hp⟩ := ih
    obtain ⟨e', f, hdep, hid, rfl⟩ := (edge_iff_dependsOn hids).mp hstep
    obtain rfl := eq_of_id hids hdep.1 he hid
    exact ⟨f, hdep.2.1, rfl, hp.tail hdep⟩

theorem cycle_iff_dependsOn (hids : ir.ids.Nodup) {d : Definition} (hd : d ∈ ir.definitions) :
    TransGen (Edge ir.reads ir.ids) d.id d.id ↔ TransGen ir.DependsOn d d := by
  constructor
  · intro h
    obtain ⟨b, hedges, hstep⟩ := TransGen.tail'_iff.mp h
    obtain ⟨e, he, rfl, hp⟩ := exists_path_of_edges hids hd hedges
    obtain ⟨e', d', hdep, hid, hid'⟩ := (edge_iff_dependsOn hids).mp hstep
    obtain rfl := eq_of_id hids hdep.1 he hid
    obtain rfl := eq_of_id hids hdep.2.1 hd hid'
    exact TransGen.tail' hp hdep
  · intro h
    exact h.lift Definition.id fun _ _ hdep => hdep.edge hids

/-! ## The cycle search -/

/-- The cycle search finds nothing exactly if no definition leads back to itself, and what it finds
is a stored definition that does. -/
theorem cycle?_exact (hids : ir.ids.Nodup) :
    (ir.cycle? = none ↔ ∀ d, ¬ TransGen ir.DependsOn d d) ∧
      ∀ d, ir.cycle? = some d → d ∈ ir.definitions ∧ TransGen ir.DependsOn d d := by
  cases hb : backEdge? ir.reads ir.ids with
  | none =>
    have hnone : ir.cycle? = none := by rw [cycle?, hb]; rfl
    have hacyclic := backEdge?_eq_none_iff.mp hb
    refine ⟨iff_of_true hnone fun d hd => ?_, fun d hd => ?_⟩
    · exact hacyclic d.id (hd.lift Definition.id fun _ _ hdep => hdep.edge hids)
    · rw [hnone] at hd
      cases hd
  | some target =>
    obtain ⟨hmem, hpath⟩ := backEdge?_cycle hb
    obtain ⟨d, hd, rfl⟩ := mem_ids.mp hmem
    have hsome : ir.cycle? = some d := by
      rw [cycle?, hb]
      exact (definition?_iff hids).mpr ⟨hd, rfl⟩
    have hcycle := (cycle_iff_dependsOn hids hd).mp hpath
    refine ⟨iff_of_false (by simp [hsome]) fun h => h d hcycle, fun e he => ?_⟩
    obtain rfl := Option.some.inj (hsome.symm.trans he)
    exact ⟨hd, hcycle⟩

/-- A definition in the one world of `tangled`. -/
def strand (component : String) (isEntry : Bool) (dependencies : List Nat) : Definition :=
  { component, world := "vs", dataType := "float", body := .block [], isEntry,
    dependencies := .ofList dependencies }

/-- The entry reads an id that is gone, and a definition that lost its slot and lies on a cycle. The
other entry lost its slot and reads itself, and the survivor of the slot of `noise` is not read. -/
def tangled : ShaderIR :=
  [strand "color" true [9, 1], strand "noise" false [2], strand "grain" false [1],
    strand "color" true [3, 0], strand "noise" false []].foldl add
      { shader := "lit", pipeline := { name := "forward" } }
    |>.install 0 |>.install 2 |>.install 4

theorem cycle?_exact_tangled :
    tangled.ids.Nodup ∧ (tangled.cycle?.map Definition.id = some 1) ∧
      ∃ d ∈ tangled.definitions, d.id = 1 ∧ TransGen tangled.DependsOn d d := by
  have hids : tangled.ids.Nodup := by decide
  have hfound : tangled.cycle?.map Definition.id = some 1 := by decide +kernel
  obtain ⟨d, hd, hid⟩ := Option.map_eq_some_iff.mp hfound
  obtain ⟨hmem, hcycle⟩ := (cycle?_exact hids).2 d hd
  exact ⟨hids, hfound, d, hmem, hid, hcycle⟩

/-! ## What pruning keeps -/

/-- A surviving entry leads to the definition. -/
def Needed (ir : ShaderIR) (e : Definition) : Prop :=
  ∃ d ∈ ir.definitions, d.isEntry = true ∧ ir.isSurvivor d = true ∧
    ReflTransGen ir.DependsOn d e

open Classical in
/-- The needed definitions, in the order in which they are stored. -/
noncomputable def neededDefinitions (ir : ShaderIR) : List Definition :=
  ir.definitions.filter fun d => ir.Needed d

theorem mem_live_iff_needed (hids : ir.ids.Nodup) {e : Definition} (he : e ∈ ir.definitions) :
    e.id ∈ ir.live ↔ ir.Needed e := by
  rw [live, mem_postorder]
  constructor
  · rintro ⟨r, hr, _, hedges⟩
    obtain ⟨d, hroot, rfl⟩ := List.mem_map.mp hr
    obtain ⟨hd, htest⟩ := List.mem_filter.mp hroot
    obtain ⟨hentry, hs⟩ := Bool.and_eq_true_iff.mp htest
    obtain ⟨e', he', hid, hp⟩ := exists_path_of_edges hids hd hedges
    obtain rfl := eq_of_id hids he' he hid
    exact ⟨d, hd, hentry, hs, hp⟩
  · rintro ⟨d, hd, hentry, hs, hp⟩
    have hroot : d ∈ ir.definitions.filter fun d => d.isEntry && ir.isSurvivor d :=
      List.mem_filter.mpr ⟨hd, Bool.and_eq_true_iff.mpr ⟨hentry, hs⟩⟩
    exact ⟨d.id, List.mem_map_of_mem hroot, mem_ids.mpr ⟨d, hd, rfl⟩,
      hp.lift Definition.id fun _ _ hdep => hdep.edge hids⟩

theorem definitions_prune_eq_needed (hids : ir.ids.Nodup) :
    ir.prune.definitions = ir.neededDefinitions := by
  classical
  rw [definitions_prune, neededDefinitions]
  refine List.filter_congr fun d hd => ?_
  rw [Bool.eq_iff_iff, List.contains_iff_mem, decide_eq_true_iff]
  exact mem_live_iff_needed hids hd

theorem Needed.mem {e : Definition} (h : ir.Needed e) : e ∈ ir.definitions := by
  obtain ⟨d, hd, _, _, hp⟩ := h
  cases hp with
  | refl => exact hd
  | tail _ hdep => exact hdep.2.1

theorem mem_prune_iff_needed (hids : ir.ids.Nodup) {e : Definition} :
    e ∈ ir.prune.definitions ↔ ir.Needed e := by
  rw [definitions_prune, List.mem_filter, List.contains_iff_mem]
  constructor
  · rintro ⟨he, hlive⟩
    exact (mem_live_iff_needed hids he).mp hlive
  · intro h
    exact ⟨h.mem, (mem_live_iff_needed hids h.mem).mpr h⟩

/-- What pruning keeps is needed in what is left: the whole way from the entry is kept, and so is
the slot of the entry. -/
theorem Needed.prune (hids : ir.ids.Nodup)
    (hindex : ∀ c w id, ir.survivorId? c w = some id → id ∈ ir.ids) {e : Definition}
    (h : ir.Needed e) : ir.prune.Needed e := by
  obtain ⟨d, hd, hentry, hs, hp⟩ := h
  have hkept : ∀ f, ReflTransGen ir.DependsOn d f → f ∈ ir.prune.definitions :=
    fun f hf => (mem_prune_iff_needed hids).mpr ⟨d, hd, hentry, hs, hf⟩
  refine ⟨d, hkept d .refl, hentry, ?_, ?_⟩
  · rw [isSurvivor_iff, survivorId?_prune hindex]
    exact ⟨isSurvivor_iff.mp hs,
      (mem_live_iff_needed hids hd).mpr ⟨d, hd, hentry, hs, .refl⟩⟩
  · induction hp with
    | refl => exact .refl
    | @tail f g hf hdep ih =>
      exact ih.tail ⟨hkept f hf, hkept g (hf.tail hdep), hdep.2.2⟩

theorem hasDead_prune (hids : ir.ids.Nodup)
    (hindex : ∀ c w id, ir.survivorId? c w = some id → id ∈ ir.ids) :
    ir.prune.hasDead = false := by
  have hids' : ir.prune.ids.Nodup := by
    rw [ids, definitions_prune]
    exact hids.sublist (List.filter_sublist.map _)
  rw [hasDead, List.any_eq_false]
  intro d hd
  have hneeded : ir.prune.Needed d := ((mem_prune_iff_needed hids).mp hd).prune hids hindex
  simpa using (mem_live_iff_needed hids' hd).mpr hneeded

theorem hasDead_iff : ir.hasDead = true ↔ ∃ d ∈ ir.definitions, d ∉ ir.prune.definitions := by
  rw [hasDead, List.any_eq_true, definitions_prune]
  refine exists_congr fun d => and_congr_right fun hd => ?_
  simp [hd]

/-! ## What pruning leaves of the index -/

theorem flatMap_filter_of_nil {α β : Type} {l : List α} {q : α → Bool} {f : α → List β}
    (h : ∀ a, q a = false → f a = []) : (l.filter q).flatMap f = l.flatMap f := by
  induction l with
  | nil => rfl
  | cons a rest ih =>
    cases hq : q a with
    | true => rw [List.filter_cons_of_pos hq, List.flatMap_cons, List.flatMap_cons, ih]
    | false =>
      rw [List.filter_cons_of_neg (by simp [hq]), List.flatMap_cons, h a hq, List.nil_append, ih]

theorem indexEntries_remove (ir : ShaderIR) (p : Definition → Bool) :
    (ir.remove p).indexEntries =
      ir.indexEntries.filter fun slot => slot.2.2 ∈ (ir.remove p).ids := by
  have hkept : ∀ id, (ir.remove p).definitions.any (·.id = id) =
      decide (id ∈ (ir.remove p).ids) := by
    intro id
    rw [Bool.eq_iff_iff, decide_eq_true_iff, mem_ids]
    simp
  rw [indexEntries, indexEntries, List.filter_flatMap]
  -- a component that is dropped had no slot left
  refine (flatMap_filter_of_nil fun c hempty => ?_).trans ?_
  · have hnil : c.2.entries = [] := by simpa [OrderedMap.isEmpty] using hempty
    rw [hnil, List.map_nil]
  · show (ir.index.entries.map _).flatMap _ = _
    rw [List.flatMap_map]
    congr 1
    funext c
    rw [List.filter_map]
    exact congrArg _ (List.filter_congr fun w _ => hkept w.2)

theorem indexEntries_prune (hindex : ∀ c w id, ir.survivorId? c w = some id → id ∈ ir.ids) :
    ir.prune.indexEntries = ir.indexEntries.filter fun slot => slot.2.2 ∈ ir.prune.ids := by
  by_cases hdead : ir.hasDead = true
  · rw [prune, if_pos hdead]
    exact indexEntries_remove ir _
  · rw [prune_eq_self (by simpa using hdead), eq_comm, List.filter_eq_self]
    rintro ⟨c, w, id⟩ hslot
    exact decide_eq_true (hindex c w id (mem_indexEntries.mp hslot))

/-- Pruning keeps exactly the definitions that a surviving entry leads to, as they are and in order.
The index loses the slots of what went and no others. There is something dead exactly if a
definition goes, and pruning again changes nothing. -/
theorem prune_exact (hids : ir.ids.Nodup)
    (hindex : ∀ c w id, ir.survivorId? c w = some id → id ∈ ir.ids) :
    ir.prune.definitions = ir.neededDefinitions ∧
      (ir.prune.indexEntries = ir.indexEntries.filter fun slot => slot.2.2 ∈ ir.prune.ids) ∧
      (ir.hasDead = true ↔ ∃ d ∈ ir.definitions, d ∉ ir.prune.definitions) ∧
      ir.prune.hasDead = false ∧ ir.prune.prune = ir.prune ∧
      ir.prune.shader = ir.shader ∧ ir.prune.pipeline = ir.pipeline ∧
      ir.prune.nextId = ir.nextId := by
  have hdead := hasDead_prune hids hindex
  refine ⟨definitions_prune_eq_needed hids, indexEntries_prune hindex, hasDead_iff, hdead,
    prune_eq_self hdead, shader_prune ir, pipeline_prune ir, ?_⟩
  unfold prune
  split <;> rfl

theorem prune_exact_tangled :
    tangled.ids.Nodup ∧ (∀ c w id, tangled.survivorId? c w = some id → id ∈ tangled.ids) ∧
      tangled.neededDefinitions.map Definition.id = [0, 1, 2] ∧
      tangled.prune.indexEntries = [("color", "vs", 0), ("grain", "vs", 2)] ∧
      tangled.prune.prune = tangled.prune := by
  have hids : tangled.ids.Nodup := by decide
  have hslots : ∀ slot ∈ tangled.indexEntries, slot.2.2 ∈ tangled.ids := by decide
  have hindex : ∀ c w id, tangled.survivorId? c w = some id → id ∈ tangled.ids :=
    fun c w id hs => hslots (c, w, id) (mem_indexEntries.mpr hs)
  obtain ⟨hneeded, hentries, _, _, hagain, _⟩ := prune_exact hids hindex
  have hkept : tangled.prune.ids = [0, 1, 2] := by decide +kernel
  refine ⟨hids, hindex, ?_, ?_, hagain⟩
  · rw [← hneeded]
    exact hkept
  · rw [hentries, hkept]
    decide

end ShaderVariants.ShaderIR
