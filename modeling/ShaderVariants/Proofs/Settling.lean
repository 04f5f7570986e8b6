import ShaderVariants.Proofs.Liveness

/-! # The fixed point of relinking and pruning

What the first round leaves is linked and live as it stands, so the loop stops there. What is left
to decide is read off the bindings of the placed representation: a cycle among the live definitions
(`Pruned.cycle?_eq_none_iff`), or references of live bodies that bind to nothing
(`Pruned.dangling_eq`). -/
namespace ShaderVariants.ShaderIR
open Relation ShaderVariants.Graph

variable {ir pruned : ShaderIR} {isComponent : String → Bool}

theorem Live.path {d e : Definition} (hd : ir.Live isComponent d)
    (hp : TransGen (ir.Binds isComponent) d e) : ir.Live isComponent e := by
  induction hp with
  | single hb => exact hd.bound hb
  | tail _ hb ih => exact ih.bound hb

namespace Pruned

theorem mem_iff (hp : ir.Pruned isComponent pruned) {d' : Definition} :
    d' ∈ pruned.definitions ↔ ∃ d, ir.Live isComponent d ∧ ir.linked isComponent d = d' := by
  rw [hp.definitions, List.mem_map]
  simp only [mem_liveDefinitions]

theorem mem_ids (hp : ir.Pruned isComponent pruned) {id : Nat} :
    id ∈ pruned.ids ↔ ∃ d, ir.Live isComponent d ∧ d.id = id := by
  rw [ShaderIR.mem_ids]
  constructor
  · intro hparts
    obtain ⟨d', hd', rfl⟩ := hparts
    obtain ⟨d, hd, rfl⟩ := hp.mem_iff.mp hd'
    exact ⟨d, hd, rfl⟩
  · intro hparts
    obtain ⟨d, hd, rfl⟩ := hparts
    exact ⟨ir.linked isComponent d, hp.mem_iff.mpr ⟨d, hd, rfl⟩, rfl⟩

theorem isSurvivor_linked (hp : ir.Pruned isComponent pruned) (h : ir.WellFormed) {d : Definition}
    (hd : ir.Live isComponent d) : pruned.isSurvivor (ir.linked isComponent d) = true := by
  have hs := isSurvivor_iff.mp (h.live_survivor hd)
  rw [isSurvivor_iff, hp.survivors]
  exact ⟨hs, d, hd, rfl⟩

theorem isSurvivor_of_mem (hp : ir.Pruned isComponent pruned) (h : ir.WellFormed) {d' : Definition}
    (hd' : d' ∈ pruned.definitions) : pruned.isSurvivor d' = true := by
  obtain ⟨d, hd, rfl⟩ := hp.mem_iff.mp hd'
  exact hp.isSurvivor_linked h hd

/-- Pruning changes no binding of a live body: a target is live, and so it stays. -/
theorem bind?_eq (hp : ir.Pruned isComponent pruned) (h : ir.WellFormed) {d : Definition}
    (hd : ir.Live isComponent d) {n : String × Span} (hn : n ∈ d.references isComponent) :
    pruned.bind? n.1 d.world = ir.bind? n.1 d.world := by
  have hsub : ∀ u, (pruned.survivorId? n.1 u).isSome = true →
      (ir.survivorId? n.1 u).isSome = true := by
    intro u hs
    obtain ⟨id, hid⟩ := Option.isSome_iff_exists.mp hs
    exact Option.isSome_iff_exists.mpr ⟨id, ((hp.survivors _ u id).mp hid).1⟩
  refine bind?_restrict hp.pipeline hsub ?_
  intro u id hb hs
  obtain ⟨e, he, hid, _⟩ := h.bind?_survivor hb
  have hbinds : ir.Binds isComponent d e := ⟨he, n, hn, hid ▸ hb⟩
  exact (hp.survivors _ u id).mpr ⟨hs, e, hd.bound hbinds, hid⟩

theorem targets_eq (hp : ir.Pruned isComponent pruned) (h : ir.WellFormed) {d : Definition}
    (hd : ir.Live isComponent d) :
    pruned.targets isComponent (ir.linked isComponent d) = ir.targets isComponent d := by
  rw [targets, targets]
  congr 1
  exact List.filterMap_congr fun n hn => hp.bind?_eq h hd hn

theorem not_isStale (hp : ir.Pruned isComponent pruned) (h : ir.WellFormed) {d' : Definition}
    (hd' : d' ∈ pruned.definitions) : pruned.isStale isComponent d' = false := by
  obtain ⟨d, hd, rfl⟩ := hp.mem_iff.mp hd'
  have hag : (pruned.targets isComponent (ir.linked isComponent d)).agrees
      (ir.linked isComponent d).dependencies = true := by
    rw [hp.targets_eq h hd]
    exact OrderedSet.agrees_refl _
  rw [isStale, hag]
  simp

theorem stale_eq (hp : ir.Pruned isComponent pruned) (h : ir.WellFormed) :
    pruned.stale isComponent = false :=
  List.any_eq_false.mpr fun d' hd' => by simp [hp.not_isStale h hd']

theorem relink_eq (hp : ir.Pruned isComponent pruned) (h : ir.WellFormed) :
    pruned.relink isComponent = pruned := by
  have hmap : (pruned.definitions.map fun d => if pruned.isStale isComponent d then
      { d with dependencies := pruned.targets isComponent d } else d) = pruned.definitions := by
    refine map_eq_self fun d' hd' => ?_
    rw [hp.not_isStale h hd']
    rfl
  rw [relink, hmap]

theorem definition?_linked (hp : ir.Pruned isComponent pruned) {d : Definition}
    (hd : ir.Live isComponent d) : pruned.definition? d.id = some (ir.linked isComponent d) :=
  hp.wellFormed.definition?_iff.mpr ⟨hp.mem_iff.mpr ⟨d, hd, rfl⟩, rfl⟩

/-- The dependencies that are left are the bindings of live bodies. -/
theorem edge_iff (hp : ir.Pruned isComponent pruned) {a b : Nat} :
    Edge pruned.reads pruned.ids a b ↔
      ∃ d e, ir.Live isComponent d ∧ ir.Binds isComponent d e ∧ d.id = a ∧ e.id = b := by
  constructor
  · intro hparts
    obtain ⟨hread, hid⟩ := hparts
    obtain ⟨e, he, rfl⟩ := hp.mem_ids.mp hid
    rw [reads] at hread
    cases hd' : pruned.definition? a with
    | none => simp [hd'] at hread
    | some d' =>
      obtain ⟨hmem, hid⟩ := hp.wellFormed.definition?_iff.mp hd'
      obtain ⟨d, hd, rfl⟩ := hp.mem_iff.mp hmem
      rw [hd'] at hread
      exact ⟨d, e, hd, ⟨he.mem, mem_targets.mp hread⟩, hid, rfl⟩
  · intro hparts
    obtain ⟨d, e, hd, hb, rfl, rfl⟩ := hparts
    refine ⟨?_, hp.mem_ids.mpr ⟨e, hd.bound hb, rfl⟩⟩
    rw [reads, hp.definition?_linked hd]
    exact mem_targets.mpr hb.2

theorem mem_live (hp : ir.Pruned isComponent pruned) (h : ir.WellFormed) {d : Definition}
    (hd : ir.Live isComponent d) : d.id ∈ pruned.live := by
  rw [live, mem_postorder]
  induction hd with
  | @entry d hd he hs =>
    have hlive : ir.Live isComponent d := .entry hd he hs
    refine ⟨d.id, List.mem_map.mpr ⟨ir.linked isComponent d, ?_, rfl⟩,
      hp.mem_ids.mpr ⟨d, hlive, rfl⟩, .refl⟩
    refine List.mem_filter.mpr ⟨hp.mem_iff.mpr ⟨d, hlive, rfl⟩, ?_⟩
    exact Bool.and_eq_true_iff.mpr ⟨he, hp.isSurvivor_linked h hlive⟩
  | @bound d e hd hb ih =>
    obtain ⟨r, hr, hrn, hpath⟩ := ih
    exact ⟨r, hr, hrn, hpath.tail (hp.edge_iff.mpr ⟨d, e, hd, hb, rfl, rfl⟩)⟩

theorem hasDead_eq (hp : ir.Pruned isComponent pruned) (h : ir.WellFormed) :
    pruned.hasDead = false := by
  refine List.any_eq_false.mpr fun d' hd' => ?_
  obtain ⟨d, hd, rfl⟩ := hp.mem_iff.mp hd'
  have hlive : d.id ∈ pruned.live := hp.mem_live h hd
  show ¬ (!pruned.live.contains d.id) = true
  simp [hlive]

theorem prune_eq (hp : ir.Pruned isComponent pruned) (h : ir.WellFormed) :
    pruned.prune = pruned :=
  prune_eq_self (hp.hasDead_eq h)

/-! ## Cycles -/

theorem path_iff (hp : ir.Pruned isComponent pruned) (h : ir.WellFormed) {a b : Nat} :
    TransGen (Edge pruned.reads pruned.ids) a b ↔
      ∃ d e, ir.Live isComponent d ∧ TransGen (ir.Binds isComponent) d e ∧
        d.id = a ∧ e.id = b := by
  constructor
  · intro hpath
    induction hpath with
    | single hedge =>
      obtain ⟨d, e, hd, hb, hids⟩ := hp.edge_iff.mp hedge
      exact ⟨d, e, hd, .single hb, hids⟩
    | tail _ hedge ih =>
      obtain ⟨d, e, hd, hde, ha, hb⟩ := ih
      obtain ⟨e', f, he', hef, hid, hc⟩ := hp.edge_iff.mp hedge
      obtain rfl := h.eq_of_id (hd.path hde).mem he'.mem (hb.trans hid.symm)
      exact ⟨d, f, hd, hde.tail hef, ha, hc⟩
  · intro hparts
    obtain ⟨d, e, hd, hde, rfl, rfl⟩ := hparts
    induction hde with
    | @single e hb => exact .single (hp.edge_iff.mpr ⟨d, e, hd, hb, rfl, rfl⟩)
    | @tail e f hde hb ih =>
      exact ih.tail (hp.edge_iff.mpr ⟨e, f, hd.path hde, hb, rfl, rfl⟩)

/-- The definition that ends the loop lies on a cycle of live definitions. -/
theorem cycle?_some (hp : ir.Pruned isComponent pruned) (h : ir.WellFormed) {d' : Definition}
    (hc : pruned.cycle? = some d') :
    ∃ d, ir.Live isComponent d ∧ TransGen (ir.Binds isComponent) d d ∧
      d' = ir.linked isComponent d := by
  obtain ⟨id, hid, hd'⟩ := Option.bind_eq_some_iff.mp hc
  obtain ⟨d, e, hd, hpath, hde, he⟩ := (hp.path_iff h).mp (backEdge?_cycle hid).2
  obtain rfl := h.eq_of_id hd.mem (hd.path hpath).mem (hde.trans he.symm)
  rw [← hde, hp.definition?_linked hd] at hd'
  exact ⟨d, hd, hpath, (Option.some.inj hd').symm⟩

theorem cycle?_eq_none_iff (hp : ir.Pruned isComponent pruned) (h : ir.WellFormed) :
    pruned.cycle? = none ↔
      ∀ d, ir.Live isComponent d → ¬ TransGen (ir.Binds isComponent) d d := by
  constructor
  · intro hc d hd hpath
    have hcycle := (hp.path_iff h).mpr ⟨d, d, hd, hpath, rfl, rfl⟩
    cases hb : backEdge? pruned.reads pruned.ids with
    | none => exact backEdge?_eq_none_iff.mp hb d.id hcycle
    | some id =>
      obtain ⟨e, he, hid⟩ := hp.mem_ids.mp (backEdge?_cycle hb).1
      rw [cycle?, hb, ← hid, Option.bind_some, hp.definition?_linked he] at hc
      cases hc
  · intro hacyclic
    cases hc : pruned.cycle? with
    | none => rfl
    | some d' =>
      obtain ⟨d, hd, hpath, _⟩ := hp.cycle?_some h hc
      exact absurd hpath (hacyclic d hd)

/-! ## Dangling references -/

/-- What dangles at the end is what live bodies could not bind at the start. -/
theorem dangling_eq (hp : ir.Pruned isComponent pruned) (h : ir.WellFormed) :
    pruned.dangling isComponent = (ir.liveDefinitions isComponent).flatMap fun d =>
      ((d.references isComponent).filter fun n => (ir.bind? n.1 d.world).isNone).map fun n =>
        ⟨ir.linked isComponent d, n.1, n.2⟩ := by
  have hall : pruned.definitions.filter pruned.isSurvivor = pruned.definitions :=
    List.filter_eq_self.mpr fun d' hd' => hp.isSurvivor_of_mem h hd'
  rw [dangling, hall, hp.definitions, List.flatMap_map]
  refine List.flatMap_congr fun d hd => ?_
  congr 1
  refine List.filter_congr fun n hn => ?_
  show (pruned.bind? n.1 d.world).isNone = _
  rw [hp.bind?_eq h (mem_liveDefinitions.mp hd) hn]

end Pruned

/-- The loop ends with the first round, in a cycle or in the live part of the representation. -/
theorem settle_eq (h : ir.WellFormed) (hu : ir.Unlinked) (isComponent : String → Bool) :
    ir.settle isComponent = match (ir.relink isComponent).prune.cycle? with
      | some d => .error d
      | none => .ok (ir.relink isComponent).prune := by
  have hp := pruned_relink h hu isComponent
  rw [settle]
  cases hc : (ir.relink isComponent).prune.cycle? with
  | some d => rfl
  | none =>
    show (if _ then _ else _) = _
    split
    · rw [settle]
      simp only [hp.relink_eq h, hp.prune_eq h, hc, hp.stale_eq h, hp.hasDead_eq h]
      simp
    · rfl

end ShaderVariants.ShaderIR
