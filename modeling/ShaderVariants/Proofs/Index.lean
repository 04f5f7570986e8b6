import ShaderVariants.IR.Liveness
import ShaderVariants.Proofs.Maps
import ShaderVariants.Variant.Placement

/-! # The slot index stays in step with the definitions

Ids grow along the list of definitions, and every entry of the index names a definition of its own
component and world. Each operation on a representation keeps that, so it holds of whatever
placement builds (`wellFormed_ofComponents`). -/
namespace ShaderVariants.ShaderIR

structure WellFormed (ir : ShaderIR) : Prop where
  increasing : ir.ids.Pairwise (· < ·)
  below : ∀ id ∈ ir.ids, id < ir.nextId
  indexed : ∀ c w id, ir.survivorId? c w = some id →
    ∃ d ∈ ir.definitions, d.id = id ∧ d.component = c ∧ d.world = w

/-- Nothing has been linked yet. -/
def Unlinked (ir : ShaderIR) : Prop := ∀ d ∈ ir.definitions, d.dependencies = ∅

theorem mem_ids {ir : ShaderIR} {id : Nat} : id ∈ ir.ids ↔ ∃ d ∈ ir.definitions, d.id = id :=
  List.mem_map

theorem eq_of_id {ir : ShaderIR} (hids : ir.ids.Nodup) {d e : Definition}
    (hd : d ∈ ir.definitions) (he : e ∈ ir.definitions) (hid : d.id = e.id) : d = e :=
  List.inj_on_of_nodup_map hids hd he hid

theorem definition?_iff {ir : ShaderIR} (hids : ir.ids.Nodup) {id : Nat} {d : Definition} :
    ir.definition? id = some d ↔ d ∈ ir.definitions ∧ d.id = id := by
  constructor
  · intro hd
    exact ⟨List.mem_of_find?_eq_some hd, by simpa using List.find?_some hd⟩
  · intro hparts
    obtain ⟨hd, hid⟩ := hparts
    cases hf : ir.definition? id with
    | none =>
      have := List.find?_eq_none.mp hf d hd
      simp [hid] at this
    | some e =>
      have heid : e.id = id := by simpa using List.find?_some hf
      rw [eq_of_id hids (List.mem_of_find?_eq_some hf) hd (heid.trans hid.symm)]

theorem isSurvivor_iff {ir : ShaderIR} {d : Definition} :
    ir.isSurvivor d = true ↔ ir.survivorId? d.component d.world = some d.id := by
  simp [isSurvivor]

theorem survivorId?_eq_some_iff {ir : ShaderIR} {c w : String} {id : Nat} :
    ir.survivorId? c w = some id ↔
      ∃ worlds, (c, worlds) ∈ ir.index.entries ∧ (w, id) ∈ worlds.entries := by
  rw [survivorId?, Option.bind_eq_some_iff]
  simp only [OrderedMap.find?_eq_some_iff]

namespace WellFormed
variable {ir : ShaderIR}

theorem nodup_ids (h : ir.WellFormed) : ir.ids.Nodup := h.increasing.imp Nat.ne_of_lt

theorem eq_of_id (h : ir.WellFormed) {d e : Definition} (hd : d ∈ ir.definitions)
    (he : e ∈ ir.definitions) (hid : d.id = e.id) : d = e :=
  ShaderIR.eq_of_id h.nodup_ids hd he hid

theorem definition?_iff (h : ir.WellFormed) {id : Nat} {d : Definition} :
    ir.definition? id = some d ↔ d ∈ ir.definitions ∧ d.id = id :=
  ShaderIR.definition?_iff h.nodup_ids

theorem mem_ids_of_survivorId? (h : ir.WellFormed) (c w : String) (id : Nat)
    (hs : ir.survivorId? c w = some id) : id ∈ ir.ids := by
  obtain ⟨d, hd, hid, _⟩ := h.indexed c w id hs
  exact mem_ids.mpr ⟨d, hd, hid⟩

/-- An entry of the index names a survivor of that slot. -/
theorem survivor (h : ir.WellFormed) {c w : String} {id : Nat} (hs : ir.survivorId? c w = some id) :
    ∃ d ∈ ir.definitions, d.id = id ∧ d.component = c ∧ d.world = w ∧ ir.isSurvivor d = true := by
  obtain ⟨d, hd, hid, hc, hw⟩ := h.indexed c w id hs
  refine ⟨d, hd, hid, hc, hw, isSurvivor_iff.mpr ?_⟩
  rw [hc, hw, hid]
  exact hs

end WellFormed

/-! ## The operations -/

theorem wellFormed_empty (shader : String) (pipeline : Pipeline) :
    ({ shader, pipeline } : ShaderIR).WellFormed where
  increasing := List.Pairwise.nil
  below := by simp [ids]
  indexed := by
    intro c w id h
    simp [survivorId?] at h

theorem WellFormed.add {ir : ShaderIR} (h : ir.WellFormed) (d : Definition) :
    (ir.add d).WellFormed := by
  have hids : (ir.add d).ids = ir.ids ++ [ir.nextId] := by simp [ids, ShaderIR.add]
  refine ⟨?_, ?_, ?_⟩
  · rw [hids, List.pairwise_append]
    refine ⟨h.increasing, List.pairwise_singleton _ _, ?_⟩
    intro a ha b hb
    rw [List.mem_singleton] at hb
    exact hb ▸ h.below a ha
  · intro id hid
    rw [hids, List.mem_append, List.mem_singleton] at hid
    show id < ir.nextId + 1
    rcases hid with hid | rfl
    · exact Nat.lt_succ_of_lt (h.below id hid)
    · exact Nat.lt_succ_self _
  · intro c w id hs
    obtain ⟨e, he, hrest⟩ := h.indexed c w id hs
    exact ⟨e, List.mem_append_left _ he, hrest⟩

theorem definitions_install (ir : ShaderIR) (id : Nat) :
    (ir.install id).definitions = ir.definitions := by
  unfold install
  split <;> rfl

theorem survivorId?_install {ir : ShaderIR} {id : Nat} {d : Definition}
    (hd : ir.definition? id = some d) (c w : String) :
    (ir.install id).survivorId? c w =
      if d.component = c ∧ d.world = w then some id else ir.survivorId? c w := by
  rw [install, hd]
  simp only [survivorId?, OrderedMap.find?_update]
  by_cases hc : d.component = c
  · subst hc
    simp only [if_true, true_and, Option.bind_some, OrderedMap.find?_insert]
    split
    · rfl
    · cases ir.index.find? d.component <;> rfl
  · simp [hc]

theorem WellFormed.install {ir : ShaderIR} (h : ir.WellFormed) (id : Nat) :
    (ir.install id).WellFormed := by
  cases hd : ir.definition? id with
  | none =>
    rw [ShaderIR.install, hd]
    exact h
  | some d =>
    have hdefs := definitions_install ir id
    have hnext : (ir.install id).nextId = ir.nextId := by rw [ShaderIR.install, hd]
    refine ⟨?_, ?_, ?_⟩
    · rw [ids, hdefs]; exact h.increasing
    · rw [ids, hdefs, hnext]; exact h.below
    · intro c w id' hs
      rw [survivorId?_install hd] at hs
      rw [hdefs]
      split at hs
      · rename_i hslot
        obtain ⟨hmem, hid⟩ := h.definition?_iff.mp hd
        exact ⟨d, hmem, hid.trans (Option.some.inj hs), hslot⟩
      · exact h.indexed c w id' hs

/-- Changing definitions keeps the index in step if ids, components and worlds stay. -/
theorem WellFormed.mapDefinitions {ir : ShaderIR} (h : ir.WellFormed) {f : Definition → Definition}
    (hid : ∀ d, (f d).id = d.id) (hc : ∀ d, (f d).component = d.component)
    (hw : ∀ d, (f d).world = d.world) :
    ({ ir with definitions := ir.definitions.map f } : ShaderIR).WellFormed := by
  have hids : ({ ir with definitions := ir.definitions.map f } : ShaderIR).ids = ir.ids := by
    simp only [ids, List.map_map]
    exact List.map_congr_left fun d _ => hid d
  refine ⟨hids ▸ h.increasing, hids ▸ h.below, ?_⟩
  intro c w id hs
  obtain ⟨d, hd, rfl, rfl, rfl⟩ := h.indexed c w id hs
  exact ⟨f d, List.mem_map_of_mem hd, hid d, hc d, hw d⟩

theorem WellFormed.award {ir : ShaderIR} (h : ir.WellFormed) (slot : Slot) :
    (ir.award slot).WellFormed := by
  unfold ShaderIR.award
  split
  · refine (h.install slot.holder).mapDefinitions ?_ ?_ ?_ <;> intro d <;> split <;> rfl
  · exact h.install slot.holder

theorem WellFormed.relink {ir : ShaderIR} (h : ir.WellFormed) (isComponent : String → Bool) :
    (ir.relink isComponent).WellFormed := by
  refine h.mapDefinitions ?_ ?_ ?_ <;> intro d <;> split <;> rfl

/-- Removal takes out of the index exactly what it takes out of the definitions. -/
theorem survivorId?_remove (ir : ShaderIR) (p : Definition → Bool) (c w : String) (id : Nat) :
    (ir.remove p).survivorId? c w = some id ↔
      ir.survivorId? c w = some id ∧ ∃ d ∈ ir.definitions, p d = false ∧ d.id = id := by
  have hkept : ((ir.definitions.filter fun d => !p d).any (·.id = id)) = true ↔
      ∃ d ∈ ir.definitions, p d = false ∧ d.id = id := by
    simp [List.any_eq_true]
  rw [← hkept, survivorId?, survivorId?, remove, OrderedMap.find?_filter,
    OrderedMap.bind_find?_filter_isEmpty, OrderedMap.find?_map]
  cases ir.index.find? c with
  | none => simp
  | some worlds =>
    show (worlds.filter _).find? w = some id ↔ _
    rw [OrderedMap.find?_filter, Option.filter_eq_some_iff]
    rfl

theorem WellFormed.remove {ir : ShaderIR} (h : ir.WellFormed) (p : Definition → Bool) :
    (ir.remove p).WellFormed := by
  have hsub : (ir.remove p).ids.Sublist ir.ids := List.filter_sublist.map _
  refine ⟨h.increasing.sublist hsub, fun id hid => h.below id (hsub.subset hid), ?_⟩
  intro c w id hs
  obtain ⟨hs, d, hd, hp, hid⟩ := (survivorId?_remove ir p c w id).mp hs
  obtain ⟨e, he, heid, hc, hw⟩ := h.indexed c w id hs
  obtain rfl := h.eq_of_id hd he (hid.trans heid.symm)
  exact ⟨d, List.mem_filter.mpr ⟨hd, by simp [hp]⟩, hid, hc, hw⟩

/-! ## Placement -/

/-- What adding a definition and awarding a slot keep holds of whatever placement builds. -/
theorem ofComponents_induction {P : ShaderIR → Prop} {shader : String} {pipeline : Pipeline}
    (components : Components) (asked : List (String × Nat)) (hstart : P { shader, pipeline })
    (hadd : ∀ ir d, P ir → d.dependencies = ∅ → P (ir.add d))
    (haward : ∀ ir slot, P ir → P (ir.award slot)) :
    P (ofComponents shader pipeline components asked) := by
  have hplace : ∀ ir c, P ir → P (ir.place asked c) := by
    intro ir c hir
    refine List.foldlRecOn _ _ ?_ fun ir hir slot _ => haward ir slot hir
    refine List.foldlRecOn _ _ hir fun ir hir d hd => hadd ir d.1 hir ?_
    obtain ⟨i, _, hd⟩ := List.mem_flatMap.mp hd
    obtain ⟨world, _, rfl⟩ := List.mem_map.mp hd
    rfl
  exact List.foldlRecOn _ _ hstart fun ir hir c _ => hplace ir c hir

theorem wellFormed_ofComponents (shader : String) (pipeline : Pipeline) (components : Components)
    (asked : List (String × Nat)) : (ofComponents shader pipeline components asked).WellFormed :=
  ofComponents_induction components asked (wellFormed_empty shader pipeline)
    (fun _ d h _ => h.add d) (fun _ slot h => h.award slot)

theorem unlinked_ofComponents (shader : String) (pipeline : Pipeline) (components : Components)
    (asked : List (String × Nat)) : (ofComponents shader pipeline components asked).Unlinked := by
  refine ofComponents_induction components asked (by simp [Unlinked]) ?_ ?_
  · intro ir d hir hd e he
    rcases List.mem_append.mp he with he | he
    · exact hir e he
    · rw [List.mem_singleton] at he
      rw [he]
      exact hd
  · intro ir slot hir e he
    have hinstall := definitions_install ir slot.holder
    unfold award at he
    split at he
    · obtain ⟨d, hd, rfl⟩ := List.mem_map.mp he
      rw [hinstall] at hd
      split <;> exact hir d hd
    · exact hir e (hinstall ▸ he)

end ShaderVariants.ShaderIR
