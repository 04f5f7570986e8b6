import Mathlib.Data.List.Induction
import ShaderVariants.Proofs.Upstream

/-! # The slot index after any edits

The index lists no component without a slot and no slot without its definition. The first is kept by
every edit because removal sweeps both levels of the index (`swept_remove`). So there is nothing to
sweep where nothing is removed (`remove_none`), and pruning may leave the index alone where all is
live.

What the index says can be read off the edits: the holder of a slot is the definition that was last
installed there, as long as it is stored (`survivorId?_edits`). Ids are never given again, so that a
slot whose holder went stays empty until something is installed. -/
namespace ShaderVariants.ShaderIR

variable {ir : ShaderIR}

/-! ## Components without a slot -/

/-- Every component of the index has a slot there. -/
def Swept (ir : ShaderIR) : Prop := ∀ e ∈ ir.index.entries, e.2.entries ≠ []

theorem Swept.install (h : ir.Swept) (id : Nat) : (ir.install id).Swept := by
  unfold ShaderIR.install
  split
  · exact h
  · rename_i d _
    intro e he
    rcases OrderedMap.mem_entries_insert he with rfl | he
    · -- the slot of `d` is among the worlds of its component
      intro hnil
      have hfind := OrderedMap.find?_insert ((ir.index.find? d.component).getD ∅) d.world id d.world
      rw [if_pos rfl] at hfind
      have hslot := OrderedMap.find?_eq_some_iff.mp hfind
      rw [hnil] at hslot
      cases hslot
    · exact h e he

theorem swept_remove (ir : ShaderIR) (p : Definition → Bool) : (ir.remove p).Swept := by
  intro e he hnil
  have hkept := (List.mem_filter.mp he).2
  simp [OrderedMap.isEmpty, hnil] at hkept

theorem Swept.edit (h : ir.Swept) (e : Edit) : (ir.edit e).Swept := by
  cases e with
  | install id => exact h.install id
  | prune =>
    show ir.prune.Swept
    unfold prune
    split
    · exact swept_remove ir _
    · exact h
  | remove p => exact swept_remove ir p
  | add | change | relink => exact h

theorem swept_edits (shader : String) (pipeline : Pipeline) (edits : List Edit) :
    (edits.foldl edit { shader, pipeline }).Swept :=
  List.foldlRecOn edits edit (fun _ he => nomatch he) fun _ h e _ => h.edit e

/-- Removing nothing changes nothing: every slot has its definition and every component a slot. -/
theorem remove_none (h : ir.WellFormed) (hs : ir.Swept) {p : Definition → Bool}
    (hp : ∀ d ∈ ir.definitions, p d = false) : ir.remove p = ir := by
  have hkept : (ir.definitions.filter fun d => !p d) = ir.definitions :=
    List.filter_eq_self.mpr fun d hd => by rw [hp d hd]; rfl
  have hworlds : ∀ e ∈ ir.index.entries,
      (e.2.filter fun _ id => ir.definitions.any (·.id = id)) = e.2 := by
    intro e he
    refine OrderedMap.ext (List.filter_eq_self.mpr fun slot hslot => ?_)
    obtain ⟨d, hd, hid, _⟩ := h.indexed e.1 slot.1 slot.2
      (survivorId?_eq_some_iff.mpr ⟨e.2, he, hslot⟩)
    exact List.any_eq_true.mpr ⟨d, hd, decide_eq_true hid⟩
  have hindex : ((ir.index.map fun worlds =>
      worlds.filter fun _ id => ir.definitions.any (·.id = id)).filter
        fun _ worlds => !worlds.isEmpty) = ir.index := by
    have hmap : (ir.index.map fun worlds =>
        worlds.filter fun _ id => ir.definitions.any (·.id = id)) = ir.index :=
      OrderedMap.ext (map_eq_self fun e he => Prod.ext rfl (hworlds e he))
    rw [hmap]
    refine OrderedMap.ext (List.filter_eq_self.mpr fun e he => ?_)
    simpa [OrderedMap.isEmpty] using hs e he
  unfold remove
  simp only [hkept, hindex]

/-- Pruning is the removal of what is dead, also where it finds nothing and does not look. -/
theorem prune_eq_remove (h : ir.WellFormed) (hs : ir.Swept) :
    ir.prune = ir.remove fun d => !ir.live.contains d.id := by
  unfold prune
  split
  · rfl
  · rename_i hdead
    refine (remove_none h hs fun d hd => ?_).symm
    rw [List.contains_iff_mem.mpr (mem_live_of_not_hasDead hdead hd)]
    rfl

/-! ## What one edit does to a slot -/

/-- The edit makes the definition of that id the holder of the slot. -/
def Gives (ir : ShaderIR) (e : Edit) (c w : String) (id : Nat) : Prop :=
  e = .install id ∧ ∃ d, ir.definition? id = some d ∧ d.component = c ∧ d.world = w

theorem mem_ids_change (f : Definition → Definition) (target id : Nat) :
    id ∈ (ir.edit (.change target f)).ids ↔ id ∈ ir.ids := by
  have hids : (ir.edit (.change target f)).ids = ir.ids := by
    show (ir.definitions.map _).map Definition.id = ir.definitions.map Definition.id
    rw [List.map_map]
    refine List.map_congr_left fun d _ => ?_
    rw [Function.comp_apply]
    split <;> rfl
  rw [hids]

theorem mem_ids_remove (p : Definition → Bool) (id : Nat) :
    id ∈ (ir.remove p).ids ↔ ∃ d ∈ ir.definitions, p d = false ∧ d.id = id := by
  rw [mem_ids]
  simp [remove, and_assoc]

theorem mem_ids_add (d : Definition) (id : Nat) :
    id ∈ (ir.add d).ids ↔ id ∈ ir.ids ∨ id = ir.nextId := by
  simp [ids, add]

/-- The ids after an edit were there before, apart from the one that was next. -/
theorem mem_ids_of_edit (h : ir.WellFormed) (hs : ir.Swept) {e : Edit} {id : Nat}
    (hid : id ∈ (ir.edit e).ids) : id ∈ ir.ids ∨ id = ir.nextId := by
  have hsub : ∀ p, id ∈ (ir.remove p).ids → id ∈ ir.ids := by
    intro p hid
    obtain ⟨d, hd, _, rfl⟩ := (mem_ids_remove p id).mp hid
    exact mem_ids.mpr ⟨d, hd, rfl⟩
  cases e with
  | add d => exact (mem_ids_add d id).mp hid
  | install target =>
    left
    rwa [edit, ids, definitions_install] at hid
  | change target f => exact Or.inl ((mem_ids_change f target id).mp hid)
  | relink isComponent => exact Or.inl (ids_relink ir isComponent ▸ hid)
  | prune =>
    rw [edit, prune_eq_remove h hs] at hid
    exact Or.inl (hsub _ hid)
  | remove p => exact Or.inl (hsub p hid)

theorem nextId_le_edit (ir : ShaderIR) (e : Edit) : ir.nextId ≤ (ir.edit e).nextId := by
  cases e with
  | add d => exact Nat.le_succ _
  | install id =>
    show ir.nextId ≤ (ir.install id).nextId
    unfold install
    split <;> exact Nat.le_refl _
  | prune =>
    show ir.nextId ≤ ir.prune.nextId
    unfold prune
    split <;> exact Nat.le_refl _
  | change | relink | remove => exact Nat.le_refl _

theorem gives_install_iff {target other : Nat} {d : Definition} {c w : String}
    (hd : ir.definition? target = some d) :
    ir.Gives (.install target) c w other ↔ other = target ∧ d.component = c ∧ d.world = w := by
  constructor
  · rintro ⟨he, d', hfound, hslot⟩
    cases he
    obtain rfl := Option.some.inj (hd.symm.trans hfound)
    exact ⟨rfl, hslot⟩
  · rintro ⟨rfl, hslot⟩
    exact ⟨rfl, d, hd, hslot⟩

/-- Only installing changes who holds a slot; all else keeps the holder if it keeps the
definition. -/
theorem survivorId?_edit_of_ne_install (h : ir.WellFormed) (hs : ir.Swept) {e : Edit}
    (he : ∀ target, e ≠ .install target) (c w : String) (id : Nat) :
    (ir.edit e).survivorId? c w = some id ↔
      id ∈ (ir.edit e).ids ∧ ir.survivorId? c w = some id := by
  have hstored : ir.survivorId? c w = some id → id ∈ ir.ids := h.mem_ids_of_survivorId? c w id
  have hremove : ∀ p, (ir.remove p).survivorId? c w = some id ↔
      id ∈ (ir.remove p).ids ∧ ir.survivorId? c w = some id := by
    intro p
    rw [survivorId?_remove, mem_ids_remove, and_comm]
  cases e with
  | install target => exact absurd rfl (he target)
  | add d =>
    exact (and_iff_right_of_imp fun hid => (mem_ids_add d id).mpr (.inl (hstored hid))).symm
  | change target f =>
    exact (and_iff_right_of_imp fun hid => (mem_ids_change f target id).mpr (hstored hid)).symm
  | relink isComponent =>
    exact (and_iff_right_of_imp fun hid => ids_relink ir isComponent ▸ hstored hid).symm
  | prune =>
    rw [edit, prune_eq_remove h hs]
    exact hremove _
  | remove p => exact hremove p

/-- After an edit a slot is held by what the edit put there, or else by what held it before, if that
is still stored. -/
theorem survivorId?_edit (h : ir.WellFormed) (hs : ir.Swept) (e : Edit) (c w : String) (id : Nat) :
    (ir.edit e).survivorId? c w = some id ↔ id ∈ (ir.edit e).ids ∧
      (ir.Gives e c w id ∨ (∀ other, ¬ ir.Gives e c w other) ∧ ir.survivorId? c w = some id) := by
  have hstored : ir.survivorId? c w = some id → id ∈ ir.ids := h.mem_ids_of_survivorId? c w id
  have hnobody : (∀ other, ¬ ir.Gives e c w other) →
      ((ir.Gives e c w id ∨ (∀ other, ¬ ir.Gives e c w other) ∧ ir.survivorId? c w = some id) ↔
        ir.survivorId? c w = some id) := by
    intro hnone
    rw [or_iff_right (hnone id), and_iff_right hnone]
  by_cases hinstall : ∃ target, e = .install target
  · obtain ⟨target, rfl⟩ := hinstall
    have hids : (ir.edit (.install target)).ids = ir.ids := by
      rw [edit, ids, definitions_install, ids]
    cases hd : ir.definition? target with
    | none =>
      have hsame : ir.edit (.install target) = ir := by rw [edit, install, hd]
      rw [hsame, hnobody, and_iff_right_of_imp hstored]
      rintro other ⟨he, d, hfound, _⟩
      cases he
      rw [hd] at hfound
      cases hfound
    | some d =>
      by_cases hslot : d.component = c ∧ d.world = w
      · have htarget : target ∈ ir.ids := by
          obtain ⟨hdm, hid⟩ := h.definition?_iff.mp hd
          exact mem_ids.mpr ⟨d, hdm, hid⟩
        have hgiven : ir.Gives (.install target) c w target :=
          (gives_install_iff hd).mpr ⟨rfl, hslot⟩
        rw [hids, edit, survivorId?_install hd, if_pos hslot, gives_install_iff hd]
        constructor
        · intro hid
          obtain rfl := Option.some.inj hid
          exact ⟨htarget, Or.inl ⟨rfl, hslot⟩⟩
        · rintro ⟨_, ⟨rfl, _⟩ | ⟨hnone, _⟩⟩
          · rfl
          · exact absurd hgiven (hnone target)
      · rw [hids, edit, survivorId?_install hd, if_neg hslot, hnobody,
          and_iff_right_of_imp hstored]
        exact fun other hgives => hslot ((gives_install_iff hd).mp hgives).2
  · have he : ∀ target, e ≠ .install target := fun target he => hinstall ⟨target, he⟩
    rw [survivorId?_edit_of_ne_install h hs he, hnobody]
    exact fun other hgives => he other hgives.1

/-! ## The holder of a slot after any edits -/

/-- Of the edits that gave the slot to a definition, the last one gave it to this. -/
inductive LastInstalled (start : ShaderIR) (c w : String) : List Edit → Nat → Prop
  | given {edits e id} : (edits.foldl edit start).Gives e c w id →
      LastInstalled start c w (edits ++ [e]) id
  | kept {edits e id} : LastInstalled start c w edits id →
      (∀ other, ¬ (edits.foldl edit start).Gives e c w other) →
      LastInstalled start c w (edits ++ [e]) id

theorem lastInstalled_concat_iff {start : ShaderIR} {c w : String} {edits : List Edit} {e : Edit}
    {id : Nat} : LastInstalled start c w (edits ++ [e]) id ↔
      (edits.foldl edit start).Gives e c w id ∨
        (∀ other, ¬ (edits.foldl edit start).Gives e c w other) ∧
          LastInstalled start c w edits id := by
  constructor
  · intro h
    generalize hl : edits ++ [e] = l at h
    cases h with
    | given hgives =>
      obtain ⟨rfl, he⟩ := List.append_inj' hl rfl
      cases he
      exact Or.inl hgives
    | kept hlast hnone =>
      obtain ⟨rfl, he⟩ := List.append_inj' hl rfl
      cases he
      exact Or.inr ⟨hnone, hlast⟩
  · rintro (hgives | ⟨hnone, hlast⟩)
    · exact .given hgives
    · exact .kept hlast hnone

variable {shader : String} {pipeline : Pipeline}

theorem LastInstalled.lt_nextId {c w : String} {edits : List Edit} {id : Nat}
    (h : LastInstalled { shader, pipeline } c w edits id) :
    id < (edits.foldl edit { shader, pipeline }).nextId := by
  induction h with
  | @given edits e id hgives =>
    rw [List.foldl_concat]
    refine Nat.lt_of_lt_of_le ?_ (nextId_le_edit _ e)
    obtain ⟨_, d, hd, _⟩ := hgives
    have hw := (wellFormed_edits shader pipeline edits).1
    obtain ⟨hmem, hid⟩ := hw.definition?_iff.mp hd
    exact hw.below id (mem_ids.mpr ⟨d, hmem, hid⟩)
  | @kept edits e id _ _ ih =>
    rw [List.foldl_concat]
    exact Nat.lt_of_lt_of_le ih (nextId_le_edit _ e)

theorem survivorId?_edits (edits : List Edit) (c w : String) (id : Nat) :
    (edits.foldl edit { shader, pipeline }).survivorId? c w = some id ↔
      id ∈ (edits.foldl edit { shader, pipeline }).ids ∧
        LastInstalled { shader, pipeline } c w edits id := by
  induction edits using List.reverseRecOn with
  | nil =>
    refine iff_of_false (by simp [survivorId?]) ?_
    rintro ⟨hid, _⟩
    cases hid
  | append_singleton edits e ih =>
    have hw := (wellFormed_edits shader pipeline edits).1
    have hs := swept_edits shader pipeline edits
    rw [List.foldl_concat, survivorId?_edit hw hs, lastInstalled_concat_iff, ih]
    refine and_congr_right fun hid => or_congr_right (and_congr_right fun _ => ?_)
    refine and_iff_right_of_imp fun hlast => ?_
    -- the id was given out before this edit, so the edit cannot have brought it
    refine (mem_ids_of_edit hw hs hid).resolve_right fun hnext => ?_
    exact Nat.lt_irrefl _ (hnext ▸ hlast.lt_nextId)

/-- However a representation was made, its index is in step with its definitions. Every component
that is listed has a slot, and every slot names a stored definition of that component and world by
its id. Ids grow along the definitions and stay below the next one. So a slot has a survivor exactly
if the index lists it, and that is what was last installed there, if it is still stored. Pruning
removes what is dead and no more. -/
theorem index_in_step (shader : String) (pipeline : Pipeline) (edits : List Edit) :
    let ir := edits.foldl edit { shader, pipeline }
    (∀ c worlds, (c, worlds) ∈ ir.index.entries → worlds.entries ≠ [] ∧
      ∀ w id, (w, id) ∈ worlds.entries → ∃ d ∈ ir.definitions,
        ir.definition? id = some d ∧ d.id = id ∧ d.component = c ∧ d.world = w) ∧
    ir.ids.Pairwise (· < ·) ∧ (∀ id ∈ ir.ids, id < ir.nextId) ∧
    (∀ c w, (ir.survivor? c w).isSome = true ↔
      ∃ worlds id, (c, worlds) ∈ ir.index.entries ∧ (w, id) ∈ worlds.entries) ∧
    (∀ c w d, ir.survivor? c w = some d ↔
      d ∈ ir.definitions ∧ LastInstalled { shader, pipeline } c w edits d.id) ∧
    ir.prune = ir.remove fun d => !ir.live.contains d.id := by
  intro ir
  have h : ir.WellFormed := (wellFormed_edits shader pipeline edits).1
  have hs : ir.Swept := swept_edits shader pipeline edits
  refine ⟨fun c worlds hc => ⟨hs _ hc, fun w id hslot => ?_⟩, h.increasing, h.below, fun c w => ?_,
    fun c w d => ?_, prune_eq_remove h hs⟩
  · have hs := survivorId?_eq_some_iff.mpr ⟨worlds, hc, hslot⟩
    obtain ⟨d, hd, hid, hplace⟩ := h.indexed c w id hs
    exact ⟨d, hd, h.definition?_iff.mpr ⟨hd, hid⟩, hid, hplace⟩
  · rw [h.isSome_survivor?, Option.isSome_iff_exists]
    simp only [survivorId?_eq_some_iff]
    exact exists_comm
  · have hholder := @survivorId?_edits shader pipeline edits c w d.id
    constructor
    · intro hd
      obtain ⟨hid, hmem, _⟩ := h.survivor?_eq_some_iff.mp hd
      exact ⟨hmem, (hholder.mp hid).2⟩
    · rintro ⟨hmem, hlast⟩
      rw [survivor?, hholder.mpr ⟨mem_ids.mpr ⟨d, hmem, rfl⟩, hlast⟩]
      exact h.definition?_iff.mpr ⟨hmem, rfl⟩

end ShaderVariants.ShaderIR
