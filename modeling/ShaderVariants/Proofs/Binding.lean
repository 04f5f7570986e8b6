import ShaderVariants.Proofs.Index

/-! # What a reference binds to

Binding reads the index only through the survivors of one component (`bind?_eq`). So it finds the
same target in any representation that has survivors in fewer slots but still has the target
(`bind?_restrict`): taking definitions away never rebinds a reference whose target stays, and never
binds one that dangled. -/
namespace ShaderVariants.ShaderIR

/-- The survivor in the world itself, or else in the last of the declared worlds that feed it. -/
theorem bind?_eq (ir : ShaderIR) (c w : String) :
    ir.bind? c w = match ir.survivorId? c w with
      | some id => some id
      | none =>
        ((ir.pipeline.order.filter fun u =>
          (ir.survivorId? c u).isSome && ir.pipeline.reaches u w).getLast?).bind
            (ir.survivorId? c) := by
  rw [bind?, survivorId?]
  cases hc : ir.index.find? c with
  | none => simp [survivorId?, hc]
  | some worlds =>
    have hs : ir.survivorId? c = worlds.find? := by
      funext u
      rw [survivorId?, hc]
      rfl
    have hfeeds : (fun u => (worlds.keys.filter (ir.pipeline.reaches · w)).contains u) =
        fun u => (worlds.find? u).isSome && ir.pipeline.reaches u w := by
      funext u
      rw [Bool.eq_iff_iff, List.contains_iff_mem, List.mem_filter, Bool.and_eq_true,
        OrderedMap.find?_isSome_iff]
    cases hw : worlds.find? w with
    | some id => simp only [Option.bind_some, hw]
    | none => simp only [Option.bind_some, hw, hs, Pipeline.latest?, hfeeds]

/-- Where the target of a reference lives: in the same world, or in a declared one that feeds it. -/
theorem bind?_source {ir : ShaderIR} {c w : String} {id : Nat} (h : ir.bind? c w = some id) :
    ∃ u, ir.survivorId? c u = some id ∧
      (u = w ∨ u ∈ ir.pipeline.order ∧ ir.pipeline.reaches u w = true) := by
  rw [bind?_eq] at h
  split at h
  · rename_i id' hs
    exact ⟨w, hs.trans h, Or.inl rfl⟩
  · obtain ⟨u, hu, hid⟩ := Option.bind_eq_some_iff.mp h
    obtain ⟨hu, hp⟩ := List.mem_filter.mp (List.mem_of_getLast? hu)
    exact ⟨u, hid, Or.inr ⟨hu, (Bool.and_eq_true_iff.mp hp).2⟩⟩

/-- Filtering further keeps the last element if that passes. -/
theorem getLast?_filter_of_imp {α : Type} {p q : α → Bool} {l : List α} {a : α}
    (himp : ∀ x, q x = true → p x = true) (hl : (l.filter p).getLast? = some a)
    (ha : q a = true) : (l.filter q).getLast? = some a := by
  have hq : l.filter q = (l.filter p).filter q := by
    rw [List.filter_filter]
    congr 1
    funext x
    cases hx : q x <;> simp [himp, hx]
  obtain ⟨init, hinit⟩ := List.getLast?_eq_some_iff.mp hl
  rw [hq, hinit, List.filter_append]
  simp [ha]

theorem bind?_restrict {ir ir' : ShaderIR} {c w : String} (hp : ir'.pipeline = ir.pipeline)
    (hsub : ∀ u, (ir'.survivorId? c u).isSome = true → (ir.survivorId? c u).isSome = true)
    (hkeep : ∀ u id, ir.bind? c w = some id → ir.survivorId? c u = some id →
      ir'.survivorId? c u = some id) : ir'.bind? c w = ir.bind? c w := by
  have himp : ∀ u, ((ir'.survivorId? c u).isSome && ir.pipeline.reaches u w) = true →
      ((ir.survivorId? c u).isSome && ir.pipeline.reaches u w) = true := by
    intro u hu
    obtain ⟨hs, hr⟩ := Bool.and_eq_true_iff.mp hu
    exact Bool.and_eq_true_iff.mpr ⟨hsub u hs, hr⟩
  cases hw : ir.survivorId? c w with
  | some id =>
    have hbind : ir.bind? c w = some id := by rw [bind?_eq, hw]
    rw [hbind, bind?_eq, hkeep w id hbind hw]
  | none =>
    have hw' : ir'.survivorId? c w = none := by
      refine Option.not_isSome_iff_eq_none.mp fun hs => ?_
      have hsome := hsub w hs
      rw [hw] at hsome
      cases hsome
    rw [bind?_eq ir', hw', hp]
    have hbind := bind?_eq ir c w
    rw [hw] at hbind
    cases hl : (ir.pipeline.order.filter fun u =>
        (ir.survivorId? c u).isSome && ir.pipeline.reaches u w).getLast? with
    | none =>
      -- no survivor feeds the world, so none of the fewer does
      rw [hl] at hbind
      have hnil : (ir.pipeline.order.filter fun u =>
          (ir'.survivorId? c u).isSome && ir.pipeline.reaches u w) = [] := by
        rw [List.filter_eq_nil_iff]
        intro u hu hpass
        exact List.filter_eq_nil_iff.mp (List.getLast?_eq_none_iff.mp hl) u hu (himp u hpass)
      rw [hbind, hnil]
      rfl
    | some u =>
      rw [hl] at hbind
      obtain ⟨_, hpass⟩ := List.mem_filter.mp (List.mem_of_getLast? hl)
      obtain ⟨hs, hr⟩ := Bool.and_eq_true_iff.mp hpass
      obtain ⟨id, hid⟩ := Option.isSome_iff_exists.mp hs
      have hb : ir.bind? c w = some id := hbind.trans hid
      have hid' := hkeep u id hb hid
      have hpass' : ((ir'.survivorId? c u).isSome && ir.pipeline.reaches u w) = true := by
        rw [hid', hr]
        rfl
      show ((ir.pipeline.order.filter fun u =>
        (ir'.survivorId? c u).isSome && ir.pipeline.reaches u w).getLast?).bind _ = _
      rw [getLast?_filter_of_imp himp hl hpass', hb]
      exact hid'

end ShaderVariants.ShaderIR
