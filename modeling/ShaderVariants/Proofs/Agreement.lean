import ShaderVariants.Proofs.Attributed

/-! # Placements with the same variant

Which definitions a variant has depends on the placed representation only through what is live in
it. Take a representation with survivors and entries in the same slots. If the live definitions of
the first are survivors of the second too, then the second has the same live definitions with the
same bindings (`Agrees.live_iff`, `Agrees.bind?_eq`), whatever stands in its other slots. So one
resolves if the other does, to the same definitions (`Closure.variant_of_agrees`). -/
namespace ShaderVariants

namespace ShaderIR
open Relation

/-- The second representation has its survivors and its entries in the slots of the first, and the
live definitions of the first are among its survivors. -/
structure Agrees (isComponent : String → Bool) (ir ir' : ShaderIR) : Prop where
  pipeline : ir'.pipeline = ir.pipeline
  slots : ∀ c w, (ir'.survivorId? c w).isSome = true → (ir.survivorId? c w).isSome = true
  entries : ∀ d ∈ ir'.definitions, ir'.isSurvivor d = true → d.isEntry = true →
    ∃ e ∈ ir.definitions, ir.isSurvivor e = true ∧ e.isEntry = true ∧
      e.component = d.component ∧ e.world = d.world
  live : ∀ d, ir.Live isComponent d → d ∈ ir'.definitions ∧ ir'.isSurvivor d = true

namespace Agrees
variable {isComponent : String → Bool} {ir ir' : ShaderIR}

theorem bind?_eq (ha : Agrees isComponent ir ir') (h : ir.WellFormed) {d : Definition}
    (hd : ir.Live isComponent d) {n : String × Span} (hn : n ∈ d.references isComponent) :
    ir'.bind? n.1 d.world = ir.bind? n.1 d.world := by
  refine bind?_restrict ha.pipeline (ha.slots n.1) fun u id hb hs => ?_
  -- the target is live, so it survives in both
  obtain ⟨e, he, rfl, hc, hw⟩ := h.indexed _ _ _ hs
  have hlive : ir.Live isComponent e := hd.bound ⟨he, n, hn, hb⟩
  have hsurvivor := isSurvivor_iff.mp (ha.live e hlive).2
  rwa [hc, hw] at hsurvivor

theorem binds_iff (ha : Agrees isComponent ir ir') (h : ir.WellFormed) (h' : ir'.WellFormed)
    {d e : Definition} (hd : ir.Live isComponent d) :
    ir'.Binds isComponent d e ↔ ir.Binds isComponent d e := by
  constructor
  · intro hparts
    obtain ⟨he, n, hn, hb⟩ := hparts
    rw [ha.bind?_eq h hd hn] at hb
    obtain ⟨e', he', hid, _⟩ := h.bind?_survivor hb
    have hbinds : ir.Binds isComponent d e' := ⟨he', n, hn, hid ▸ hb⟩
    obtain rfl := h'.eq_of_id (ha.live e' (hd.bound hbinds)).1 he hid
    exact hbinds
  · intro hbinds
    have hmem := (ha.live e (hd.bound hbinds)).1
    obtain ⟨_, n, hn, hb⟩ := hbinds
    rw [← ha.bind?_eq h hd hn] at hb
    exact ⟨hmem, n, hn, hb⟩

theorem live_iff (ha : Agrees isComponent ir ir') (h : ir.WellFormed) (h' : ir'.WellFormed)
    {d : Definition} : ir'.Live isComponent d ↔ ir.Live isComponent d := by
  constructor
  · intro hlive
    induction hlive with
    | @entry d hd he hs =>
      obtain ⟨e, hmem, hsurvivor, hentry, hc, hw⟩ := ha.entries d hd hs he
      have hlive : ir.Live isComponent e := .entry hmem hentry hsurvivor
      obtain ⟨hmem', hsurvivor'⟩ := ha.live e hlive
      -- a slot has one survivor
      have hid := isSurvivor_iff.mp hsurvivor'
      rw [hc, hw, isSurvivor_iff.mp hs] at hid
      obtain rfl := h'.eq_of_id hd hmem' (Option.some.inj hid)
      exact hlive
    | bound _ hb ih => exact ih.bound ((ha.binds_iff h h' ih).mp hb)
  · intro hlive
    induction hlive with
    | @entry d hd he hs =>
      obtain ⟨hmem, hsurvivor⟩ := ha.live d (.entry hd he hs)
      exact .entry hmem he hsurvivor
    | bound hd hb ih => exact ih.bound ((ha.binds_iff h h' hd).mpr hb)

theorem linked_eq (ha : Agrees isComponent ir ir') (h : ir.WellFormed) {d : Definition}
    (hd : ir.Live isComponent d) : ir'.linked isComponent d = ir.linked isComponent d := by
  have htargets : ir'.targets isComponent d = ir.targets isComponent d := by
    rw [targets, targets]
    congr 1
    exact List.filterMap_congr fun n hn => ha.bind?_eq h hd hn
  rw [linked, linked, htargets]

/-- Ids grow along the list, so the same live definitions stand in the same order. -/
theorem liveDefinitions_eq (ha : Agrees isComponent ir ir') (h : ir.WellFormed)
    (h' : ir'.WellFormed) : ir'.liveDefinitions isComponent = ir.liveDefinitions isComponent := by
  have hsorted : ∀ {r : ShaderIR}, r.WellFormed →
      (r.liveDefinitions isComponent).Pairwise fun d e => d.id < e.id := by
    intro r hr
    exact (List.pairwise_map.mp hr.increasing).sublist List.filter_sublist
  have hnodup : ∀ {r : ShaderIR}, r.WellFormed → (r.liveDefinitions isComponent).Nodup := by
    intro r hr
    refine (hsorted hr).imp fun {d e} hlt he => ?_
    exact Nat.lt_irrefl e.id (he ▸ hlt)
  have hperm : (ir'.liveDefinitions isComponent).Perm (ir.liveDefinitions isComponent) := by
    refine (List.perm_ext_iff_of_nodup (hnodup h') (hnodup h)).mpr fun d => ?_
    rw [mem_liveDefinitions, mem_liveDefinitions, ha.live_iff h h']
  exact hperm.eq_of_pairwise (fun d e _ _ hde hed => absurd hde (Nat.lt_asymm hed)) (hsorted h')
    (hsorted h)

theorem circular (ha : Agrees isComponent ir ir') (h : ir.WellFormed) (h' : ir'.WellFormed)
    (hc : ir'.Circular isComponent) : ir.Circular isComponent := by
  obtain ⟨d, hd, hpath⟩ := hc
  have hd := (ha.live_iff h h').mp hd
  have htransfer : ∀ {e}, TransGen (ir'.Binds isComponent) d e →
      TransGen (ir.Binds isComponent) d e := by
    intro e hpath
    induction hpath with
    | single hb => exact .single ((ha.binds_iff h h' hd).mp hb)
    | tail _ hb ih => exact ih.tail ((ha.binds_iff h h' (hd.path ih)).mp hb)
  exact ⟨d, hd, htransfer hpath⟩

theorem bound (ha : Agrees isComponent ir ir') (h : ir.WellFormed) (h' : ir'.WellFormed)
    (hb : ir.Bound isComponent) : ir'.Bound isComponent := by
  intro d hd n hn
  have hd := (ha.live_iff h h').mp hd
  rw [ha.bind?_eq h hd hn]
  exact hb d hd n hn

end Agrees

end ShaderIR

namespace Closure
variable {closure : Closure} {attributes : OrderedMap String Attributes}
  {choices choices' : OrderedMap String (List Selection)}

/-- Choices decide who holds a slot. They change neither which slots are held nor which of them are
entries, so that all there is to check is that the live definitions keep their slots. -/
theorem agrees_of_live
    (hlive : ∀ d, (closure.placed ⟨choices, attributes⟩).Live closure.components.contains d →
      d ∈ (closure.placed ⟨choices', attributes⟩).definitions ∧
        (closure.placed ⟨choices', attributes⟩).isSurvivor d = true) :
    ShaderIR.Agrees closure.components.contains (closure.placed ⟨choices, attributes⟩)
      (closure.placed ⟨choices', attributes⟩) := by
  have hpipeline := closure.pipeline_placed
  have hslots : ∀ n w, ((closure.placed ⟨choices', attributes⟩).survivorId? n w).isSome = true →
      ((closure.placed ⟨choices, attributes⟩).survivorId? n w).isSome = true := by
    intro n w hs
    obtain ⟨id, hid⟩ := Option.isSome_iff_exists.mp hs
    obtain ⟨c, hc, hname⟩ := declared_of_survivor hid
    obtain ⟨first, hplaced⟩ := placedAt hc attributes
    have hname : (c.attach (closure.added attributes c.name)).name = n := hname
    rw [← hname, (hplaced choices').survivorId?_eq, Option.isSome_map] at hs
    rw [← hname, (hplaced choices).survivorId?_eq, Option.isSome_map]
    rwa [Component.isSome_winner?]
  refine ⟨(hpipeline _).trans (hpipeline _).symm, hslots, fun d hd hs hentry => ?_, hlive⟩
  have hw := closure.wellFormed_placed ⟨choices, attributes⟩
  have hw' := closure.wellFormed_placed ⟨choices', attributes⟩
  have hid := ShaderIR.isSurvivor_iff.mp hs
  obtain ⟨c, hc, hname⟩ := declared_of_survivor hid
  obtain ⟨first, hplaced⟩ := placedAt hc attributes
  obtain ⟨id, hid⟩ := Option.isSome_iff_exists.mp
    (hslots _ _ (Option.isSome_iff_exists.mpr ⟨d.id, hid⟩))
  obtain ⟨e, he, _, hcomponent, hworld, hsurvivor⟩ := hw.survivor hid
  -- the flag of a survivor is a matter of its slot
  obtain ⟨_, _, hdef⟩ := (hplaced choices').eq_winner hw' hd hs hname.symm
  obtain ⟨_, _, hdef'⟩ := (hplaced choices).eq_winner hw he hsurvivor
    (hcomponent.trans hname.symm)
  have hout := congrArg Definition.isEntry hdef
  have hout' := congrArg Definition.isEntry hdef'
  rw [hpipeline] at hout hout'
  rw [hworld] at hout'
  exact ⟨e, he, hsurvivor, hout'.trans (hout.symm.trans hentry), hcomponent, hworld⟩

end Closure

/-- A schedule whose placement agrees with that of a variant has a variant with the same
definitions. -/
theorem Closure.variant_of_agrees {closure : Closure} {schedule schedule' : Schedule}
    {ir : ShaderIR} (hir : (closure.variant schedule).ir = some ir)
    (ha : ShaderIR.Agrees closure.components.contains (closure.placed schedule)
      (closure.placed schedule')) :
    ∃ ir', (closure.variant schedule').ir = some ir' ∧ ir'.definitions = ir.definitions := by
  have h := closure.wellFormed_placed schedule
  have h' := closure.wellFormed_placed schedule'
  have hu' := closure.unlinked_placed schedule'
  obtain ⟨hp, hcircular, hbound⟩ := pruned_of_variant hir
  have hresolve := ShaderIR.resolve_of_not_circular h' hu' (mt (ha.circular h h') hcircular)
  rw [ShaderIR.unboundReports_eq_nil_iff.mpr (ha.bound h h' hbound)] at hresolve
  refine ⟨_, (variant_of_ok hresolve).1, ?_⟩
  have hp' := ShaderIR.pruned_relink h' hu' closure.components.contains
  rw [hp'.definitions, hp.definitions, ha.liveDefinitions_eq h h']
  refine List.map_congr_left fun d hd => ?_
  exact ha.linked_eq h (ShaderIR.mem_liveDefinitions.mp hd)

end ShaderVariants
