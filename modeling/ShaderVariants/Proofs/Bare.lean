import ShaderVariants.Proofs.Placement
import ShaderVariants.Proofs.VariantMeaning

/-! # What attributes can change

Attributes are copied into definitions, and one of them makes a definition an entry. No other part
of resolving reads them. So two placed representations that are the same but for attributes and
entries, with entries in the same slots, resolve alike: with the same complaints, or to
representations that are again the same but for attributes (`resolve_congr`). If the second has more
entries, then more is live in it, and it resolves only if the first does (`resolves_of_fewer`). -/
namespace ShaderVariants

theorem eq_of_map_eq {α β : Type} {f : α → β} {l l' : List α} (h : l.map f = l'.map f)
    (hinj : ∀ x ∈ l, ∀ y ∈ l', f x = f y → x = y) : l = l' := by
  induction l generalizing l' with
  | nil => exact (List.map_eq_nil_iff.mp h.symm).symm
  | cons x l ih =>
    cases l' with
    | nil => cases h
    | cons y l' =>
      obtain ⟨hxy, hrest⟩ := List.cons.inj h
      rw [hinj x List.mem_cons_self y List.mem_cons_self hxy,
        ih hrest fun a ha b hb => hinj a (.tail x ha) b (.tail y hb)]

/-- The definition without its attributes and without what they can decide. -/
def Definition.bare (d : Definition) : Definition := { d with attributes := ∅, isEntry := false }

theorem Definition.fields_of_bare {d d' : Definition} (h : d'.bare = d.bare) :
    d'.component = d.component ∧ d'.world = d.world ∧ d'.id = d.id ∧ d'.body = d.body := by
  obtain ⟨_, _, _, _, _, _, _, _, _, _⟩ := d
  obtain ⟨_, _, _, _, _, _, _, _, _, _⟩ := d'
  cases h
  exact ⟨rfl, rfl, rfl, rfl⟩

theorem Definition.eq_of_bare {d d' : Definition} (h : d'.bare = d.bare)
    (hattributes : d'.attributes = d.attributes) (hentry : d'.isEntry = d.isEntry) : d' = d := by
  obtain ⟨_, _, _, _, _, _, _, _, _, _⟩ := d
  obtain ⟨_, _, _, _, _, _, _, _, _, _⟩ := d'
  cases h
  cases hattributes
  cases hentry
  rfl

/-! ## Slots of bare candidates -/

/-- The slot without the flag that attributes can decide. -/
def Slot.bare (slot : Slot) : Slot := { slot with isEntry := false }

theorem Slot.bare_contest (slot new : Slot) :
    (slot.contest new).bare = slot.bare.contest new.bare := by
  unfold contest
  show Slot.bare (if slot.isAsked then _ else _) = if slot.isAsked then _ else _
  split <;> rfl

namespace Component

def bareCandidate (x : Definition × Bool) : Definition × Bool := (x.1.bare, x.2)

theorem bare_candidates_core (c : Component) (pipeline : Pipeline)
    (asked : List (String × Nat)) :
    (c.core.candidates pipeline asked).map bareCandidate =
      (c.candidates pipeline asked).map bareCandidate := by
  rw [candidates, candidates, core, List.zipIdx_map, List.flatMap_map, List.map_flatMap,
    List.map_flatMap]
  refine List.flatMap_congr fun i _ => ?_
  rw [List.map_map, List.map_map]
  rfl

/-- Who holds a slot does not depend on entries. -/
theorem slots_bare (candidates : List (Definition × Bool)) (first : Nat) :
    (slots candidates first).map Slot.bare = slots (candidates.map bareCandidate) first := by
  have hfold : ∀ (l : List ((Definition × Bool) × Nat)) (m : OrderedMap String Slot),
      (l.foldl (fun slots x => slots.insert x.1.1.world ((slots.find? x.1.1.world).elim
        (contestant x) (·.contest (contestant x)))) m).map Slot.bare =
      l.foldl (fun slots x => slots.insert x.1.1.world ((slots.find? x.1.1.world).elim
        (contestant x).bare (·.contest (contestant x).bare))) (m.map Slot.bare) := by
    intro l
    induction l with
    | nil => intro m; rfl
    | cons x l ih =>
      intro m
      rw [List.foldl_cons, ih, OrderedMap.map_insert, List.foldl_cons, OrderedMap.find?_map]
      cases m.find? x.1.1.world with
      | none => rfl
      | some slot =>
        rw [Option.elim_some, Slot.bare_contest]
        rfl
  have hzip : ((candidates.map bareCandidate).zipIdx first) =
      (candidates.zipIdx first).map fun x => (bareCandidate x.1, x.2) := List.zipIdx_map ..
  refine (hfold (candidates.zipIdx first) ∅).trans ?_
  rw [slots, hzip, List.foldl_map]
  rfl

theorem holders_bare (candidates : List (Definition × Bool)) (first : Nat) :
    (slots candidates first).values.map Slot.holder =
      (slots (candidates.map bareCandidate) first).values.map Slot.holder := by
  rw [← slots_bare, OrderedMap.values_map, List.map_map]
  rfl

end Component

namespace ShaderIR
open Relation

variable {ir ir' : ShaderIR} {isComponent : String → Bool}

def bare (ir : ShaderIR) : ShaderIR := { ir with definitions := ir.definitions.map Definition.bare }

/-- The ids of the surviving entries. -/
def roots (ir : ShaderIR) : List Nat :=
  (ir.definitions.filter fun d => d.isEntry && ir.isSurvivor d).map Definition.id

/-! ## Each step of resolving on bare representations -/

theorem definition?_bare (ir : ShaderIR) (id : Nat) :
    ir.bare.definition? id = (ir.definition? id).map Definition.bare := by
  rw [definition?, bare, List.find?_map]
  rfl

theorem ids_bare (ir : ShaderIR) : ir.bare.ids = ir.ids := by
  rw [ids, bare, List.map_map]
  rfl

theorem reads_bare (ir : ShaderIR) : ir.bare.reads = ir.reads := by
  funext id
  rw [reads, definition?_bare, reads]
  cases ir.definition? id <;> rfl

theorem relink_bare (ir : ShaderIR) (isComponent : String → Bool) :
    (ir.relink isComponent).bare = ir.bare.relink isComponent := by
  have hdefinitions : (ir.relink isComponent).definitions.map Definition.bare =
      (ir.bare.relink isComponent).definitions := by
    rw [relink, relink, bare, List.map_map, List.map_map]
    refine List.map_congr_left fun d _ => ?_
    -- staleness reads neither attributes nor entries
    show Definition.bare (if ir.isStale isComponent d then _ else d) =
      if ir.isStale isComponent d then _ else d.bare
    split <;> rfl
  rw [bare, hdefinitions]
  rfl

theorem remove_bare (ir : ShaderIR) (p : Nat → Bool) :
    (ir.remove fun d => p d.id).bare = ir.bare.remove fun d => p d.id := by
  have hkept : (ir.definitions.filter fun d => !p d.id).map Definition.bare =
      (ir.definitions.map Definition.bare).filter fun d => !p d.id := by
    rw [List.filter_map]
    rfl
  have hany : ∀ id, ((ir.definitions.map Definition.bare).filter fun d => !p d.id).any
      (·.id = id) = (ir.definitions.filter fun d => !p d.id).any (·.id = id) := by
    intro id
    rw [← hkept, List.any_map]
    rfl
  simp only [remove, bare, hkept, hany]

theorem cycle?_bare (ir : ShaderIR) : ir.bare.cycle? = ir.cycle?.map Definition.bare := by
  rw [cycle?, reads_bare, ids_bare, cycle?]
  cases Graph.backEdge? ir.reads ir.ids with
  | none => rfl
  | some id => exact definition?_bare ir id

theorem dangling_bare (ir : ShaderIR) (isComponent : String → Bool) :
    ir.bare.dangling isComponent =
      (ir.dangling isComponent).map fun r => { r with definition := r.definition.bare } := by
  have hsurvivors : ir.bare.definitions.filter ir.bare.isSurvivor =
      (ir.definitions.filter ir.isSurvivor).map Definition.bare := by
    rw [bare, List.filter_map]
    rfl
  rw [dangling, hsurvivors, dangling, List.flatMap_map, List.map_flatMap]
  refine List.flatMap_congr fun d _ => ?_
  rw [List.map_map]
  rfl

/-! ## Two representations with the same bare one -/

theorem roots_relink (ir : ShaderIR) (isComponent : String → Bool) :
    (ir.relink isComponent).roots = ir.roots := by
  rw [roots, relink, List.filter_map, List.map_map, roots]
  have hfilter : ir.definitions.filter ((fun d => d.isEntry &&
      ({ ir with definitions := ir.definitions.map fun d => if ir.isStale isComponent d then
        { d with dependencies := ir.targets isComponent d } else d } : ShaderIR).isSurvivor d) ∘
      fun d => if ir.isStale isComponent d then
        { d with dependencies := ir.targets isComponent d } else d) =
      ir.definitions.filter fun d => d.isEntry && ir.isSurvivor d := by
    refine List.filter_congr fun d _ => ?_
    simp only [Function.comp_apply]
    split <;> rfl
  rw [hfilter]
  refine List.map_congr_left fun d _ => ?_
  simp only [Function.comp_apply]
  split <;> rfl

theorem prune_congr (h : ir.bare = ir'.bare) (hroots : ir.roots = ir'.roots) :
    ir.prune.bare = ir'.prune.bare := by
  have hreads : ir.reads = ir'.reads := by rw [← reads_bare, h, reads_bare]
  have hids : ir.ids = ir'.ids := by rw [← ids_bare, h, ids_bare]
  have hlive : ir.live = ir'.live := by
    show Graph.postorder ir.reads ir.ids ir.roots = Graph.postorder ir'.reads ir'.ids ir'.roots
    rw [hreads, hids, hroots]
  have hdead : ∀ r : ShaderIR, r.hasDead = r.ids.any fun id => !r.live.contains id := by
    intro r
    rw [ids, List.any_map]
    rfl
  have hsame : ir.hasDead = ir'.hasDead := by rw [hdead, hdead, hids, hlive]
  rw [prune, prune, hsame, hlive]
  split
  · rw [remove_bare ir fun id => !ir'.live.contains id, h,
      ← remove_bare ir' fun id => !ir'.live.contains id]
  · exact h

theorem verdict_bare (isComponent : String → Bool) (shader : String) (ir : ShaderIR) :
    (verdict isComponent shader ir).map bare = verdict isComponent shader ir.bare := by
  rw [verdict, verdict, cycle?_bare, dangling_bare]
  cases ir.cycle? with
  | some d => rfl
  | none =>
    cases hdangling : ir.dangling isComponent with
    | nil => rfl
    | cons r l =>
      simp only [Option.map_none, List.map_cons, List.map_map]
      rfl

/-- Ids grow along the list, so the same roots stand in the same order. -/
theorem WellFormed.roots_eq (hw : ir.WellFormed) (hw' : ir'.WellFormed)
    (hsub : ir.roots ⊆ ir'.roots) (hsup : ir'.roots ⊆ ir.roots) : ir.roots = ir'.roots := by
  have hsorted : ∀ {r : ShaderIR}, r.WellFormed → r.roots.Pairwise (· < ·) := by
    intro r hr
    exact hr.increasing.sublist (List.filter_sublist.map Definition.id)
  have hperm : ir.roots.Perm ir'.roots :=
    (List.perm_ext_iff_of_nodup ((hsorted hw).imp Nat.ne_of_lt)
      ((hsorted hw').imp Nat.ne_of_lt)).mpr fun id => ⟨fun h => hsub h, fun h => hsup h⟩
  exact hperm.eq_of_pairwise (fun a b _ _ hab hba => absurd hab (Nat.lt_asymm hba)) (hsorted hw)
    (hsorted hw')

/-- Entries in the same slots: the same complaints, or the same but for attributes. -/
theorem resolve_congr (hw : ir.WellFormed) (hw' : ir'.WellFormed) (hu : ir.Unlinked)
    (hu' : ir'.Unlinked) (h : ir.bare = ir'.bare) (hroots : ir.roots = ir'.roots)
    (isComponent : String → Bool) :
    (ir.resolve isComponent).map bare = (ir'.resolve isComponent).map bare := by
  have hshader : ir.bare.shader = ir'.bare.shader := by rw [h]
  have hrelink : (ir.relink isComponent).bare = (ir'.relink isComponent).bare := by
    rw [relink_bare, h, relink_bare]
  have hprune := prune_congr hrelink (by rw [roots_relink, hroots, roots_relink])
  rw [resolve_eq_verdict hw hu, resolve_eq_verdict hw' hu', verdict_bare, hprune, ← verdict_bare,
    show ir.shader = ir'.shader from hshader]

theorem eq_of_bare (h : ir.bare = ir'.bare) (hd : ir.definitions = ir'.definitions) : ir = ir' := by
  obtain ⟨_, _, _, _, _⟩ := ir
  obtain ⟨_, _, _, _, _⟩ := ir'
  simp only [bare, ShaderIR.mk.injEq] at h
  obtain ⟨rfl, rfl, _, rfl, rfl⟩ := h
  cases hd
  rfl

theorem bind?_of_bare (h : ir.bare = ir'.bare) (component world : String) :
    ir'.bind? component world = ir.bind? component world := by
  show ir'.bare.bind? component world = ir.bare.bind? component world
  rw [h]

theorem isSurvivor_of_bare (h : ir.bare = ir'.bare) {d d' : Definition} (hd : d'.bare = d.bare) :
    ir'.isSurvivor d' = ir.isSurvivor d := by
  show ir'.bare.isSurvivor d'.bare = ir.bare.isSurvivor d.bare
  rw [h, hd]

/-! ## More entries -/

theorem exists_of_bare (h : ir.bare = ir'.bare) {d : Definition} (hd : d ∈ ir.definitions) :
    ∃ d' ∈ ir'.definitions, d'.bare = d.bare := by
  have hdefinitions : ir.definitions.map Definition.bare = ir'.definitions.map Definition.bare :=
    congrArg definitions h
  have hmem : d.bare ∈ ir'.definitions.map Definition.bare :=
    hdefinitions ▸ List.mem_map_of_mem hd
  exact List.mem_map.mp hmem

theorem Binds.of_bare (h : ir.bare = ir'.bare) {d d' e : Definition} (hd : d'.bare = d.bare)
    (hb : ir.Binds isComponent d e) : ∃ e', e'.bare = e.bare ∧ ir'.Binds isComponent d' e' := by
  obtain ⟨he, n, hn, hbind⟩ := hb
  obtain ⟨e', he', hbare⟩ := exists_of_bare h he
  obtain ⟨_, hworld, _, hbody⟩ := Definition.fields_of_bare hd
  obtain ⟨_, _, hid, _⟩ := Definition.fields_of_bare hbare
  refine ⟨e', hbare, he', n, ?_, ?_⟩
  · rwa [Definition.references, hbody]
  · rw [hworld, hid, bind?_of_bare h]
    exact hbind

theorem Live.of_bare (h : ir.bare = ir'.bare) (hw' : ir'.WellFormed)
    (hroots : ir.roots ⊆ ir'.roots) {d : Definition} (hd : ir.Live isComponent d) :
    ∃ d', d'.bare = d.bare ∧ ir'.Live isComponent d' := by
  induction hd with
  | @entry d hd he hs =>
    have hroot : d.id ∈ ir.roots :=
      List.mem_map_of_mem (List.mem_filter.mpr ⟨hd, Bool.and_eq_true_iff.mpr ⟨he, hs⟩⟩)
    obtain ⟨d', hd', hid⟩ := List.mem_map.mp (hroots hroot)
    obtain ⟨hmem, hpass⟩ := List.mem_filter.mp hd'
    obtain ⟨hentry, hsurvivor⟩ := Bool.and_eq_true_iff.mp hpass
    obtain ⟨e, he, hbare⟩ := exists_of_bare h hd
    obtain ⟨_, _, heid, _⟩ := Definition.fields_of_bare hbare
    obtain rfl := hw'.eq_of_id hmem he (hid.trans heid.symm)
    exact ⟨d', hbare, .entry hmem hentry hsurvivor⟩
  | bound _ hb ih =>
    obtain ⟨d', hbare, hlive⟩ := ih
    obtain ⟨e', he', hbinds⟩ := hb.of_bare h hbare
    exact ⟨e', he', hlive.bound hbinds⟩

/-- With fewer entries less is live, so there is less to go wrong. -/
theorem resolves_of_fewer (h : ir.bare = ir'.bare) (hw' : ir'.WellFormed)
    (hroots : ir.roots ⊆ ir'.roots) (hc : ¬ ir'.Circular isComponent)
    (hb : ir'.Bound isComponent) : ¬ ir.Circular isComponent ∧ ir.Bound isComponent := by
  constructor
  · intro hcircular
    obtain ⟨d, hd, hpath⟩ := hcircular
    obtain ⟨d', hbare, hlive⟩ := hd.of_bare h hw' hroots
    have htransfer : ∀ {e}, TransGen (ir.Binds isComponent) d e →
        ∃ e', e'.bare = e.bare ∧ TransGen (ir'.Binds isComponent) d' e' := by
      intro e hpath
      induction hpath with
      | single hb =>
        obtain ⟨e', he', hb'⟩ := hb.of_bare h hbare
        exact ⟨e', he', .single hb'⟩
      | tail _ hb ih =>
        obtain ⟨e', he', hpath'⟩ := ih
        obtain ⟨f', hf', hb'⟩ := hb.of_bare h he'
        exact ⟨f', hf', hpath'.tail hb'⟩
    obtain ⟨e', he', hpath'⟩ := htransfer hpath
    obtain ⟨_, _, hid, _⟩ := Definition.fields_of_bare (he'.trans hbare.symm)
    obtain rfl := hw'.eq_of_id (hlive.path hpath').mem hlive.mem hid
    exact hc ⟨e', hlive, hpath'⟩
  · intro d hd n hn
    obtain ⟨d', hbare, hlive⟩ := hd.of_bare h hw' hroots
    obtain ⟨_, hworld, _, hbody⟩ := Definition.fields_of_bare hbare
    have hbound := hb d' hlive n (by rwa [Definition.references, hbody])
    rwa [hworld, bind?_of_bare h] at hbound

/-! ## Placing bare definitions -/

theorem bare_add (ir : ShaderIR) (d : Definition) : (ir.add d).bare = ir.bare.add d.bare := by
  simp only [bare, add, List.map_append]
  rfl

theorem bare_install (ir : ShaderIR) (id : Nat) : (ir.install id).bare = ir.bare.install id := by
  rw [install, install, definition?_bare]
  cases ir.definition? id <;> rfl

/-- An entry is lost to sight, and the holder is installed. -/
theorem bare_award (ir : ShaderIR) (slot : Slot) :
    (ir.award slot).bare = ir.bare.install slot.holder := by
  rw [← bare_install]
  unfold award
  split
  · have hdefinitions : (ir.install slot.holder).definitions.map (Definition.bare ∘ fun d =>
        if d.id = slot.holder then { d with isEntry := true } else d) =
        (ir.install slot.holder).definitions.map Definition.bare := by
      refine List.map_congr_left fun d _ => ?_
      simp only [Function.comp_apply]
      split <;> rfl
    rw [bare, modify, List.map_map, hdefinitions]
    rfl
  · rfl

theorem bare_foldl_award (slots : List Slot) (ir : ShaderIR) :
    (slots.foldl award ir).bare = (slots.map Slot.holder).foldl install ir.bare := by
  induction slots generalizing ir with
  | nil => rfl
  | cons slot slots ih => rw [List.foldl_cons, ih, bare_award, List.map_cons, List.foldl_cons]

theorem bare_addAll (candidates : List (Definition × Bool)) (ir : ShaderIR) :
    (ir.addAll candidates).bare = ir.bare.addAll (candidates.map Component.bareCandidate) := by
  induction candidates generalizing ir with
  | nil => rfl
  | cons x l ih =>
    have hcons : ir.addAll (x :: l) = (ir.add x.1).addAll l := rfl
    rw [hcons, ih, bare_add]
    rfl

theorem bare_place (ir : ShaderIR) (asked : List (String × Nat)) (c : Component) :
    let candidates := (c.core.candidates ir.pipeline asked).map Component.bareCandidate
    (ir.place asked c).bare =
      ((Component.slots candidates ir.nextId).values.map Slot.holder).foldl install
        (ir.bare.addAll candidates) := by
  intro candidates
  have hcandidates : candidates = (c.candidates ir.pipeline asked).map Component.bareCandidate :=
    c.bare_candidates_core ir.pipeline asked
  rw [place_eq, bare_foldl_award, bare_addAll, hcandidates, ← Component.holders_bare]
  rfl

/-- What a placed representation is but for attributes and entries, components decide without
theirs. -/
theorem bare_ofComponents (shader : String) (pipeline : Pipeline) {m n : Components}
    (h : m.map Component.core = n.map Component.core) (asked : List (String × Nat)) :
    (ofComponents shader pipeline m asked).bare = (ofComponents shader pipeline n asked).bare := by
  have hplace : ∀ (cs cs' : List Component) (ir ir' : ShaderIR), ir.bare = ir'.bare →
      cs.map Component.core = cs'.map Component.core →
      (cs.foldl (place asked) ir).bare = (cs'.foldl (place asked) ir').bare := by
    intro cs
    induction cs with
    | nil =>
      intro cs' ir ir' hir hcs
      rw [List.map_eq_nil_iff.mp hcs.symm]
      exact hir
    | cons c cs ih =>
      intro cs' ir ir' hir hcs
      cases cs' with
      | nil => cases hcs
      | cons c' cs' =>
        obtain ⟨hc, hrest⟩ := List.cons.inj hcs
        refine ih cs' _ _ ?_ hrest
        have hpipeline : ir.bare.pipeline = ir'.bare.pipeline := by rw [hir]
        have hnext : ir.bare.nextId = ir'.bare.nextId := by rw [hir]
        rw [bare_place, bare_place, hc, hir, show ir.pipeline = ir'.pipeline from hpipeline,
          show ir.nextId = ir'.nextId from hnext]
  refine hplace _ _ _ _ rfl ?_
  rw [← OrderedMap.values_map, h, OrderedMap.values_map]

end ShaderIR

end ShaderVariants
