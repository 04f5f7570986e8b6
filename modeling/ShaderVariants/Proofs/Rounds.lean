import ShaderVariants.Proofs.Settling

/-! # The loop settles in its first round

`settle` goes round as long as something changes, and nothing in it says how often that is.
`EndsAfter` is the loop as a relation that counts how often its body runs; from each representation
it has one way to go, the one of `settle` (`endsAfter_settle`, `EndsAfter.unique`). The first round
over whatever placement builds leaves nothing to do for a second: what it removed was no target of
what stays, so every reference is bound as it was before. The loop ends there or, if that round had
something to do, looks once more and ends (`settles_at_once`). -/
namespace ShaderVariants.ShaderIR

/-- What one round leaves. -/
def round (ir : ShaderIR) (isComponent : String → Bool) : ShaderIR := (ir.relink isComponent).prune

/-- A round has something to relink or to remove. -/
def Unsettled (ir : ShaderIR) (isComponent : String → Bool) : Prop :=
  ir.stale isComponent = true ∨ (ir.relink isComponent).hasDead = true

/-- The loop, entered with a representation, ends with a result after so many rounds. -/
inductive EndsAfter (isComponent : String → Bool) :
    Nat → ShaderIR → Except Definition ShaderIR → Prop
  | circular {ir : ShaderIR} {d : Definition} : (ir.round isComponent).cycle? = some d →
      EndsAfter isComponent 1 ir (.error d)
  | settled {ir : ShaderIR} : (ir.round isComponent).cycle? = none → ¬ ir.Unsettled isComponent →
      EndsAfter isComponent 1 ir (.ok (ir.round isComponent))
  | again {n : Nat} {ir : ShaderIR} {result : Except Definition ShaderIR} :
      (ir.round isComponent).cycle? = none → ir.Unsettled isComponent →
      EndsAfter isComponent n (ir.round isComponent) result →
      EndsAfter isComponent (n + 1) ir result

variable {ir : ShaderIR} {isComponent : String → Bool}

/-- The loop ends, whatever it is entered with. -/
theorem endsAfter_settle (isComponent : String → Bool) (ir : ShaderIR) :
    ∃ n, EndsAfter isComponent n ir (ir.settle isComponent) := by
  fun_induction settle isComponent ir with
  | case1 ir linked pruned d hcycle => exact ⟨1, .circular hcycle⟩
  | case2 ir linked pruned hcycle hunsettled ih =>
    obtain ⟨n, hrest⟩ := ih
    exact ⟨n + 1, .again hcycle hunsettled hrest⟩
  | case3 ir linked pruned hcycle hsettled => exact ⟨1, .settled hcycle hsettled⟩

theorem EndsAfter.unique {n n' : Nat} {result result' : Except Definition ShaderIR}
    (h : EndsAfter isComponent n ir result) (h' : EndsAfter isComponent n' ir result') :
    n = n' ∧ result = result' := by
  induction h generalizing n' result' with
  | circular hcycle =>
    cases h' with
    | circular hcycle' => simp_all
    | settled hcycle' _ => simp_all
    | again hcycle' _ _ => simp_all
  | settled hcycle hsettled =>
    cases h' with
    | circular hcycle' => simp_all
    | settled _ _ => exact ⟨rfl, rfl⟩
    | again _ hunsettled _ => exact absurd hunsettled hsettled
  | again hcycle hunsettled _ ih =>
    cases h' with
    | circular hcycle' => simp_all
    | settled _ hsettled => exact absurd hunsettled hsettled
    | again _ _ hrest =>
      obtain ⟨rfl, rfl⟩ := ih hrest
      exact ⟨rfl, rfl⟩

/-- What is pruned has nothing left to relink or to remove. -/
theorem Pruned.not_unsettled {pruned : ShaderIR} (hp : ir.Pruned isComponent pruned)
    (h : ir.WellFormed) : ¬ pruned.Unsettled isComponent := by
  rw [Unsettled, hp.stale_eq h, hp.relink_eq h, hp.hasDead_eq h]
  simp

/-- From a representation that was never linked the loop takes one round, or one that changes
something and one that does not. -/
theorem EndsAfter.le_two (h : ir.WellFormed) (hu : ir.Unlinked) {n : Nat}
    {result : Except Definition ShaderIR} (hends : EndsAfter isComponent n ir result) : n ≤ 2 := by
  have hsettled : ¬ (ir.round isComponent).Unsettled isComponent :=
    (pruned_relink h hu isComponent).not_unsettled h
  cases hends with
  | circular _ => omega
  | settled _ _ => omega
  | again _ _ hrest =>
    cases hrest with
    | circular _ => omega
    | settled _ _ => omega
    | again _ hunsettled _ => exact absurd hunsettled hsettled

/-- One round of relinking and pruning is enough for all that placement builds. A second finds no
dependencies to change and nothing to remove; each definition that stays is as the first round
linked it, and its references bind as before anything was removed. So the loop always ends, after
two rounds at the most. -/
theorem settles_at_once (shader : String) (pipeline : Pipeline) (components : Components)
    (asked : List (String × Nat)) (isComponent : String → Bool) :
    let placed := ofComponents shader pipeline components asked
    let linked := placed.relink isComponent
    let pruned := linked.prune
    (pruned.stale isComponent = false ∧ pruned.relink isComponent = pruned) ∧
    ((pruned.relink isComponent).hasDead = false ∧
      (pruned.relink isComponent).prune = pruned) ∧
    (∀ d ∈ pruned.definitions, d ∈ linked.definitions ∧ ∀ n ∈ d.references isComponent,
      pruned.bind? n.1 d.world = linked.bind? n.1 d.world) ∧
    (∃ n, EndsAfter isComponent n placed (placed.settle isComponent)) ∧
    ∀ n result, EndsAfter isComponent n placed result →
      n ≤ 2 ∧ result = placed.settle isComponent := by
  intro placed linked pruned
  have h : placed.WellFormed := wellFormed_ofComponents shader pipeline components asked
  have hu : placed.Unlinked := unlinked_ofComponents shader pipeline components asked
  have hp : placed.Pruned isComponent pruned := pruned_relink h hu isComponent
  have hrelink := hp.relink_eq h
  obtain ⟨m, hsettle⟩ := endsAfter_settle isComponent placed
  refine ⟨⟨hp.stale_eq h, hrelink⟩, ?_, ?_, ⟨m, hsettle⟩, fun n result hends => ?_⟩
  · rw [hrelink]
    exact ⟨hp.hasDead_eq h, hp.prune_eq h⟩
  · intro d hd
    refine ⟨mem_of_mem_prune hd, fun n hn => ?_⟩
    -- only survivors have a say in what a reference binds to, and linking changes none
    obtain ⟨d₀, hlive, rfl⟩ := hp.mem_iff.mp hd
    exact hp.bind?_eq h hlive hn
  · exact ⟨hends.le_two h hu, (hends.unique hsettle).2⟩

end ShaderVariants.ShaderIR
