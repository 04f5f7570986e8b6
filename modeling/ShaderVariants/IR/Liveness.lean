import ShaderVariants.IR.Binding
/-!
# Live definitions, cycles, and the fixed point

A definition is live if a surviving entry leads to it through dependencies. Resolution relinks
references and prunes what is dead until neither changes anything, and fails on a cycle.
-/
namespace ShaderVariants.ShaderIR

def ids (ir : ShaderIR) : List Nat := ir.definitions.map Definition.id

/-- The ids that a definition reads. -/
def reads (ir : ShaderIR) (id : Nat) : List Nat :=
  (ir.definition? id).elim [] fun d => d.dependencies.toList

/-- The ids reached from the surviving entries. -/
def live (ir : ShaderIR) : List Nat :=
  Graph.postorder ir.reads ir.ids
    ((ir.definitions.filter fun d => d.isEntry && ir.isSurvivor d).map Definition.id)

def hasDead (ir : ShaderIR) : Bool :=
  let live := ir.live
  ir.definitions.any fun d => !live.contains d.id

/-- Remove what is dead. -/
def prune (ir : ShaderIR) : ShaderIR :=
  let live := ir.live
  if ir.hasDead then ir.remove fun d => !live.contains d.id else ir

/-- A definition that depends on itself, through one or more others or directly. -/
def cycle? (ir : ShaderIR) : Option Definition :=
  (Graph.backEdge? ir.reads ir.ids).bind ir.definition?

theorem length_prune_lt {ir : ShaderIR} (h : ir.hasDead = true) :
    ir.prune.definitions.length < ir.definitions.length := by
  simp only [prune, h, if_true, remove]
  simp only [hasDead, List.any_eq_true] at h
  obtain ⟨d, hd, hl⟩ := h
  rw [List.length_filter_lt_length_iff_exists]
  exact ⟨d, hd, by simpa using hl⟩

theorem prune_eq_self {ir : ShaderIR} (h : ir.hasDead = false) : ir.prune = ir := by
  simp [prune, h]

/-- Relink and prune until nothing changes. A cycle ends it with a definition on the cycle. -/
def settle (isComponent : String → Bool) (ir : ShaderIR) : Except Definition ShaderIR :=
  let linked := ir.relink isComponent
  let pruned := linked.prune
  match pruned.cycle? with
  | some d => .error d
  | none =>
    if _h : ir.stale isComponent = true ∨ linked.hasDead = true then settle isComponent pruned
    else .ok pruned
termination_by (ir.definitions.length, (ir.stale isComponent).toNat)
decreasing_by
  by_cases hd : (ir.relink isComponent).hasDead = true
  · left
    have := length_prune_lt hd
    rwa [length_relink] at this
  · have hs := _h.resolve_right hd
    rw [prune_eq_self (by simpa using hd), stale_relink, length_relink, hs]
    right
    decide

end ShaderVariants.ShaderIR
