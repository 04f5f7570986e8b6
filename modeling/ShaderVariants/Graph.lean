/-!
# Depth-first search over a finite graph

A graph is a successor function together with the list of nodes that count. A search never
leaves that list: successors outside of it are passed over. `avail` holds the nodes that are not
on the path from the root to the present node, and shrinks with every step down, so each search
ends without a step count.

The listing search goes by labels. Of several nodes with one label it lists the one that it meets
first, and passes over the others. `postorderBy` lists nodes after the successors that they led to,
and `postorder` does so where each node is its own label. `backEdge?` is the node at which the first
edge back into the search path lands.
-/
namespace ShaderVariants.Graph
variable {α κ : Type}

theorem length_erase_lt [DecidableEq κ] {a : κ} {l : List κ} (h : a ∈ l) :
    (l.erase a).length < l.length := by
  have := List.length_erase_of_mem h
  have := List.length_pos_of_mem h
  omega

/-- Every occurrence is left out. -/
def without [DecidableEq κ] (l : List κ) (a : κ) : List κ := l.filter (· ≠ a)

theorem mem_without [DecidableEq κ] {a k : κ} {l : List κ} : k ∈ without l a ↔ k ∈ l ∧ k ≠ a := by
  simp [without]

theorem length_without_lt [DecidableEq κ] {a : κ} {l : List κ} (h : a ∈ l) :
    (without l a).length < l.length :=
  List.length_filter_lt_length_iff_exists.mpr ⟨a, h, by simp⟩

/-- Extend the finished nodes by all that `node` leads to, and by `node` itself. -/
def visit [DecidableEq κ] (label : α → κ) (next : α → List α) (avail : List κ)
    (finished : List α) (node : α) : List α :=
  if _ : label node ∈ avail ∧ label node ∉ finished.map label then
    (next node).foldl (fun done n => visit label next (without avail (label node)) done n)
      finished ++ [node]
  else finished
termination_by avail.length
decreasing_by exact length_without_lt (And.left ‹_ ∧ _›)

def postorderBy [DecidableEq κ] (label : α → κ) (next : α → List α) (labels : List κ)
    (roots : List α) : List α :=
  roots.foldl (visit label next labels) []

variable [DecidableEq α]

def postorder (next : α → List α) (nodes roots : List α) : List α :=
  postorderBy id next nodes roots

/-- As `visit`, but an edge back into the path ends the search with its target. -/
def descend (next : α → List α) (avail path finished : List α) (node : α) :
    Except α (List α) :=
  if node ∈ path then .error node
  else if _ : node ∈ avail ∧ node ∉ finished then do
    let done ← (next node).foldlM
      (fun done n => descend next (avail.erase node) (node :: path) done n) finished
    .ok (done ++ [node])
  else .ok finished
termination_by avail.length
decreasing_by exact length_erase_lt (And.left ‹_ ∧ _›)

def backEdge? (next : α → List α) (nodes : List α) : Option α :=
  match nodes.foldlM (descend next nodes []) [] with
  | .error target => some target
  | .ok _ => none

end ShaderVariants.Graph
