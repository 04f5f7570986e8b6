import Mathlib.Data.List.Nodup
import Mathlib.Logic.Relation
import ShaderVariants.Graph

/-! # What depth-first search finds

`postorder` lists exactly what the roots reach, each node once, and after every successor from
which no path leads back to it (`mem_postorder`, `nodup_postorder`, `postorder_ordered`). On an
acyclic graph that is all successors. `backEdge?` finds a node exactly where there is a cycle,
and the node lies on one (`backEdge?_eq_none_iff`, `backEdge?_cycle`).

A search by labels lists no label twice and none but reached nodes (`nodup_postorderBy`,
`reached_of_mem_postorderBy`). Which of the nodes with one label it lists is for its course to
decide. Where labels tell the reached nodes apart (`Separates`) there is nothing to decide, and all
of the above holds of it. A root then keeps its place before what neither it nor an earlier root
leads to (`Separates.root_before`).

One invariant is threaded through each search. For `visit` it is `Explores`, which speaks of the
finished nodes before and after; the labels on the search path are those that are not available, and
nodes with these labels lead to the present node. For `descend` the path is an argument of the
search itself. -/
namespace ShaderVariants.Graph
open Relation

variable {α κ : Type} {next : α → List α} {nodes : List α}

/-- An edge of the part of the graph that counts. -/
def EdgeBy (label : α → κ) (next : α → List α) (labels : List κ) (a b : α) : Prop :=
  b ∈ next a ∧ label b ∈ labels

/-- An edge between nodes that are their own labels. -/
def Edge (next : α → List α) (nodes : List α) (a b : α) : Prop := b ∈ next a ∧ b ∈ nodes

/-- No node leads back to itself. -/
def Acyclic (next : α → List α) (nodes : List α) : Prop :=
  ∀ a, ¬ TransGen (Edge next nodes) a a

/-- Every successor of a listed node stands before it. -/
def Settled (next : α → List α) (nodes l : List α) : Prop :=
  ∀ l₁ x l₂, l = l₁ ++ x :: l₂ → ∀ y, Edge next nodes x y → y ∈ l₁

/-! ## Splitting a list that grew at its end -/

/-- A place in `l ++ t` is in `l`, or has all of `l` before it. -/
theorem split_append {l t l₁ l₂ : List α} {x : α} (h : l ++ t = l₁ ++ x :: l₂) :
    (∃ m, l = l₁ ++ x :: m) ∨ ∀ y ∈ l, y ∈ l₁ := by
  rcases List.append_eq_append_iff.mp h with ⟨m, hl, _⟩ | ⟨m, hl, ht⟩
  · right
    intro y hy
    rw [hl]
    exact List.mem_append_left m hy
  · cases m with
    | nil =>
      right
      intro y hy
      simpa [hl] using hy
    | cons z m =>
      left
      obtain ⟨rfl, _⟩ := List.cons.inj ht
      exact ⟨m, hl⟩

theorem Settled.nil : Settled next nodes [] := by
  intro l₁ x l₂ h
  simp at h

theorem Settled.snoc {l : List α} {a : α} (hl : Settled next nodes l)
    (ha : ∀ y, Edge next nodes a y → y ∈ l) : Settled next nodes (l ++ [a]) := by
  intro l₁ x l₂ h y hy
  rcases split_append h with ⟨m, hm⟩ | hall
  · exact hl l₁ x m hm y hy
  · apply hall
    by_cases hx : x ∈ l
    · obtain ⟨m₁, m₂, rfl⟩ := List.append_of_mem hx
      exact List.mem_append_left _ (hl m₁ x m₂ rfl y hy)
    · have hmem : x ∈ l ++ [a] := h ▸ List.mem_append_right l₁ List.mem_cons_self
      rcases List.mem_append.mp hmem with hm | hm
      · exact absurd hm hx
      · rw [List.mem_singleton] at hm
        exact ha y (hm ▸ hy)

/-- Along a path the first places in the list fall. -/
theorem Settled.path [DecidableEq α] {l : List α} {x y : α} (hl : Settled next nodes l)
    (hx : x ∈ l) (hp : TransGen (Edge next nodes) x y) : y ∈ l ∧ l.idxOf y < l.idxOf x := by
  have step : ∀ {x y}, x ∈ l → Edge next nodes x y → y ∈ l ∧ l.idxOf y < l.idxOf x := by
    intro x y hx hy
    obtain ⟨l₁, l₂, rfl, hn⟩ := List.eq_append_cons_of_mem hx
    have hm := hl l₁ x l₂ rfl y hy
    refine ⟨List.mem_append_left _ hm, ?_⟩
    rw [List.idxOf_append_of_mem hm, List.idxOf_append_of_notMem hn]
    have := List.idxOf_lt_length_of_mem hm
    omega
  induction hp with
  | single h => exact step hx h
  | tail _ hc ih =>
    obtain ⟨hm, hlt⟩ := step ih.1 hc
    exact ⟨hm, Nat.lt_trans hlt ih.2⟩

/-- A cycle cannot be listed with every successor before its node. -/
theorem Settled.acyclic [DecidableEq α] {l : List α} (hl : Settled next nodes l)
    (hall : ∀ a ∈ nodes, a ∈ l) : Acyclic next nodes := by
  intro a ha
  obtain ⟨_, _, hlast⟩ := TransGen.tail'_iff.mp ha
  exact Nat.lt_irrefl _ (hl.path (hall a hlast.2) ha).2

/-! ## The search by labels -/

/-- What a search from `roots` adds to the finished nodes, when it may enter the labels `avail` and
all that it meets is in `S`. -/
structure Explores (label : α → κ) (next : α → List α) (labels avail : List κ) (S : α → Prop)
    (roots done done' : List α) : Prop where
  grows : done <+: done'
  nodup : (done.map label).Nodup → (done'.map label).Nodup
  added : ∀ x ∈ done', x ∉ done → label x ∈ avail ∧ S x
  covers : ∀ r ∈ roots, label r ∈ avail → label r ∈ done'.map label
  closed : ∀ x ∈ done', x ∉ done → ∀ y, EdgeBy label next labels x y →
    label y ∈ done'.map label ∨ label y ∉ avail
  ordered : ∀ l₁ x l₂, done' = l₁ ++ x :: l₂ → x ∉ done → ∀ y, EdgeBy label next labels x y →
    label y ∈ l₁.map label ∨
      ∃ y', S y' ∧ label y' = label y ∧ ReflTransGen (EdgeBy label next labels) y' x

namespace Explores
variable {label : α → κ} {labels avail : List κ} {S : α → Prop} {roots done done' : List α}

theorem nothing (h : ∀ r ∈ roots, label r ∈ avail → label r ∈ done.map label) :
    Explores label next labels avail S roots done done where
  grows := List.prefix_rfl
  nodup := id
  added := fun _ hx hn => absurd hx hn
  covers := h
  closed := fun _ hx hn => absurd hx hn
  ordered := fun l₁ _ _ h hn => absurd (h ▸ List.mem_append_right l₁ List.mem_cons_self) hn

theorem cons {r : α} {mid : List α} (h : Explores label next labels avail S [r] done mid)
    (h' : Explores label next labels avail S roots mid done') :
    Explores label next labels avail S (r :: roots) done done' where
  grows := h.grows.trans h'.grows
  nodup := fun hd => h'.nodup (h.nodup hd)
  added := by
    intro x hx hn
    by_cases hm : x ∈ mid
    · exact h.added x hm hn
    · exact h'.added x hx hm
  covers := by
    intro x hx ha
    rcases List.mem_cons.mp hx with rfl | hx
    · exact List.map_subset label h'.grows.subset (h.covers x List.mem_cons_self ha)
    · exact h'.covers x hx ha
  closed := by
    intro x hx hn y hy
    by_cases hm : x ∈ mid
    · exact (h.closed x hm hn y hy).imp_left (List.map_subset label h'.grows.subset ·)
    · exact h'.closed x hx hm y hy
  ordered := by
    intro l₁ x l₂ hs hn y hy
    by_cases hm : x ∈ mid
    · obtain ⟨t, rfl⟩ := h'.grows
      rcases split_append hs with ⟨m, hl⟩ | hall
      · exact h.ordered l₁ x m hl hn y hy
      · obtain ⟨m₁, m₂, rfl⟩ := List.append_of_mem hm
        refine (h.ordered m₁ x m₂ rfl hn y hy).imp_left fun hm₁ => ?_
        exact List.map_subset label (fun z hz => hall z (List.mem_append_left _ hz)) hm₁
    · exact h'.ordered l₁ x l₂ hs hm y hy

theorem foldl {f : List α → α → List α}
    (hf : ∀ r ∈ roots, ∀ done, Explores label next labels avail S [r] done (f done r))
    (done : List α) : Explores label next labels avail S roots done (roots.foldl f done) := by
  induction roots generalizing done with
  | nil => exact nothing (by simp)
  | cons r rest ih =>
    exact (hf r List.mem_cons_self done).cons
      (ih (fun n hn => hf n (List.mem_cons_of_mem r hn)) _)

/-- Finish a node after its successors. -/
theorem finish [DecidableEq κ] {node : α} (hnode : label node ∈ avail) (hin : S node)
    (hfresh : label node ∉ done.map label)
    (hpath : ∀ k ∈ labels, k ∉ avail →
      ∃ y, S y ∧ label y = k ∧ ReflTransGen (EdgeBy label next labels) y node)
    (h : Explores label next labels (without avail (label node)) S (next node) done done') :
    Explores label next labels avail S [node] done (done' ++ [node]) := by
  have havail : ∀ k, k ∉ without avail (label node) → k = label node ∨ k ∉ avail := by
    intro k hk
    by_cases he : k = label node
    · exact Or.inl he
    · exact Or.inr fun ha => hk (mem_without.mpr ⟨ha, he⟩)
  have hnew : label node ∉ done'.map label := by
    intro hm
    obtain ⟨x, hx, hlabel⟩ := List.mem_map.mp hm
    have hout : x ∉ done := fun hd => hfresh (hlabel ▸ List.mem_map_of_mem hd)
    exact (mem_without.mp (h.added x hx hout).1).2 hlabel
  -- the label of a successor is finished by now or lies on the path
  have hsucc : ∀ y, EdgeBy label next labels node y →
      label y ∈ done'.map label ∨ label y = label node ∨ label y ∉ avail := by
    intro y hy
    by_cases ha : label y ∈ without avail (label node)
    · exact Or.inl (h.covers y hy.1 ha)
    · exact Or.inr (havail _ ha)
  have hlast : label node ∈ (done' ++ [node]).map label := by simp
  have hmore : ∀ k ∈ done'.map label, k ∈ (done' ++ [node]).map label := by
    intro k hk
    rw [List.map_append]
    exact List.mem_append_left _ hk
  refine ⟨h.grows.trans (List.prefix_append _ _), ?_, ?_, ?_, ?_, ?_⟩
  · intro hd
    rw [List.map_append, List.map_singleton, ← List.concat_eq_append]
    exact List.Nodup.concat hnew (h.nodup hd)
  · intro x hx hn
    rcases List.mem_append.mp hx with hx | hx
    · obtain ⟨ha, hS⟩ := h.added x hx hn
      exact ⟨(mem_without.mp ha).1, hS⟩
    · obtain rfl := List.mem_singleton.mp hx
      exact ⟨hnode, hin⟩
  · intro r hr _
    exact List.mem_singleton.mp hr ▸ hlast
  · intro x hx hn y hy
    rcases List.mem_append.mp hx with hx | hx
    · rcases h.closed x hx hn y hy with hm | ha
      · exact Or.inl (hmore _ hm)
      · exact (havail _ ha).imp_left fun he : label y = label node => he ▸ hlast
    · obtain rfl := List.mem_singleton.mp hx
      rcases hsucc y hy with hm | he | ha
      · exact Or.inl (hmore _ hm)
      · exact Or.inl (he ▸ hlast)
      · exact Or.inr ha
  · intro l₁ x l₂ hs hn y hy
    rcases split_append hs with ⟨m, hl⟩ | hall
    · exact h.ordered l₁ x m hl hn y hy
    · have hx : x ∈ done' ++ [node] := hs ▸ List.mem_append_right l₁ List.mem_cons_self
      rcases List.mem_append.mp hx with hx | hx
      · obtain ⟨m₁, m₂, rfl⟩ := List.append_of_mem hx
        refine (h.ordered m₁ x m₂ rfl hn y hy).imp_left fun hm => ?_
        exact List.map_subset label (fun z hz => hall z (List.mem_append_left _ hz)) hm
      · obtain rfl := List.mem_singleton.mp hx
        rcases hsucc y hy with hm | he | ha
        · exact Or.inl (List.map_subset label hall hm)
        · exact Or.inr ⟨x, hin, he.symm, .refl⟩
        · exact Or.inr (hpath _ hy.2 ha)

end Explores

/-- The roots that count lead to the node. -/
def Reached (label : α → κ) (next : α → List α) (labels : List κ) (roots : List α) (x : α) : Prop :=
  ∃ r ∈ roots, label r ∈ labels ∧ ReflTransGen (EdgeBy label next labels) r x

/-- No two reached nodes have one label. -/
def Separates (label : α → κ) (next : α → List α) (labels : List κ) (roots : List α) : Prop :=
  ∀ x y, Reached label next labels roots x → Reached label next labels roots y →
    label x = label y → x = y

section Labels
variable [DecidableEq κ] {label : α → κ} {labels : List κ} {roots : List α}

theorem visit_explores {avail : List κ} {S : α → Prop} (done : List α) {node : α}
    (hclosed : ∀ a b, S a → EdgeBy label next labels a b → S b)
    (hsub : ∀ k ∈ avail, k ∈ labels) (hin : label node ∈ labels → S node)
    (hpath : label node ∈ labels → ∀ k ∈ labels, k ∉ avail →
      ∃ y, S y ∧ label y = k ∧ ReflTransGen (EdgeBy label next labels) y node) :
    Explores label next labels avail S [node] done (visit label next avail done node) := by
  induction hlen : avail.length using Nat.strongRecOn generalizing avail done node with
  | ind n ih =>
    unfold visit
    split
    · rename_i h
      obtain ⟨hnode, hfresh⟩ := h
      have hcounts := hsub _ hnode
      refine Explores.finish hnode (hin hcounts) hfresh (hpath hcounts) ?_
      refine Explores.foldl (fun child hchild done => ?_) done
      refine ih _ (hlen ▸ length_without_lt hnode) done
        (fun k hk => hsub k (mem_without.mp hk).1)
        (fun hc => hclosed node child (hin hcounts) ⟨hchild, hc⟩) ?_ rfl
      -- what is no longer available leads to the node, and the node to its child
      intro hc k hk hn
      have hedge : EdgeBy label next labels node child := ⟨hchild, hc⟩
      by_cases he : k = label node
      · exact ⟨node, hin hcounts, he.symm, .single hedge⟩
      · have ha : k ∉ avail := fun ha => hn (mem_without.mpr ⟨ha, he⟩)
        obtain ⟨y, hS, hlabel, hway⟩ := hpath hcounts k hk ha
        exact ⟨y, hS, hlabel, hway.tail hedge⟩
    · rename_i h
      refine Explores.nothing fun r hr ha => ?_
      obtain rfl := List.mem_singleton.mp hr
      by_contra hd
      exact h ⟨ha, hd⟩

theorem foldl_visit_explores {roots' : List α} (hroots : ∀ r ∈ roots', r ∈ roots)
    (done : List α) :
    Explores label next labels labels (Reached label next labels roots) roots' done
      (roots'.foldl (visit label next labels) done) := by
  refine Explores.foldl (fun r hr done => visit_explores done ?_ (fun _ hk => hk) ?_ ?_) done
  · intro a b ha hedge
    obtain ⟨r, hr, hcounts, hway⟩ := ha
    exact ⟨r, hr, hcounts, hway.tail hedge⟩
  · exact fun hcounts => ⟨r, hroots r hr, hcounts, .refl⟩
  · exact fun _ k hk hn => absurd hk hn

theorem postorderBy_explores (label : α → κ) (next : α → List α) (labels : List κ)
    (roots : List α) :
    Explores label next labels labels (Reached label next labels roots) roots []
      (postorderBy label next labels roots) :=
  foldl_visit_explores (fun _ hr => hr) []

theorem nodup_postorderBy (label : α → κ) (next : α → List α) (labels : List κ)
    (roots : List α) : ((postorderBy label next labels roots).map label).Nodup :=
  (postorderBy_explores label next labels roots).nodup List.nodup_nil

theorem reached_of_mem_postorderBy {x : α} (h : x ∈ postorderBy label next labels roots) :
    Reached label next labels roots x :=
  ((postorderBy_explores label next labels roots).added x h List.not_mem_nil).2

/-- The label of a root is listed. -/
theorem label_mem_postorderBy {r : α} (hr : r ∈ roots) (hcounts : label r ∈ labels) :
    label r ∈ (postorderBy label next labels roots).map label :=
  (postorderBy_explores label next labels roots).covers r hr hcounts

/-- A single root is finished last. -/
theorem postorderBy_singleton (next : α → List α) {root : α} (h : label root ∈ labels) :
    postorderBy label next labels [root] =
      (next root).foldl (visit label next (without labels (label root))) [] ++ [root] := by
  rw [postorderBy, List.foldl_cons, List.foldl_nil, visit, dif_pos ⟨h, List.not_mem_nil⟩]

/-- What is not available can be left out. -/
theorem foldl_filter_visit {avail : List κ} {keep : α → Bool}
    (hkeep : ∀ a, label a ∈ avail → keep a = true) (l done : List α) :
    (l.filter keep).foldl (visit label next avail) done =
      l.foldl (visit label next avail) done := by
  rw [List.foldl_filter]
  congr 1
  funext done node
  split
  · rfl
  · rename_i hdrop
    rw [visit, dif_neg fun h => hdrop (hkeep node h.1)]

theorem visit_congr {next' : α → List α} {avail avail' : List κ} {keep : α → Bool}
    (hkeep : ∀ a, label a ∈ avail → keep a = true)
    (hnext : ∀ a, label a ∈ avail → next' a = (next a).filter keep)
    (havail : ∀ k, k ∈ avail ↔ k ∈ avail') (done : List α) (node : α) :
    visit label next avail done node = visit label next' avail' done node := by
  induction hlen : avail.length using Nat.strongRecOn generalizing avail avail' done node with
  | ind n ih =>
    rw [visit, visit]
    by_cases hvisit : label node ∈ avail ∧ label node ∉ done.map label
    · have hshrunk : ∀ k, k ∈ without avail (label node) ↔ k ∈ without avail' (label node) := by
        intro k
        rw [mem_without, mem_without, havail]
      rw [dif_pos hvisit, dif_pos ⟨(havail _).mp hvisit.1, hvisit.2⟩, hnext node hvisit.1,
        foldl_filter_visit fun a ha => hkeep a (mem_without.mp ((hshrunk _).mpr ha)).1]
      congr 2
      funext done child
      exact ih _ (hlen ▸ length_without_lt hvisit.1)
        (fun a ha => hkeep a (mem_without.mp ha).1) (fun a ha => hnext a (mem_without.mp ha).1)
        hshrunk done child rfl
    · rw [dif_neg hvisit, dif_neg fun h => hvisit ⟨(havail _).mpr h.1, h.2⟩]

/-- A search from a single root passes over all else that has its label. -/
theorem postorderBy_singleton_congr {next' : α → List α} {labels' : List κ} {root : α}
    (hroot : label root ∈ labels)
    (hnext : ∀ a, next' a = (next a).filter fun b => label b ≠ label root)
    (hlabels : ∀ k, k ∈ labels ↔ k ∈ labels') :
    postorderBy label next labels [root] = postorderBy label next' labels' [root] := by
  have hkeep : ∀ l a, label a ∈ without l (label root) → decide (label a ≠ label root) = true :=
    fun l a ha => decide_eq_true (mem_without.mp ha).2
  have hvisit : visit label next (without labels (label root)) =
      visit label next' (without labels' (label root)) := by
    refine funext₂ (visit_congr (hkeep labels) (fun a _ => hnext a) fun k => ?_)
    rw [mem_without, mem_without, hlabels]
  rw [postorderBy_singleton next hroot, postorderBy_singleton next' ((hlabels _).mp hroot),
    hnext root, foldl_filter_visit (hkeep labels'), hvisit]

namespace Separates

/-- The search lists exactly what its roots lead to. -/
theorem mem_postorderBy (h : Separates label next labels roots) {x : α} :
    x ∈ postorderBy label next labels roots ↔ Reached label next labels roots x := by
  have hsearch := postorderBy_explores label next labels roots
  have hmem : ∀ y, Reached label next labels roots y →
      label y ∈ (postorderBy label next labels roots).map label →
        y ∈ postorderBy label next labels roots := by
    intro y hy hlabel
    obtain ⟨z, hz, hsame⟩ := List.mem_map.mp hlabel
    exact h z y (reached_of_mem_postorderBy hz) hy hsame ▸ hz
  refine ⟨reached_of_mem_postorderBy, fun hx => ?_⟩
  obtain ⟨r, hr, hcounts, hway⟩ := hx
  induction hway with
  | refl => exact hmem r ⟨r, hr, hcounts, .refl⟩ (hsearch.covers r hr hcounts)
  | @tail y z hway hedge ih =>
    refine hmem z ⟨r, hr, hcounts, hway.tail hedge⟩ ?_
    exact (hsearch.closed y ih List.not_mem_nil z hedge).resolve_right fun hout => hout hedge.2

/-- A successor stands before its node, unless it leads back to the node. -/
theorem ordered (h : Separates label next labels roots) {l₁ l₂ : List α} {x y : α}
    (hsplit : postorderBy label next labels roots = l₁ ++ x :: l₂)
    (hy : EdgeBy label next labels x y) :
    y ∈ l₁ ∨ ReflTransGen (EdgeBy label next labels) y x := by
  have hlisted : ∀ z ∈ l₁ ++ x :: l₂, Reached label next labels roots z := by
    intro z hz
    exact reached_of_mem_postorderBy (hsplit ▸ hz)
  obtain ⟨r, hr, hcounts, hway⟩ := hlisted x (by simp)
  have hreached : Reached label next labels roots y := ⟨r, hr, hcounts, hway.tail hy⟩
  rcases (postorderBy_explores label next labels roots).ordered l₁ x l₂ hsplit List.not_mem_nil
    y hy with hbefore | ⟨z, hz, hsame, hback⟩
  · obtain ⟨z, hz, hsame⟩ := List.mem_map.mp hbefore
    left
    exact h z y (hlisted z (List.mem_append_left _ hz)) hreached hsame ▸ hz
  · right
    exact h z y hz hreached hsame ▸ hback

/-- A root stands before every node that neither it nor an earlier root leads to. -/
theorem root_before (h : Separates label next labels roots) {before after l₁ l₂ : List α} {r x : α}
    (hroots : roots = before ++ r :: after)
    (hsplit : postorderBy label next labels roots = l₁ ++ x :: l₂) (hr : label r ∈ labels)
    (hx : ¬ Reached label next labels (before ++ [r]) x) : r ∈ l₁ := by
  have hsub : ∀ r' ∈ before ++ [r], r' ∈ roots := by
    intro r' hr'
    rw [hroots, List.append_cons]
    exact List.mem_append_left after hr'
  have hrest : postorderBy label next labels roots =
      after.foldl (visit label next labels) (postorderBy label next labels (before ++ [r])) := by
    simp [postorderBy, hroots]
  have hafter : ∀ r' ∈ after, r' ∈ roots := by
    intro r' hr'
    rw [hroots]
    exact List.mem_append_right before (List.mem_cons_of_mem r hr')
  have hgrows : postorderBy label next labels (before ++ [r]) <+:
      postorderBy label next labels roots :=
    hrest ▸ (foldl_visit_explores hafter _).grows
  obtain ⟨t, ht⟩ := hgrows
  rw [hsplit] at ht
  rcases split_append ht with ⟨m, hm⟩ | hall
  · exact absurd (reached_of_mem_postorderBy (by simp [hm])) hx
  · have hearly : Separates label next labels (before ++ [r]) := by
      intro y z hy hz
      obtain ⟨s, hs, hy⟩ := hy
      obtain ⟨t, ht, hz⟩ := hz
      exact h y z ⟨s, hsub s hs, hy⟩ ⟨t, hsub t ht, hz⟩
    exact hall r (hearly.mem_postorderBy.mpr ⟨r, by simp, hr, .refl⟩)

end Separates

end Labels

/-! ## The plain search -/

theorem separates_id (next : α → List α) (nodes roots : List α) :
    Separates id next nodes roots :=
  fun _ _ _ _ hsame => hsame

section Listing
variable [DecidableEq α]

theorem nodup_postorder (next : α → List α) (nodes roots : List α) :
    (postorder next nodes roots).Nodup := by
  have hnodup := nodup_postorderBy id next nodes roots
  rwa [List.map_id] at hnodup

/-- The search lists exactly what its roots lead to. -/
theorem mem_postorder {roots : List α} {x : α} :
    x ∈ postorder next nodes roots ↔
      ∃ r ∈ roots, r ∈ nodes ∧ ReflTransGen (Edge next nodes) r x :=
  (separates_id next nodes roots).mem_postorderBy

theorem mem_of_mem_postorder {roots : List α} {x : α} (h : x ∈ postorder next nodes roots) :
    x ∈ nodes := by
  obtain ⟨r, _, hr, hp⟩ := mem_postorder.mp h
  cases hp with
  | refl => exact hr
  | tail _ hstep => exact hstep.2

/-- A successor stands before its node, unless it leads back to the node. -/
theorem postorder_ordered {roots l₁ l₂ : List α} {x y : α}
    (h : postorder next nodes roots = l₁ ++ x :: l₂) (hy : Edge next nodes x y) :
    y ∈ l₁ ∨ ReflTransGen (Edge next nodes) y x :=
  (separates_id next nodes roots).ordered h hy

theorem postorder_settled (hacyclic : Acyclic next nodes) (roots : List α) :
    Settled next nodes (postorder next nodes roots) := by
  intro l₁ x l₂ h y hy
  rcases postorder_ordered h hy with hm | hp
  · exact hm
  · exact absurd (TransGen.head' hy hp) (hacyclic x)

end Listing

/-! ## The search for a cycle -/

/-- What a search for an edge back into its path returns: a node on a cycle, or more finished nodes,
with every successor before its node. -/
def Sound (next : α → List α) (nodes roots done : List α) : Except α (List α) → Prop
  | .error target => target ∈ nodes ∧ TransGen (Edge next nodes) target target
  | .ok done' => done <+: done' ∧ (Settled next nodes done → Settled next nodes done') ∧
      ∀ r ∈ roots, r ∈ nodes → r ∈ done'

theorem Sound.foldlM {roots : List α} {f : List α → α → Except α (List α)}
    (hf : ∀ r ∈ roots, ∀ done, Sound next nodes [r] done (f done r)) (done : List α) :
    Sound next nodes roots done (roots.foldlM f done) := by
  induction roots generalizing done with
  | nil => exact ⟨List.prefix_rfl, id, by simp⟩
  | cons r rest ih =>
    rw [List.foldlM_cons]
    have hr := hf r List.mem_cons_self done
    cases hfr : f done r with
    | error target =>
      rw [hfr] at hr
      exact hr
    | ok mid =>
      rw [hfr] at hr
      obtain ⟨hgrows, hsettled, hmem⟩ := hr
      have hrest := ih (fun n hn => hf n (List.mem_cons_of_mem r hn)) mid
      show Sound next nodes (r :: rest) done (rest.foldlM f mid)
      cases hfm : rest.foldlM f mid with
      | error target =>
        rw [hfm] at hrest
        exact hrest
      | ok done' =>
        rw [hfm] at hrest
        obtain ⟨hgrows', hsettled', hmem'⟩ := hrest
        refine ⟨hgrows.trans hgrows', fun h => hsettled' (hsettled h), ?_⟩
        intro x hx hn
        rcases List.mem_cons.mp hx with rfl | hx
        · exact hgrows'.subset (hmem x List.mem_cons_self hn)
        · exact hmem' x hx hn

variable [DecidableEq α]

theorem descend_sound {avail path : List α} (done : List α) {node : α}
    (hsub : ∀ x ∈ avail, x ∈ nodes) (hcover : ∀ x ∈ nodes, x ∈ avail ∨ x ∈ path)
    (honPath : ∀ x ∈ path, x ∈ nodes)
    (hpath : node ∈ nodes → ∀ p ∈ path, TransGen (Edge next nodes) p node) :
    Sound next nodes [node] done (descend next avail path done node) := by
  induction hlen : avail.length using Nat.strongRecOn generalizing avail path done node with
  | ind n ih =>
    unfold descend
    split
    · rename_i hin
      exact ⟨honPath node hin, hpath (honPath node hin) node hin⟩
    · rename_i hout
      split
      · rename_i h
        obtain ⟨hnode, hfresh⟩ := h
        have hfold : Sound next nodes (next node) done ((next node).foldlM
            (fun done n => descend next (avail.erase node) (node :: path) done n) done) := by
          refine Sound.foldlM (fun child hchild done => ?_) done
          refine ih _ (hlen ▸ length_erase_lt hnode) done
            (fun x hx => hsub x (List.mem_of_mem_erase hx)) ?_ ?_ ?_ rfl
          · intro x hx
            by_cases he : x = node
            · exact Or.inr (he ▸ List.mem_cons_self)
            · exact (hcover x hx).imp (fun ha => (List.mem_erase_of_ne he).mpr ha)
                (List.mem_cons_of_mem node)
          · intro x hx
            rcases List.mem_cons.mp hx with rfl | hx
            · exact hsub x hnode
            · exact honPath x hx
          · intro hc p hp
            have hedge : Edge next nodes node child := ⟨hchild, hc⟩
            rcases List.mem_cons.mp hp with rfl | hp
            · exact TransGen.single hedge
            · exact (hpath (hsub node hnode) p hp).tail hedge
        cases hd : (next node).foldlM
            (fun done n => descend next (avail.erase node) (node :: path) done n) done with
        | error target =>
          rw [hd] at hfold
          exact hfold
        | ok done' =>
          rw [hd] at hfold
          obtain ⟨hgrows, hsettled, hmem⟩ := hfold
          refine ⟨hgrows.trans (List.prefix_append _ _), fun h => ?_, ?_⟩
          · exact (hsettled h).snoc fun y hy => hmem y hy.1 hy.2
          · intro r hr _
            rw [List.mem_singleton] at hr
            simp [hr]
      · rename_i h
        refine ⟨List.prefix_rfl, id, fun r hr hn => ?_⟩
        rw [List.mem_singleton] at hr
        subst hr
        by_contra hd
        exact h ⟨(hcover r hn).resolve_right hout, hd⟩

theorem backEdge?_sound (next : α → List α) (nodes : List α) :
    Sound next nodes nodes [] (nodes.foldlM (descend next nodes []) []) :=
  Sound.foldlM (fun _ _ done => descend_sound done (fun _ hx => hx) (fun _ hx => Or.inl hx)
    (by simp) (by simp)) []

theorem backEdge?_cycle {target : α} (h : backEdge? next nodes = some target) :
    target ∈ nodes ∧ TransGen (Edge next nodes) target target := by
  have hs := backEdge?_sound next nodes
  unfold backEdge? at h
  split at h
  · rename_i t ht
    rw [ht] at hs
    cases h
    exact hs
  · cases h

/-- The search finds a cycle if there is one. -/
theorem backEdge?_eq_none_iff : backEdge? next nodes = none ↔ Acyclic next nodes := by
  constructor
  · intro h
    have hs := backEdge?_sound next nodes
    unfold backEdge? at h
    split at h
    · cases h
    · rename_i done hd
      rw [hd] at hs
      exact (hs.2.1 Settled.nil).acyclic fun a ha => hs.2.2 a ha ha
  · intro h
    cases hb : backEdge? next nodes with
    | none => rfl
    | some target => exact absurd (backEdge?_cycle hb).2 (h target)

end ShaderVariants.Graph
