import ShaderVariants.Pipeline
import ShaderVariants.Proofs.Maps
import ShaderVariants.Proofs.Search

/-! # The order of worlds

Worlds are released one by one, a world only when no import into it comes from one that still waits.
So every world of the order stands behind all declared worlds that have imports into it
(`order_settled`), and behind all that reach it (`idxOf_lt_of_reaches`). Nothing is asked of the
imports: if they form a cycle, the worlds on it are never released. -/
namespace ShaderVariants

theorem pairwise_idxOf {α : Type} [DecidableEq α] {l : List α} (h : l.Nodup) :
    l.Pairwise fun x y => l.idxOf x < l.idxOf y := by
  rw [List.pairwise_iff_getElem]
  intro i j hi hj hij
  rw [h.idxOf_getElem i hi, h.idxOf_getElem j hj]
  exact hij

namespace Pipeline
open ShaderVariants.Graph Relation

/-- The worlds that have imports into a world. -/
def sources (imports : List Import) (world : String) : List String :=
  (imports.filter (·.target = world)).map Import.source

theorem mem_sources {imports : List Import} {u w : String} :
    u ∈ sources imports w ↔ ∃ i ∈ imports, i.source = u ∧ i.target = w := by
  simp only [sources, List.mem_map, List.mem_filter, decide_eq_true_eq]
  constructor
  · intro h
    obtain ⟨i, ⟨hi, htarget⟩, hsource⟩ := h
    exact ⟨i, hi, hsource, htarget⟩
  · intro h
    obtain ⟨i, hi, hsource, htarget⟩ := h
    exact ⟨i, ⟨hi, htarget⟩, hsource⟩

theorem mem_feeds {p : Pipeline} {u w : String} : w ∈ p.feeds u ↔ u ∈ sources p.imports w := by
  rw [mem_sources]
  simp only [feeds, List.mem_map, List.mem_filter, decide_eq_true_eq]
  constructor
  · intro h
    obtain ⟨i, ⟨hi, hsource⟩, htarget⟩ := h
    exact ⟨i, hi, hsource, htarget⟩
  · intro h
    obtain ⟨i, hi, hsource, htarget⟩ := h
    exact ⟨i, ⟨hi, hsource⟩, htarget⟩

theorem isReady_iff {imports : List Import} {waiting : List String} {w : String} :
    isReady imports waiting w = true ↔ ∀ u ∈ sources imports w, u ∉ waiting := by
  simp only [isReady, List.all_eq_true, Bool.or_eq_true, bne_iff_ne, Bool.not_eq_true',
    List.contains_eq_mem, decide_eq_false_iff_not, mem_sources]
  constructor
  · intro h u hu
    obtain ⟨i, hi, rfl, rfl⟩ := hu
    exact (h i hi).resolve_left fun hne => hne rfl
  · intro h i hi
    by_cases ht : i.target = w
    · exact Or.inr (h i.source ⟨i, hi, rfl, ht⟩)
    · exact Or.inl ht

theorem mem_of_mem_release {imports : List Import} {waiting : List String} {w : String}
    (h : w ∈ release imports waiting) : w ∈ waiting := by
  fun_induction release imports waiting with
  | case1 waiting hnone => cases h
  | case2 waiting v hv ih =>
    rcases List.mem_cons.mp h with rfl | h
    · exact List.mem_of_find?_eq_some hv
    · exact List.mem_of_mem_erase (ih h)

theorem nodup_release {imports : List Import} {waiting : List String} (h : waiting.Nodup) :
    (release imports waiting).Nodup := by
  fun_induction release imports waiting with
  | case1 waiting hnone => exact List.nodup_nil
  | case2 waiting v hv ih =>
    refine List.nodup_cons.mpr ⟨fun hm => ?_, ih (h.erase v)⟩
    exact h.not_mem_erase (mem_of_mem_release hm)

/-- A world is released behind those that waited with it and have imports into it. -/
theorem release_settled (imports : List Import) (waiting : List String) :
    Settled (sources imports) waiting (release imports waiting) := by
  fun_induction release imports waiting with
  | case1 waiting hnone => exact Settled.nil
  | case2 waiting v hv ih =>
    intro l₁ x l₂ hsplit y hy
    cases l₁ with
    | nil =>
      obtain ⟨rfl, _⟩ := List.cons.inj hsplit
      exact absurd hy.2 (isReady_iff.mp (List.find?_some hv) y hy.1)
    | cons z l₁ =>
      obtain ⟨rfl, hrest⟩ := List.cons.inj hsplit
      by_cases he : y = v
      · exact he ▸ List.mem_cons_self
      · refine List.mem_cons_of_mem v (ih l₁ x l₂ hrest y ⟨hy.1, ?_⟩)
        exact (List.mem_erase_of_ne he).mpr hy.2

variable (p : Pipeline)

theorem nodup_order : p.order.Nodup := nodup_release p.worlds.distinct

theorem order_settled : Settled (sources p.imports) p.worlds.keys p.order :=
  release_settled p.imports p.worlds.keys

variable {p}

theorem reaches_iff {u w : String} :
    p.reaches u w = true ↔
      u ∈ p.worlds.keys ∧ ReflTransGen (Edge p.feeds p.worlds.keys) u w := by
  rw [reaches, List.contains_iff_mem, mem_postorder]
  simp

/-- A path of imports, walked against their direction. -/
theorem sources_path {u w : String} (hu : u ∈ p.worlds.keys)
    (hp : ReflTransGen (Edge p.feeds p.worlds.keys) u w) :
    w ∈ p.worlds.keys ∧ ReflTransGen (Edge (sources p.imports) p.worlds.keys) w u := by
  induction hp with
  | refl => exact ⟨hu, .refl⟩
  | tail _ hstep ih =>
    obtain ⟨hb, hback⟩ := ih
    exact ⟨hstep.2, hback.head ⟨mem_feeds.mp hstep.1, hb⟩⟩

theorem idxOf_lt_of_reaches {u w : String} (hr : p.reaches u w = true) (hne : u ≠ w)
    (hw : w ∈ p.order) : u ∈ p.order ∧ p.order.idxOf u < p.order.idxOf w := by
  obtain ⟨hu, hpath⟩ := reaches_iff.mp hr
  have hback := (sources_path hu hpath).2
  rcases reflTransGen_iff_eq_or_transGen.mp hback with he | ht
  · exact absurd he hne
  · exact p.order_settled.path hw ht

end Pipeline

end ShaderVariants
