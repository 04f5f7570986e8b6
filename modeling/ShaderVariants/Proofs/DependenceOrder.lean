import ShaderVariants.Proofs.Maps
import ShaderVariants.Proofs.Search
import ShaderVariants.SymbolTable

/-! # The order of dependence

Shaders are listed by a search that passes over unknown names and over shaders whose names it has
met, and so cuts circles of uses where it meets them. No name is listed twice. If names tell apart
what the roots lead to (`Distinct`), the search lists all of that (`mem_dependencies`), and a used
shader before its user unless it leads back to it (`dependencies_ordered`). Circles elsewhere do not
disturb this. Where uses do not decide, the order of the roots does (`sublist_dependenceOrder`).

In a table that only grows every shader stands under its own name (`Named`), so the order of all
shaders follows their declarations as far as it can. Once a shader has taken the name of another,
only the names are sure to be listed (`dependenceOrder_ordered`). -/
namespace ShaderVariants
open Relation
open scoped List

theorem pair_sublist {α : Type} {l₁ l₂ : List α} {x y : α} (h : y ∈ l₁) :
    [y, x] <+ l₁ ++ x :: l₂ :=
  (List.singleton_sublist.mpr h).append (List.singleton_sublist.mpr List.mem_cons_self)

namespace Shaders
variable {shaders : Shaders} {roots : List Shader}

/-- One shader names the other, and that one is known. -/
def Uses (shaders : Shaders) (u m : Shader) : Prop :=
  ∃ name ∈ u.uses, shaders.find? name = some m

/-- Some of the roots are the shader or use it, directly or not. -/
def Leads (shaders : Shaders) (roots : List Shader) (m : Shader) : Prop :=
  ∃ r ∈ roots, ReflTransGen shaders.Uses r m

/-- What the roots lead to is told apart by names. -/
def Distinct (shaders : Shaders) (roots : List Shader) : Prop :=
  ∀ s t, shaders.Leads roots s → shaders.Leads roots t → s.name = t.name → s = t

theorem mem_values {s : Shader} : s ∈ shaders.values ↔ ∃ name, shaders.find? name = some s := by
  simp only [OrderedMap.values, List.mem_map, Prod.exists, OrderedMap.find?_eq_some_iff,
    exists_eq_right]

theorem mem_values_of_leads {m : Shader} (h : shaders.Leads shaders.values m) :
    m ∈ shaders.values := by
  obtain ⟨r, hr, hway⟩ := h
  cases hway with
  | refl => exact hr
  | tail _ huse =>
    obtain ⟨name, _, hfind⟩ := huse
    exact mem_values.mpr ⟨name, hfind⟩

/-! ## What a search lists -/

/-- Every known shader counts for the search. -/
theorem edgeBy_eq (shaders : Shaders) (roots : List Shader) :
    Graph.EdgeBy Shader.name shaders.used ((roots ++ shaders.values).map Shader.name) =
      shaders.Uses := by
  funext u m
  rw [Graph.EdgeBy, used, List.mem_filterMap]
  refine propext (and_iff_left_of_imp fun huse => ?_)
  obtain ⟨name, _, hfind⟩ := huse
  exact List.mem_map_of_mem (List.mem_append_right _ (mem_values.mpr ⟨name, hfind⟩))

theorem reached_iff {starts : List Shader} (h : ∀ r ∈ starts, r ∈ roots) {m : Shader} :
    Graph.Reached Shader.name shaders.used ((roots ++ shaders.values).map Shader.name) starts m ↔
      shaders.Leads starts m := by
  rw [Graph.Reached, edgeBy_eq]
  refine exists_congr fun r => and_congr_right fun hr => and_iff_right ?_
  exact List.mem_map_of_mem (List.mem_append_left _ (h r hr))

theorem Distinct.separates (h : shaders.Distinct roots) :
    Graph.Separates Shader.name shaders.used ((roots ++ shaders.values).map Shader.name) roots :=
  fun s t hs ht => h s t ((reached_iff fun _ hr => hr).mp hs) ((reached_iff fun _ hr => hr).mp ht)

theorem nodup_names_dependencies (shaders : Shaders) (roots : List Shader) :
    ((shaders.dependencies roots).map Shader.name).Nodup :=
  Graph.nodup_postorderBy _ _ _ _

theorem leads_of_mem_dependencies {m : Shader} (h : m ∈ shaders.dependencies roots) :
    shaders.Leads roots m :=
  (reached_iff fun _ hr => hr).mp (Graph.reached_of_mem_postorderBy h)

theorem name_mem_dependencies {r : Shader} (hr : r ∈ roots) :
    r.name ∈ (shaders.dependencies roots).map Shader.name :=
  Graph.label_mem_postorderBy hr (List.mem_map_of_mem (List.mem_append_left _ hr))

theorem mem_dependencies (h : shaders.Distinct roots) {m : Shader} :
    m ∈ shaders.dependencies roots ↔ shaders.Leads roots m :=
  h.separates.mem_postorderBy.trans (reached_iff fun _ hr => hr)

/-- A used shader stands before its user, unless it leads back to it. -/
theorem dependencies_ordered (h : shaders.Distinct roots) {u m : Shader}
    (hu : u ∈ shaders.dependencies roots) (huse : shaders.Uses u m)
    (hback : ¬ TransGen shaders.Uses m u) : [m, u] <+ shaders.dependencies roots := by
  obtain ⟨l₁, l₂, hsplit⟩ := List.append_of_mem hu
  have hedge := huse
  rw [← edgeBy_eq shaders roots] at hedge
  rcases h.separates.ordered hsplit hedge with hbefore | hway
  · exact hsplit ▸ pair_sublist hbefore
  · rw [edgeBy_eq] at hway
    rcases reflTransGen_iff_eq_or_transGen.mp hway with rfl | hway
    · exact absurd (.single huse) hback
    · exact absurd hway hback

/-! ## Shaders under their own names -/

/-- Every shader stands under its own name. -/
def Named (shaders : Shaders) : Prop :=
  ∀ name s, shaders.find? name = some s → s.name = name

theorem named_empty : Named ∅ := by
  intro name s hs
  cases hs

namespace Named

theorem insert (h : shaders.Named) (s : Shader) : Named (shaders.insert s.name s) := by
  intro name t ht
  rw [OrderedMap.find?_insert] at ht
  split at ht
  · rename_i hname
    rw [← Option.some.inj ht, hname]
  · exact h name t ht

theorem find?_name (h : shaders.Named) {s : Shader} (hs : s ∈ shaders.values) :
    shaders.find? s.name = some s := by
  obtain ⟨name, hfind⟩ := mem_values.mp hs
  exact h name s hfind ▸ hfind

theorem eq_of_name (h : shaders.Named) {s t : Shader} (hs : s ∈ shaders.values)
    (ht : t ∈ shaders.values) (hname : s.name = t.name) : s = t := by
  have hfind := h.find?_name hs
  rw [hname, h.find?_name ht] at hfind
  exact (Option.some.inj hfind).symm

theorem nodup_values (h : shaders.Named) : shaders.values.Nodup := by
  refine List.Nodup.of_map Shader.name ?_
  have hkeys : shaders.values.map Shader.name = shaders.keys := by
    rw [OrderedMap.values, List.map_map]
    exact List.map_congr_left fun e he => h e.1 e.2 (OrderedMap.find?_eq_some_iff.mpr he)
  exact hkeys ▸ shaders.nodup_keys

theorem distinct (h : shaders.Named) : shaders.Distinct shaders.values :=
  fun _ _ hs ht => h.eq_of_name (mem_values_of_leads hs) (mem_values_of_leads ht)

end Named

end Shaders

namespace SymbolTable
variable {table : SymbolTable}

theorem mem_values_of_mem_dependenceOrder {s : Shader} (h : s ∈ table.dependenceOrder) :
    s ∈ table.shaders.values :=
  Shaders.mem_values_of_leads (Shaders.leads_of_mem_dependencies h)

/-- The names that its shaders have, whatever they stand under. -/
def names (table : SymbolTable) : List String := table.shaders.values.map Shader.name

theorem nodup_names_dependenceOrder (table : SymbolTable) :
    (table.dependenceOrder.map Shader.name).Nodup :=
  table.shaders.nodup_names_dependencies table.shaders.values

theorem mem_names_dependenceOrder {name : String} :
    name ∈ table.dependenceOrder.map Shader.name ↔ name ∈ table.names := by
  refine ⟨fun hname => ?_, fun hname => ?_⟩
  · obtain ⟨s, hs, rfl⟩ := List.mem_map.mp hname
    exact List.mem_map_of_mem (mem_values_of_mem_dependenceOrder hs)
  · obtain ⟨s, hs, rfl⟩ := List.mem_map.mp hname
    exact Shaders.name_mem_dependencies hs

theorem perm_dependenceOrder (h : table.shaders.Named) :
    table.dependenceOrder.Perm table.shaders.values := by
  have hnodup : table.dependenceOrder.Nodup :=
    List.Nodup.of_map Shader.name table.nodup_names_dependenceOrder
  refine (List.perm_ext_iff_of_nodup hnodup h.nodup_values).mpr fun s => ?_
  refine ⟨mem_values_of_mem_dependenceOrder, fun hs => ?_⟩
  exact (Shaders.mem_dependencies h.distinct).mpr ⟨s, hs, .refl⟩

/-- A declaration that stands before another keeps its place before it, where neither it nor an
earlier one leads to that. -/
theorem sublist_dependenceOrder (h : table.shaders.Named) {before after : List Shader}
    {s t : Shader} (hsplit : table.shaders.values = before ++ s :: after) (ht : t ∈ after)
    (hfree : ∀ r ∈ before ++ [s], ¬ TransGen table.shaders.Uses r t) :
    [s, t] <+ table.dependenceOrder := by
  have hlate : t ∈ table.shaders.values := by simp [hsplit, ht]
  have hlisted : t ∈ table.dependenceOrder := (perm_dependenceOrder h).mem_iff.mpr hlate
  obtain ⟨l₁, l₂, horder⟩ := List.append_of_mem hlisted
  rw [horder]
  refine pair_sublist (h.distinct.separates.root_before hsplit horder ?_ fun hreached => ?_)
  · exact List.mem_map_of_mem (List.mem_append_left _ (by simp [hsplit]))
  · have hearly : ∀ r ∈ before ++ [s], r ∈ table.shaders.values := by
      intro r hr
      rw [hsplit, List.append_cons]
      exact List.mem_append_left after hr
    obtain ⟨r, hr, hway⟩ := (Shaders.reached_iff hearly).mp hreached
    rcases reflTransGen_iff_eq_or_transGen.mp hway with rfl | hway
    · -- the later declaration is not among the earlier ones
      have hnodup := h.nodup_values
      rw [hsplit, List.append_cons] at hnodup
      exact (List.nodup_append.mp hnodup).2.2 _ hr _ ht rfl
    · exact hfree r hr hway

/-- Only shaders of the table are listed, and the name of each exactly once. Where every shader
stands under its own name, each is listed once. One that another uses then stands before it, unless
it uses that other in turn, directly or not. Of two shaders the one that was declared first stands
first, unless it or one declared before it uses the other, directly or not. -/
theorem dependenceOrder_ordered (table : SymbolTable) :
    (∀ s ∈ table.dependenceOrder, s ∈ table.shaders.values) ∧
    (∀ s ∈ table.shaders.values, (table.dependenceOrder.map Shader.name).count s.name = 1) ∧
    (table.shaders.Named →
      table.dependenceOrder.Perm table.shaders.values ∧
      (∀ u ∈ table.shaders.values, ∀ m, table.shaders.Uses u m →
        ¬ TransGen table.shaders.Uses m u → [m, u] <+ table.dependenceOrder) ∧
      ∀ s t, [s, t] <+ table.shaders.values →
        (∀ r, r = s ∨ [r, s] <+ table.shaders.values → ¬ TransGen table.shaders.Uses r t) →
        [s, t] <+ table.dependenceOrder) := by
  refine ⟨fun s hs => mem_values_of_mem_dependenceOrder hs, fun s hs => ?_, fun hnamed =>
    ⟨perm_dependenceOrder hnamed, fun u hu m huse hback => ?_, fun s t hdeclared hfree => ?_⟩⟩
  · exact List.count_eq_one_of_mem table.nodup_names_dependenceOrder
      (Shaders.name_mem_dependencies hs)
  · exact Shaders.dependencies_ordered hnamed.distinct
      ((perm_dependenceOrder hnamed).mem_iff.mpr hu) huse hback
  · -- the two declarations, the second somewhere behind the first
    obtain ⟨front, back, hvalues, hs, ht⟩ := List.cons_sublist_iff.mp hdeclared
    obtain ⟨before, between, rfl⟩ := List.append_of_mem hs
    have hsplit : table.shaders.values = before ++ s :: (between ++ back) := by
      rw [hvalues, List.append_assoc, List.cons_append]
    refine sublist_dependenceOrder hnamed hsplit
      (List.mem_append_right _ (List.singleton_sublist.mp ht)) fun r hr => hfree r ?_
    rcases List.mem_append.mp hr with hr | hr
    · exact Or.inr (hsplit ▸ pair_sublist hr)
    · exact Or.inl (List.mem_singleton.mp hr)

end SymbolTable

/-! ## A table with a circle -/

def skinShader : Shader where
  name := "skin"
  pipeline := "forward"
  uses := ["layers", "missing"]

def skyShader : Shader where
  name := "sky"
  pipeline := "forward"

def layersModule : Shader where
  name := "layers"
  pipeline := "forward"
  isModule := true
  uses := ["wave"]

def waveModule : Shader where
  name := "wave"
  pipeline := "forward"
  isModule := true
  uses := ["grain"]

/-- Uses the module that uses it. -/
def grainModule : Shader where
  name := "grain"
  pipeline := "forward"
  isModule := true
  uses := ["wave"]

def skinSymbols : SymbolTable :=
  [skinShader, skyShader, layersModule, waveModule, grainModule].foldl SymbolTable.addShader {}

theorem named_skinSymbols : skinSymbols.shaders.Named :=
  ((((Shaders.named_empty.insert skinShader).insert skyShader).insert layersModule).insert
    waveModule).insert grainModule

theorem used_skinShader {s : Shader} (h : TransGen skinSymbols.shaders.Uses skinShader s) :
    s = layersModule ∨ s = waveModule ∨ s = grainModule := by
  have hmissing : skinSymbols.shaders.find? "missing" = none := rfl
  have hlayers : skinSymbols.shaders.find? "layers" = some layersModule := rfl
  have hwave : skinSymbols.shaders.find? "wave" = some waveModule := rfl
  have hgrain : skinSymbols.shaders.find? "grain" = some grainModule := rfl
  induction h with
  | single huse =>
    obtain ⟨name, hname, hs⟩ := huse
    rcases List.mem_pair.mp hname with rfl | rfl
    · exact Or.inl (Option.some.inj (hs.symm.trans hlayers))
    · cases hmissing.symm.trans hs
  | tail _ huse ih =>
    obtain ⟨name, hname, hs⟩ := huse
    rcases ih with rfl | rfl | rfl
    · rw [List.mem_singleton.mp hname] at hs
      exact Or.inr (Or.inl (Option.some.inj (hs.symm.trans hwave)))
    · rw [List.mem_singleton.mp hname] at hs
      exact Or.inr (Or.inr (Option.some.inj (hs.symm.trans hgrain)))
    · rw [List.mem_singleton.mp hname] at hs
      exact Or.inr (Or.inl (Option.some.inj (hs.symm.trans hwave)))

theorem not_used_skinShader {s : Shader} (hname : s.name ∈ ["skin", "sky"]) :
    ¬ TransGen skinSymbols.shaders.Uses skinShader s := by
  intro hway
  rcases used_skinShader hway with rfl | rfl | rfl <;> revert hname <;> decide

/-- The layers stand before the skin that uses them, and the skin before the sky that was declared
later. The circle of the other two does not matter. -/
theorem dependenceOrder_ordered_skinSymbols :
    skinSymbols.shaders.Named ∧ [layersModule, skinShader] <+ skinSymbols.dependenceOrder ∧
      [skinShader, skyShader] <+ skinSymbols.dependenceOrder := by
  obtain ⟨_, _, hordered⟩ := SymbolTable.dependenceOrder_ordered skinSymbols
  obtain ⟨_, hused, hdeclared⟩ := hordered named_skinSymbols
  have hvalues : skinSymbols.shaders.values =
      skinShader :: skyShader :: [layersModule, waveModule, grainModule] := rfl
  have huse : skinSymbols.shaders.Uses skinShader layersModule :=
    ⟨"layers", List.mem_cons_self, rfl⟩
  refine ⟨named_skinSymbols, hused skinShader List.mem_cons_self layersModule huse ?_,
    hdeclared skinShader skyShader ?_ ?_⟩
  · exact fun hback => not_used_skinShader (by decide) (TransGen.head huse hback)
  · have hpair : [skinShader, skyShader] <+
        [skinShader] ++ skyShader :: [layersModule, waveModule, grainModule] :=
      pair_sublist List.mem_cons_self
    exact hvalues ▸ hpair
  · intro r hr
    rcases hr with rfl | hbefore
    · exact not_used_skinShader (by decide)
    · -- nothing was declared before the skin
      rw [hvalues] at hbefore
      have hlater : skinShader ∈ skyShader :: [layersModule, waveModule, grainModule] := by
        cases hbefore with
        | cons _ hrest => exact hrest.subset (by simp)
        | cons_cons _ hrest => exact hrest.subset List.mem_cons_self
      exact absurd (List.mem_map_of_mem (f := Shader.name) hlater) (by decide)

/-- A shader that took the name of the module it uses is listed in its place. -/
example : ((skinSymbols.modifyShader "skin" ({ · with name := "layers" })).dependenceOrder.map
    Shader.uses) = [["layers", "missing"], [], ["wave"], ["grain"]] := by
  decide +kernel

end ShaderVariants
