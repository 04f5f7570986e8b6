import ShaderVariants.Closure
import ShaderVariants.Proofs.DependenceOrder

/-! # What a closure inherits

A closure is filled by a search that starts at its shader, which need not be the one that the table
has under that name. Whatever has that name in the table is never entered. So the search is one
among the other shaders (`Named.dependencies_beside`), and the shader itself comes last, behind all
that it inherits (`Named.lineage`).

Components of one name replace each other where the first of them stands. The last shader of the
search that declares a component decides about it (`find?_ofList_declarations`), and what is
inherited stands before what is not (`ofShader_inherits`). -/
namespace ShaderVariants
open Relation
open scoped List

/-- A shader has a component of that name. -/
def Shader.Declares (s : Shader) (name : String) : Prop := name ∈ s.components.keys

namespace Shaders
variable {shaders : Shaders}

/-- All but the shader of that name. -/
def beside (shaders : Shaders) (name : String) : Shaders := shaders.filter fun key _ => key != name

/-- A shader, which need not be known itself, uses the other, directly or not. Whatever is known
under its own name counts as unknown. -/
def Inherits (shaders : Shaders) (root m : Shader) : Prop :=
  TransGen (shaders.beside root.name).Uses root m

theorem find?_beside (shaders : Shaders) (name key : String) :
    (shaders.beside name).find? key = if key = name then none else shaders.find? key := by
  rw [beside, OrderedMap.find?_filter]
  by_cases h : key = name <;> cases shaders.find? key <;> simp [h]

theorem find?_beside_eq_some {name key : String} {s : Shader} :
    (shaders.beside name).find? key = some s ↔ key ≠ name ∧ shaders.find? key = some s := by
  rw [find?_beside]
  split <;> simp [*]

theorem mem_values_of_inherits {root m : Shader} (h : shaders.Inherits root m) :
    m ∈ (shaders.beside root.name).values := by
  obtain ⟨_, _, key, _, hfind⟩ := TransGen.tail'_iff.mp h
  exact mem_values.mpr ⟨key, hfind⟩

theorem leads_root_iff {root m : Shader} :
    (shaders.beside root.name).Leads [root] m ↔ m = root ∨ shaders.Inherits root m := by
  rw [Leads, Inherits]
  simp only [List.mem_singleton, exists_eq_left]
  exact reflTransGen_iff_eq_or_transGen

namespace Named

theorem mem_values_beside (h : shaders.Named) {name : String} {s : Shader} :
    s ∈ (shaders.beside name).values ↔ s ∈ shaders.values ∧ s.name ≠ name := by
  simp only [mem_values, find?_beside_eq_some]
  constructor
  · rintro ⟨key, hkey, hfind⟩
    exact ⟨⟨key, hfind⟩, h key s hfind ▸ hkey⟩
  · rintro ⟨⟨key, hfind⟩, hname⟩
    exact ⟨key, h key s hfind ▸ hname, hfind⟩

theorem used_beside (h : shaders.Named) (name : String) (s : Shader) :
    (shaders.beside name).used s = (shaders.used s).filter fun m => m.name ≠ name := by
  rw [used, used, List.filter_filterMap]
  refine List.filterMap_congr fun key _ => Option.ext fun m => ?_
  rw [find?_beside_eq_some, Option.filter_eq_some_iff, decide_eq_true_eq, and_comm]
  exact and_congr_right fun hfind => by rw [h key m hfind]

/-- The search passes over what the table has under the name of its root. -/
theorem dependencies_beside (h : shaders.Named) (root : Shader) :
    shaders.dependencies [root] = (shaders.beside root.name).dependencies [root] := by
  refine Graph.postorderBy_singleton_congr List.mem_cons_self (h.used_beside root.name) fun k => ?_
  simp only [List.singleton_append, List.map_cons, List.mem_cons, List.mem_map,
    h.mem_values_beside]
  by_cases hk : k = root.name
  · simp [hk]
  · refine or_congr_right (exists_congr fun s => and_congr_left fun hs => ?_)
    exact (and_iff_left (hs ▸ hk)).symm

theorem distinct_beside (h : shaders.Named) (root : Shader) :
    (shaders.beside root.name).Distinct [root] := by
  intro s t hs ht hname
  have hother : ∀ {m}, shaders.Inherits root m → m ∈ shaders.values ∧ m.name ≠ root.name :=
    fun hm => h.mem_values_beside.mp (mem_values_of_inherits hm)
  rcases leads_root_iff.mp hs with rfl | hs
  · rcases leads_root_iff.mp ht with rfl | ht
    · rfl
    · exact absurd hname.symm (hother ht).2
  · rcases leads_root_iff.mp ht with rfl | ht
    · exact absurd hname (hother hs).2
    · exact h.eq_of_name (hother hs).1 (hother ht).1 hname

/-- A search from a shader lists what it inherits, and then the shader. -/
theorem lineage (h : shaders.Named) (root : Shader) : ∃ inherited,
    shaders.dependencies [root] = inherited ++ [root] ∧
      ∀ m, m ∈ inherited ↔ shaders.Inherits root m := by
  obtain ⟨inherited, hlist⟩ : ∃ inherited, shaders.dependencies [root] = inherited ++ [root] :=
    ⟨_, Graph.postorderBy_singleton _ List.mem_cons_self⟩
  have hnodup := shaders.nodup_names_dependencies [root]
  have hmem : ∀ m, m ∈ inherited ++ [root] ↔ m = root ∨ shaders.Inherits root m := by
    intro m
    rw [← hlist, h.dependencies_beside, mem_dependencies (h.distinct_beside root), leads_root_iff]
  rw [hlist, List.map_append] at hnodup
  refine ⟨inherited, hlist, fun m => ⟨fun hm => ?_, fun hm => ?_⟩⟩
  · refine ((hmem m).mp (List.mem_append_left _ hm)).resolve_left fun hroot => ?_
    exact (List.nodup_append.mp hnodup).2.2 m.name (List.mem_map_of_mem hm) root.name
      List.mem_cons_self (congrArg Shader.name hroot)
  · rcases List.mem_append.mp ((hmem m).mpr (Or.inr hm)) with hlisted | hroot
    · exact hlisted
    · have hname := (h.mem_values_beside.mp (mem_values_of_inherits hm)).2
      exact absurd (congrArg Shader.name (List.mem_singleton.mp hroot)) hname

end Named

end Shaders

/-! ## Components gathered in order -/

/-- The components of the shaders, each with its name. -/
def declarations (shaders : List Shader) : List (String × Component) :=
  shaders.flatMap (·.components.entries)

theorem mem_names_declarations {shaders : List Shader} {name : String} :
    name ∈ (declarations shaders).map Prod.fst ↔ ∃ s ∈ shaders, s.Declares name := by
  rw [declarations, List.map_flatMap, List.mem_flatMap]
  rfl

theorem declarations_append (l l' : List Shader) :
    declarations (l ++ l') = declarations l ++ declarations l' :=
  List.flatMap_append

theorem mem_keys_ofList_declarations {shaders : List Shader} {name : String} :
    name ∈ (OrderedMap.ofList (declarations shaders)).keys ↔ ∃ s ∈ shaders, s.Declares name := by
  rw [OrderedMap.ofList, OrderedMap.mem_keys_insertAll, mem_names_declarations]
  exact or_iff_right List.not_mem_nil

/-- The last shader that declares a component decides about it. -/
theorem find?_ofList_declarations (shaders : List Shader) (name : String) :
    (OrderedMap.ofList (declarations shaders)).find? name =
      (shaders.filterMap (·.components.find? name)).getLast? := by
  have hmerge := OrderedMap.find?_insertAll_flatMap .empty
    (shaders.map fun s => s.components.toOrderedMap) name
  rw [List.flatMap_map, List.filterMap_map] at hmerge
  exact hmerge.trans Option.or_none

/-- What stands before a shader that declares a component has no say in it. -/
theorem exists_keeper (before : List Shader) {after : List Shader} {s : Shader} {name : String}
    (h : s.Declares name) : ∃ keeper ∈ s :: after, keeper.Declares name ∧
      (OrderedMap.ofList (declarations (before ++ s :: after))).find? name =
        keeper.components.find? name := by
  obtain ⟨own, hown⟩ := Option.isSome_iff_exists.mp (OrderedMap.find?_isSome_iff.mpr h)
  have hmem : own ∈ (s :: after).filterMap (·.components.find? name) :=
    List.mem_filterMap.mpr ⟨s, List.mem_cons_self, hown⟩
  obtain ⟨c, hc⟩ := Option.isSome_iff_exists.mp
    (List.getLast?_isSome.mpr (List.ne_nil_of_mem hmem))
  obtain ⟨keeper, hkeeper, hfind⟩ := List.mem_filterMap.mp (List.mem_of_getLast? hc)
  refine ⟨keeper, hkeeper, OrderedMap.find?_isSome_iff.mp (hfind ▸ rfl), ?_⟩
  rw [find?_ofList_declarations, List.filterMap_append, List.getLast?_append, hc, hfind]
  rfl

/-- Nor has a shader that stands before such a one. -/
theorem exists_keeper_ne {shaders : List Shader} {m n : Shader} {name : String}
    (hnodup : shaders.Nodup) (horder : [n, m] <+ shaders) (h : m.Declares name) :
    ∃ keeper ∈ shaders, keeper ≠ n ∧ keeper.Declares name ∧
      (OrderedMap.ofList (declarations shaders)).find? name = keeper.components.find? name := by
  obtain ⟨front, back, rfl, hn, hm⟩ := List.cons_sublist_iff.mp horder
  obtain ⟨between, behind, rfl⟩ := List.append_of_mem (List.singleton_sublist.mp hm)
  obtain ⟨keeper, hkeeper, hdeclares, hfind⟩ := exists_keeper (front ++ between) h
  have hback : keeper ∈ between ++ m :: behind := List.mem_append_right between hkeeper
  rw [List.append_assoc] at hfind
  refine ⟨keeper, List.mem_append_right front hback, ?_, hdeclares, hfind⟩
  exact fun hsame => (List.nodup_append.mp hnodup).2.2 n hn keeper hback hsame.symm

/-- What the last shader adds stands behind what the others declare. -/
theorem keys_ofList_declarations_concat (shaders : List Shader) (root : Shader) :
    ∃ inherited own,
      (OrderedMap.ofList (declarations (shaders ++ [root]))).keys = inherited ++ own ∧
      (∀ name ∈ inherited, ∃ s ∈ shaders, s.Declares name) ∧
      ∀ name ∈ own, root.Declares name ∧ ∀ s ∈ shaders, ¬ s.Declares name := by
  rw [declarations_append, OrderedMap.ofList_append, OrderedMap.keys_insertAll]
  refine ⟨_, _, rfl, fun name hname => mem_keys_ofList_declarations.mp hname, ?_⟩
  intro name hname
  rw [List.mem_eraseDups, List.mem_filter, mem_names_declarations, decide_eq_true_eq,
    mem_keys_ofList_declarations] at hname
  obtain ⟨⟨s, hs, hdeclares⟩, hnew⟩ := hname
  rw [List.mem_singleton] at hs
  exact ⟨hs ▸ hdeclares, fun s' hs' hdeclares' => hnew ⟨s', hs', hdeclares'⟩⟩

namespace Closure

theorem components_foldl_addComponent (closure : Closure) (cs : List Component) :
    (cs.foldl addComponent closure).components.toOrderedMap =
      closure.components.insertAll (cs.map fun c => (c.name, c)) := by
  rw [OrderedMap.insertAll, List.foldl_map]
  exact (List.foldl_hom (fun c : Closure => c.components.toOrderedMap) fun _ _ => rfl).symm

theorem ofShader_eq {symbols : SymbolTable} {root : Shader}
    (h : root.pipeline ∈ symbols.pipelines.keys) :
    ∃ closure, ofShader symbols root = .ok closure ∧
      closure.components.toOrderedMap =
        .ofList (declarations (symbols.shaders.dependencies [root])) := by
  obtain ⟨pipeline, hpipeline⟩ := Option.isSome_iff_exists.mp (OrderedMap.find?_isSome_iff.mpr h)
  refine ⟨_, by rw [ofShader, hpipeline], ?_⟩
  rw [components_foldl_addComponent, List.map_flatMap, declarations]
  simp only [Components.map_name_values]
  rfl

/-- A closure has the components that its shader or an inherited one declares. The shader's own
version of a component is kept where there is one. Of two inherited shaders, one of which uses the
other without being used by it in turn, the used one never decides. What the shader adds stands
behind what it inherits. -/
theorem ofShader_inherits {symbols : SymbolTable} {root : Shader} (hnamed : symbols.shaders.Named)
    (hpipeline : root.pipeline ∈ symbols.pipelines.keys) :
    ∃ closure, ofShader symbols root = .ok closure ∧
      (∀ name, name ∈ closure.components.keys ↔
        root.Declares name ∨ ∃ m, symbols.shaders.Inherits root m ∧ m.Declares name) ∧
      (∀ name, root.Declares name → closure.components.find? name = root.components.find? name) ∧
      (∀ m n, symbols.shaders.Inherits root m → symbols.shaders.Inherits root n →
        (symbols.shaders.beside root.name).Uses m n →
        ¬ TransGen (symbols.shaders.beside root.name).Uses n m →
        ∀ name, m.Declares name → n.Declares name →
          ∃ keeper, (keeper = root ∨ symbols.shaders.Inherits root keeper) ∧ keeper ≠ n ∧
            keeper.Declares name ∧ closure.components.find? name = keeper.components.find? name) ∧
      ∃ inherited own, closure.components.keys = inherited ++ own ∧
        (∀ name ∈ inherited, ∃ m, symbols.shaders.Inherits root m ∧ m.Declares name) ∧
        ∀ name ∈ own, root.Declares name ∧
          ∀ m, symbols.shaders.Inherits root m → ¬ m.Declares name := by
  obtain ⟨closure, hclosure, hcomponents⟩ := ofShader_eq hpipeline
  obtain ⟨inherited, hlist, hinherits⟩ := hnamed.lineage root
  have hlineage : ∀ m, m ∈ inherited ++ [root] ↔ m = root ∨ symbols.shaders.Inherits root m := by
    intro m
    rw [List.mem_append, hinherits, List.mem_singleton, or_comm]
  rw [hlist] at hcomponents
  refine ⟨closure, hclosure, fun name => ?_, fun name hown => ?_, ?_, ?_⟩
  · rw [hcomponents, mem_keys_ofList_declarations]
    simp only [hlineage, or_and_right, exists_or, exists_eq_left]
  · obtain ⟨keeper, hkeeper, _, hfind⟩ := exists_keeper _ hown
    rw [hcomponents, hfind, List.mem_singleton.mp hkeeper]
  · intro m n hm _ huse hback name hdeclares _
    have hnodup : (inherited ++ [root]).Nodup :=
      hlist ▸ List.Nodup.of_map Shader.name (Shaders.nodup_names_dependencies _ _)
    have horder : [n, m] <+ inherited ++ [root] := by
      rw [← hlist, hnamed.dependencies_beside]
      refine Shaders.dependencies_ordered (hnamed.distinct_beside root) ?_ huse hback
      rw [← hnamed.dependencies_beside, hlist, hlineage]
      exact Or.inr hm
    obtain ⟨keeper, hkeeper, hne, hkeeps, hfind⟩ := exists_keeper_ne hnodup horder hdeclares
    exact ⟨keeper, (hlineage keeper).mp hkeeper, hne, hkeeps, hcomponents ▸ hfind⟩
  · obtain ⟨early, own, hkeys, hearly, hown⟩ := keys_ofList_declarations_concat inherited root
    refine ⟨early, own, hcomponents ▸ hkeys, fun name hname => ?_, fun name hname => ?_⟩
    · obtain ⟨m, hm, hdeclares⟩ := hearly name hname
      exact ⟨m, (hinherits m).mp hm, hdeclares⟩
    · obtain ⟨hdeclares, hother⟩ := hown name hname
      exact ⟨hdeclares, fun m hm => hother m ((hinherits m).mpr hm)⟩

end Closure

/-! ## A table with circles -/

/-- A component with one plain implementation. -/
def plainComponent (name value : String) : Component :=
  Component.implement { name, dataType := "float" }
    { worlds := .ofList ["fs"], body := .expr (.literal value {}) }

def noiseModule : Shader where
  name := "noise"
  pipeline := "forward"
  uses := ["common"]
  components := .ofList [plainComponent "rough" "0.1"]

def commonModule : Shader where
  name := "common"
  pipeline := "forward"
  uses := ["noise"]
  components := .ofList [plainComponent "rough" "0.2", plainComponent "depth" "0"]

/-- Uses the shader that uses it. -/
def baseModule : Shader where
  name := "base"
  pipeline := "forward"
  uses := ["lit", "common"]
  components := .ofList [plainComponent "rough" "0.5", plainComponent "metal" "0"]

def detailModule : Shader where
  name := "detail"
  pipeline := "forward"
  uses := ["base"]
  components := .ofList [plainComponent "rough" "0.7"]

def litModule : Shader where
  name := "lit"
  pipeline := "forward"
  uses := ["detail", "base", "missing"]
  components := .ofList [plainComponent "metal" "1", plainComponent "color" "1"]

def litSymbols : SymbolTable :=
  [litModule, detailModule, baseModule, commonModule, noiseModule].foldl SymbolTable.addShader
    (({} : SymbolTable).addPipeline
      { name := "forward", worlds := .ofList [("fs", { name := "fs" })] })

theorem named_litSymbols : litSymbols.shaders.Named :=
  ((((Shaders.named_empty.insert litModule).insert detailModule).insert baseModule).insert
    commonModule).insert noiseModule

/-- The base leads to the two that use each other. To the detail that uses it there is a way only
through the shader itself. -/
theorem not_uses_detailModule :
    ¬ TransGen (litSymbols.shaders.beside "lit").Uses baseModule detailModule := by
  have hlit : (litSymbols.shaders.beside "lit").find? "lit" = none := rfl
  have hcommon : (litSymbols.shaders.beside "lit").find? "common" = some commonModule := rfl
  have hnoise : (litSymbols.shaders.beside "lit").find? "noise" = some noiseModule := rfl
  have hstays : ∀ s, TransGen (litSymbols.shaders.beside "lit").Uses baseModule s →
      s = commonModule ∨ s = noiseModule := by
    intro s hs
    induction hs with
    | single huse =>
      obtain ⟨name, hname, hs⟩ := huse
      rcases List.mem_pair.mp hname with rfl | rfl
      · cases hlit.symm.trans hs
      · exact Or.inl (Option.some.inj (hs.symm.trans hcommon))
    | tail _ huse ih =>
      obtain ⟨name, hname, hs⟩ := huse
      rcases ih with rfl | rfl
      · rw [List.mem_singleton.mp hname] at hs
        exact Or.inr (Option.some.inj (hs.symm.trans hnoise))
      · rw [List.mem_singleton.mp hname] at hs
        exact Or.inl (Option.some.inj (hs.symm.trans hcommon))
  intro hback
  rcases hstays _ hback with h | h
  · exact absurd (congrArg Shader.name h) (by decide)
  · exact absurd (congrArg Shader.name h) (by decide)

/-- The shader keeps its own metal. The roughness of the base gives way to that of another, since
the detail uses the base and has a roughness too. -/
theorem ofShader_inherits_litSymbols :
    ∃ closure, Closure.ofShader litSymbols litModule = .ok closure ∧
      "depth" ∈ closure.components.keys ∧
      closure.components.find? "metal" = litModule.components.find? "metal" ∧
      ∃ keeper, keeper ≠ baseModule ∧ keeper.Declares "rough" ∧
        closure.components.find? "rough" = keeper.components.find? "rough" := by
  have hdetail : litSymbols.shaders.Inherits litModule detailModule :=
    .single ⟨"detail", List.mem_cons_self, rfl⟩
  have huse : (litSymbols.shaders.beside "lit").Uses detailModule baseModule :=
    ⟨"base", List.mem_cons_self, rfl⟩
  have hbase : litSymbols.shaders.Inherits litModule baseModule := hdetail.tail huse
  have hcommon : litSymbols.shaders.Inherits litModule commonModule :=
    hbase.tail ⟨"common", List.mem_cons_of_mem _ List.mem_cons_self, rfl⟩
  have hpipeline : litModule.pipeline ∈ litSymbols.pipelines.keys := List.mem_cons_self
  obtain ⟨closure, hclosure, hkeys, hown, hkept, _⟩ :=
    Closure.ofShader_inherits named_litSymbols hpipeline
  obtain ⟨keeper, _, hne, hdeclares, hfind⟩ := hkept detailModule baseModule hdetail hbase huse
    not_uses_detailModule "rough" List.mem_cons_self List.mem_cons_self
  refine ⟨closure, hclosure, ?_, hown "metal" List.mem_cons_self, keeper, hne,
    hdeclares, hfind⟩
  exact (hkeys "depth").mpr
    (Or.inr ⟨commonModule, hcommon, List.mem_cons_of_mem _ List.mem_cons_self⟩)

end ShaderVariants
