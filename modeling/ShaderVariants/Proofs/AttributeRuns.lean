import Mathlib.Algebra.Order.BigOperators.Group.List
import Mathlib.Algebra.Order.Group.Nat
import ShaderVariants.Proofs.DependenceOrder
import ShaderVariants.Proofs.References

/-! # Runs over the attributes of all closures

A run takes the closures of the shaders in the order of dependence (`resolveAll_eq`). No name is
listed twice, so each closure has one turn, however the shaders use each other, and the rest are
left alone (`resolveAll_meaning`).

Calls on one context run over the same closures again. The pointers of a closure come to an end
whatever circles they make, so the runs do (`runs_settle`). -/
namespace ShaderVariants

open Indirection

/-! ## One run -/

/-- The closure after its turn. -/
def Closure.followed (closure : Closure) : Closure :=
  { closure with components := (resolve closure.components {}).1 }

namespace Closures

/-- The references of one closure that lead somewhere. -/
def references (closures : Closures) (name : String) : List AttributeSlot :=
  (closures.find? name).elim [] fun closure =>
    (AttributeSlot.all closure.components).filter (·.isReference closure.components)

/-- Those that do not. -/
def dangling (closures : Closures) (name : String) : List AttributeSlot :=
  (closures.find? name).elim [] fun closure =>
    (AttributeSlot.all closure.components).filter fun slot =>
      slot.isMarked closure.components && !slot.isReference closure.components

end Closures

namespace Indirection

/-- Resolve one closure, and count its references as they were. -/
def turn (state : Closures × IndirectionCount) (name : String) : Closures × IndirectionCount :=
  (state.1.modify name Closure.followed,
    { resolved := state.2.resolved + (state.1.references name).length
      unresolved := state.2.unresolved + (state.1.dangling name).length })

theorem resolveAll_eq (symbols : SymbolTable) (closures : Closures) :
    resolveAll symbols closures =
      (symbols.dependenceOrder.map Shader.name).foldl turn (closures, {}) := by
  rw [List.foldl_map, resolveAll]
  congr 1
  funext ⟨closures, count⟩ shader
  dsimp only [turn, Closures.references, Closures.dangling]
  cases hfind : closures.find? shader.name with
  | none =>
    have habsent : closures.modify shader.name Closure.followed = closures :=
      OrderedMap.modify_of_absent hfind _
    rw [habsent]
    rfl
  | some closure =>
    have hcomponents : closures.modify shader.name (fun c =>
        { c with components := (resolve closure.components count).1 }) =
          closures.modify shader.name Closure.followed := by
      refine OrderedMap.modify_congr fun c hc => ?_
      obtain rfl : closure = c := Option.some.inj (hfind.symm.trans hc)
      rw [resolve_fst]
      rfl
    simp only [hcomponents, count_resolve, Option.elim_some]

theorem fst_foldl_turn (names : List String) (state : Closures × IndirectionCount) :
    (names.foldl turn state).1 =
      names.foldl (fun closures name => closures.modify name Closure.followed) state.1 := by
  induction names generalizing state with
  | nil => rfl
  | cons name rest ih => exact ih (turn state name)

/-- A closure has a turn each time its name is listed. -/
theorem find?_resolveAll (symbols : SymbolTable) (closures : Closures) (name : String) :
    (resolveAll symbols closures).1.find? name = (closures.find? name).map
      Closure.followed^[(symbols.dependenceOrder.map Shader.name).count name] := by
  rw [resolveAll_eq, fst_foldl_turn, OrderedMap.find?_foldl_modify]

theorem keys_resolveAll (symbols : SymbolTable) (closures : Closures) :
    (resolveAll symbols closures).1.keys = closures.keys := by
  rw [resolveAll_eq, fst_foldl_turn, OrderedMap.keys_foldl_modify]

theorem count_foldl_turn {names : List String} (hnodup : names.Nodup) (closures : Closures)
    (count : IndirectionCount) :
    (names.foldl turn (closures, count)).2 =
      { resolved := count.resolved + (names.flatMap closures.references).length
        unresolved := count.unresolved + (names.flatMap closures.dangling).length } := by
  induction names generalizing closures count with
  | nil => rfl
  | cons name rest ih =>
    obtain ⟨hnew, hrest⟩ := List.nodup_cons.mp hnodup
    have hothers : ∀ n ∈ rest,
        (closures.modify name Closure.followed).find? n = closures.find? n := fun n hn => by
      rw [OrderedMap.find?_modify, if_neg fun he : name = n => hnew (he ▸ hn)]
    let next : Closures := closures.modify name Closure.followed
    have hreferences : rest.flatMap next.references = rest.flatMap closures.references :=
      List.flatMap_congr fun n hn => by rw [Closures.references, hothers n hn, Closures.references]
    have hdangling : rest.flatMap next.dangling = rest.flatMap closures.dangling :=
      List.flatMap_congr fun n hn => by rw [Closures.dangling, hothers n hn, Closures.dangling]
    rw [List.foldl_cons, turn, ih hrest, hreferences, hdangling]
    simp only [List.flatMap_cons, List.length_append, Nat.add_assoc]

/-- What has nothing to add can be left out of either list. -/
theorem length_flatMap_of_nodup {α β : Type} [DecidableEq α] {l l' : List α} {f : α → List β}
    (hl : l.Nodup) (hl' : l'.Nodup) (hf : ∀ x ∉ l', f x = []) :
    (l.flatMap f).length = ((l'.filter (· ∈ l)).flatMap f).length := by
  have hdrop : ∀ l : List α, l.flatMap f = (l.filter (· ∈ l')).flatMap f := by
    intro l
    induction l with
    | nil => rfl
    | cons x l ih =>
      rw [List.flatMap_cons, ih, List.filter_cons]
      by_cases hx : x ∈ l'
      · rw [if_pos (decide_eq_true hx), List.flatMap_cons]
      · rw [if_neg (by simpa using hx), hf x hx, List.nil_append]
  have hperm : (l.filter (· ∈ l')).Perm (l'.filter (· ∈ l)) := by
    refine (List.perm_ext_iff_of_nodup (hl.filter _) (hl'.filter _)).mpr fun x => ?_
    simp [and_comm]
  rw [hdrop l]
  exact (hperm.flatMap_right f).length_eq

theorem length_flatMap_dependenceOrder (symbols : SymbolTable) (closures : Closures)
    {f : String → List AttributeSlot} (hf : ∀ name, closures.find? name = none → f name = []) :
    ((symbols.dependenceOrder.map Shader.name).flatMap f).length =
      ((closures.keys.filter (· ∈ symbols.names)).flatMap f).length := by
  have habsent : ∀ name ∉ closures.keys, f name = [] := fun name hname =>
    hf name (OrderedMap.find?_eq_none_iff.mpr hname)
  rw [length_flatMap_of_nodup symbols.nodup_names_dependenceOrder closures.nodup_keys habsent]
  simp only [SymbolTable.mem_names_dependenceOrder]

/-- A run changes the closures of the shaders in the table, each as `Resolved` says, and no others.
The counts are those of references that lead somewhere and of those that do not. -/
theorem resolveAll_meaning (symbols : SymbolTable) (closures : Closures) :
    (resolveAll symbols closures).1.keys = closures.keys ∧
    (∀ name closure, closures.find? name = some closure →
      (name ∉ symbols.names → (resolveAll symbols closures).1.find? name = some closure) ∧
      (name ∈ symbols.names → ∃ components, Resolved closure.components components ∧
        (resolveAll symbols closures).1.find? name = some { closure with components })) ∧
    (resolveAll symbols closures).2 =
      { resolved := ((closures.keys.filter (· ∈ symbols.names)).flatMap closures.references).length
        unresolved := ((closures.keys.filter (· ∈ symbols.names)).flatMap closures.dangling).length
      } := by
  have hnodup := symbols.nodup_names_dependenceOrder
  have hnames : ∀ name, name ∈ symbols.dependenceOrder.map Shader.name ↔ name ∈ symbols.names :=
    fun _ => SymbolTable.mem_names_dependenceOrder
  have hnone : ∀ name, closures.find? name = none →
      closures.references name = [] ∧ closures.dangling name = [] := by
    intro name hfind
    rw [Closures.references, Closures.dangling, hfind]
    exact ⟨rfl, rfl⟩
  refine ⟨keys_resolveAll symbols closures, fun name closure hfind => ⟨fun habsent => ?_,
    fun hlisted => ⟨_, resolved_resolve closure.components {}, ?_⟩⟩, ?_⟩
  · rw [find?_resolveAll, List.count_eq_zero_of_not_mem (mt (hnames name).mp habsent), hfind]
    rfl
  · rw [find?_resolveAll, List.count_eq_one_of_mem hnodup ((hnames name).mpr hlisted), hfind]
    rfl
  · rw [resolveAll_eq, count_foldl_turn hnodup,
      length_flatMap_dependenceOrder symbols closures fun name h => (hnone name h).1,
      length_flatMap_dependenceOrder symbols closures fun name h => (hnone name h).2,
      Nat.zero_add, Nat.zero_add]

end Indirection

/-! ## A table with a circle -/

/-- An implementation that has nothing but attributes. -/
def attributedImplementation (attributes : List (String × String)) : Implementation where
  body := .expr (.literal "0" {})
  attributes := .ofList attributes

/-- References forward and back, to an attribute with two values, to itself and to nothing. -/
def shadowComponents : Components := .ofList
  [{ name := "map", dataType := "float", implementations :=
      [attributedImplementation [("Format", "R8"), ("Size", "%config.size"), ("Loop", "%map.Loop"),
        ("Bias", "%config.bias"), ("Mode", "%config")]] },
    { name := "config", dataType := "float", implementations :=
      [attributedImplementation [("size", "512")],
        attributedImplementation [("size", "%base.size"), ("view", "%map.Size")]] },
    { name := "base", dataType := "float", implementations :=
      [attributedImplementation [("size", "2048")]] }]

def shadowClosure (name : String) : Closure where
  name := name
  pipeline := { name := "forward" }
  components := shadowComponents

/-- Two shaders that use each other. -/
def shadowSymbols : SymbolTable :=
  (({} : SymbolTable).addShader { name := "caster", pipeline := "forward", uses := ["lamp"] }
    ).addShader { name := "lamp", pipeline := "forward", uses := ["caster"] }

/-- One of them has a closure, and so has a shader that is not in the table. -/
def shadowClosures : Closures :=
  .ofList [("lamp", shadowClosure "lamp"), ("decal", shadowClosure "decal")]

/-- The size of the map gets the reference that the configuration had, and the view of the
configuration gets the size of the map as that is by then. -/
theorem resolveAll_meaning_shadowSymbols :
    (∃ components, Resolved shadowComponents components ∧
      (resolveAll shadowSymbols shadowClosures).1.find? "lamp" =
        some { shadowClosure "lamp" with components } ∧
      AttributeSlot.get? ⟨"map", 0, "Size"⟩ components = some "%base.size" ∧
      AttributeSlot.get? ⟨"config", 1, "view"⟩ components = some "%base.size" ∧
      AttributeSlot.get? ⟨"config", 1, "size"⟩ components = some "2048") ∧
    (resolveAll shadowSymbols shadowClosures).1.find? "decal" = some (shadowClosure "decal") ∧
    (resolveAll shadowSymbols shadowClosures).2 = { resolved := 4, unresolved := 2 } := by
  obtain ⟨_, hclosures, hcount⟩ := resolveAll_meaning shadowSymbols shadowClosures
  obtain ⟨components, hresolved, hlamp⟩ :=
    (hclosures "lamp" (shadowClosure "lamp") rfl).2 (by decide)
  have hdecal := (hclosures "decal" (shadowClosure "decal") rfl).1 (by decide)
  have hmap := hresolved.reference ⟨"map", 0, "Size"⟩ ⟨"config", 1, "size"⟩ ⟨"config", "size"⟩
    (by decide +kernel) (slot?_names (by decide +kernel))
  have hview := hresolved.reference ⟨"config", 1, "view"⟩ ⟨"map", 0, "Size"⟩ ⟨"map", "Size"⟩
    (by decide +kernel) (slot?_names (by decide +kernel))
  have hsize := hresolved.reference ⟨"config", 1, "size"⟩ ⟨"base", 0, "size"⟩ ⟨"base", "size"⟩
    (by decide +kernel) (slot?_names (by decide +kernel))
  rw [if_neg (by decide +kernel)] at hmap hsize
  rw [if_pos (by decide +kernel), hmap] at hview
  exact ⟨⟨components, hresolved, hlamp, hmap, hview, hsize⟩, hdecal,
    hcount.trans (by decide +kernel)⟩

/-! ## Runs that follow each other -/

theorem iterate_of_fixed {α : Type} {f : α → α} {x : α} {k n : Nat} (h : f (f^[k] x) = f^[k] x)
    (hle : k ≤ n) : f^[n] x = f^[k] x := by
  rw [← Nat.sub_add_cancel hle, Function.iterate_add_apply, Function.iterate_fixed h]

namespace Closure
open Following

theorem shape_followed (closure : Closure) :
    closure.followed.components.map Component.shape = closure.components.map Component.shape :=
  shape_resolve closure.components {}

theorem all_iterate_followed (closure : Closure) (k : Nat) :
    AttributeSlot.all (followed^[k] closure).components = AttributeSlot.all closure.components := by
  induction k with
  | zero => rfl
  | succ k ih =>
    rw [Function.iterate_succ_apply', AttributeSlot.all_of_shape (shape_followed _), ih]

/-- The slots and where they may point to stay the same, so all turns are passes of one kind. -/
theorem get?_iterate_followed (closure : Closure) (k : Nat) :
    (fun slot : AttributeSlot => slot.get? (followed^[k] closure).components) =
      (pass (pointer closure.components) (AttributeSlot.all closure.components))^[k]
        fun slot => slot.get? closure.components := by
  induction k with
  | zero => rfl
  | succ k ih =>
    have hall := all_iterate_followed closure k
    rw [Function.iterate_succ_apply', Function.iterate_succ_apply', ← ih, ← hall,
      ← pointer_of_all hall]
    exact get?_resolve (followed^[k] closure).components {}

theorem exists_followed_fixed (closure : Closure) :
    ∃ k, followed (followed^[k] closure) = followed^[k] closure := by
  have htarget : ∀ value slot, pointer closure.components value = some slot →
      slot ∈ AttributeSlot.all closure.components := fun _ _ => mem_all_of_pointer
  obtain ⟨k, hk⟩ := exists_pass_fixed (AttributeSlot.nodup_all closure.components) htarget
    fun slot => slot.get? closure.components
  rw [← Function.iterate_succ_apply' (pass _ _), ← get?_iterate_followed,
    ← get?_iterate_followed, Function.iterate_succ_apply'] at hk
  have hcomponents : (resolve (followed^[k] closure).components {}).1 =
      (followed^[k] closure).components :=
    AttributeSlot.ext_get? (shape_resolve _ {}) fun slot => congrFun hk slot
  exact ⟨k, by rw [followed, hcomponents]⟩

/-- A closure that a turn leaves as it is has only such references left that say the same as what
they refer to. -/
theorem get?_of_followed_eq {closure : Closure} (h : closure.followed = closure)
    {s t : AttributeSlot} {r : Indirection} (hr : (s.get? closure.components).bind parse? = some r)
    (ht : r.Names closure.components t) :
    s.get? closure.components = t.get? closure.components := by
  have hresolved := resolved_resolve closure.components {}
  rw [show (resolve closure.components {}).1 = closure.components from
    congrArg Closure.components h] at hresolved
  rw [hresolved.reference s t r hr ht, ite_self]

end Closure

namespace Indirection

/-- The closures after some runs over them. -/
def runs (symbols : SymbolTable) (n : Nat) (closures : Closures) : Closures :=
  (fun closures => (resolveAll symbols closures).1)^[n] closures

theorem keys_runs (symbols : SymbolTable) (n : Nat) (closures : Closures) :
    (runs symbols n closures).keys = closures.keys := by
  induction n with
  | zero => rfl
  | succ n ih => rw [runs, Function.iterate_succ_apply', keys_resolveAll, ← runs, ih]

theorem find?_runs (symbols : SymbolTable) (n : Nat) (closures : Closures) (name : String) :
    (runs symbols n closures).find? name = (closures.find? name).map
      Closure.followed^[(symbols.dependenceOrder.map Shader.name).count name * n] := by
  induction n with
  | zero => exact Option.map_id_apply.symm
  | succ n ih =>
    rw [runs, Function.iterate_succ_apply', find?_resolveAll, ← runs, ih, Option.map_map,
      ← Function.iterate_add, Nat.mul_succ, Nat.add_comm]

/-- From some number on, turns change none of the closures. -/
theorem exists_followed_le (closures : Closures) : ∃ k, ∀ name closure,
    closures.find? name = some closure → ∀ n, k ≤ n →
      Closure.followed (Closure.followed^[n] closure) = Closure.followed^[n] closure := by
  choose turns hturns using Closure.exists_followed_fixed
  refine ⟨(closures.values.map turns).sum, fun name closure hfind n hn => ?_⟩
  have hmem : turns closure ∈ closures.values.map turns :=
    List.mem_map_of_mem (OrderedMap.mem_values_of_find? hfind)
  have hle : turns closure ≤ n := (List.le_sum_of_mem hmem).trans hn
  rw [iterate_of_fixed (hturns closure) hle, hturns]

/-- From some run on nothing changes, whatever circles the references make. What is left of them
says the same as the attribute it refers to, so it has nowhere to go. -/
theorem runs_settle (symbols : SymbolTable) (closures : Closures) :
    ∃ k, (∀ n, k ≤ n → runs symbols n closures = runs symbols k closures) ∧
      ∀ shader ∈ symbols.dependenceOrder, ∀ closure,
        (runs symbols k closures).find? shader.name = some closure →
          ∀ (s t : AttributeSlot) (r : Indirection),
            (s.get? closure.components).bind parse? = some r → r.Names closure.components t →
              s.get? closure.components = t.get? closure.components := by
  obtain ⟨k, hk⟩ := exists_followed_le closures
  refine ⟨k, fun n hn => OrderedMap.ext_find? ?_ fun name => ?_,
    fun shader hshader closure hfind => ?_⟩
  · rw [keys_runs, keys_runs]
  · rw [find?_runs, find?_runs]
    refine Option.map_congr fun closure hclosure => ?_
    -- a closure whose name is not listed has no turns, any other at least one in each run
    rcases Nat.eq_zero_or_pos ((symbols.dependenceOrder.map Shader.name).count name) with
      hcount | hcount
    · rw [hcount, Nat.zero_mul, Nat.zero_mul]
    · exact iterate_of_fixed (hk name closure hclosure _ (Nat.le_mul_of_pos_left k hcount))
        (Nat.mul_le_mul_left _ hn)
  · have hcount : 0 < (symbols.dependenceOrder.map Shader.name).count shader.name :=
      List.count_pos_iff.mpr (List.mem_map_of_mem hshader)
    rw [find?_runs] at hfind
    obtain ⟨old, hold, rfl⟩ := Option.map_eq_some_iff.mp hfind
    intro s t r hr ht
    exact Closure.get?_of_followed_eq
      (hk shader.name old hold _ (Nat.le_mul_of_pos_left k hcount)) hr ht

end Indirection

end ShaderVariants
