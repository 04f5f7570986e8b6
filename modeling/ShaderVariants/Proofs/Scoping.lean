import Mathlib.Data.List.Induction
import Mathlib.Logic.Function.Basic
import ShaderVariants.Body
import ShaderVariants.Proofs.Maps

/-! # The scope of local names

A name that a statement reads is bound by the last statement before it that binds the name, if there
is one (`Stmt.occurrences`), and the free names of a block are those that nothing binds
(`Stmt.freeNames_eq_occurrences`). Renaming a binding changes the name wherever it binds one and
nowhere else, if the new name is not in use, and no place changes its binding
(`Stmt.occurrences_rename`). So renaming does not touch what is free. -/
namespace ShaderVariants

/-! ## Renaming in an expression -/

namespace Expr

mutual
/-- Change the names that are read. Callees and members stay. -/
def mapNames (f : String → String) : Expr → Expr
  | .literal value span => .literal value span
  | .name n span => .name (f n) span
  | .unary op operand span => .unary op (operand.mapNames f) span
  | .binary op left right span => .binary op (left.mapNames f) (right.mapNames f) span
  | .call callee args span => .call callee (mapNamesAll f args) span
  | .member base field span => .member (base.mapNames f) field span

def mapNamesAll (f : String → String) : List Expr → List Expr
  | [] => []
  | e :: rest => e.mapNames f :: mapNamesAll f rest
end

mutual
theorem names_mapNames (f : String → String) (e : Expr) :
    (e.mapNames f).names = e.names.map fun n => (f n.1, n.2) := by
  cases e with
  | literal value span => rfl
  | name n span => rfl
  | unary op operand span => exact names_mapNames f operand
  | binary op left right span =>
    rw [mapNames, names, names, List.map_append, names_mapNames f left, names_mapNames f right]
  | call callee args span => exact namesAll_mapNamesAll f args
  | member base field span => exact names_mapNames f base

theorem namesAll_mapNamesAll (f : String → String) (es : List Expr) :
    namesAll (mapNamesAll f es) = (namesAll es).map fun n => (f n.1, n.2) := by
  cases es with
  | nil => rfl
  | cons e rest =>
    rw [mapNamesAll, namesAll, namesAll, List.map_append, names_mapNames f e,
      namesAll_mapNamesAll f rest]
end

end Expr

namespace Stmt

/-! ## Free names of two blocks in a row -/

/-- More local names leave fewer free ones. -/
theorem freeNames_filter (inner outer : List String) (stmts : List Stmt) :
    freeNames (inner ++ outer) stmts =
      (freeNames inner stmts).filter fun n => !outer.contains n.1 := by
  induction stmts generalizing inner with
  | nil => rfl
  | cons s rest ih =>
    rw [freeNames, freeNames, List.filter_append, List.filter_filter, ← ih, List.append_assoc]
    congr 1
    refine List.filter_congr fun n _ => ?_
    rw [List.contains_append, Bool.not_or, Bool.and_comm]

/-- The statements behind others see what these bind. -/
theorem freeNames_append (locals : List String) (p q : List Stmt) :
    freeNames locals (p ++ q) =
      freeNames locals p ++ freeNames (p.reverse.flatMap bound ++ locals) q := by
  induction p generalizing locals with
  | nil => rfl
  | cons s rest ih =>
    rw [List.cons_append, freeNames, freeNames, ih, List.append_assoc, List.reverse_cons,
      List.flatMap_append, List.flatMap_singleton, List.append_assoc]

theorem freeNames_nil_append (p q : List Stmt) :
    freeNames [] (p ++ q) =
      freeNames [] p ++ (freeNames [] q).filter fun n => n.1 ∉ p.flatMap bound := by
  have hbound : ∀ n ∈ freeNames [] q,
      (!(p.reverse.flatMap bound).contains n.1) = decide (n.1 ∉ p.flatMap bound) := by
    intro n _
    rw [Bool.eq_iff_iff]
    simp
  rw [freeNames_append, List.append_nil, ← List.filter_congr hbound]
  exact congrArg _ (freeNames_filter [] _ q)

/-! ## What binds a name -/

/-- The position of the last statement that binds the name. -/
def binder? (stmts : List Stmt) (x : String) : Option Nat :=
  (stmts.zipIdx.filter fun s => s.1.bound.contains x).getLast?.map Prod.snd

theorem binder?_concat (stmts : List Stmt) (s : Stmt) (x : String) :
    binder? (stmts ++ [s]) x = if x ∈ s.bound then some stmts.length else binder? stmts x := by
  rw [binder?, List.zipIdx_append, List.filter_append]
  by_cases hx : x ∈ s.bound <;> simp [binder?, hx]

theorem binder?_lt {stmts : List Stmt} {x : String} {i : Nat} (h : binder? stmts x = some i) :
    i < stmts.length := by
  induction stmts using List.reverseRecOn with
  | nil => cases h
  | append_singleton stmts s ih =>
    rw [List.length_append, List.length_singleton]
    rw [binder?_concat] at h
    split at h
    · obtain rfl := Option.some.inj h
      exact Nat.lt_succ_self _
    · exact Nat.lt_succ_of_lt (ih h)

/-- A place that reads a name. -/
structure Occurrence where
  name : String
  span : Span
  /-- The position of the statement that binds the name there. -/
  binder : Option Nat

def occurrence (before : List Stmt) (n : String × Span) : Occurrence :=
  ⟨n.1, n.2, binder? before n.1⟩

def occurrencesBehind (before : List Stmt) : List Stmt → List Occurrence
  | [] => []
  | s :: rest => s.value.names.map (occurrence before) ++ occurrencesBehind (before ++ [s]) rest

/-- The places of a block that read names, in source order. A binding does not see itself. -/
def occurrences (stmts : List Stmt) : List Occurrence := occurrencesBehind [] stmts

theorem occurrencesBehind_append (before p q : List Stmt) :
    occurrencesBehind before (p ++ q) =
      occurrencesBehind before p ++ occurrencesBehind (before ++ p) q := by
  induction p generalizing before with
  | nil => rw [List.nil_append, List.append_nil]; rfl
  | cons s rest ih =>
    rw [List.cons_append, occurrencesBehind, occurrencesBehind, ih, List.append_assoc,
      List.append_assoc, List.singleton_append]

theorem freeNames_eq_behind {locals : List String} {before : List Stmt}
    (h : ∀ x, x ∈ locals ↔ binder? before x ≠ none) (stmts : List Stmt) :
    freeNames locals stmts = ((occurrencesBehind before stmts).filter (·.binder.isNone)).map
      fun o => (o.name, o.span) := by
  induction stmts generalizing locals before with
  | nil => rfl
  | cons s rest ih =>
    have hnext : ∀ x, x ∈ s.bound ++ locals ↔ binder? (before ++ [s]) x ≠ none := by
      intro x
      rw [List.mem_append, h x, binder?_concat]
      by_cases hx : x ∈ s.bound <;> simp [hx]
    have hfree : ∀ n ∈ s.value.names,
        (!locals.contains n.1) = ((·.binder.isNone) ∘ occurrence before) n := by
      intro n _
      rw [Bool.eq_iff_iff, Bool.not_eq_true', ← Bool.not_eq_true, List.contains_iff_mem, h, not_not]
      exact Option.isNone_iff_eq_none.symm
    rw [freeNames, ih hnext, occurrencesBehind, List.filter_append, List.map_append,
      List.filter_map, List.map_map, ← List.filter_congr hfree]
    exact congrArg (· ++ _) (List.map_id _).symm

theorem freeNames_eq_occurrences (stmts : List Stmt) :
    freeNames [] stmts =
      ((occurrences stmts).filter (·.binder.isNone)).map fun o => (o.name, o.span) :=
  freeNames_eq_behind (fun _ => iff_of_false List.not_mem_nil fun h => h rfl) stmts

/-- A place sees only bindings in front of it. -/
theorem binder_lt_of_mem {before stmts : List Stmt} {o : Occurrence} {i : Nat}
    (ho : o ∈ occurrencesBehind before stmts) (hi : o.binder = some i) :
    i < before.length + stmts.length := by
  induction stmts generalizing before with
  | nil => cases ho
  | cons s rest ih =>
    rw [List.length_cons]
    rcases List.mem_append.mp ho with ho | ho
    · obtain ⟨n, _, rfl⟩ := List.mem_map.mp ho
      have hlt := binder?_lt hi
      omega
    · have hlt := ih ho
      rw [List.length_append, List.length_singleton] at hlt
      omega

/-! ## Renaming a binding -/

def mapValue (f : Expr → Expr) : Stmt → Stmt
  | bind name value span => bind name (f value) span
  | expr value => expr (f value)
  | ret value span => ret (f value) span

theorem value_mapValue (f : Expr → Expr) (s : Stmt) : (s.mapValue f).value = f s.value := by
  cases s <;> rfl

theorem bound_mapValue (f : Expr → Expr) (s : Stmt) : (s.mapValue f).bound = s.bound := by
  cases s <;> rfl

/-- Rename what a binding of `x` binds behind it. The next binding of `x` ends its scope, but the
value there is still in it. -/
def renameScope (x y : String) : List Stmt → List Stmt
  | [] => []
  | s :: rest =>
    s.mapValue (·.mapNames (Function.update id x y)) ::
      if x ∈ s.bound then rest else renameScope x y rest

/-- No statement reads or binds the name. -/
def Unused (y : String) (stmts : List Stmt) : Prop :=
  ∀ s ∈ stmts, y ∉ s.bound ∧ ∀ n ∈ s.value.names, n.1 ≠ y

instance (y : String) (stmts : List Stmt) : Decidable (Unused y stmts) :=
  inferInstanceAs (Decidable (∀ s ∈ stmts, y ∉ s.bound ∧ ∀ n ∈ s.value.names, n.1 ≠ y))

/-- Give a place the new name if it is bound at `i`. -/
def Occurrence.rename (i : Nat) (y : String) (o : Occurrence) : Occurrence :=
  if o.binder = some i then { o with name := y } else o

namespace Occurrence

theorem binder_rename (i : Nat) (y : String) (o : Occurrence) :
    (o.rename i y).binder = o.binder := by
  unfold rename
  split <;> rfl

theorem map_rename_of_lt {i : Nat} {l : List Occurrence}
    (h : ∀ o ∈ l, ∀ j, o.binder = some j → j < i) (y : String) : l.map (rename i y) = l :=
  map_eq_self fun o ho => if_neg fun hi => Nat.lt_irrefl i (h o ho i hi)

/-- What nothing binds is not renamed. -/
theorem filter_map_rename (i : Nat) (y : String) (l : List Occurrence) :
    (l.map (rename i y)).filter (·.binder.isNone) = l.filter (·.binder.isNone) := by
  have hsame : ((·.binder.isNone) ∘ rename i y) = fun o : Occurrence => o.binder.isNone :=
    funext fun o => congrArg Option.isNone (o.binder_rename i y)
  rw [List.filter_map, hsame]
  refine map_eq_self fun o ho => if_neg fun hi => ?_
  have hfree := (List.mem_filter.mp ho).2
  rw [hi] at hfree
  cases hfree

end Occurrence

/-- Every name but `y` is bound behind `before` where `f` of it is bound behind `before'`, and `f`
changes what is bound at `i`. -/
structure Follows (i : Nat) (y : String) (f : String → String) (before before' : List Stmt) :
    Prop where
  length_eq : before'.length = before.length
  inside : i < before.length
  binder?_eq : ∀ n ≠ y, binder? before' (f n) = binder? before n
  eq_ite : ∀ n ≠ y, f n = if binder? before n = some i then y else n

namespace Follows
variable {i : Nat} {x y : String} {f : String → String} {before before' : List Stmt}

theorem map_occurrence (h : Follows i y f before before') {ns : List (String × Span)}
    (hns : ∀ n ∈ ns, n.1 ≠ y) :
    (ns.map fun n => (f n.1, n.2)).map (occurrence before') =
      (ns.map (occurrence before)).map (Occurrence.rename i y) := by
  rw [List.map_map, List.map_map]
  refine List.map_congr_left fun n hn => ?_
  show (⟨f n.1, n.2, binder? before' (f n.1)⟩ : Occurrence) =
    Occurrence.rename i y ⟨n.1, n.2, binder? before n.1⟩
  rw [h.binder?_eq _ (hns n hn), h.eq_ite _ (hns n hn), Occurrence.rename]
  split <;> rfl

/-- From a statement on, what it binds is left alone. -/
theorem concat (h : Follows i y f before before') {s s' : Stmt} (hbound : s'.bound = s.bound)
    (hy : y ∉ s.bound) {g : String → String} (hg : ∀ n, g n = if n ∈ s.bound then n else f n) :
    Follows i y g (before ++ [s]) (before' ++ [s']) where
  length_eq := by simp [h.length_eq]
  inside := by
    rw [List.length_append]
    exact Nat.lt_add_right _ h.inside
  binder?_eq := by
    intro n hn
    rw [binder?_concat, binder?_concat, hbound, h.length_eq, hg]
    by_cases hs : n ∈ s.bound
    · simp [hs]
    · have hf : f n ∉ s.bound := by
        rw [h.eq_ite n hn]
        split
        · exact hy
        · exact hs
      simp [hs, hf, h.binder?_eq n hn]
  eq_ite := by
    intro n hn
    rw [binder?_concat, hg]
    by_cases hs : n ∈ s.bound
    · have hne : some before.length ≠ some i :=
        fun he => Nat.ne_of_gt h.inside (Option.some.inj he)
      rw [if_pos hs, if_pos hs, if_neg hne]
    · rw [if_neg hs, if_neg hs]
      exact h.eq_ite n hn

/-- Behind the scope of the renamed binding nothing changes. -/
theorem occurrences_unchanged (h : Follows i y id before before') {stmts : List Stmt}
    (hu : Unused y stmts) :
    occurrencesBehind before' stmts =
      (occurrencesBehind before stmts).map (Occurrence.rename i y) := by
  induction stmts generalizing before before' with
  | nil => rfl
  | cons s rest ih =>
    obtain ⟨⟨hbound, hnames⟩, hrest⟩ := List.forall_mem_cons.mp hu
    have hhead := h.map_occurrence hnames
    have hid : (fun n : String × Span => (id n.1, n.2)) = id := rfl
    rw [hid, List.map_id] at hhead
    rw [occurrencesBehind, occurrencesBehind, List.map_append, hhead]
    congr 1
    exact ih (h.concat rfl hbound fun n => (ite_self n).symm) hrest

theorem occurrences_renameScope (h : Follows i y (Function.update id x y) before before')
    {stmts : List Stmt} (hu : Unused y stmts) :
    occurrencesBehind before' (renameScope x y stmts) =
      (occurrencesBehind before stmts).map (Occurrence.rename i y) := by
  induction stmts generalizing before before' with
  | nil => rfl
  | cons s rest ih =>
    obtain ⟨⟨hbound, hnames⟩, hrest⟩ := List.forall_mem_cons.mp hu
    rw [renameScope, occurrencesBehind, occurrencesBehind, List.map_append, value_mapValue,
      Expr.names_mapNames, h.map_occurrence hnames]
    congr 1
    split
    · rename_i hx
      refine occurrences_unchanged (h.concat (bound_mapValue _ s) hbound fun n => ?_) hrest
      split
      · rfl
      · rename_i hn
        have hne : n ≠ x := fun he => hn (he ▸ hx)
        rw [Function.update_of_ne hne]
    · rename_i hx
      refine ih (h.concat (bound_mapValue _ s) hbound fun n => ?_) hrest
      split
      · rename_i hn
        have hne : n ≠ x := fun he => hx (he ▸ hn)
        rw [Function.update_of_ne hne]
        rfl
      · rfl

end Follows

section Renaming
variable (before : List Stmt) (x y : String) (value : Expr) (span : Span)

theorem follows_bind : Follows before.length y (Function.update id x y)
    (before ++ [bind x value span]) (before ++ [bind y value span]) where
  length_eq := by simp
  inside := by simp
  binder?_eq := by
    intro n hn
    rw [binder?_concat, binder?_concat]
    by_cases hx : n = x
    · simp [hx, bound]
    · simp [bound, hx, hn]
  eq_ite := by
    intro n _
    rw [binder?_concat]
    by_cases hx : n = x
    · simp [hx, bound]
    · have hlt : binder? before n ≠ some before.length :=
        fun he => Nat.lt_irrefl _ (binder?_lt he)
      simp [bound, hx, hlt]

variable {y} {after : List Stmt}

/-- Renaming a binding gives the new name to the places that it binds and to no other, and every
place stays bound where it was. -/
theorem occurrences_rename (hu : Unused y after) :
    occurrences (before ++ bind y value span :: renameScope x y after) =
      (occurrences (before ++ bind x value span :: after)).map
        (Occurrence.rename before.length y) := by
  -- what stands before the scope is bound before it
  have hbefore : ∀ o ∈ occurrencesBehind [] before, ∀ j, o.binder = some j → j < before.length := by
    intro o ho j hj
    simpa using binder_lt_of_mem ho hj
  have hvalue : ∀ o ∈ value.names.map (occurrence before), ∀ j, o.binder = some j →
      j < before.length := by
    intro o ho j hj
    obtain ⟨n, _, rfl⟩ := List.mem_map.mp ho
    exact binder?_lt hj
  have hscope := (follows_bind before x y value span).occurrences_renameScope hu
  rw [occurrences, occurrences, occurrencesBehind_append, occurrencesBehind_append,
    List.nil_append, occurrencesBehind, occurrencesBehind, List.map_append, List.map_append, hscope,
    Occurrence.map_rename_of_lt hbefore]
  show _ ++ (value.names.map (occurrence before) ++ _) =
    _ ++ ((value.names.map (occurrence before)).map _ ++ _)
  rw [Occurrence.map_rename_of_lt hvalue]

theorem freeNames_rename (hu : Unused y after) :
    freeNames [] (before ++ bind y value span :: renameScope x y after) =
      freeNames [] (before ++ bind x value span :: after) := by
  rw [freeNames_eq_occurrences, freeNames_eq_occurrences, occurrences_rename before x value span hu,
    Occurrence.filter_map_rename]

end Renaming

end Stmt

namespace Body

/-- Scoping of a block. What follows other statements has free names of its own, less those that the
others bind. And a binding may be renamed together with the places that it binds, if the statements
behind it do not use the new name: all other places keep their names, every place its binding, and
the free names stay as they are. -/
theorem freeNames_scoped :
    (∀ p q : List Stmt, (block (p ++ q)).freeNames =
      (block p).freeNames ++ (block q).freeNames.filter fun n => n.1 ∉ p.flatMap Stmt.bound) ∧
    ∀ (before after : List Stmt) (x y : String) (value : Expr) (span : Span),
      Stmt.Unused y after →
      let original := before ++ .bind x value span :: after
      let renamed := before ++ .bind y value span :: Stmt.renameScope x y after
      (block renamed).freeNames = (block original).freeNames ∧
        Stmt.occurrences renamed =
          (Stmt.occurrences original).map (Stmt.Occurrence.rename before.length y) := by
  refine ⟨Stmt.freeNames_nil_append, fun before after x y value span hu => ?_⟩
  exact ⟨Stmt.freeNames_rename before x value span hu,
    Stmt.occurrences_rename before x value span hu⟩

/-- Binds `n` three times, each time to something that reads the one before. -/
def shaded (x y : String) : List Stmt :=
  [.bind "n" (.name "normal" ⟨1, 9, 6⟩) ⟨1, 1, 3⟩,
    .bind x (.call "normalize" [.name "n" ⟨2, 19, 1⟩] ⟨2, 9, 12⟩) ⟨2, 1, 3⟩,
    .bind "n" (.binary .add (.name y ⟨3, 9, 1⟩) (.name "ambient" ⟨3, 13, 7⟩) {}) ⟨3, 1, 3⟩,
    .ret (.member (.name "n" ⟨4, 8, 1⟩) "n" {}) ⟨4, 1, 6⟩]

/-- Of the three, the second can be renamed alone. -/
theorem freeNames_scoped_shaded :
    Stmt.Unused "unit" ((shaded "n" "n").drop 2) ∧
      (block (shaded "unit" "unit")).freeNames = (block (shaded "n" "n")).freeNames ∧
      (block (shaded "n" "n")).freeNames = [("normal", ⟨1, 9, 6⟩), ("ambient", ⟨3, 13, 7⟩)] ∧
      Stmt.occurrences (shaded "unit" "unit") =
        (Stmt.occurrences (shaded "n" "n")).map (Stmt.Occurrence.rename 1 "unit") := by
  have hu : Stmt.Unused "unit" ((shaded "n" "n").drop 2) := by decide
  obtain ⟨hfree, hoccurrences⟩ := freeNames_scoped.2 ((shaded "n" "n").take 1)
    ((shaded "n" "n").drop 2) "n" "unit"
    (.call "normalize" [.name "n" ⟨2, 19, 1⟩] ⟨2, 9, 12⟩) ⟨2, 1, 3⟩ hu
  exact ⟨hu, hfree, by decide, hoccurrences⟩

end Body

end ShaderVariants
