import ShaderVariants.Proofs.Stages

/-! # Programs that grow

Lowering adds to a program, and each kind of thing in its own way: a struct moves to the end, a
function stays where it first came, a shader is replaced where it stands. `lowerAll_eq` separates
the three. No name is lost or doubled (`Distinct.lowerAll`, `within_lowerAll`), the last declaration
of a struct and the last representation of a shader count, and lowering the same things again
changes nothing (`lowerAll_lowerAll`). -/
namespace ShaderVariants.LoweredProgram

theorem lowerAll_eq (p : LoweredProgram) (declarations : Declarations) (irs : List ShaderIR) :
    p.lowerAll declarations irs =
      { structs := (declarations.structs.map fun decl => ⟨decl.name, decl.fields⟩).foldl putStruct
          p.structs
        functions := (declarations.functions.map FunctionDecl.name).foldl putName p.functions
        shaders := (irs.map ShaderIR.lower).foldl (fun l s => putShader s l) p.shaders } := by
  have hstructs : ∀ (l : List StructDecl) (p : LoweredProgram),
      l.foldl (fun p decl => p.addStruct ⟨decl.name, decl.fields⟩) p =
        { p with
          structs := (l.map fun decl => ⟨decl.name, decl.fields⟩).foldl putStruct p.structs } := by
    intro l
    induction l with
    | nil => intro p; rfl
    | cons decl l ih => intro p; rw [List.foldl_cons, ih]; rfl
  have hfunctions : ∀ (l : List FunctionDecl) (p : LoweredProgram),
      l.foldl (fun p decl => p.addFunction decl.name) p =
        { p with functions := (l.map FunctionDecl.name).foldl putName p.functions } := by
    intro l
    induction l with
    | nil => intro p; rfl
    | cons decl l ih => intro p; rw [List.foldl_cons, ih]; rfl
  have hshaders : ∀ (l : List ShaderIR) (p : LoweredProgram),
      l.foldl (fun p ir => p.addShader ir.lower) p =
        { p with
          shaders := (l.map ShaderIR.lower).foldl (fun l s => putShader s l) p.shaders } := by
    intro l
    induction l with
    | nil => intro p; rfl
    | cons ir l ih => intro p; rw [List.foldl_cons, ih]; rfl
  unfold lowerAll
  dsimp only
  rw [hstructs, hfunctions, hshaders]

/-- Where a step finds what was just put in, the last one of a name is found in the end. -/
theorem find?_foldl_put {α : Type} {name : α → String} {put : List α → α → List α}
    (hput : ∀ l a n, (put l a).find? (name · = n) = if name a = n then some a
      else l.find? (name · = n)) (new l : List α) (n : String) :
    (new.foldl put l).find? (name · = n) =
      (new.filter (name · = n)).getLast?.or (l.find? (name · = n)) := by
  induction new generalizing l with
  | nil => rfl
  | cons a new ih =>
    rw [List.foldl_cons, ih, hput]
    by_cases ha : name a = n
    · rw [if_pos ha, List.filter_cons_of_pos (by simpa using ha), List.getLast?_cons]
      cases (new.filter (name · = n)).getLast? <;> rfl
    · rw [if_neg ha, List.filter_cons_of_neg (by simpa using ha)]

/-! ## Structs -/

section Structs
variable {l new : List LoweredStruct} {s : LoweredStruct} {n : String}

theorem mem_names_putStruct :
    n ∈ (putStruct l s).map LoweredStruct.name ↔ n = s.name ∨ n ∈ l.map LoweredStruct.name := by
  rw [putStruct, List.map_append, List.mem_append, List.map_singleton, List.mem_singleton]
  constructor
  · rintro (hold | hnew)
    · exact Or.inr ((List.filter_sublist.map _).subset hold)
    · exact Or.inl hnew
  · rintro (hnew | hold)
    · exact Or.inr hnew
    · by_cases hn : n = s.name
      · exact Or.inr hn
      · obtain ⟨t, ht, rfl⟩ := List.mem_map.mp hold
        exact Or.inl (List.mem_map_of_mem (List.mem_filter.mpr ⟨ht, decide_eq_true hn⟩))

theorem nodup_putStruct (h : (l.map LoweredStruct.name).Nodup) :
    ((putStruct l s).map LoweredStruct.name).Nodup := by
  rw [putStruct, List.map_append, List.map_singleton, List.nodup_append]
  refine ⟨h.sublist (List.filter_sublist.map _), List.nodup_singleton _, ?_⟩
  intro a ha b hb hab
  obtain ⟨t, ht, rfl⟩ := List.mem_map.mp ha
  rw [List.mem_singleton] at hb
  exact of_decide_eq_true (List.mem_filter.mp ht).2 (hab.trans hb)

theorem find?_putStruct (l : List LoweredStruct) (s : LoweredStruct) (n : String) :
    (putStruct l s).find? (·.name = n) = if s.name = n then some s else l.find? (·.name = n) := by
  rw [putStruct, List.find?_append, List.find?_filter]
  by_cases hs : s.name = n
  · subst hs
    rw [if_pos rfl, List.find?_eq_none.mpr (by simp)]
    simp
  · have hsame : (fun t : LoweredStruct => decide (decide (t.name ≠ s.name) = true ∧
        decide (t.name = n) = true)) = fun t => decide (t.name = n) := by
      funext t
      by_cases ht : t.name = n
      · simp [ht, Ne.symm hs]
      · simp [ht]
    rw [hsame, if_neg hs, List.find?_cons_of_neg (by simpa using hs), List.find?_nil,
      Option.or_none]

/-- What is put in is taken out first. -/
theorem foldl_putStruct (new l : List LoweredStruct) : new.foldl putStruct l =
    l.filter (·.name ∉ new.map LoweredStruct.name) ++ new.foldl putStruct [] := by
  induction new generalizing l with
  | nil => simp
  | cons s new ih =>
    rw [List.foldl_cons, List.foldl_cons, ih (putStruct l s), ih (putStruct [] s), putStruct,
      putStruct, List.filter_append, List.filter_append, List.filter_filter, List.append_assoc,
      List.append_assoc]
    congr 1
    refine List.filter_congr fun t _ => ?_
    simp [Bool.and_comm]

theorem foldl_putStruct_self (new l : List LoweredStruct) :
    new.foldl putStruct (new.foldl putStruct l) = new.foldl putStruct l := by
  have hnew : ∀ t ∈ new.foldl putStruct [], t.name ∈ new.map LoweredStruct.name := by
    refine List.foldlRecOn (motive := fun k : List LoweredStruct =>
      ∀ t ∈ k, t.name ∈ new.map LoweredStruct.name) _ _ (fun t ht => absurd ht List.not_mem_nil) ?_
    intro k hk s hs t ht
    rcases mem_names_putStruct.mp (List.mem_map_of_mem ht) with hsame | hold
    · rw [hsame]
      exact List.mem_map_of_mem hs
    · obtain ⟨u, hu, hname⟩ := List.mem_map.mp hold
      exact hname ▸ hk u hu
  have hout : (new.foldl putStruct []).filter (·.name ∉ new.map LoweredStruct.name) = [] :=
    List.filter_eq_nil_iff.mpr fun t ht => by simpa using hnew t ht
  rw [foldl_putStruct, foldl_putStruct new l, List.filter_append, List.filter_filter, hout,
    List.append_nil]
  simp only [Bool.and_self]

end Structs

/-! ## Names -/

section Names
variable {l new : List String} {n name : String}

theorem mem_putName : n ∈ putName l name ↔ n = name ∨ n ∈ l := by
  unfold putName
  split
  · rename_i hmem
    exact ⟨Or.inr, fun h => h.elim (fun hn => hn ▸ hmem) id⟩
  · rw [List.mem_append, List.mem_singleton, or_comm]

theorem nodup_putName (h : l.Nodup) : (putName l name).Nodup := by
  unfold putName
  split
  · exact h
  · rename_i hnew
    exact List.nodup_append.mpr ⟨h, List.nodup_singleton _, fun a ha b hb hab =>
      hnew (List.mem_singleton.mp hb ▸ hab ▸ ha)⟩

theorem mem_foldl_putName : n ∈ new.foldl putName l ↔ n ∈ new ∨ n ∈ l := by
  induction new generalizing l with
  | nil => simp
  | cons m new ih => rw [List.foldl_cons, ih, mem_putName, List.mem_cons, or_assoc, or_left_comm]

theorem nodup_foldl_putName (h : l.Nodup) : (new.foldl putName l).Nodup :=
  List.foldlRecOn (motive := List.Nodup) _ _ h fun _ hl _ _ => nodup_putName hl

theorem foldl_putName_of_mem (h : ∀ n ∈ new, n ∈ l) : new.foldl putName l = l := by
  induction new with
  | nil => rfl
  | cons m new ih =>
    rw [List.foldl_cons, putName, if_pos (h m List.mem_cons_self)]
    exact ih fun n hn => h n (List.mem_cons_of_mem m hn)

end Names

/-! ## Shaders -/

section Shaders
variable {l new : List LoweredShader} {s t : LoweredShader} {n : String}

theorem names_putShader (s : LoweredShader) (l : List LoweredShader) :
    (putShader s l).map LoweredShader.name = putName (l.map LoweredShader.name) s.name := by
  unfold putName
  induction l with
  | nil => simp [putShader]
  | cons t l ih =>
    by_cases h : t.name = s.name
    · simp [putShader, h]
    · have h' : s.name ≠ t.name := Ne.symm h
      simp only [putShader, h, if_false, List.map_cons, ih, List.mem_cons, h', false_or]
      split <;> simp

/-- The names of shaders grow as those of functions do. -/
theorem names_foldl_putShader (new l : List LoweredShader) :
    (new.foldl (fun l s => putShader s l) l).map LoweredShader.name =
      (new.map LoweredShader.name).foldl putName (l.map LoweredShader.name) := by
  induction new generalizing l with
  | nil => rfl
  | cons s new ih => rw [List.foldl_cons, ih, names_putShader]; rfl

theorem find?_putShader (s : LoweredShader) (l : List LoweredShader) (n : String) :
    (putShader s l).find? (·.name = n) = if s.name = n then some s else l.find? (·.name = n) := by
  induction l with
  | nil => simp only [putShader, List.find?_singleton, List.find?_nil, decide_eq_true_eq]
  | cons t l ih =>
    by_cases ht : t.name = s.name
    · by_cases hs : s.name = n <;> simp [putShader, ht, hs]
    · rw [putShader, if_neg ht, List.find?_cons, List.find?_cons, ih]
      by_cases hn : t.name = n
      · have hs : ¬ s.name = n := fun h => ht (hn.trans h.symm)
        simp [hn, hs]
      · simp [hn]

theorem putShader_eq_self (h : l.find? (·.name = s.name) = some s) : putShader s l = l := by
  induction l with
  | nil => cases h
  | cons t l ih =>
    by_cases ht : t.name = s.name
    · rw [List.find?_cons_of_pos (by simpa using ht)] at h
      cases h
      rw [putShader, if_pos rfl]
    · rw [List.find?_cons_of_neg (by simpa using ht)] at h
      rw [putShader, if_neg ht, ih h]

theorem putShader_putShader (h : t.name = s.name) :
    putShader t (putShader s l) = putShader t l := by
  induction l with
  | nil => simp [putShader, h]
  | cons u l ih =>
    by_cases hu : u.name = s.name
    · simp [putShader, hu, h]
    · simp [putShader, hu, h, ih]

/-- Where a shader stands does not depend on others that are put in later. -/
theorem putShader_comm (hne : t.name ≠ s.name) (hs : s.name ∈ l.map LoweredShader.name) :
    putShader t (putShader s l) = putShader s (putShader t l) := by
  induction l with
  | nil => cases hs
  | cons u l ih =>
    by_cases hus : u.name = s.name
    · simp [putShader, hus, hne.symm]
    · by_cases hut : u.name = t.name
      · simp [putShader, hut, hne]
      · rw [List.map_cons, List.mem_cons] at hs
        simp [putShader, hus, hut, ih (hs.resolve_left fun h => hus h.symm)]

/-- A shader that is put in again later might as well not have been. -/
theorem foldl_putShader_of_mem (hnew : s.name ∈ new.map LoweredShader.name)
    (hl : s.name ∈ l.map LoweredShader.name) :
    new.foldl (fun l s => putShader s l) (putShader s l) =
      new.foldl (fun l s => putShader s l) l := by
  induction new generalizing l with
  | nil => cases hnew
  | cons t new ih =>
    rw [List.foldl_cons, List.foldl_cons]
    by_cases ht : t.name = s.name
    · rw [putShader_putShader ht]
    · rw [List.map_cons, List.mem_cons] at hnew
      rw [putShader_comm ht hl]
      refine ih (hnew.resolve_left fun h => ht h.symm) ?_
      rw [names_putShader, mem_putName]
      exact Or.inr hl

/-- Shaders that are all there, each in its last form, change nothing. -/
theorem foldl_putShader_eq_self
    (h : ∀ n s, (new.filter (·.name = n)).getLast? = some s → l.find? (·.name = n) = some s) :
    new.foldl (fun l s => putShader s l) l = l := by
  induction new with
  | nil => rfl
  | cons t new ih =>
    have hrest : ∀ n s, (new.filter (·.name = n)).getLast? = some s →
        l.find? (·.name = n) = some s := by
      intro n s hs
      refine h n s ?_
      rw [List.filter_cons]
      split
      · rw [List.getLast?_cons, hs]
        rfl
      · exact hs
    rw [List.foldl_cons]
    cases hlast : (new.filter (·.name = t.name)).getLast? with
    | none =>
      -- nothing of the name comes later
      have ht : l.find? (·.name = t.name) = some t := by
        refine h t.name t ?_
        rw [List.filter_cons_of_pos (by simp), List.getLast?_cons, hlast]
        rfl
      rw [putShader_eq_self ht, ih hrest]
    | some s =>
      obtain ⟨hs, hname⟩ := List.mem_filter.mp (List.mem_of_getLast? hlast)
      have hnew : t.name ∈ new.map LoweredShader.name :=
        List.mem_map.mpr ⟨s, hs, of_decide_eq_true hname⟩
      have hl : t.name ∈ l.map LoweredShader.name := by
        exact List.mem_map.mpr ⟨s, List.mem_of_find?_eq_some (hrest t.name s hlast),
          of_decide_eq_true hname⟩
      rw [foldl_putShader_of_mem hnew hl, ih hrest]

end Shaders

/-! ## The whole program -/

/-- The names of each kind are distinct. -/
structure Distinct (p : LoweredProgram) : Prop where
  structs : (p.structs.map LoweredStruct.name).Nodup
  functions : p.functions.Nodup
  shaders : (p.shaders.map LoweredShader.name).Nodup

/-- Names that are distinct are found once. -/
theorem Distinct.filter_shaders {p : LoweredProgram} (h : p.Distinct) {name : String}
    {s : LoweredShader} (hs : p.shader? name = some s) :
    p.shaders.filter (·.name = name) = [s] := by
  have hnodup := h.shaders
  unfold shader? at hs
  generalize p.shaders = l at hnodup hs
  induction l with
  | nil => cases hs
  | cons t l ih =>
    rw [List.map_cons, List.nodup_cons] at hnodup
    by_cases ht : t.name = name
    · rw [List.find?_cons_of_pos (by simpa using ht)] at hs
      cases hs
      rw [List.filter_cons_of_pos (by simpa using ht), List.filter_eq_nil_iff.mpr]
      intro u hu hname
      refine hnodup.1 (List.mem_map.mpr ⟨u, hu, ?_⟩)
      rw [ht, of_decide_eq_true hname]
    · rw [List.find?_cons_of_neg (by simpa using ht)] at hs
      rw [List.filter_cons_of_neg (by simpa using ht), ih hnodup.2 hs]

/-- All names of a program are names of another. -/
structure Within (p q : LoweredProgram) : Prop where
  structs : p.structs.map LoweredStruct.name ⊆ q.structs.map LoweredStruct.name
  functions : p.functions ⊆ q.functions
  shaders : p.shaders.map LoweredShader.name ⊆ q.shaders.map LoweredShader.name

theorem Within.refl (p : LoweredProgram) : p.Within p :=
  ⟨List.Subset.refl _, List.Subset.refl _, List.Subset.refl _⟩

theorem Within.trans {p q r : LoweredProgram} (h : p.Within q) (h' : q.Within r) : p.Within r :=
  ⟨List.Subset.trans h.structs h'.structs, List.Subset.trans h.functions h'.functions,
    List.Subset.trans h.shaders h'.shaders⟩

variable {p : LoweredProgram} {declarations : Declarations} {irs : List ShaderIR}

theorem Distinct.lowerAll (h : p.Distinct) : (p.lowerAll declarations irs).Distinct := by
  rw [lowerAll_eq]
  refine ⟨?_, nodup_foldl_putName h.functions, ?_⟩
  · exact List.foldlRecOn (motive := fun l : List LoweredStruct => (l.map LoweredStruct.name).Nodup)
      _ _ h.structs fun _ hl _ _ => nodup_putStruct hl
  · rw [names_foldl_putShader]
    exact nodup_foldl_putName h.shaders

theorem within_lowerAll (p : LoweredProgram) (declarations : Declarations) (irs : List ShaderIR) :
    p.Within (p.lowerAll declarations irs) := by
  rw [lowerAll_eq]
  refine ⟨?_, fun n hn => mem_foldl_putName.mpr (Or.inr hn), ?_⟩
  · exact List.foldlRecOn (motive := fun l : List LoweredStruct =>
      p.structs.map LoweredStruct.name ⊆ l.map LoweredStruct.name) _ _ (List.Subset.refl _)
      fun _ hl _ _ n hn => mem_names_putStruct.mpr (Or.inr (hl hn))
  · rw [names_foldl_putShader]
    exact fun n hn => mem_foldl_putName.mpr (Or.inr hn)

/-- Lowering the same again changes nothing. -/
theorem lowerAll_lowerAll (p : LoweredProgram) (declarations : Declarations)
    (irs : List ShaderIR) :
    (p.lowerAll declarations irs).lowerAll declarations irs = p.lowerAll declarations irs := by
  rw [lowerAll_eq (p.lowerAll declarations irs), lowerAll_eq p]
  congr 1
  · exact foldl_putStruct_self _ _
  · exact foldl_putName_of_mem fun n hn => mem_foldl_putName.mpr (Or.inl hn)
  · refine foldl_putShader_eq_self fun n s hs => ?_
    rw [find?_foldl_put (fun l s => find?_putShader s l), hs, Option.some_or]

end ShaderVariants.LoweredProgram
