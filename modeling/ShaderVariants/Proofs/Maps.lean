import Mathlib.Data.List.Nodup
import Mathlib.Logic.Function.Iterate
import ShaderVariants.OrderedMap
import ShaderVariants.OrderedSet

/-! # Ordered maps and sets through their entries

Keys are distinct, so looking a key up is membership in the list of entries. Inserting a new key
appends it, which is how the maps of a text or of a lowered shader come to stand in the order in
which they were written. -/
namespace ShaderVariants

theorem map_eq_self {α : Type} {f : α → α} {l : List α} (h : ∀ x ∈ l, f x = x) : l.map f = l :=
  (List.map_congr_left h).trans (List.map_id l)

/-- Elements that are appended unless they are there stand in the order of first mention. -/
theorem foldl_append_new {α : Type} [DecidableEq α] (l s : List α) :
    l.foldl (fun s a => if a ∈ s then s else s ++ [a]) s = s ++ (l.filter (· ∉ s)).eraseDups := by
  induction l generalizing s with
  | nil => simp
  | cons a l ih =>
    rw [List.foldl_cons, ih, List.filter_cons]
    by_cases ha : a ∈ s
    · rw [if_pos ha, if_neg (by simpa using ha)]
    · have hrest : l.filter (· ∉ s ++ [a]) = (l.filter (· ∉ s)).filter fun b => !b == a := by
        rw [List.filter_filter]
        refine List.filter_congr fun b _ => ?_
        simp [and_comm, ← beq_eq_decide]
      rw [if_neg ha, hrest, if_pos (by simpa using ha), List.eraseDups_cons, List.append_assoc,
        List.singleton_append]

namespace OrderedMap
variable {κ α β : Type}

theorem nodup_keys (m : OrderedMap κ α) : m.keys.Nodup := m.distinct

theorem keys_map (m : OrderedMap κ α) (f : α → β) : (m.map f).keys = m.keys := by
  simp [keys, map, Function.comp_def]

theorem values_map (m : OrderedMap κ α) (f : α → β) : (m.map f).values = m.values.map f := by
  simp [values, map, Function.comp_def]

theorem map_congr {m : OrderedMap κ α} {f g : α → β} (h : ∀ e ∈ m.entries, f e.2 = g e.2) :
    m.map f = m.map g :=
  ext (List.map_congr_left fun e he => Prod.ext rfl (h e he))

theorem map_map {γ : Type} (m : OrderedMap κ α) (f : α → β) (g : β → γ) :
    (m.map f).map g = m.map (g ∘ f) :=
  ext List.map_map

variable [DecidableEq κ]

theorem mem_values_of_find? {m : OrderedMap κ α} {k : κ} {v : α} (h : m.find? k = some v) :
    v ∈ m.values :=
  List.mem_map_of_mem (find?_eq_some_iff.mp h)

theorem find?_isSome_iff {m : OrderedMap κ α} {k : κ} :
    (m.find? k).isSome = true ↔ k ∈ m.keys := by
  rw [Option.isSome_iff_exists, keys, List.mem_map]
  constructor
  · intro hparts
    obtain ⟨v, hv⟩ := hparts
    exact ⟨(k, v), find?_eq_some_iff.mp hv, rfl⟩
  · intro hparts
    obtain ⟨⟨_, v⟩, hv, rfl⟩ := hparts
    exact ⟨v, find?_eq_some_iff.mpr hv⟩

theorem contains_iff {m : OrderedMap κ α} {k : κ} : m.contains k = true ↔ k ∈ m.keys :=
  find?_isSome_iff

theorem find?_eq_none_iff {m : OrderedMap κ α} {k : κ} : m.find? k = none ↔ k ∉ m.keys := by
  rw [← find?_isSome_iff, Option.not_isSome_iff_eq_none]

theorem find?_map (m : OrderedMap κ α) (f : α → β) (k : κ) :
    (m.map f).find? k = (m.find? k).map f := by
  show lookup k (m.entries.map fun e => (e.1, f e.2)) = (lookup k m.entries).map f
  induction m.entries with
  | nil => rfl
  | cons e rest ih =>
    rw [List.map_cons, lookup, lookup, ih]
    split <;> rfl

/-- A map is its keys in order, with what is found for each. -/
theorem ext_find? {m n : OrderedMap κ α} (hkeys : m.keys = n.keys)
    (hfind : ∀ k, m.find? k = n.find? k) : m = n := by
  have hentries : ∀ m : OrderedMap κ α,
      m.keys.filterMap (fun k => (m.find? k).map fun v => (k, v)) = m.entries := by
    intro m
    rw [keys, List.filterMap_map, List.filterMap_congr (g := some), List.filterMap_some]
    intro e he
    rw [Function.comp_apply, find?_eq_some_iff.mpr he]
    rfl
  apply ext
  rw [← hentries, ← hentries, hkeys]
  simp only [hfind]

theorem find?_filter (m : OrderedMap κ α) (p : κ → α → Bool) (k : κ) :
    (m.filter p).find? k = (m.find? k).filter (p k) := by
  ext v
  rw [find?_eq_some_iff, Option.filter_eq_some_iff, find?_eq_some_iff]
  exact List.mem_filter

/-- A map without entries has nothing to find, so that leaving it out changes no search. -/
theorem bind_find?_filter_isEmpty (m : Option (OrderedMap κ α)) (k : κ) :
    (m.filter fun m => !m.isEmpty).bind (·.find? k) = m.bind (·.find? k) := by
  cases m with
  | none => rfl
  | some m =>
    by_cases he : m.isEmpty = true
    · have hnil : m.entries = [] := List.isEmpty_iff.mp he
      rw [Option.filter_some_neg (by simp [he])]
      simp [find?, hnil, lookup]
    · rw [Option.filter_some_pos (by simp [he])]

theorem find?_update (m : OrderedMap κ α) (k : κ) (fresh : α) (f : α → α) (j : κ) :
    (m.update k fresh f).find? j =
      if k = j then some (f ((m.find? k).getD fresh)) else m.find? j :=
  find?_insert m k _ j

theorem keys_update (m : OrderedMap κ α) (k : κ) (fresh : α) (f : α → α) :
    (m.update k fresh f).keys = if k ∈ m.keys then m.keys else m.keys ++ [k] :=
  keys_insert m k _

/-- A change that a view sees as another. -/
theorem map_modify_of_comm {m : OrderedMap κ α} {k : κ} {f : α → α} {g : α → β} (f' : β → β)
    (h : ∀ v, g (f v) = f' (g v)) : (m.modify k f).map g = (m.map g).modify k f' := by
  apply ext
  show ((m.entries.map _).map _) = ((m.entries.map _).map _)
  rw [List.map_map, List.map_map]
  refine List.map_congr_left fun e _ => ?_
  simp only [Function.comp_apply]
  split
  · exact Prod.ext rfl (h e.2)
  · rfl

/-- A change that a view does not see. -/
theorem map_modify {m : OrderedMap κ α} {k : κ} {f : α → α} {g : α → β}
    (h : ∀ v, g (f v) = g v) : (m.modify k f).map g = m.map g := by
  rw [map_modify_of_comm id h]
  refine ext (map_eq_self fun e _ => ?_)
  split <;> rfl

theorem modify_congr {m : OrderedMap κ α} {k : κ} {f g : α → α}
    (h : ∀ v, m.find? k = some v → f v = g v) : m.modify k f = m.modify k g := by
  refine ext_find? (by rw [keys_modify, keys_modify]) fun j => ?_
  rw [find?_modify, find?_modify]
  split
  · rename_i hkey
    exact Option.map_congr fun v hv => h v (hkey ▸ hv)
  · rfl

theorem modify_of_absent {m : OrderedMap κ α} {k : κ} (h : m.find? k = none) (f : α → α) :
    m.modify k f = m := by
  refine ext_find? (keys_modify m k f) fun j => ?_
  rw [find?_modify]
  split
  · rename_i hkey
    rw [← hkey, h, Option.map_none]
  · rfl

theorem keys_foldl_modify (f : α → α) (ks : List κ) (m : OrderedMap κ α) :
    (ks.foldl (fun m k => m.modify k f) m).keys = m.keys := by
  induction ks generalizing m with
  | nil => rfl
  | cons k rest ih => rw [List.foldl_cons, ih, keys_modify]

theorem map_foldl_modify {f : α → α} {g : α → β} (h : ∀ v, g (f v) = g v) (ks : List κ)
    (m : OrderedMap κ α) : (ks.foldl (fun m k => m.modify k f) m).map g = m.map g := by
  induction ks generalizing m with
  | nil => rfl
  | cons k rest ih => rw [List.foldl_cons, ih, map_modify h]

/-- What is found was changed as often as its key is listed. -/
theorem find?_foldl_modify (f : α → α) (ks : List κ) (m : OrderedMap κ α) (j : κ) :
    (ks.foldl (fun m k => m.modify k f) m).find? j = (m.find? j).map f^[ks.count j] := by
  induction ks generalizing m with
  | nil => exact Option.map_id_apply.symm
  | cons k rest ih =>
    rw [List.foldl_cons, ih, find?_modify]
    by_cases hkey : k = j
    · rw [if_pos hkey, hkey, List.count_cons_self, Option.map_map, Function.iterate_succ]
    · rw [if_neg hkey, List.count_cons_of_ne hkey]

theorem keys_insertAll (m : OrderedMap κ α) (l : List (κ × α)) :
    (m.insertAll l).keys = m.keys ++ ((l.map Prod.fst).filter (· ∉ m.keys)).eraseDups := by
  rw [← foldl_append_new, List.foldl_map]
  exact (List.foldl_hom keys fun m e => (keys_insert m e.1 e.2).symm).symm

theorem mem_keys_insertAll {m : OrderedMap κ α} {l : List (κ × α)} {k : κ} :
    k ∈ (m.insertAll l).keys ↔ k ∈ m.keys ∨ k ∈ l.map Prod.fst := by
  rw [keys_insertAll, List.mem_append, List.mem_eraseDups, List.mem_filter, decide_eq_true_eq]
  tauto

/-- Of the values that are listed for a key the last one stays. -/
theorem find?_insertAll_eq (m : OrderedMap κ α) (l : List (κ × α)) (k : κ) :
    (m.insertAll l).find? k = ((l.filter (·.1 = k)).getLast?.map Prod.snd).or (m.find? k) := by
  induction l generalizing m with
  | nil => rfl
  | cons e l ih =>
    have hcons : m.insertAll (e :: l) = (m.insert e.1 e.2).insertAll l := rfl
    rw [hcons, ih, find?_insert, List.filter_cons]
    by_cases hk : e.1 = k
    · simp only [hk, if_true, decide_true, List.getLast?_cons]
      cases (l.filter (·.1 = k)).getLast? <;> simp
    · simp [hk]

/-- A key whose listed values are all the same has that value. -/
theorem find?_insertAll {m : OrderedMap κ α} {l : List (κ × α)} {k : κ} {v : α}
    (hsame : ∀ e ∈ l, e.1 = k → e.2 = v) (h : m.find? k = some v ∨ k ∈ l.map Prod.fst) :
    (m.insertAll l).find? k = some v := by
  rw [find?_insertAll_eq]
  cases hlast : (l.filter (·.1 = k)).getLast? with
  | none =>
    refine h.resolve_right fun hk => ?_
    obtain ⟨e, he, hek⟩ := List.mem_map.mp hk
    exact (List.filter_eq_nil_iff.mp (List.getLast?_eq_none_iff.mp hlast)) e he (by simpa using hek)
  | some e =>
    obtain ⟨he, hek⟩ := List.mem_filter.mp (List.mem_of_getLast? hlast)
    exact congrArg some (hsame e he (by simpa using hek))

theorem put_of_not_mem {k : κ} {l : List (κ × α)} (h : k ∉ l.map Prod.fst) (v : α) :
    put k v l = l ++ [(k, v)] := by
  induction l with
  | nil => rfl
  | cons e rest ih =>
    obtain ⟨hne, hrest⟩ := not_or.mp (fun hm => h (List.mem_cons.mpr hm))
    rw [put, if_neg (Ne.symm hne), ih hrest, List.cons_append]

theorem entries_update_of_not_mem {m : OrderedMap κ α} {k : κ} (h : k ∉ m.keys) (fresh : α)
    (f : α → α) : (m.update k fresh f).entries = m.entries ++ [(k, f fresh)] := by
  show put k (f ((m.find? k).getD fresh)) m.entries = _
  rw [find?_eq_none_iff.mpr h, put_of_not_mem h]
  rfl

/-- Updates of distinct new keys append them in order. -/
theorem entries_foldl_update {γ : Type} (key : γ → κ) (fresh : α) (f : γ → α → α) (l : List γ)
    (m : OrderedMap κ α) (h : (m.keys ++ l.map key).Nodup) :
    (l.foldl (fun m x => m.update (key x) fresh (f x)) m).entries =
      m.entries ++ l.map fun x => (key x, f x fresh) := by
  induction l generalizing m with
  | nil => simp
  | cons x l ih =>
    have hnew : key x ∉ m.keys := fun hm =>
      (List.nodup_append.mp h).2.2 _ hm _ (List.mem_map_of_mem List.mem_cons_self) rfl
    have hentries := entries_update_of_not_mem hnew fresh (f x)
    have hkeys : (m.update (key x) fresh (f x)).keys = m.keys ++ [key x] := by
      rw [keys, hentries, List.map_append]
      rfl
    rw [List.foldl_cons, ih, hentries, List.append_assoc]
    · rfl
    · rw [hkeys, List.append_assoc]
      exact h

/-- A map is what its own entries make of the empty one. -/
theorem foldl_update_entries (m : OrderedMap κ α) {fresh : α} {f : κ × α → α → α}
    (h : ∀ e ∈ m.entries, f e fresh = e.2) :
    m.entries.foldl (fun n e => n.update e.1 fresh (f e)) ∅ = m := by
  have hentries := entries_foldl_update Prod.fst fresh f m.entries ∅ m.distinct
  have hvalues : m.entries.map (fun e => (e.1, f e fresh)) = m.entries :=
    map_eq_self fun e he => Prod.ext rfl (h e he)
  rw [hvalues] at hentries
  exact ext hentries

theorem ofList_append (l l' : List (κ × α)) : ofList (l ++ l') = (ofList l).insertAll l' :=
  List.foldl_append

theorem ofList_entries (m : OrderedMap κ α) : ofList m.entries = m := by
  cases hm : m.entries with
  | nil => exact ext hm.symm
  | cons e rest =>
    have h := @foldl_update_entries κ α _ m e.2 (fun e _ => e.2) fun _ _ => rfl
    rw [hm] at h
    exact h

/-- Of several maps that are merged into one the last that has a key decides about it. -/
theorem find?_insertAll_flatMap (m : OrderedMap κ α) (l : List (OrderedMap κ α)) (k : κ) :
    (m.insertAll (l.flatMap entries)).find? k =
      (l.filterMap (·.find? k)).getLast?.or (m.find? k) := by
  induction l generalizing m with
  | nil => rfl
  | cons n l ih =>
    have hcons : m.insertAll ((n :: l).flatMap entries) =
        (m.insertAll n.entries).insertAll (l.flatMap entries) := List.foldl_append
    have hown : (m.insertAll n.entries).find? k = (n.find? k).or (m.find? k) := by
      have hn : n.find? k = ((n.entries.filter (·.1 = k)).getLast?.map Prod.snd).or none :=
        (congrArg (·.find? k) (ofList_entries n)).symm.trans (find?_insertAll_eq empty _ k)
      rw [find?_insertAll_eq, hn, Option.or_none]
    rw [hcons, ih, hown, ← Option.or_assoc]
    congr 1
    cases hn : n.find? k with
    | none => simp [hn]
    | some v => simp [hn, List.getLast?_cons]

theorem entries_ofList {l : List (κ × α)} (h : (l.map Prod.fst).Nodup) : (ofList l).entries = l :=
  congrArg entries (ofList_entries ⟨l, h⟩)

theorem map_update {g : α → β} {f : α → α} {f' : β → β} (h : ∀ v, g (f v) = f' (g v))
    (m : OrderedMap κ α) (k : κ) (fresh : α) :
    (m.update k fresh f).map g = (m.map g).update k (g fresh) f' := by
  have hput : ∀ (v : α) (l : List (κ × α)), (put k v l).map (fun e => (e.1, g e.2)) =
      put k (g v) (l.map fun e => (e.1, g e.2)) := by
    intro v l
    induction l with
    | nil => rfl
    | cons e rest ih =>
      by_cases he : e.1 = k
      · simp [put, he]
      · simp [put, he, ih]
  apply ext
  show (put k (f ((m.find? k).getD fresh)) m.entries).map (fun e => (e.1, g e.2)) =
    put k (f' (((m.map g).find? k).getD (g fresh))) (m.entries.map fun e => (e.1, g e.2))
  rw [hput, h, find?_map]
  cases m.find? k <;> rfl

theorem map_insert (m : OrderedMap κ α) (g : α → β) (k : κ) (v : α) :
    (m.insert k v).map g = (m.map g).insert k (g v) :=
  @map_update κ α β _ g (fun _ => v) (fun _ => g v) (fun _ => rfl) m k v

/-- New keys stand behind those that are there. -/
theorem keys_foldl_update {γ : Type} (key : γ → κ) (fresh : α) (f : γ → α → α) (l : List γ)
    (m : OrderedMap κ α) :
    m.keys <+: (l.foldl (fun m x => m.update (key x) fresh (f x)) m).keys := by
  induction l generalizing m with
  | nil => exact List.prefix_rfl
  | cons x l ih =>
    refine List.IsPrefix.trans ?_ (ih _)
    rw [keys_update]
    split
    · exact List.prefix_rfl
    · exact List.prefix_append _ _

/-- Values sorted into buckets by their keys. -/
theorem getD_foldl_append {γ : Type} (key : γ → κ) (value : γ → β) (l : List γ)
    (m : OrderedMap κ (List β)) (k : κ) :
    ((l.foldl (fun m x => m.update (key x) [] (· ++ [value x])) m).find? k).getD [] =
      (m.find? k).getD [] ++ (l.filter (key · = k)).map value := by
  induction l generalizing m with
  | nil => simp
  | cons x l ih =>
    rw [List.foldl_cons, ih, find?_update, List.filter_cons]
    by_cases hk : key x = k
    · simp [hk]
    · simp [hk]

end OrderedMap

namespace OrderedSet
variable {α : Type} [DecidableEq α]

theorem toList_insert (s : OrderedSet α) (a : α) :
    (s.insert a).toList = if a ∈ s.toList then s.toList else s.toList ++ [a] := by
  unfold insert
  split <;> rfl

theorem ofList_concat (l : List α) (a : α) : ofList (l ++ [a]) = (ofList l).insert a :=
  List.foldl_concat insert empty a l

theorem toList_insertAll (s : OrderedSet α) (l : List α) :
    (s.insertAll l).toList = s.toList ++ (l.filter (· ∉ s)).eraseDups := by
  refine Eq.trans ?_ (foldl_append_new l s.toList)
  exact (List.foldl_hom toList fun s a => (toList_insert s a).symm).symm

theorem toList_ofList (l : List α) : (ofList l).toList = l.eraseDups := by
  rw [ofList, toList_insertAll]
  simp [mem_def, empty]

theorem eq_empty_of_agrees {s t : OrderedSet α} (h : s.agrees t = true) (ht : t = ∅) : s = ∅ := by
  subst ht
  simp only [agrees, Bool.and_eq_true, beq_iff_eq] at h
  exact ext (List.eq_nil_of_length_eq_zero h.1)

end OrderedSet

end ShaderVariants
