/-!
# Insertion-ordered maps

A map whose keys are listed in the order of their first insertion. Replacing a value keeps the
key's place, so iteration order is a function of the insertions alone. The keys are distinct by
construction.
-/
namespace ShaderVariants

structure OrderedMap (κ α : Type) where
  entries : List (κ × α)
  distinct : (entries.map Prod.fst).Nodup

namespace OrderedMap
variable {κ α β : Type}

@[ext]
theorem ext {m n : OrderedMap κ α} (h : m.entries = n.entries) : m = n := by
  cases m; cases n; cases h; rfl

instance [DecidableEq κ] [DecidableEq α] : DecidableEq (OrderedMap κ α) := fun m n =>
  decidable_of_iff (m.entries = n.entries) ⟨ext, congrArg entries⟩

def empty : OrderedMap κ α := ⟨[], .nil⟩

instance : EmptyCollection (OrderedMap κ α) := ⟨empty⟩
instance : Inhabited (OrderedMap κ α) := ⟨empty⟩

def keys (m : OrderedMap κ α) : List κ := m.entries.map Prod.fst

def values (m : OrderedMap κ α) : List α := m.entries.map Prod.snd

def size (m : OrderedMap κ α) : Nat := m.entries.length

def isEmpty (m : OrderedMap κ α) : Bool := m.entries.isEmpty

/-- Change every value; keys and order stay. -/
def map (m : OrderedMap κ α) (f : α → β) : OrderedMap κ β where
  entries := m.entries.map fun e => (e.1, f e.2)
  distinct := by simpa [Function.comp_def] using m.distinct

/-- Keep the entries that pass the test, in order. -/
def filter (m : OrderedMap κ α) (p : κ → α → Bool) : OrderedMap κ α where
  entries := m.entries.filter fun e => p e.1 e.2
  distinct := m.distinct.sublist (List.filter_sublist.map _)

section Lookup
variable [DecidableEq κ]

/-- The value that stands first under `k`. -/
def lookup (k : κ) : List (κ × α) → Option α
  | [] => none
  | e :: rest => if e.1 = k then some e.2 else lookup k rest

def find? (m : OrderedMap κ α) (k : κ) : Option α := lookup k m.entries

def contains (m : OrderedMap κ α) (k : κ) : Bool := (m.find? k).isSome

/-- Replace the value of `k` where it stands, or add `k` at the end. -/
def put (k : κ) (v : α) : List (κ × α) → List (κ × α)
  | [] => [(k, v)]
  | e :: rest => if e.1 = k then (k, v) :: rest else e :: put k v rest

theorem keys_put (k : κ) (v : α) (l : List (κ × α)) :
    (put k v l).map Prod.fst =
      if k ∈ l.map Prod.fst then l.map Prod.fst else l.map Prod.fst ++ [k] := by
  induction l with
  | nil => simp [put]
  | cons e rest ih =>
    by_cases h : e.1 = k
    · simp [put, h]
    · have h' : k ≠ e.1 := Ne.symm h
      simp only [put, h, if_false, List.map_cons, ih, List.mem_cons, h', false_or]
      split <;> simp

theorem nodup_put {k : κ} {v : α} {l : List (κ × α)} (h : (l.map Prod.fst).Nodup) :
    ((put k v l).map Prod.fst).Nodup := by
  rw [keys_put]
  split
  · exact h
  · rename_i hk
    rw [List.nodup_append]
    refine ⟨h, by simp, ?_⟩
    intro a ha b hb he
    rw [List.mem_singleton] at hb
    exact hk (hb ▸ he ▸ ha)

def insert (m : OrderedMap κ α) (k : κ) (v : α) : OrderedMap κ α where
  entries := put k v m.entries
  distinct := nodup_put m.distinct

/-- Change the value of `k` if there is one. -/
def modify (m : OrderedMap κ α) (k : κ) (f : α → α) : OrderedMap κ α where
  entries := m.entries.map fun e => if e.1 = k then (e.1, f e.2) else e
  distinct := by
    have : (m.entries.map fun e => if e.1 = k then (e.1, f e.2) else e).map Prod.fst =
        m.entries.map Prod.fst := by
      rw [List.map_map]
      apply List.map_congr_left
      intro e _
      simp only [Function.comp_apply]
      split <;> rfl
    rw [this]
    exact m.distinct

/-- Change the value of `k`, taking `fresh` as its value where `k` is new. -/
def update (m : OrderedMap κ α) (k : κ) (fresh : α) (f : α → α) : OrderedMap κ α :=
  m.insert k (f ((m.find? k).getD fresh))

/-- Insert the listed entries one after the other. -/
def insertAll (m : OrderedMap κ α) (l : List (κ × α)) : OrderedMap κ α :=
  l.foldl (fun m e => m.insert e.1 e.2) m

def ofList (l : List (κ × α)) : OrderedMap κ α := empty.insertAll l

/-- The same keys with agreeing values, whatever the order. -/
def agrees (same : α → α → Bool) (m n : OrderedMap κ α) : Bool :=
  m.size == n.size && m.entries.all fun e => (n.find? e.1).any (same e.2)

@[simp]
theorem find?_empty (k : κ) : (∅ : OrderedMap κ α).find? k = none := rfl

theorem lookup_eq_some_iff {k : κ} {v : α} {l : List (κ × α)} (hl : (l.map Prod.fst).Nodup) :
    lookup k l = some v ↔ (k, v) ∈ l := by
  induction l with
  | nil => simp [lookup]
  | cons e rest ih =>
    obtain ⟨he, hrest⟩ := List.nodup_cons.mp hl
    rw [lookup, List.mem_cons]
    split
    · rename_i hk
      have hnot : (k, v) ∉ rest := fun hm => he (hk ▸ List.mem_map_of_mem hm)
      constructor
      · intro h
        exact Or.inl (Prod.ext hk.symm (Option.some.inj h).symm)
      · intro h
        exact congrArg some (congrArg Prod.snd (h.resolve_right hnot)).symm
    · rename_i hk
      rw [ih hrest]
      exact ⟨Or.inr, fun h => h.resolve_left fun h => hk (congrArg Prod.fst h).symm⟩

theorem find?_eq_some_iff {m : OrderedMap κ α} {k : κ} {v : α} :
    m.find? k = some v ↔ (k, v) ∈ m.entries :=
  lookup_eq_some_iff m.distinct

theorem keys_insert (m : OrderedMap κ α) (k : κ) (v : α) :
    (m.insert k v).keys = if k ∈ m.keys then m.keys else m.keys ++ [k] :=
  keys_put k v m.entries

theorem find?_insert (m : OrderedMap κ α) (k : κ) (v : α) (j : κ) :
    (m.insert k v).find? j = if k = j then some v else m.find? j := by
  show lookup j (put k v m.entries) = if k = j then some v else lookup j m.entries
  induction m.entries with
  | nil => rfl
  | cons e rest ih =>
    by_cases he : e.1 = k
    · by_cases hj : k = j <;> simp [put, lookup, he, hj]
    · rw [put, if_neg he, lookup, lookup, ih]
      by_cases hj : e.1 = j
      · have : ¬ k = j := fun h => he (hj.trans h.symm)
        rw [if_pos hj, if_neg this, if_pos hj]
      · rw [if_neg hj, if_neg hj]

theorem mem_entries_insert {m : OrderedMap κ α} {k : κ} {v : α} {e : κ × α}
    (he : e ∈ (m.insert k v).entries) : e = (k, v) ∨ e ∈ m.entries := by
  have hfind := find?_eq_some_iff.mpr he
  rw [find?_insert] at hfind
  split at hfind
  · rename_i hk
    exact Or.inl (Prod.ext hk.symm (Option.some.inj hfind).symm)
  · exact Or.inr (find?_eq_some_iff.mp hfind)

theorem find?_modify (m : OrderedMap κ α) (k : κ) (f : α → α) (j : κ) :
    (m.modify k f).find? j = if k = j then (m.find? j).map f else m.find? j := by
  show lookup j (m.entries.map fun e => if e.1 = k then (e.1, f e.2) else e) =
    if k = j then (lookup j m.entries).map f else lookup j m.entries
  induction m.entries with
  | nil => simp [lookup]
  | cons e rest ih =>
    rw [List.map_cons, lookup, lookup, ih]
    by_cases hj : e.1 = j <;> by_cases hk : k = j
    · simp [hj, hk]
    · have : ¬ e.1 = k := fun h => hk (h.symm.trans hj)
      rw [if_neg this, if_pos hj, if_neg hk, if_pos hj]
    · have : ¬ e.1 = k := fun h => hj (h.trans hk)
      rw [if_neg this, if_neg hj, if_neg hj]
    · have : (if e.1 = k then (e.1, f e.2) else e).1 = e.1 := by split <;> rfl
      rw [this, if_neg hj, if_neg hj]

theorem keys_modify (m : OrderedMap κ α) (k : κ) (f : α → α) : (m.modify k f).keys = m.keys := by
  simp only [keys, modify, List.map_map]
  apply List.map_congr_left
  intro e _
  simp only [Function.comp_apply]
  split <;> rfl

end Lookup

end OrderedMap

end ShaderVariants
