/-!
# Insertion-ordered sets

Elements stand in the order of their first insertion; inserting one again changes nothing.
-/
namespace ShaderVariants

structure OrderedSet (α : Type) where
  toList : List α
  distinct : toList.Nodup

namespace OrderedSet
variable {α : Type}

@[ext]
theorem ext {s t : OrderedSet α} (h : s.toList = t.toList) : s = t := by
  cases s; cases t; cases h; rfl

instance [DecidableEq α] : DecidableEq (OrderedSet α) := fun s t =>
  decidable_of_iff (s.toList = t.toList) ⟨ext, congrArg toList⟩

def empty : OrderedSet α := ⟨[], List.nodup_nil⟩

instance : EmptyCollection (OrderedSet α) := ⟨empty⟩
instance : Inhabited (OrderedSet α) := ⟨empty⟩

instance : Membership α (OrderedSet α) := ⟨fun s a => a ∈ s.toList⟩

theorem mem_def {s : OrderedSet α} {a : α} : a ∈ s ↔ a ∈ s.toList := Iff.rfl

/-- Keep the elements that pass the test, in order. -/
def filter (s : OrderedSet α) (p : α → Bool) : OrderedSet α :=
  ⟨s.toList.filter p, s.distinct.sublist List.filter_sublist⟩

variable [DecidableEq α]

instance (a : α) (s : OrderedSet α) : Decidable (a ∈ s) :=
  inferInstanceAs (Decidable (a ∈ s.toList))

def contains (s : OrderedSet α) (a : α) : Bool := decide (a ∈ s)

def insert (s : OrderedSet α) (a : α) : OrderedSet α :=
  if h : a ∈ s.toList then s
  else ⟨s.toList ++ [a], by
    rw [List.nodup_append]
    refine ⟨s.distinct, by simp, ?_⟩
    intro b hb c hc he
    rw [List.mem_singleton] at hc
    exact h (hc ▸ he ▸ hb)⟩

/-- Insert the listed elements one after the other. -/
def insertAll (s : OrderedSet α) (l : List α) : OrderedSet α := l.foldl insert s

def ofList (l : List α) : OrderedSet α := empty.insertAll l

/-- The same elements, whatever the order. -/
def agrees (s t : OrderedSet α) : Bool :=
  s.toList.length == t.toList.length && s.toList.all t.contains

theorem contains_iff {s : OrderedSet α} {a : α} : s.contains a = true ↔ a ∈ s := by
  simp [contains]

theorem mem_insert {s : OrderedSet α} {a b : α} : b ∈ s.insert a ↔ b ∈ s ∨ b = a := by
  simp only [insert, mem_def]
  split
  · rename_i h
    constructor
    · exact Or.inl
    · rintro (hb | rfl)
      · exact hb
      · exact h
  · simp

theorem mem_insertAll {l : List α} {s : OrderedSet α} {b : α} :
    b ∈ s.insertAll l ↔ b ∈ s ∨ b ∈ l := by
  induction l generalizing s with
  | nil => simp [insertAll]
  | cons a rest ih =>
    rw [show s.insertAll (a :: rest) = (s.insert a).insertAll rest from rfl, ih, mem_insert,
      List.mem_cons, or_assoc]

theorem mem_ofList {l : List α} {b : α} : b ∈ ofList l ↔ b ∈ l := by
  rw [ofList, mem_insertAll]
  simp [mem_def, empty]

theorem agrees_refl (s : OrderedSet α) : s.agrees s = true := by
  simp [agrees, contains, mem_def]

end OrderedSet

end ShaderVariants
