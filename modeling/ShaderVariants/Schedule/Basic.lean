import ShaderVariants.Attributes
import ShaderVariants.Span
/-!
# Schedules

A schedule says which implementation of a component should occupy which world, and adds
attributes. Both parts are keyed by choice names and kept in the order in which they were written.
-/
namespace ShaderVariants

/-- One placement that a choice asks for: a world and the name of an alternate. -/
structure Selection where
  world : String
  /-- `none` asks for the unnamed implementation. -/
  alternate : Option String := none
  span : Span := {}
deriving DecidableEq, Inhabited

namespace Selection

/-- The alternate, with the unnamed one as the empty text. -/
def alternateName (s : Selection) : String := s.alternate.getD ""

/-- The same placement, wherever it was written. -/
def same (s t : Selection) : Bool := s.world == t.world && s.alternate == t.alternate

/-- Keep the first of each group of same placements. -/
def distinct (l : List Selection) : List Selection :=
  l.foldl (fun kept s => if kept.any s.same then kept else kept ++ [s]) []

end Selection

structure Schedule where
  choices : OrderedMap String (List Selection) := ∅
  attributes : OrderedMap String Attributes := ∅
deriving DecidableEq, Inhabited

namespace Schedule

def empty : Schedule := {}

def isEmpty (s : Schedule) : Bool := s.choices.isEmpty && s.attributes.isEmpty

/-- Append selections to a choice, which is created if it is new. -/
def select (s : Schedule) (choice : String) (selections : List Selection) : Schedule :=
  { s with choices := s.choices.update choice [] (· ++ selections) }

/-- Set attributes of a choice, later values replacing earlier ones. The choice gets an attribute
map even if there is nothing to set. -/
def setAttributes (s : Schedule) (choice : String) (attributes : List (String × String)) :
    Schedule :=
  { s with attributes := s.attributes.update choice ∅ (·.insertAll attributes) }

/-- Equal but for spans and for the order of choices and keys. -/
def same (s t : Schedule) : Bool :=
  s.choices.agrees
      (fun a b => a.length == b.length && (a.zip b).all fun p => p.1.same p.2) t.choices &&
    s.attributes.agrees (OrderedMap.agrees (· == ·)) t.attributes

end Schedule

end ShaderVariants
