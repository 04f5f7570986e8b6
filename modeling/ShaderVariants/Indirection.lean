import ShaderVariants.Closure
import ShaderVariants.Text.Blank
import ShaderVariants.Text.Word
/-!
# Attribute references

An attribute value `%component.attribute` stands for an attribute of another component of the same
shader. The last implementation that has it decides. A value is replaced in place and not read
again in the same round, and one that refers to nothing stays as it is written.
-/
namespace ShaderVariants

structure Indirection where
  component : String
  key : String
deriving DecidableEq

namespace Indirection
open Text

/-- A percent sign, a word, a dot and a word, with blanks allowed around the words. -/
def parse? (value : String) : Option Indirection :=
  match value.toList with
  | '%' :: cs =>
    match cs.dropWhile (· != '.') with
    | [] => none
    | _ :: after =>
      let component := trim (cs.takeWhile (· != '.'))
      let key := trim after
      if isWord component && isWord key then
        some ⟨String.ofList component, String.ofList key⟩
      else none
  | _ => none

def isMarked (value : String) : Bool := value.toList.head? == some '%'

/-- The attribute that is referred to: that of the last implementation which has it. -/
def value? (r : Indirection) (components : Components) : Option String :=
  (components.find? r.component).bind fun c =>
    (c.implementations.filterMap (·.attributes.find? r.key)).getLast?

end Indirection

/-- The place of an attribute: a component, one of its implementations, a key. -/
structure AttributeSlot where
  component : String
  implementation : Nat
  key : String
deriving DecidableEq

namespace AttributeSlot

def get? (slot : AttributeSlot) (components : Components) : Option String :=
  (components.find? slot.component).bind fun c =>
    c.implementations[slot.implementation]?.bind (·.attributes.find? slot.key)

def set (slot : AttributeSlot) (components : Components) (value : String) : Components :=
  let write (c : Component) : Component :=
    { c with
      implementations := c.implementations.modify slot.implementation fun i =>
        { i with attributes := i.attributes.modify slot.key fun _ => value } }
  components.revise slot.component write fun _ => rfl

/-- The slots whose values are marked as references, in order. -/
def marked (components : Components) : List AttributeSlot :=
  components.entries.flatMap fun e =>
    e.2.implementations.zipIdx.flatMap fun i =>
      (i.1.attributes.entries.filter fun a => Indirection.isMarked a.2).map fun a =>
        ⟨e.1, i.2, a.1⟩

end AttributeSlot

/-- How many references were replaced, and how many were left as written. -/
structure IndirectionCount where
  resolved : Nat := 0
  unresolved : Nat := 0
deriving DecidableEq

namespace Indirection

/-- Replace the value of one slot, as it is now, by what it refers to. -/
def resolveSlot (state : Components × IndirectionCount) (slot : AttributeSlot) :
    Components × IndirectionCount :=
  let (components, count) := state
  match slot.get? components with
  | none => state
  | some value =>
    match (parse? value).bind (·.value? components) with
    | some replacement =>
      (slot.set components replacement, { count with resolved := count.resolved + 1 })
    | none => (components, { count with unresolved := count.unresolved + 1 })

def resolve (components : Components) (count : IndirectionCount) :
    Components × IndirectionCount :=
  (AttributeSlot.marked components).foldl resolveSlot (components, count)

/-- Resolve the closures of one shader after the other, used ones first. -/
def resolveAll (symbols : SymbolTable) (closures : Closures) : Closures × IndirectionCount :=
  symbols.dependenceOrder.foldl
    (fun (closures, count) shader =>
      match closures.find? shader.name with
      | none => (closures, count)
      | some closure =>
        let (components, count) := resolve closure.components count
        (closures.modify shader.name fun c => { c with components }, count))
    (closures, {})

end Indirection

end ShaderVariants
