/-!
The policy of a map: how its tags are compared, and which hooks receive the tags and values that
the map itself lets go of. A hook is known by its name.
-/
namespace OrderedMap

/-- A comparison of tags. A custom one need not be a total order. -/
inductive Comparator (κ : Type)
  | natural (order : κ → κ → Ordering)
  | custom (order : κ → κ → Ordering)

namespace Comparator

variable {κ : Type}

def compare : Comparator κ → κ → κ → Ordering
  | natural order => order
  | custom order => order

def isCustom : Comparator κ → Bool
  | natural _ => false
  | custom _ => true

end Comparator

structure Policy (κ : Type) where
  comparator : Comparator κ
  tagHook : Option String
  valueHook : Option String

namespace Policy

variable {κ : Type}

/-- Order by the instance of `Ord`, with no hooks. -/
def natural [Ord κ] : Policy κ := ⟨.natural Ord.compare, none, none⟩

/-- Order by a given comparison, with no hooks. -/
def ofComparison (order : κ → κ → Ordering) : Policy κ := ⟨.custom order, none, none⟩

/-- A later hook takes the place of an earlier one. -/
def withTagHook (hook : String) (p : Policy κ) : Policy κ := { p with tagHook := some hook }

def withValueHook (hook : String) (p : Policy κ) : Policy κ := { p with valueHook := some hook }

protected def toString (p : Policy κ) : String :=
  "Callbacks \x7b compare: \"" ++ (if p.comparator.isCustom then "custom" else "natural") ++
    "\", release_tag: " ++ toString p.tagHook.isSome ++
    ", release_value: " ++ toString p.valueHook.isSome ++ " \x7d"

instance : ToString (Policy κ) := ⟨Policy.toString⟩

end Policy
end OrderedMap
