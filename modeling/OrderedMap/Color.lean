/-!
Colours and sides: the two finite vocabularies of a red-black tree. Every rebalancing rule is
written once for a side and read for the other through `Side.opposite`.
-/
namespace OrderedMap

/-- The colour of a node. A missing node counts as black. -/
inductive Color
  | black
  | red
  deriving DecidableEq, Repr, Inhabited

/-- Which child slot of a node. -/
inductive Side
  | left
  | right
  deriving DecidableEq, Repr, Inhabited

namespace Side

def opposite : Side → Side
  | left => right
  | right => left

@[simp] theorem opposite_opposite (s : Side) : s.opposite.opposite = s := by cases s <;> rfl

@[simp] theorem opposite_ne (s : Side) : s.opposite ≠ s := by cases s <;> decide

theorem eq_or_eq_opposite (s t : Side) : t = s ∨ t = s.opposite := by
  cases s <;> cases t <;> simp [opposite]

/-- The side on which a tag belongs that compares as given with a stored one. -/
def ofOrdering? : Ordering → Option Side
  | .lt => some left
  | .eq => none
  | .gt => some right

protected def toString : Side → String
  | left => "left"
  | right => "right"

instance : ToString Side := ⟨Side.toString⟩

end Side
end OrderedMap
