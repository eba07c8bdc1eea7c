import OrderedMap.Position

/-!
What can go wrong while a map is used: a misuse by the caller, or an arena whose links are
inconsistent. Each cause is a constructor; the wording is in `Fault.message` alone.
-/
namespace OrderedMap

inductive Fault
  /-- A slot number beyond the arena of the given size. -/
  | outOfRange (size index : Nat)
  /-- A slot that holds no node. -/
  | dangling (node : NodeId)
  /-- A node without entry where an entry is needed. -/
  | noEntry (node : NodeId)
  /-- The node taken out of the tree held no entry. -/
  | removedNoEntry (node : NodeId)
  /-- The child slot that should take a node is not free. -/
  | slotTaken (side : Side) (node : NodeId)
  /-- The node to be hung already has a parent. -/
  | hasParent (node : NodeId)
  /-- The parent that the node names holds `found` on its right instead of the node. -/
  | notHeld (found : Option NodeId) (node : NodeId)
  /-- A rotation towards `side` without a child on the other side. -/
  | noPivot (side : Side) (node : NodeId)
  /-- The node to be freed has links. -/
  | freesLinked (node : NodeId)
  /-- The node to be put in the place of another one has links. -/
  | replacesByLinked (node : NodeId)
  /-- An entry was removed from a map that counts none. -/
  | countUnderflow
  /-- Room was asked for more entries than can be addressed. -/
  | noRoom
  /-- The position to be erased belongs to another map. -/
  | erasesForeign
  /-- The map to be filled by a move holds entries. -/
  | movesIntoNonEmpty
  /-- The cursor through which a value was to be stored rests on nothing. -/
  | setsUnavailable
  /-- The links lead round in a circle. -/
  | endless
  deriving DecidableEq, Repr, Inhabited

namespace Fault

def message : Fault → String
  | outOfRange size index =>
    "index out of bounds: the len is " ++ toString size ++ " but the index is " ++ toString index
  | dangling n => "dangling node id " ++ n.toString
  | noEntry n => "placeholder " ++ n.toString ++ " reached from the tree"
  | removedNoEntry n => "removed placeholder " ++ n.toString
  | slotTaken side n => side.toString ++ " slot of " ++ n.toString ++ " is taken"
  | hasParent n => n.toString ++ " already has a parent"
  | notHeld found n =>
    "assertion \x60left == right\x60 failed\n  left: " ++ NodeId.linkText found ++
      "\n right: " ++ NodeId.linkText (some n)
  | noPivot side n =>
    "rotate_" ++ side.toString ++ " on " ++ n.toString ++ " without a " ++
      side.opposite.toString ++ " child"
  | freesLinked n => "freeing linked node " ++ n.toString
  | replacesByLinked n => "replacement " ++ n.toString ++ " is linked"
  | countUnderflow => "attempt to subtract with overflow"
  | noRoom => "capacity overflow"
  | erasesForeign => "erase: " ++ PositionError.foreign.message
  | movesIntoNonEmpty => "move_from into a non-empty map"
  | setsUnavailable => "set_value through an unavailable cursor"
  | endless => "the links of the tree do not end"

end Fault
end OrderedMap
