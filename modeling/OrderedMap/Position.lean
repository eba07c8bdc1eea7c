import OrderedMap.Node

/-!
Positions: detached handles to one entry of one map. A position names the map, the slot, and the
stamp of the node it was taken from, so that a slot used again does not revive it.
-/
namespace OrderedMap

/-- The identity of a map, which every position it hands out carries. -/
structure MapId where
  number : Nat
  deriving DecidableEq, Repr, Inhabited

protected def MapId.toString (m : MapId) : String := "MapId(" ++ toString m.number ++ ")"

instance : ToString MapId := ⟨MapId.toString⟩

structure Position where
  map : MapId
  node : NodeId
  stamp : Nat
  deriving DecidableEq, Repr

/-- Why a position does not resolve in a map. -/
inductive PositionError
  /-- It was taken from another map. -/
  | foreign
  /-- Its entry has left the map since. -/
  | stale
  deriving DecidableEq, Repr, Inhabited

def PositionError.message : PositionError → String
  | foreign => "position belongs to another map"
  | stale => "position refers to an erased entry"

end OrderedMap
