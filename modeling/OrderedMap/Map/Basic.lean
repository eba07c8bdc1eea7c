import OrderedMap.Arena.Edit
import OrderedMap.Policy

/-!
A map: an arena with its policy, an identity, and the tracked number of entries. A position
resolves in it to the node it was taken from, or not at all.
-/
namespace OrderedMap

structure Map (κ ν : Type) where
  id : MapId
  arena : Arena κ ν
  count : Nat
  policy : Policy κ

namespace Map

variable {κ ν : Type}

/-- A map without entries. -/
def fresh (id : MapId) (policy : Policy κ) : Map κ ν := ⟨id, ∅, 0, policy⟩

def isEmpty (m : Map κ ν) : Bool := m.count == 0

/-- The position of a node. -/
def positionAt (m : Map κ ν) (n : NodeId) : Except Fault Position :=
  return ⟨m.id, n, (← m.arena.node n).stamp⟩

/-- The node a position stands for: of this map, with the same stamp, and still holding its
entry. -/
def nodeAt (m : Map κ ν) (p : Position) : Except PositionError NodeId :=
  if p.map ≠ m.id then
    .error .foreign
  else
    match m.arena.get? p.node with
    | none => .error .stale
    | some x => if x.stamp = p.stamp ∧ x.entry.isSome then .ok p.node else .error .stale

/-- Let an empty map take over the tree and the policy of another one, which is left with what
the empty map had. Each map keeps its identity. -/
def takeOver (target source : Map κ ν) : Except Fault (Map κ ν × Map κ ν) :=
  if target.isEmpty then
    .ok (⟨target.id, source.arena, source.count, source.policy⟩,
      ⟨source.id, target.arena, 0, target.policy⟩)
  else
    .error .movesIntoNonEmpty

end Map
end OrderedMap
