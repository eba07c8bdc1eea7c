import OrderedMap.Map.Workspace

/-!
The self check of a map: link, colour and height rules, the order of the tags, and the tracked
count. It names the first rule found broken.
-/
namespace OrderedMap

/-- A broken rule, and the node where it is broken. -/
inductive Violation
  | redRoot
  | rootHasParent
  | redChildOfRed (node : NodeId)
  | unevenBlackHeight (node : NodeId) (left right : Nat)
  | brokenParentLink (node : NodeId)
  | missingEntry (node : NodeId)
  | outOfOrder (node : NodeId)
  | countMismatch (tracked counted : Nat)
  deriving DecidableEq, Repr

namespace Violation

def message : Violation → String
  | redRoot => "root is red"
  | rootHasParent => "root has a parent"
  | redChildOfRed n => "red node " ++ toString n.index ++ " has a red child"
  | unevenBlackHeight n l r =>
    "node " ++ toString n.index ++ " has black heights " ++ toString l ++ " (left) and " ++
      toString r ++ " (right)"
  | brokenParentLink n => "node " ++ toString n.index ++ " does not point back at its parent"
  | missingEntry n => "node " ++ toString n.index ++ " holds no entry"
  | outOfOrder n => "node " ++ toString n.index ++ " is not greater than its predecessor"
  | countMismatch tracked counted =>
    "map tracks " ++ toString tracked ++ " entries but holds " ++ toString counted

end Violation

namespace Arena

variable {κ ν : Type}

/-- The number of black nodes on every path from a node down to a missing child, the missing child
counted as one. The left subtree is searched for violations before the right one. -/
def blackHeightFrom (a : Arena κ ν) : Nat → NodeId → ExceptT Violation (Except Fault) Nat
  | 0, _ => throwThe Fault .endless
  | fuel + 1, n => do
    let x ← a.node n
    if x.entry.isNone then
      throw (.missingEntry n)
    let below (side : Side) : ExceptT Violation (Except Fault) Nat := do
      match x.child side with
      | none => pure 1
      | some c =>
        if (← a.parent c) ≠ some n then
          throw (.brokenParentLink c)
        if x.color = .red ∧ (← a.color c) = .red then
          throw (.redChildOfRed n)
        blackHeightFrom a fuel c
    let l ← below .left
    let r ← below .right
    if l ≠ r then
      throw (.unevenBlackHeight n l r)
    return if x.color = .black then l + 1 else l

def blackHeight (a : Arena κ ν) (n : NodeId) : ExceptT Violation (Except Fault) Nat :=
  blackHeightFrom a a.reach n

/-- The rules on links, colours and heights, for a tree with a root. -/
def auditShape (a : Arena κ ν) (root : NodeId) : ExceptT Violation (Except Fault) Nat := do
  if (← a.parent root).isSome then
    throw .rootHasParent
  if (← a.color root) = .red then
    throw .redRoot
  a.blackHeight root

end Arena

namespace Map

variable {κ ν : Type}

/-- From a node on, the first one whose tag is not greater than the tag before it. -/
def disorderFrom : Nat → NodeId → MapM κ ν (Option NodeId)
  | 0, _ => throw .endless
  | fuel + 1, n => do
    match ← look (·.neighbour .right n) with
    | none => pure none
    | some next =>
      let order ← compareTags (← look (·.tag n)) (← look (·.tag next))
      if order = .lt then
        disorderFrom fuel next
      else
        pure (some next)

/-- The black height of the root, zero for an empty map, or the first violation. -/
def audit : MapM κ ν (Except Violation Nat) := do
  let m ← survey pure
  match m.arena.root with
  | none => return if m.count = 0 then .ok 0 else .error (.countMismatch m.count 0)
  | some root =>
    match ← look fun a => (a.auditShape root).run with
    | .error v => return .error v
    | .ok height =>
      match ← disorderFrom m.arena.reach (← look (·.extreme .left root)) with
      | some n => return .error (.outOfOrder n)
      | none =>
        let counted := (← look (·.postOrder)).length
        return if counted = m.count then .ok height else .error (.countMismatch m.count counted)

end Map
end OrderedMap
