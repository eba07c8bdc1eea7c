import OrderedMap.Map.Workspace

/-!
Descending from the root by comparison. A lookup asks for the node of an equal tag; a descent for
placement asks for the last node on the path, from which a new tag would hang.
-/
namespace OrderedMap
namespace Map

variable {κ ν : Type}

def nearestFrom (t : κ) : Nat → NodeId → MapM κ ν (NodeId × Ordering)
  | 0, _ => throw .endless
  | fuel + 1, n => do
    let order ← compareAt t n
    match Side.ofOrdering? order with
    | none => pure (n, order)
    | some side =>
      match ← look (·.child side n) with
      | none => pure (n, order)
      | some c => nearestFrom t fuel c

/-- The node with an equal tag, or else the one a new node would hang from, and how the tag
compares with it. Only an empty tree has none. -/
def nearest (t : κ) : MapM κ ν (Option (NodeId × Ordering)) := do
  let a ← look pure
  match a.root with
  | none => pure none
  | some r => return some (← nearestFrom t a.reach r)

def locateFrom (t : κ) : Nat → Option NodeId → MapM κ ν (Option NodeId)
  | _, none => pure none
  | 0, some _ => throw .endless
  | fuel + 1, some n => do
    match ← compareAt t n with
    | .eq => pure (some n)
    | .lt => locateFrom t fuel (← look (·.child .left n))
    | .gt => locateFrom t fuel (← look (·.child .right n))

/-- The node with an equal tag. -/
def locate (t : κ) : MapM κ ν (Option NodeId) := do
  let a ← look pure
  locateFrom t a.reach a.root

end Map
end OrderedMap
