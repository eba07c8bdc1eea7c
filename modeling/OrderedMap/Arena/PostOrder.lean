import OrderedMap.Arena.InOrder

/-!
Children before parents: the post-order walk, and the teardown that hands out every entry in that
order. Entries handed out before a fault count as handed out.
-/
namespace OrderedMap
namespace Arena

variable {κ ν α : Type}

def leafBelowFrom (a : Arena κ ν) : Nat → NodeId → Except Fault NodeId
  | 0, _ => throw .endless
  | fuel + 1, n => do
    let x ← a.node n
    match x.left, x.right with
    | some l, _ => leafBelowFrom a fuel l
    | none, some r => leafBelowFrom a fuel r
    | none, none => pure n

/-- The leaf below a node that is reached by going left where possible, else right. -/
def leafBelow (a : Arena κ ν) (n : NodeId) : Except Fault NodeId := leafBelowFrom a a.reach n

def postOrderStart (a : Arena κ ν) : Except Fault (Option NodeId) := do
  match a.root with
  | none => pure none
  | some r => return some (← a.leafBelow r)

/-- After a left child comes the first leaf of its sibling, else the parent. -/
def postOrderNext (a : Arena κ ν) (n : NodeId) : Except Fault (Option NodeId) := do
  match ← a.parent n with
  | none => pure none
  | some p =>
    match ← a.child .right p with
    | none => pure (some p)
    | some r =>
      if (← a.child .left p) = some n then
        return some (← a.leafBelow r)
      else
        return some p

/-- All nodes, children before parents. -/
def postOrder (a : Arena κ ν) : Except Fault (List NodeId) := do
  follow a.postOrderNext a.reach (← a.postOrderStart)

end Arena

/-- An arena being torn down, with the entries handed out so far. -/
structure Teardown (κ ν : Type) where
  arena : Arena κ ν
  handed : Array (Entry κ ν)

abbrev TeardownM (κ ν : Type) := EStateM Fault (Teardown κ ν)

namespace Teardown

variable {κ ν α : Type}

def edit (e : EditM κ ν α) : TeardownM κ ν α := fun ⟨a, handed⟩ =>
  match e a with
  | .ok x a => .ok x ⟨a, handed⟩
  | .error f a => .error f ⟨a, handed⟩

def hand (e : Entry κ ν) : TeardownM κ ν Unit := fun ⟨a, handed⟩ => .ok () ⟨a, handed.push e⟩

/-- Step down to a child while there is one; detach a leaf from its parent, hand out its entry and
step up. -/
def step (n : NodeId) : TeardownM κ ν (Option NodeId) := do
  let x ← edit (Arena.inspect (·.node n))
  match x.left, x.right with
  | some l, _ => pure (some l)
  | none, some r => pure (some r)
  | none, none =>
    if let some p := x.parent then
      let onLeft := decide ((← edit (Arena.inspect (·.child .left p))) = some n)
      let _ ← edit (Arena.detach (if onLeft then .left else .right) p)
    if let some e ← edit (Arena.hollow n) then
      hand e
    return x.parent

def steps : Nat → Option NodeId → TeardownM κ ν Unit
  | _, none => pure ()
  | 0, some _ => throw .endless
  | fuel + 1, some n => do steps fuel (← step n)

/-- Hand out every entry, children before parents, then drop all slots. -/
def run : TeardownM κ ν Unit := do
  let a := (← get).arena
  steps a.rounds a.root
  edit Arena.wipe

end Teardown

/-- Tear down an arena. -/
def Arena.teardown {κ ν : Type} (a : Arena κ ν) : EStateM.Result Fault (Teardown κ ν) Unit :=
  Teardown.run ⟨a, #[]⟩

/-- Tear down the arena under edit and hand back its entries, children before parents. -/
def Arena.dismantle {κ ν : Type} : EditM κ ν (Array (Entry κ ν)) := fun a =>
  match a.teardown with
  | .ok _ t => .ok t.handed t.arena
  | .error f t => .error f t.arena

end OrderedMap
