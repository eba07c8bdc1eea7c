import OrderedMap.Map.Workspace
import OrderedMap.Arena.InOrder

/-!
Taking a node out of the tree. A node with two children first trades places with its predecessor,
so that it has at most one child. Where a black node is missed, the short side is repaired: a red
node on the way makes up for it, or the shortage moves up.
-/
namespace OrderedMap
namespace Map

variable {κ ν : Type}

/-- The shortage below `parent` ends here: a nephew is red. The far one is brought up by one
rotation; a near one is first turned into a far one. -/
def refillByRotation (parent sibling : NodeId) (side : Side) (near far : Option NodeId) :
    MapM κ ν Unit := do
  let sibling ← do
    if ← look (·.isRed far) then
      pure sibling
    else
      match near with
      | none => pure sibling
      | some n =>
        record (.nephewRotation sibling)
        paint n .black
        paint sibling .red
        rotate side.opposite sibling
        pure n
  record (.terminalRotation parent)
  paint sibling (← look (·.color parent))
  paint parent .black
  if let some f ← look (·.child side.opposite sibling) then
    paint f .black
  rotate side parent

/-- The sibling of the short side, made black by a rotation if it was red. -/
def blackSibling? (parent : NodeId) (side : Side) : MapM κ ν (Option NodeId) := do
  match ← look (·.child side.opposite parent) with
  | none => pure none
  | some sibling =>
    if (← look (·.color sibling)) = .red then
      record (.redSibling sibling)
      paint sibling .black
      paint parent .red
      rotate side parent
      look (·.child side.opposite parent)
    else
      pure (some sibling)

def refillFrom : Nat → NodeId → Side → MapM κ ν Unit
  | 0, _, _ => throw .endless
  | fuel + 1, parent, side => do
    match ← blackSibling? parent side with
    | none => pure ()
    | some sibling =>
      let near ← look (·.child side sibling)
      let far ← look (·.child side.opposite sibling)
      let redNephew ← if ← look (·.isRed near) then pure true else look (·.isRed far)
      if redNephew then
        refillByRotation parent sibling side near far
      else
        paint sibling .red
        if (← look (·.color parent)) = .red then
          record (.absorbed parent)
          paint parent .black
        else
          let grand ← look (·.parent parent)
          let above ← look (·.hangingSide parent)
          match grand, above with
          | some grand, some above =>
            record (.movedUp grand)
            refillFrom fuel grand above
          | _, _ => pure ()

/-- Restore the black heights above a node whose subtree on `side` is one black node short. -/
def refill (parent : NodeId) (side : Side) : MapM κ ν Unit := do
  let a ← look pure
  refillFrom a.rounds parent side

/-- Let a node with two children trade places and colours with its predecessor. -/
def lower (target : NodeId) : MapM κ ν Unit := do
  let l ← look (·.child .left target)
  let r ← look (·.child .right target)
  if let (some l, some _) := (l, r) then
    let pred ← look (·.extreme .right l)
    exchange target pred
    edit (Arena.exchangeColors target pred)

/-- Take a node out of the tree and free its slot. -/
def extract (target : NodeId) : MapM κ ν (Entry κ ν) := do
  lower target
  let side := if (← look (·.child .left target)).isSome then Side.left else Side.right
  let c ← edit (Arena.detach side target)
  let parent ← look (·.parent target)
  let above ← look (·.hangingSide target)
  edit (Arena.redirect target c)
  if (← look (·.color target)) = .black then
    if ← look (·.isRed c) then
      if let some c := c then
        paint c .black
    else if let (some p, some s) := (parent, above) then
      refill p s
  match ← edit (Arena.vacate target) with
  | some e => pure e
  | none => throw (.removedNoEntry target)

end Map
end OrderedMap
