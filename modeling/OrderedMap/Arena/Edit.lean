import OrderedMap.Arena.Basic

/-!
Editing an arena: allocation, and the links between nodes. An edit that meets a fault keeps what it
had changed before. Hanging and detaching change both ends of a link at once, and every longer edit
is made of them, so parents and children disagree only inside an edit.
-/
namespace OrderedMap

/-- An edit of an arena, which may end in a fault. -/
abbrev EditM (κ ν : Type) := EStateM Fault (Arena κ ν)

namespace Arena

variable {κ ν α : Type}

/-- Read the arena under edit. -/
def inspect (q : Arena κ ν → Except Fault α) : EditM κ ν α := fun a =>
  match q a with
  | .ok x => .ok x a
  | .error f => .error f a

/-- Change the node in a slot. -/
def alter (n : NodeId) (f : Node κ ν → Node κ ν) : EditM κ ν Unit := fun a =>
  match a.node n with
  | .ok x => .ok () (a.put n (some (f x)))
  | .error e => .error e a

def setRoot (n : Option NodeId) : EditM κ ν Unit := fun a => .ok () { a with root := n }

/-! Allocation. -/

/-- Put a new node into the slot freed last, or into a new slot if none is vacant. -/
def allocate (entry : Option (Entry κ ν)) (color : Color) (stamp : Nat) : EditM κ ν NodeId :=
  fun a =>
    let x := Node.unlinked entry color stamp
    match a.free with
    | i :: rest => .ok ⟨i⟩ { a with slots := a.slots.setIfInBounds i (some x), free := rest }
    | [] => .ok ⟨a.slots.size⟩ { a with slots := a.slots.push (some x) }

/-- Free the slot of a node without links and hand back its entry. -/
def vacate (n : NodeId) : EditM κ ν (Option (Entry κ ν)) := do
  unless ← inspect (·.isUnlinked n) do
    throw (.freesLinked n)
  modifyGet fun a =>
    ((a.get? n).bind (·.entry),
      { a with slots := a.slots.setIfInBounds n.index none, free := n.index :: a.free })

/-- Drop every slot, occupied or not. -/
def wipe : EditM κ ν Unit := fun _ => .ok () Arena.empty

/-- Take the entry out of a node and leave its links in place. -/
def hollow (n : NodeId) : EditM κ ν (Option (Entry κ ν)) := do
  let e := (← inspect (·.node n)).entry
  alter n (·.withEntry none)
  return e

/-- Exchange the entry of a node that holds one. -/
def replaceEntry (n : NodeId) (f : Entry κ ν → Entry κ ν) : EditM κ ν (Entry κ ν) := do
  let e ← inspect (·.entry n)
  alter n (·.withEntry (some (f e)))
  return e

/-! Links. -/

/-- Hang a node without parent into a free child slot. -/
def attach (side : Side) (p c : NodeId) : EditM κ ν Unit := do
  if (← inspect (·.child side p)).isSome then
    throw (.slotTaken side p)
  if (← inspect (·.parent c)).isSome then
    throw (.hasParent c)
  alter p (·.withChild side (some c))
  alter c (·.withParent (some p))

/-- Detach the child on one side, if there is one. -/
def detach (side : Side) (p : NodeId) : EditM κ ν (Option NodeId) := do
  let c ← inspect (·.child side p)
  alter p (·.withChild side none)
  if let some c := c then
    alter c (·.withParent none)
  return c

/-- Let whatever points at `source` (its parent, or the root) point at `target` instead. The source
is left without parent; the target must not have one. -/
def redirect (source : NodeId) (target : Option NodeId) : EditM κ ν Unit := do
  let p ← inspect (·.parent source)
  if let some t := target then
    if (← inspect (·.parent t)).isSome then
      throw (.hasParent t)
    alter t (·.withParent p)
  match p with
  | none => setRoot target
  | some p =>
    let x ← inspect (·.node p)
    if x.left = some source then
      alter p (·.withChild .left target)
    else if x.right = some source then
      alter p (·.withChild .right target)
    else
      throw (.notHeld x.right source)
  alter source (·.withParent none)

end Arena
end OrderedMap
