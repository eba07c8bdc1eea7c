import OrderedMap.Color

/-!
Entries and the nodes that hold them. Nodes refer to each other by slot number. A child belongs
to the slot of its parent that names it; the parent number is only a reference back.
-/
namespace OrderedMap

/-- The number of a slot. -/
structure NodeId where
  index : Nat
  deriving DecidableEq, Repr, Inhabited

namespace NodeId

protected def toString (n : NodeId) : String := "NodeId(" ++ toString n.index ++ ")"

instance : ToString NodeId := ⟨NodeId.toString⟩

/-- The text of a link that may be absent. -/
def linkText : Option NodeId → String
  | none => "None"
  | some n => "Some(" ++ n.toString ++ ")"

end NodeId

/-- A tag with the value stored under it. -/
structure Entry (κ ν : Type) where
  tag : κ
  value : ν
  deriving DecidableEq, Repr

/-- How many bytes an entry takes. -/
class EntrySize (κ ν : Type) where
  bytes : Nat

/-- Numbers are taken for machine words. -/
instance : EntrySize Nat Nat := ⟨16⟩

/-- A text takes three machine words, however long it is. -/
instance : EntrySize Nat String := ⟨32⟩

/-- A node. Its stamp is drawn at allocation and never changes, so that two occupants of one slot
can be told apart. Only a placeholder holds no entry. -/
structure Node (κ ν : Type) where
  parent : Option NodeId
  left : Option NodeId
  right : Option NodeId
  color : Color
  stamp : Nat
  entry : Option (Entry κ ν)
  deriving DecidableEq, Repr

namespace Node

variable {κ ν : Type}

/-- A node that nothing links to and that links to nothing. -/
def unlinked (entry : Option (Entry κ ν)) (color : Color) (stamp : Nat) : Node κ ν :=
  ⟨none, none, none, color, stamp, entry⟩

def child (side : Side) (x : Node κ ν) : Option NodeId :=
  match side with
  | .left => x.left
  | .right => x.right

def withChild (side : Side) (c : Option NodeId) (x : Node κ ν) : Node κ ν :=
  match side with
  | .left => { x with left := c }
  | .right => { x with right := c }

def withParent (p : Option NodeId) (x : Node κ ν) : Node κ ν := { x with parent := p }

def withColor (c : Color) (x : Node κ ν) : Node κ ν := { x with color := c }

def withEntry (e : Option (Entry κ ν)) (x : Node κ ν) : Node κ ν := { x with entry := e }

def isUnlinked (x : Node κ ν) : Bool :=
  x.parent.isNone && x.left.isNone && x.right.isNone

end Node
end OrderedMap
