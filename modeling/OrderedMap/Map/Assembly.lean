import OrderedMap.Map.Workspace

/-!
Assembling a map from a drawing of its nodes. Whatever is drawn is taken, however wrong, so that a
map in any state can be had.
-/
namespace OrderedMap

/-- A node as drawn. -/
structure Sketch (κ ν : Type) where
  entry : Option (Entry κ ν)
  color : Color
  parent : Option NodeId
  left : Option NodeId
  right : Option NodeId
  deriving DecidableEq, Repr

namespace Map

variable {κ ν : Type}

def allocateAll : List (Sketch κ ν) → MapM κ ν Unit
  | [] => pure ()
  | x :: rest => do
    let _ ← allocate x.entry x.color
    allocateAll rest

def linkAll : Nat → List (Sketch κ ν) → MapM κ ν Unit
  | _, [] => pure ()
  | i, x :: rest => do
    edit (Arena.alter ⟨i⟩ fun y => { y with parent := x.parent, left := x.left, right := x.right })
    linkAll (i + 1) rest

/-- Allocate all nodes in order, then set their links, the root and the tracked count. -/
def assemble (nodes : List (Sketch κ ν)) (root : Option NodeId) (count : Nat) :
    MapM κ ν Unit := do
  allocateAll nodes
  linkAll 0 nodes
  edit (Arena.setRoot root)
  setCount count

end Map
end OrderedMap
