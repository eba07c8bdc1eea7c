import OrderedMap.Arena.PostOrder
import OrderedMap.Arena.Rotation
import OrderedMap.Journal
import OrderedMap.Map.Basic

/-!
The setting in which one map is worked on: the map, the next stamp to be drawn, and the journal. An
action that ends in a fault keeps what it had done and noted before.
-/
namespace OrderedMap

structure Workspace (κ ν : Type) where
  map : Map κ ν
  /-- The next stamp. -/
  clock : Nat
  journal : Journal κ ν

/-- An action on one map, which may end in a fault. -/
abbrev MapM (κ ν : Type) := EStateM Fault (Workspace κ ν)

namespace Map

variable {κ ν α : Type}

/-- Read the map. -/
def survey (q : Map κ ν → Except Fault α) : MapM κ ν α := fun w =>
  match q w.map with
  | .ok x => .ok x w
  | .error f => .error f w

/-- Read the arena of the map. -/
def look (q : Arena κ ν → Except Fault α) : MapM κ ν α := survey (q ·.arena)

/-- Edit the arena of the map. -/
def edit (e : EditM κ ν α) : MapM κ ν α := fun ⟨⟨id, a, count, policy⟩, clock, j⟩ =>
  match e a with
  | .ok x a => .ok x ⟨⟨id, a, count, policy⟩, clock, j⟩
  | .error f a => .error f ⟨⟨id, a, count, policy⟩, clock, j⟩

def note (f : Journal κ ν → Journal κ ν) : MapM κ ν Unit := fun ⟨m, clock, j⟩ =>
  .ok () ⟨m, clock, f j⟩

def setCount (n : Nat) : MapM κ ν Unit := fun ⟨⟨id, a, _, policy⟩, clock, j⟩ =>
  .ok () ⟨⟨id, a, n, policy⟩, clock, j⟩

/-- Carry on after a fault, with what was done up to it. -/
def attempt (x : MapM κ ν α) : MapM κ ν (Except Fault α) := fun w =>
  match x w with
  | .ok y w => .ok (.ok y) w
  | .error f w => .ok (.error f) w

def record (r : Record) : MapM κ ν Unit := note (·.record r)

/-- Compare two tags. -/
def compareTags (first second : κ) : MapM κ ν Ordering := do
  let c ← survey fun m => pure m.policy.comparator
  note (·.call c first second)
  return c.compare first second

/-- Compare a tag with that of a node. -/
def compareAt (t : κ) (n : NodeId) : MapM κ ν Ordering := do
  compareTags t (← look (·.tag n))

def releaseTag (t : κ) : MapM κ ν Unit := do
  let p ← survey fun m => pure m.policy
  note (·.releaseTag p t)

def releaseValue (v : ν) : MapM κ ν Unit := do
  let p ← survey fun m => pure m.policy
  note (·.releaseValue p v)

def release (e : Entry κ ν) : MapM κ ν Unit := do
  releaseTag e.tag
  releaseValue e.value

/-- Draw a stamp; none is drawn twice. -/
def drawStamp : MapM κ ν Nat := fun ⟨m, clock, j⟩ => .ok clock ⟨m, clock + 1, j⟩

def allocate (entry : Option (Entry κ ν)) (color : Color) : MapM κ ν NodeId := do
  let stamp ← drawStamp
  edit (Arena.allocate entry color stamp)

def paint (n : NodeId) (c : Color) : MapM κ ν Unit := edit (Arena.alter n (·.withColor c))

/-- Rotate, and count the rotation. -/
def rotate (side : Side) (n : NodeId) : MapM κ ν Unit := do
  edit (Arena.rotate side n)
  note (·.countRotation)

/-- Let two nodes trade places. -/
def exchange (n m : NodeId) : MapM κ ν Unit := do
  let stamp ← drawStamp
  edit (Arena.exchange n m stamp)

/-- Tear down the tree and release every entry handed out; the number of them is returned. -/
def strip : MapM κ ν Nat := fun ⟨⟨id, a, count, policy⟩, clock, j⟩ =>
  match a.teardown with
  | .ok _ t =>
    .ok t.handed.size ⟨⟨id, t.arena, count, policy⟩, clock, j.releaseAll policy t.handed⟩
  | .error f t => .error f ⟨⟨id, t.arena, count, policy⟩, clock, j.releaseAll policy t.handed⟩

end Map
end OrderedMap
