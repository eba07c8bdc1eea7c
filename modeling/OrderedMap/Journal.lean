import OrderedMap.Policy
import OrderedMap.Position

/-!
What an operation lets be observed besides its result: the records of the log, the comparisons
made, what was released to which hook, and how many rotations there were.
-/
namespace OrderedMap

/-- Levels of log records, the gravest first. -/
inductive Level
  | error
  | warn
  | info
  | debug
  | trace
  deriving DecidableEq, Repr, Inhabited

namespace Level

def rank : Level → Nat
  | error => 1
  | warn => 2
  | info => 3
  | debug => 4
  | trace => 5

protected def toString : Level → String
  | error => "ERROR"
  | warn => "WARN"
  | info => "INFO"
  | debug => "DEBUG"
  | trace => "TRACE"

instance : ToString Level := ⟨Level.toString⟩

end Level

/-- A log record. -/
inductive Record
  /-- After an insertion, parent and uncle turned black and the grandparent red. -/
  | recolored (grand : NodeId)
  /-- After an insertion, a zig-zag is straightened at the parent. -/
  | innerRotation (parent : NodeId)
  /-- After an insertion, the grandparent is rotated. -/
  | outerRotation (grand : NodeId)
  /-- After a removal, the sibling of the short side is red. -/
  | redSibling (sibling : NodeId)
  /-- After a removal, a red parent turns black and makes up for the missing black node. -/
  | absorbed (parent : NodeId)
  /-- After a removal, the whole subtree is short, and the repair goes on above it. -/
  | movedUp (grand : NodeId)
  /-- After a removal, the near nephew is brought up. -/
  | nephewRotation (sibling : NodeId)
  /-- After a removal, the rotation that ends the repair. -/
  | terminalRotation (parent : NodeId)
  | cleared (map : MapId) (released : Nat)
  | moved (count : Nat) (source target : MapId)
  | dropping (map : MapId) (count : Nat)
  deriving DecidableEq, Repr

namespace Record

def level : Record → Level
  | cleared _ _ | moved _ _ _ | dropping _ _ => .debug
  | _ => .trace

def message : Record → String
  | recolored n => "insert fixup: recolor at " ++ n.toString
  | innerRotation n => "insert fixup: inner rotation at " ++ n.toString
  | outerRotation n => "insert fixup: rotation at " ++ n.toString
  | redSibling n => "remove fixup: red sibling " ++ n.toString
  | absorbed n => "remove fixup: absorbed by red parent " ++ n.toString
  | movedUp n => "remove fixup: deficiency moves up to " ++ n.toString
  | nephewRotation n => "remove fixup: near nephew rotation at " ++ n.toString
  | terminalRotation n => "remove fixup: terminal rotation at " ++ n.toString
  | cleared m k => "cleared map " ++ m.toString ++ ": released " ++ toString k ++ " entries"
  | moved k source target =>
    "moved " ++ toString k ++ " entries from map " ++ source.toString ++ " to " ++ target.toString
  | dropping m k => "dropping map " ++ m.toString ++ " with " ++ toString k ++ " entries"

end Record

/-- A comparison that was made, and whether the comparator was a custom one. -/
structure Call (κ : Type) where
  custom : Bool
  first : κ
  second : κ
  deriving DecidableEq, Repr

/-- A tag or a value handed to a hook. -/
inductive Released (κ ν : Type)
  | tag (hook : String) (datum : κ)
  | value (hook : String) (datum : ν)
  deriving DecidableEq, Repr

structure Journal (κ ν : Type) where
  records : Array Record
  calls : Array (Call κ)
  released : Array (Released κ ν)
  rotations : Nat
  deriving DecidableEq, Repr

namespace Journal

variable {κ ν : Type}

def empty : Journal κ ν := ⟨#[], #[], #[], 0⟩

instance : EmptyCollection (Journal κ ν) := ⟨empty⟩
instance : Inhabited (Journal κ ν) := ⟨empty⟩

def record (r : Record) (j : Journal κ ν) : Journal κ ν := { j with records := j.records.push r }

def call (comparator : Comparator κ) (first second : κ) (j : Journal κ ν) : Journal κ ν :=
  { j with calls := j.calls.push ⟨comparator.isCustom, first, second⟩ }

def countRotation (j : Journal κ ν) : Journal κ ν := { j with rotations := j.rotations + 1 }

/-- A tag goes to the hook for tags. Without such a hook it leaves no trace. -/
def releaseTag (p : Policy κ) (t : κ) (j : Journal κ ν) : Journal κ ν :=
  match p.tagHook with
  | none => j
  | some hook => { j with released := j.released.push (.tag hook t) }

def releaseValue (p : Policy κ) (v : ν) (j : Journal κ ν) : Journal κ ν :=
  match p.valueHook with
  | none => j
  | some hook => { j with released := j.released.push (.value hook v) }

/-- Of an entry the tag is released before the value. -/
def release (p : Policy κ) (e : Entry κ ν) (j : Journal κ ν) : Journal κ ν :=
  (j.releaseTag p e.tag).releaseValue p e.value

def releaseAll (p : Policy κ) (es : Array (Entry κ ν)) (j : Journal κ ν) : Journal κ ν :=
  es.foldl (fun j e => j.release p e) j

def forgetCalls (j : Journal κ ν) : Journal κ ν := { j with calls := #[] }

/-- Two journals, one after the other. -/
protected def append (i j : Journal κ ν) : Journal κ ν :=
  ⟨i.records ++ j.records, i.calls ++ j.calls, i.released ++ j.released, i.rotations + j.rotations⟩

/-- The arguments of the calls of a custom comparator, in order. -/
def customCalls (j : Journal κ ν) : List (κ × κ) :=
  j.calls.toList.filterMap fun c => if c.custom then some (c.first, c.second) else none

end Journal
end OrderedMap
