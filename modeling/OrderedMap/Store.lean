import OrderedMap.Map.Operation

/-!
Several maps side by side. A map is known by its number, which is also its identity; a map that is
gone leaves its number unused. All maps draw their stamps from one clock, so that no two nodes ever
bear the same stamp, whatever maps their arenas have been moved between.
-/
namespace OrderedMap

structure Store (κ ν : Type) where
  maps : Array (Option (Map κ ν))
  /-- The next stamp. -/
  clock : Nat

/-- The result of an operation, and what it let be observed. -/
structure Outcome (κ ν α : Type) where
  result : Except Fault α
  journal : Journal κ ν

namespace Store

variable {κ ν α : Type}

def empty : Store κ ν := ⟨#[], 0⟩

instance : EmptyCollection (Store κ ν) := ⟨empty⟩
instance : Inhabited (Store κ ν) := ⟨empty⟩

/-- The map of a number, unless it is gone. -/
def map? (s : Store κ ν) (m : Nat) : Option (Map κ ν) := s.maps[m]?.join

def setMap (m : Nat) (x : Option (Map κ ν)) (s : Store κ ν) : Store κ ν :=
  { s with maps := s.maps.setIfInBounds m x }

/-- Act on a map outside the store. -/
def actOn (x : Map κ ν) (clock : Nat) (action : MapM κ ν α) :
    Outcome κ ν α × Map κ ν × Nat :=
  match action ⟨x, clock, ∅⟩ with
  | .ok y w => (⟨.ok y, w.journal⟩, w.map, w.clock)
  | .error f w => (⟨.error f, w.journal⟩, w.map, w.clock)

/-- Act on one map. What was done before a fault stays done. -/
def act? (m : Nat) (action : MapM κ ν α) (s : Store κ ν) : Option (Outcome κ ν α × Store κ ν) :=
  match s.map? m with
  | none => none
  | some x =>
    let ⟨maps, clock⟩ := s
    let (out, x, clock) := actOn x clock action
    some (out, ⟨maps.setIfInBounds m (some x), clock⟩)

/-- Act on one map for the last time: afterwards it is gone. -/
def retire? (m : Nat) (action : MapM κ ν α) (s : Store κ ν) :
    Option (Outcome κ ν α × Store κ ν) :=
  (s.act? m action).map fun (out, s) => (out, s.setMap m none)

/-- A new map on which an action is carried out at once; its number is the next one. -/
def create (policy : Policy κ) (action : MapM κ ν α) (s : Store κ ν) :
    Outcome κ ν α × Store κ ν :=
  let ⟨maps, clock⟩ := s
  let (out, x, clock) := actOn (Map.fresh ⟨maps.size⟩ policy) clock action
  (out, ⟨maps.push (some x), clock⟩)

/-- Move all entries and the policy of one map into another, empty one. -/
def transfer? (target source : Nat) (s : Store κ ν) : Option (Outcome κ ν Unit × Store κ ν) :=
  match s.map? target, s.map? source with
  | some x, some y =>
    if target = source then
      none
    else
      match x.takeOver y with
      | .error f => some (⟨.error f, ∅⟩, s)
      | .ok (x, y) =>
        some (⟨.ok (), (∅ : Journal κ ν).record (.moved x.count y.id x.id)⟩,
          (s.setMap target (some x)).setMap source (some y))
  | _, _ => none

/-- An operation on the maps of a store. -/
inductive Op (κ ν : Type)
  /-- A new map into which entries are stored one after the other. -/
  | create (policy : Policy κ) (entries : List (κ × ν))
  | on (map : Nat) (op : Map.Op κ ν)
  | transfer (target source : Nat)
  /-- Release all entries of a map, which is then gone. -/
  | discard (map : Nat)
  /-- Harvest the entries of a map, which is then gone, and pull from the harvest. -/
  | consume (map : Nat) (pulls : List Pull)

/-- The outcome of an operation on maps that may be gone. -/
def conclude (s : Store κ ν) (reply : α → Reply κ ν) :
    Option (Outcome κ ν α × Store κ ν) → Outcome κ ν (Reply κ ν) × Store κ ν
  | none => (⟨.ok .noMap, ∅⟩, s)
  | some (out, t) => (⟨out.result.map reply, out.journal⟩, t)

variable [EntrySize κ ν]

def step (op : Op κ ν) (s : Store κ ν) : Outcome κ ν (Reply κ ν) × Store κ ν :=
  match op with
  | .create policy entries =>
    let number := s.maps.size
    let (out, s) := s.create policy (Map.insertMany entries)
    (⟨out.result.map fun _ => .number number, out.journal⟩, s)
  | .on m op => conclude s id (s.act? m op.perform)
  | .transfer target source => conclude s (fun _ => .done) (s.transfer? target source)
  | .discard m => conclude s (fun _ => .done) (s.retire? m Map.discard)
  | .consume m pulls =>
    conclude s (fun es => .many (Harvest.answers pulls ⟨es⟩)) (s.retire? m Map.consume)

/-- Carry out operations in order; a fault does not end the run. -/
def run : List (Op κ ν) → Store κ ν → List (Outcome κ ν (Reply κ ν)) × Store κ ν
  | [], s => ([], s)
  | op :: rest, s =>
    let (out, s) := s.step op
    let (outs, s) := run rest s
    (out :: outs, s)

/-- The store after operations. -/
def after (ops : List (Op κ ν)) (s : Store κ ν) : Store κ ν := (run ops s).2

/-- Discard the maps that are left, in order of their numbers, and tell what this let be
observed. -/
def close (s : Store κ ν) : Journal κ ν × Store κ ν :=
  (List.range s.maps.size).foldl (fun (j, s) m =>
    match s.retire? m Map.discard with
    | none => (j, s)
    | some (out, s) => (j.append out.journal, s)) (∅, s)

end Store
end OrderedMap
