import OrderedMap.Map.Operation
import OrderedMap.Proofs.Map.Actions

/-!
What the hooks receive from an operation, in order. Of an entry that the map lets go of they receive
the tag and the value, unless the operation hands one or both over to the caller, and of an entry
that changes only the value that is set anew. It is always the hooks of the policy that the map has
at that moment.
-/
namespace OrderedMap

variable {κ ν : Type}

/-- What the hooks receive when a writing cursor takes a step. -/
def Revision.releases (s : Revision ν) (c : Cursor) (m : Map κ ν) : List (Released κ ν) :=
  match s with
  | .set _ => m.valueReleasesAt c.rest
  | .erase => m.releasesAt c.rest
  | .look _ | .write _ | .view _ => []

def Revision.walkReleases : List (Revision ν) → Cursor → Workspace κ ν → List (Released κ ν)
  | [], _, _ => []
  | s :: rest, c, w => s.releases c w.map ++
    match s.perform c w with
    | .ok (_, c) w => walkReleases rest c w
    | .error _ _ => []

namespace Map

/-- What the hooks receive when entries are stored: all of the entries written over. -/
def insertManyReleases : List (κ × ν) → Workspace κ ν → List (Released κ ν)
  | [], _ => []
  | (t, v) :: rest, w => w.map.releasesAt (w.map.found? t) ++
    match insert t v w with
    | .ok _ w' | .error _ w' => insertManyReleases rest w'

/-- What the hooks receive when an operation is carried out. -/
def Op.releases (op : Op κ ν) (w : Workspace κ ν) : List (Released κ ν) :=
  match op with
  | .insert t _ | .erase t => w.map.releasesAt (w.map.found? t)
  | .insertMany entries => insertManyReleases entries w
  | .removeValue t => w.map.tagReleasesAt (w.map.found? t)
  | .eraseOwnPosition p | .erasePosition p => w.map.releasesAt (w.map.nodeAt p).toOption
  | .clear => w.map.upwardEntries.flatMap w.map.policy.releases
  | .revise start steps =>
    match cursor start w with
    | .ok (.ok c) w => Revision.walkReleases steps c w
    | _ => []
  | .size | .isEmpty | .get _ | .getEntry _ | .contains _ | .overwrite _ _ | .outermost _
  | .position _ | .remove _ | .audit | .iterate _ _ | .walk _ _ => []

end Map
end OrderedMap
