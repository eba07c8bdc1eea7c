import OrderedMap.Journal

/-!
What the hooks of a policy receive. Of an entry that is disposed of the hook for tags receives the
tag, and then the hook for values the value; without a hook there is nothing to receive.
-/
namespace OrderedMap

variable {κ ν : Type} (p : Policy κ) (j : Journal κ ν)

namespace Policy

def tagReleases (t : κ) : List (Released κ ν) := (p.tagHook.map (.tag · t)).toList

def valueReleases (v : ν) : List (Released κ ν) := (p.valueHook.map (.value · v)).toList

/-- Of an entry the tag is released before the value. -/
def releases (e : Entry κ ν) : List (Released κ ν) := p.tagReleases e.tag ++ p.valueReleases e.value

end Policy

namespace Journal

@[simp] theorem released_record (r : Record) : (j.record r).released = j.released := rfl

theorem released_releaseTag (t : κ) :
    (j.releaseTag p t).released.toList = j.released.toList ++ p.tagReleases t := by
  unfold releaseTag Policy.tagReleases
  cases p.tagHook <;> simp

theorem released_releaseValue (v : ν) :
    (j.releaseValue p v).released.toList = j.released.toList ++ p.valueReleases v := by
  unfold releaseValue Policy.valueReleases
  cases p.valueHook <;> simp

theorem released_release (e : Entry κ ν) :
    (j.release p e).released.toList = j.released.toList ++ p.releases e := by
  rw [release, released_releaseValue, released_releaseTag, Policy.releases, List.append_assoc]

theorem released_releaseAll (es : List (Entry κ ν)) :
    (j.releaseAll p es.toArray).released.toList = j.released.toList ++ es.flatMap p.releases := by
  rw [releaseAll, List.foldl_toArray]
  induction es generalizing j with
  | nil => simp
  | cons e es ih => rw [List.foldl_cons, ih, released_release, List.flatMap_cons, List.append_assoc]

/-- Only the hooks learn of a release. -/
theorem exists_release (e : Entry κ ν) : ∃ rs, j.release p e = { j with released := rs } := by
  unfold release releaseTag releaseValue
  cases p.tagHook <;> cases p.valueHook <;> exact ⟨_, rfl⟩

theorem records_release (e : Entry κ ν) : (j.release p e).records = j.records := by
  obtain ⟨rs, h⟩ := j.exists_release p e
  rw [h]

theorem rotations_release (e : Entry κ ν) : (j.release p e).rotations = j.rotations := by
  obtain ⟨rs, h⟩ := j.exists_release p e
  rw [h]

/-- A release is not recorded. -/
theorem records_releaseAll (es : List (Entry κ ν)) :
    (j.releaseAll p es.toArray).records = j.records := by
  rw [releaseAll, List.foldl_toArray]
  induction es generalizing j with
  | nil => rfl
  | cons e es ih => rw [List.foldl_cons, ih, records_release]

end Journal
end OrderedMap
