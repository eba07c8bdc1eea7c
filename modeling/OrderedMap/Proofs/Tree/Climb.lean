import OrderedMap.Proofs.Tree.Course

/-!
What a repair after an insertion lets be observed, as a word of records. The redness moves up from
grandparent to grandparent; then the tree is rotated twice at most, or the redness has reached the
root.
-/
namespace OrderedMap

/-- Whether the record tells that the redness moved up to a grandparent. -/
def Record.recolors : Record → Bool
  | .recolored _ => true
  | _ => false

/-- How many nodes the redness moved up to. -/
def Record.recolorings (rs : List Record) : Nat := rs.countP Record.recolors

namespace Repair

/-- Where the redness has stopped, the grandparent may be rotated, and before it the parent. -/
inductive Turning : List NodeId → List Record → Prop
  | none (above : List NodeId) : Turning above []
  | outer (p g : NodeId) (above : List NodeId) : Turning (p :: g :: above) [.outerRotation g]
  | inner (p g : NodeId) (above : List NodeId) :
      Turning (p :: g :: above) [.innerRotation p, .outerRotation g]

/-- The redness moves up through the given nodes, the nearest first, each of which hangs on the next
one. It passes them two by two, a parent and a grandparent, and stops below those that are left.
Whether none are left is told at last. -/
inductive Climb : List NodeId → List Record → Bool → Prop
  | stops (passed : List (NodeId × NodeId)) {above : List NodeId} {rs : List Record}
      (turning : Turning above rs) :
      Climb (passed.flatMap (fun x => [x.1, x.2]) ++ above)
        (passed.map (fun x => .recolored x.2) ++ rs) above.isEmpty

variable {up above : List NodeId} {rs : List Record} {atRoot : Bool} {r : NodeId}

theorem Turning.turns_le (h : Turning above rs) : Record.turns rs ≤ 2 := by
  cases h with
  | none => exact Nat.zero_le 2
  | outer => exact Nat.le_succ 1
  | inner => exact Nat.le_refl 2

theorem Turning.recolorings_eq (h : Turning above rs) : Record.recolorings rs = 0 := by
  cases h <;> rfl

theorem Turning.ne_recolored (h : Turning above rs) : rs.getLast? ≠ some (.recolored r) := by
  cases h <;> simp

namespace Climb

/-- No record of recolouring tells of a rotation. -/
theorem turns_le (h : Climb up rs atRoot) : Record.turns rs ≤ 2 := by
  cases h with
  | stops passed turning =>
    have still : Record.turns (passed.map fun x => .recolored x.2) = 0 := by
      simp [Record.turns, List.countP_eq_zero, Record.rotates]
    rw [Record.turns_append, still, Nat.zero_add]
    exact turning.turns_le

/-- The redness moves up to the grandparent before it goes on. -/
theorem recolor (h : Climb up rs atRoot) (p g : NodeId) :
    Climb (p :: g :: up) (.recolored g :: rs) atRoot := by
  cases h with
  | stops passed turning => exact .stops ((p, g) :: passed) turning

/-- The redness has reached the root exactly if it is the last node to be recoloured. -/
theorem last_iff (h : Climb up rs atRoot) (hnd : up.Nodup) (hr : up.getLast? = some r) :
    rs.getLast? = some (.recolored r) ↔ atRoot = true := by
  cases h with
  | @stops passed above rs turning =>
    cases above with
    | nil =>
      obtain rfl : rs = [] := by cases turning; rfl
      rcases List.eq_nil_or_concat passed with rfl | ⟨passed, x, rfl⟩
      · cases hr
      · simpa using hr
    | cons a above =>
      simp only [List.isEmpty_cons, Bool.false_eq_true, iff_false]
      intro hl
      cases hrs : rs.getLast? with
      | some x =>
        rw [List.getLast?_append, hrs] at hl
        exact turning.ne_recolored (hrs.trans hl)
      | none =>
        -- the root would be among the nodes passed and among those left
        obtain rfl := List.getLast?_eq_none_iff.mp hrs
        rw [List.append_nil] at hl
        obtain ⟨x, hx, he⟩ := List.mem_map.mp (List.mem_of_getLast? hl)
        cases he
        have hleft : x.2 ∈ a :: above := by
          rw [List.getLast?_append, List.getLast?_cons, Option.some_or, ← List.getLast?_cons] at hr
          exact List.mem_of_getLast? hr
        exact (List.nodup_append.mp hnd).2.2 x.2
          (List.mem_flatMap.mpr ⟨x, hx, by simp⟩) x.2 hleft rfl

/-- Where no node is above, the redness is at the root already. -/
theorem of_nil (h : Climb [] rs atRoot) : atRoot = true := by
  generalize e : ([] : List NodeId) = up at h
  cases h with
  | stops passed turning =>
    rw [(List.append_eq_nil_iff.mp e.symm).2]
    rfl

/-- From a node below or at the root the redness has reached it exactly if it began there, or if the
root is the last node to be recoloured. -/
theorem atRoot_iff {n : NodeId} (h : Climb up rs atRoot) (hnd : (n :: up).Nodup)
    (hr : (n :: up).getLast? = some r) :
    atRoot = true ↔ r = n ∨ rs.getLast? = some (.recolored r) := by
  cases up with
  | nil =>
    obtain rfl : n = r := Option.some.inj hr
    exact iff_of_true h.of_nil (.inl rfl)
  | cons m up =>
    rw [List.getLast?_cons_cons] at hr
    have hne : r ≠ n := fun e =>
      (List.nodup_cons.mp hnd).1 (e ▸ List.mem_of_getLast? hr)
    rw [← h.last_iff (List.nodup_cons.mp hnd).2 hr]
    exact (or_iff_right hne).symm

end Climb
end Repair
end OrderedMap
