import OrderedMap.Journal

/-!
What a repair after a removal lets be observed, as a word of records. The shortage moves up from
ancestor to ancestor; either it ends at one of them, where the tree is rotated three times at most,
or the whole tree becomes lower.
-/
namespace OrderedMap

/-- Whether the tree is rotated when the record is made. -/
def Record.rotates : Record → Bool
  | .innerRotation _ | .outerRotation _ | .redSibling _ | .nephewRotation _
  | .terminalRotation _ => true
  | _ => false

/-- How many rotations records tell of. -/
def Record.turns (rs : List Record) : Nat := rs.countP Record.rotates

theorem Record.turns_append (rs ss : List Record) : turns (rs ++ ss) = turns rs + turns ss :=
  List.countP_append ..

theorem Record.turns_map_movedUp (ns : List NodeId) : turns (ns.map .movedUp) = 0 := by
  induction ns with
  | nil => rfl
  | cons n ns ih => exact ih

namespace Repair

/-- A shortage ends below a node: if the sibling is red it is brought up first; then a red parent
absorbs the shortage, or a last rotation makes up for it, for which a red near nephew may have to be
brought up. -/
inductive Ending (n : NodeId) : List Record → Prop
  | absorbed (sibling : Option NodeId) :
      Ending n ((sibling.map .redSibling).toList ++ [.absorbed n])
  | rotated (sibling nephew : Option NodeId) :
      Ending n ((sibling.map .redSibling).toList ++ (nephew.map .nephewRotation).toList ++
        [.terminalRotation n])

/-- A shortage below the first of the given nodes, each of which hangs on the next one, moves up to
one of them and ends there, or moves past all of them. Whether it does is told at last. -/
inductive Course : List NodeId → List Record → Bool → Prop
  | ends (passed : List NodeId) (n : NodeId) (above : List NodeId) {rs : List Record}
      (ending : Ending n rs) :
      Course (passed ++ n :: above) ((passed ++ [n]).tail.map .movedUp ++ rs) false
  | past (ns : List NodeId) : Course ns (ns.tail.map .movedUp) true

variable {n : NodeId} {ns : List NodeId} {rs : List Record} {past : Bool}

theorem Ending.length_le (h : Ending n rs) : rs.length ≤ 3 := by
  cases h with
  | absorbed sibling => cases sibling <;> simp
  | rotated sibling nephew => cases sibling <;> cases nephew <;> simp

/-- The end of a shortage is recorded. -/
theorem Ending.exists_ne_movedUp (h : Ending n rs) : ∃ r ∈ rs, ∀ m, r ≠ .movedUp m := by
  cases h with
  | absorbed => exact ⟨.absorbed n, by simp, nofun⟩
  | rotated => exact ⟨.terminalRotation n, by simp, nofun⟩

/-- The shortage has moved past all nodes exactly if nothing else is recorded. -/
theorem Course.past_iff (h : Course ns rs past) : past = true ↔ rs = ns.tail.map .movedUp := by
  cases h with
  | ends passed m above ending =>
    refine ⟨nofun, fun e => ?_⟩
    obtain ⟨r, hr, hne⟩ := ending.exists_ne_movedUp
    have hm := List.mem_append_right ((passed ++ [m]).tail.map .movedUp) hr
    rw [e] at hm
    obtain ⟨m, -, rfl⟩ := List.mem_map.mp hm
    exact absurd rfl (hne m)
  | past => exact iff_of_true rfl rfl

theorem Course.turns_le (h : Course ns rs past) : Record.turns rs ≤ 3 := by
  cases h with
  | ends passed n above ending =>
    rw [Record.turns_append, Record.turns_map_movedUp, Nat.zero_add]
    exact Nat.le_trans List.countP_le_length ending.length_le
  | past =>
    rw [Record.turns_map_movedUp]
    exact Nat.zero_le 3

/-- From a node the shortage moves to the next one, if there is one. -/
theorem Course.moveUp (h : Course ns rs past) (n : NodeId) :
    Course (n :: ns) ((ns.head?.map .movedUp).toList ++ rs) past := by
  cases h with
  | ends passed m above ending =>
    have longer := Course.ends (n :: passed) m above ending
    cases passed <;> exact longer
  | past =>
    have longer := Course.past (n :: ns)
    cases ns <;> exact longer

end Repair
end OrderedMap
