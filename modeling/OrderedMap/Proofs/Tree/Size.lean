import Mathlib.Algebra.Group.Nat.Defs
import OrderedMap.Proofs.Tree.RedBlack
import OrderedMap.Proofs.Tree.Seek

/-!
How many nodes a tree of a given height has, and how deep it is. Of the nodes on a way down no two
red ones follow one another, so black nodes make up at least half of it; the tree is as small as can
be if all its nodes are black, and as large as can be if the colours alternate.
-/
namespace OrderedMap
namespace Tree

variable {κ ν : Type} {t : Tree κ ν} {h : Nat}

/-- The number of nodes on the longest way down. -/
def depth : Tree κ ν → Nat
  | nil => 0
  | node l _ _ r => max l.depth r.depth + 1

/-- The black nodes alone make a tree of this height that large. -/
theorem Balanced.le_size (hb : t.Balanced h) : 2 ^ h ≤ 2 * (t.cells.length + 1) := by
  induction hb with
  | nil => simp
  | red _ _ _ _ ihl ihr =>
    simp only [cells, List.length_append, List.length_cons]
    omega
  | black _ _ ihl ihr =>
    simp only [cells, List.length_append, List.length_cons, Nat.pow_succ]
    omega

/-- Below a red root there is room for half as many nodes as below a black one. -/
theorem Balanced.size_le (hb : t.Balanced h) :
    (if t.color = .red then 2 else 4) * (t.cells.length + 1) ≤ 4 ^ h := by
  induction hb with
  | nil => simp
  | red _ _ bl br ihl ihr =>
    rw [bl] at ihl
    rw [br] at ihr
    simp only [reduceCtorEq, if_false, color, if_true, cells, List.length_append, List.length_cons]
      at ihl ihr ⊢
    omega
  | @black l r _ _ _ _ ihl ihr =>
    have halved (u : Tree κ ν) :
        2 * (u.cells.length + 1) ≤ (if u.color = .red then 2 else 4) * (u.cells.length + 1) :=
      Nat.mul_le_mul_right _ (by split <;> omega)
    have left := Nat.le_trans (halved l) ihl
    have right := Nat.le_trans (halved r) ihr
    simp only [color, reduceCtorEq, if_false, cells, List.length_append, List.length_cons,
      Nat.pow_succ]
    omega

/-- A red root is one node more on the way down. -/
theorem Balanced.depth_le (hb : t.Balanced h) :
    t.depth + (if t.color = .red then 1 else 2) ≤ 2 * h := by
  induction hb with
  | nil => simp [depth]
  | red _ _ bl br ihl ihr =>
    rw [bl] at ihl
    rw [br] at ihr
    simp only [reduceCtorEq, if_false, color, if_true, depth] at ihl ihr ⊢
    omega
  | @black l r _ _ _ _ ihl ihr =>
    have least (u : Tree κ ν) : 1 ≤ if u.color = .red then 1 else 2 := by split <;> omega
    have left := least l
    have right := least r
    simp only [color, reduceCtorEq, if_false, depth]
    omega

/-- A search goes one way down. -/
theorem length_visited_le (order : Cell κ ν → Ordering) (t : Tree κ ν) :
    (t.visited order).length ≤ t.depth := by
  induction t with
  | nil => exact Nat.zero_le 0
  | node l k c r ihl ihr =>
    rw [visited, List.length_cons, depth]
    split
    · exact Nat.succ_le_succ (Nat.zero_le _)
    · omega
    · omega

namespace RedBlack

theorem le_size (hr : t.RedBlack h) : 2 ^ (h - 1) ≤ t.cells.length + 1 := by
  obtain ⟨k, rfl⟩ := Nat.exists_eq_add_of_lt hr.balanced.pos
  have := hr.balanced.le_size
  rw [Nat.pow_succ] at this
  rw [Nat.add_sub_cancel]
  omega

theorem size_le (hr : t.RedBlack h) : t.cells.length + 1 ≤ 4 ^ (h - 1) := by
  obtain ⟨k, rfl⟩ := Nat.exists_eq_add_of_lt hr.balanced.pos
  have := hr.balanced.size_le
  rw [hr.color, if_neg nofun, Nat.pow_succ] at this
  rw [Nat.add_sub_cancel]
  omega

theorem depth_le (hr : t.RedBlack h) : t.depth ≤ 2 * (h - 1) := by
  have := hr.balanced.depth_le
  rw [hr.color, if_neg nofun] at this
  omega

/-- The height is logarithmic in the number of nodes. -/
theorem le_log (hr : t.RedBlack h) : h - 1 ≤ Nat.log2 (t.cells.length + 1) :=
  (Nat.le_log2 (Nat.succ_ne_zero _)).mpr hr.le_size

end RedBlack
end Tree
end OrderedMap
