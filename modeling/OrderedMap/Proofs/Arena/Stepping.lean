import OrderedMap.Proofs.Arena.Walk

/-!
Stepping through a tree in both directions. Only the links count: whatever the shape and the colours
of the tree, steps to the right run through all its nodes in order, steps to the left run through
them the other way round, and each undoes the other.
-/
namespace OrderedMap
namespace Arena

variable {κ ν : Type} {a : Arena κ ν} {t : Tree κ ν} {ns : List NodeId} {x y : NodeId}
  {step : NodeId → Except Fault (Option NodeId)}

namespace Follows

/-- A step leads from a node to another exactly if the one comes right after the other. -/
theorem next_iff (h : Follows step ns) (hx : x ∈ ns) :
    step x = .ok (some y) ↔ [x, y] <:+: ns := by
  constructor
  · intro hs
    obtain ⟨us, vs, rfl⟩ := List.append_of_mem hx
    have hy : vs.head? = some y := Except.ok.inj (h.of_append.1.symm.trans hs)
    obtain ⟨vs, rfl⟩ := List.head?_eq_some_iff.mp hy
    exact ⟨us, vs, by simp⟩
  · rintro ⟨us, vs, rfl⟩
    rw [List.append_assoc] at h
    exact h.of_append.1

end Follows

/-- Steps in either direction lead from end to end through the given nodes, and then to none. -/
structure Threads (a : Arena κ ν) (ns : List NodeId) : Prop where
  first : a.outermost .left = .ok ns.head?
  rightward : Follows (a.neighbour .right) ns
  last : a.outermost .right = .ok ns.reverse.head?
  leftward : Follows (a.neighbour .left) ns.reverse

/-- The successor of one node is another exactly if the predecessor of the other is the one. -/
theorem Threads.inverse (h : a.Threads ns) (hx : x ∈ ns) (hy : y ∈ ns) :
    a.neighbour .right x = .ok (some y) ↔ a.neighbour .left y = .ok (some x) := by
  have pair : [y, x] = [x, y].reverse := rfl
  rw [h.rightward.next_iff hx, h.leftward.next_iff (List.mem_reverse.mpr hy), pair,
    List.reverse_infix]

/-- The nodes of a tree are threaded in order, whatever its shape and its colours. -/
theorem Stands.threads (h : a.Stands t) (hnd : t.ids.Nodup) : a.Threads t.ids := by
  refine ⟨?_, h.follows hnd, ?_, ?_⟩
  · rw [outermost_eq h, Tree.toward, List.getLast?_reverse, Tree.ids, List.head?_map]
  · rw [outermost_eq h, Tree.toward, Tree.ids, List.head?_reverse, List.getLast?_map]
  · have leftward := h.follows hnd (s := .left)
    rwa [Tree.toward, List.map_reverse] at leftward

end Arena
end OrderedMap
