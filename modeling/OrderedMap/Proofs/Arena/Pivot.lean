import OrderedMap.Proofs.Arena.Ascent
import OrderedMap.Proofs.Arena.Turn
import OrderedMap.Proofs.Tree.RedBlack

/-!
Rotations of a tree that hangs together, whatever its shape and its colours and whatever else the
arena has. A rotation changes the links among the two nodes, the subtree that goes from one to the
other, and what the upper one hung on; the opposite rotation puts back every one of them.
-/
namespace OrderedMap
namespace Arena

variable {κ ν : Type} {a a' : Arena κ ν} {t : Tree κ ν} {p : Path κ ν} {s : Side}
  {ts us : List (Tree κ ν)}

/-- An edit of a tree that ends where it began has changed no node. -/
theorem Plants.get?_eq (h : a.Plants t ts) (h' : a'.Plants t us) (off : AgreeOff a a' t.ids)
    (n : NodeId) : a'.get? n = a.get? n := by
  by_cases hn : n ∈ t.ids
  · exact h.hangs.get?_eq h'.hangs hn
  · exact off n hn

/-- A node `n` was turned down towards a side, and its child `m` on the other side took its place.
The subtree between the two went from `m` to `n`. -/
structure Turned (s : Side) (n m : NodeId) (x y : Node κ ν) (a a' : Arena κ ν) : Prop where
  lower : a'.get? n = some ((x.withChild s.opposite (y.child s)).withParent (some m))
  upper : a'.get? m = some ((y.withChild s (some n)).withParent x.parent)
  inner : ∀ i ∈ y.child s, ∃ z, a.get? i = some z ∧ a'.get? i = some (z.withParent (some n))
  above : ∀ i ∈ x.parent, ∃ z side, a.get? i = some z ∧ z.child side = some n ∧
    a'.get? i = some (z.withChild side (some m))
  root : a'.root = if a.root = some n then some m else a.root
  others : AgreeOff a a' (n :: m :: ((y.child s).toList ++ x.parent.toList))
  free : a'.free = a.free
  size : a'.slots.size = a.slots.size

section Rotation

variable {u v w : Tree κ ν} {k k' : Color} {c d : Cell κ ν}

/-- What a rotation does to the tree tells what it does to every node. -/
theorem Plants.turned (h : a.Plants (p.plug (.join s u k c (.join s v k' d w))) ts)
    (h' : a'.Plants (p.plug (.join s (.join s u k c v) k' d w)) ts) (hk : Keeps a a')
    (off : AgreeOff a a' (c.id :: d.id :: (v.root?.toList ++ p.above?.toList))) :
    ∃ x y, a.get? c.id = some x ∧ a.get? d.id = some y ∧ Turned s c.id d.id x y a a' := by
  obtain ⟨he, hj⟩ := hangs_plug.mp h.hangs
  obtain ⟨he', hj'⟩ := hangs_plug.mp h'.hangs
  obtain ⟨hc, -, hj⟩ := hangs_join.mp hj
  obtain ⟨hd, hv, -⟩ := hangs_join.mp hj
  obtain ⟨hd', hj', -⟩ := hangs_join.mp hj'
  obtain ⟨hc', -, hv'⟩ := hangs_join.mp hj'
  rw [Tree.root?_join] at hc he hd' he'
  refine ⟨_, _, hc, hd, ?_, ?_, ?_, ?_, ?_, ?_, hk.free, hk.size⟩
  · simpa using hc'
  · simpa using hd'
  · intro i hi
    rw [Cell.child_node] at hi
    cases v with
    | nil => cases hi
    | node l k e r =>
      cases hi
      exact ⟨_, hv.1, by rw [hv'.1, Cell.withParent_node]⟩
  · intro i hi
    rw [Cell.parent_node] at hi
    cases p with
    | nil => cases hi
    | cons f up =>
      cases hi
      exact ⟨_, f.side, he.1, Cell.child_node .., by rw [he'.1, Cell.withChild_node]⟩
  · rw [h.root, h'.root]
    cases p with
    | nil => simp
    | cons f up =>
      obtain ⟨i, hi, root⟩ := Path.exists_root_plug f up
      have hne : i ≠ c.id := by
        have hnd := h.grove.nodup_join
        simp only [List.nodup_append, List.mem_append, List.mem_cons] at hnd
        exact fun e => hnd.1.2.2 i hi i (.inl e) rfl
      rw [root, root, if_neg (by simpa using hne)]
  · simpa using off

/-- The opposite rotation of the node that came up puts everything back. -/
theorem Plants.yields_rotate_back (h : a.Plants (p.plug (.join s u k c (.join s v k' d w))) ts)
    (h' : a'.Plants (p.plug (.join s (.join s u k c v) k' d w)) ts) (hk : Keeps a a')
    (off : AgreeOff a a' (c.id :: d.id :: (v.root?.toList ++ p.above?.toList))) :
    Yields (rotate s.opposite d.id) a' fun _ b => b = a := by
  rw [← Tree.join_opposite, ← Tree.join_opposite s v] at h'
  apply h'.yields_rotate.mono
  rintro - b ⟨hb, kb, ob⟩
  rw [Tree.join_opposite, Tree.join_opposite] at hb
  have hsub := turned_subset_ids p s u v w k k' c d
  have same : AgreeOff a b (p.plug (.join s u k c (.join s v k' d w))).ids :=
    (off.mono hsub).trans (ob.mono (List.Subset.trans (List.Perm.swap ..).subset hsub))
  have keeps := hk.trans kb
  exact ext_get? (h.get?_eq hb same) keeps.size keeps.free (hb.root.trans h.root.symm)

end Rotation

/-- Turning any node that has a child on the far side down towards a side succeeds in every tree that
hangs together, also at the root. The nodes are in the same order afterwards, and each is as it was
but for the links between the two that trade levels, the subtree handed over and what hangs them up.
Turning the node that came up back to the other side gives the same arena again. -/
theorem rotate_turns (h : a.Stands t) (hnd : t.ids.Nodup) {n m : NodeId} (hn : n ∈ t.ids)
    (hm : a.child s.opposite n = .ok (some m)) : ∃ a', rotate s n a = .ok () a' ∧
      (∃ u, a'.Stands u ∧ u.cells = t.cells) ∧
      (∃ x y, a.get? n = some x ∧ a.get? m = some y ∧ Turned s n m x y a a') ∧
      rotate s.opposite m a' = .ok () a := by
  obtain ⟨p, u, k, c, q, rfl, rfl⟩ := Path.exists_plug_join s hn
  have hq : q.root? = some m := by
    rw [h.links.child (Tree.root?_join ..), Tree.child_opposite_join] at hm
    exact Except.ok.inj hm
  obtain ⟨v, k', d, w, rfl⟩ := Tree.exists_join s (t := q) (by rintro rfl; cases hq)
  obtain rfl : d.id = m := by simpa using hq
  have hp := h.plants hnd
  obtain ⟨⟨⟩, a', ha', h', hk, off⟩ := hp.yields_rotate
  obtain ⟨⟨⟩, b, hb, rfl⟩ := hp.yields_rotate_back h' hk off
  refine ⟨a', ha', ⟨_, h'.stands, Path.cells_plug_congr p ?_⟩, hp.turned h' hk off, hb⟩
  rw [← Tree.cells_rotate s (.join s u k c _), Tree.rotate_join]

/-- Red nodes only, none of them in its slot's order: to the left of the root one that has its only
child on the right, which has its only child on the left. -/
def leaning : Tree Nat Nat :=
  .node (.node .nil .red ⟨⟨2⟩, 0, some ⟨1, 10⟩⟩
    (.node (.node .nil .red ⟨⟨0⟩, 2, some ⟨2, 20⟩⟩ .nil) .red ⟨⟨3⟩, 1, some ⟨3, 30⟩⟩ .nil))
    .red ⟨⟨1⟩, 3, some ⟨4, 40⟩⟩ .nil

def leaningArena : Arena Nat Nat :=
  ⟨#[some ⟨some ⟨3⟩, none, none, .red, 2, some ⟨2, 20⟩⟩,
    some ⟨none, some ⟨2⟩, none, .red, 3, some ⟨4, 40⟩⟩,
    some ⟨some ⟨1⟩, none, some ⟨3⟩, .red, 0, some ⟨1, 10⟩⟩,
    some ⟨some ⟨2⟩, some ⟨0⟩, none, .red, 1, some ⟨3, 30⟩⟩], [], some ⟨1⟩⟩

theorem stands_leaning : leaningArena.Stands leaning :=
  ⟨by simp [Hangs, leaning]; decide, rfl⟩

theorem rotate_turns_leaning : ∃ a', rotate .left ⟨2⟩ leaningArena = .ok () a' ∧
    a'.get? ⟨2⟩ = some ⟨some ⟨3⟩, none, some ⟨0⟩, .red, 0, some ⟨1, 10⟩⟩ ∧
    a'.get? ⟨3⟩ = some ⟨some ⟨1⟩, some ⟨2⟩, none, .red, 1, some ⟨3, 30⟩⟩ ∧
    rotate .right ⟨3⟩ a' = .ok () leaningArena := by
  obtain ⟨a', there, -, ⟨x, y, hx, hy, turned⟩, back⟩ :=
    rotate_turns (s := .left) stands_leaning (by decide) (n := ⟨2⟩) (m := ⟨3⟩) (by decide) rfl
  cases Option.some.inj hx
  cases Option.some.inj hy
  exact ⟨a', there, turned.lower, turned.upper, back⟩

end Arena
end OrderedMap
