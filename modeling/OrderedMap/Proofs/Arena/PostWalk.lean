import OrderedMap.Arena.PostOrder
import OrderedMap.Proofs.Arena.Walk

/-!
The post-order walk: the order of the cells in which children come before their parents, and the
steps by links that run through it.
-/
namespace OrderedMap

namespace Tree

variable {κ ν : Type}

/-- The cells, children before parents. -/
def post : Tree κ ν → List (Cell κ ν)
  | nil => []
  | node l _ c r => l.post ++ r.post ++ [c]

theorem post_perm (t : Tree κ ν) : t.post.Perm t.cells := by
  induction t with
  | nil => exact .refl _
  | node l k c r ihl ihr =>
    rw [post, List.append_assoc]
    exact ihl.append ((ihr.append_right _).trans (List.perm_append_singleton ..))

end Tree

namespace Path

variable {κ ν : Type}

/-- The cells that a post-order walk meets before the subtree. -/
def postBefore : Path κ ν → List (Cell κ ν)
  | [] => []
  | ⟨.left, _, _, _⟩ :: up => postBefore up
  | ⟨.right, _, _, o⟩ :: up => postBefore up ++ o.post

/-- The cells that a post-order walk meets after the subtree. -/
def postAfter : Path κ ν → List (Cell κ ν)
  | [] => []
  | ⟨.left, _, c, o⟩ :: up => o.post ++ c :: postAfter up
  | ⟨.right, _, c, _⟩ :: up => c :: postAfter up

theorem post_plug (p : Path κ ν) (t : Tree κ ν) :
    (plug p t).post = postBefore p ++ t.post ++ postAfter p := by
  induction p generalizing t with
  | nil => simp [postBefore, postAfter]
  | cons f up ih =>
    obtain ⟨s, k, c, o⟩ := f
    rw [plug_cons, ih]
    cases s <;> simp [postBefore, postAfter, Tree.join, Tree.post]

/-- Where a node stands in post-order tells what comes after it. -/
theorem exists_postSplit {t : Tree κ ν} {xs ys : List (Cell κ ν)} {c : Cell κ ν}
    (h : t.post = xs ++ c :: ys) (hnd : t.ids.Nodup) :
    ∃ p l k r, t = plug p (.node l k c r) ∧ ys = postAfter p := by
  have hm : c ∈ t.cells := t.post_perm.mem_iff.mp (by simp [h])
  have hnd : t.post.Nodup := t.post_perm.nodup_iff.mpr (List.Nodup.of_map _ hnd)
  obtain ⟨p, l, k, r, rfl⟩ := exists_plug hm
  rw [h] at hnd
  have hx : c ∉ xs := by grind
  have hy : c ∉ ys := by grind
  have e : postBefore p ++ (l.post ++ r.post) ++ c :: postAfter p = xs ++ c :: ys := by
    rw [← h, post_plug]
    simp [Tree.post]
  obtain ⟨-, -, rfl⟩ := (List.append_cons_inj_of_notMem hx hy).mp e.symm
  exact ⟨p, l, k, r, rfl, rfl⟩

end Path

namespace Arena

variable {κ ν : Type} {a : Arena κ ν} {p : Path κ ν} {t : Tree κ ν} {n : NodeId} {fuel : Nat}

/-- The leaf below a node is the cell that comes first. -/
theorem leafBelowFrom_eq (h : a.Hangs none (p.plug t)) (hn : t.root? = some n)
    (hf : a.slots.size < fuel + p.length) :
    ∃ c, t.post.head? = some c ∧ leafBelowFrom a fuel n = .ok c.id := by
  induction fuel generalizing p t n with
  | zero =>
    have := h.path_lt hn
    omega
  | succ fuel ih =>
    obtain ⟨x, hx, -, -, hs⟩ := h.get? hn
    have hl : x.left = _ := hs .left
    have hr : x.right = _ := hs .right
    cases t with
    | nil => cases hn
    | node l k c r =>
    cases hn
    have hfuel (f : Frame κ ν) : a.slots.size < fuel + (f :: p).length := by
      rw [List.length_cons]
      omega
    simp only [leafBelowFrom, node_of_get? hx, bind, Except.bind, hl, hr, Tree.child]
    cases hlr : l.root? with
    | some m =>
      obtain ⟨d, hd, he⟩ := ih (p := ⟨.left, k, c, r⟩ :: p) h hlr (hfuel _)
      exact ⟨d, by simp [Tree.post, hd], he⟩
    | none =>
      obtain rfl := Tree.root?_eq_none_iff.mp hlr
      cases hrr : r.root? with
      | some m =>
        obtain ⟨d, hd, he⟩ := ih (p := ⟨.right, k, c, .nil⟩ :: p) h hrr (hfuel _)
        exact ⟨d, by simp [Tree.post, hd], he⟩
      | none =>
        obtain rfl := Tree.root?_eq_none_iff.mp hrr
        exact ⟨c, by simp [Tree.post], rfl⟩

theorem leafBelow_eq (h : a.Hangs none (p.plug t)) (hn : t.root? = some n) :
    ∃ c, t.post.head? = some c ∧ a.leafBelow n = .ok c.id :=
  leafBelowFrom_eq h hn (a.size_lt_reach_add _)

theorem postOrderStart_eq (h : a.Stands t) :
    a.postOrderStart = .ok (t.post.head?.map (·.id)) := by
  unfold postOrderStart
  rw [h.root]
  cases hn : t.root? with
  | none =>
    obtain rfl := Tree.root?_eq_none_iff.mp hn
    rfl
  | some n =>
    obtain ⟨c, hc, he⟩ := leafBelow_eq (p := []) h.links hn
    simp only [he, hc]
    rfl

theorem postOrderNext_eq (h : a.Hangs none (p.plug t)) (hnd : (p.plug t).ids.Nodup)
    (hn : t.root? = some n) : a.postOrderNext n = .ok (p.postAfter.head?.map (·.id)) := by
  unfold postOrderNext
  rw [h.parent hn]
  cases p with
  | nil => rfl
  | cons f up =>
    obtain ⟨r, hr, hs⟩ := h.child_above hn (Path.other_root?_ne hnd hn) .left
    obtain ⟨side, k, c, o⟩ := f
    have hright := Hangs.child (p := up) h (Tree.root?_join ..) .right
    simp only at hright hr hs
    simp only [bind, Except.bind, Path.above?_cons, hright]
    cases side with
    | right =>
      have hne : r ≠ some n := fun e => by cases hs.mp e
      simp [Path.postAfter, hn, hr, hne, Tree.join, Tree.child, pure, Except.pure]
    | left =>
      cases ho : o.root? with
      | none =>
        obtain rfl := Tree.root?_eq_none_iff.mp ho
        simp [Path.postAfter, Tree.join, Tree.child, Tree.post, pure, Except.pure]
      | some m =>
        obtain ⟨d, hd, he⟩ := leafBelow_eq (p := ⟨.right, k, c, t⟩ :: up) h ho
        simp [Path.postAfter, hr, hs.mpr rfl, Tree.join, Tree.child, ho, he, hd, pure, Except.pure]

/-- Each step leads from a node to the one that comes next, if none of them is in two places. -/
theorem Stands.follows_post (h : a.Stands t) (hnd : t.ids.Nodup) :
    Follows a.postOrderNext (t.post.map (·.id)) := by
  refine .of_cells fun us c vs e => ?_
  obtain ⟨p, l, k, r, rfl, rfl⟩ := Path.exists_postSplit e hnd
  exact postOrderNext_eq h.links hnd rfl

theorem postOrderNext_split (h : a.Stands t) (hnd : t.ids.Nodup) {us vs : List NodeId}
    (e : t.post.map (·.id) = us ++ n :: vs) : a.postOrderNext n = .ok vs.head? :=
  (e ▸ h.follows_post hnd).of_append.1

/-- The post-order walk passes the nodes of a tree, if none of them is in two places. -/
theorem postOrder_eq (h : a.Stands t) (hnd : t.ids.Nodup) :
    a.postOrder = .ok (t.post.map (·.id)) := by
  unfold postOrder
  rw [postOrderStart_eq h, ← List.head?_map]
  refine (h.follows_post hnd).follow_eq ?_
  have hle : t.ids.length ≤ a.slots.size := length_le_size hnd h.links.occupied
  rw [List.length_map, t.post_perm.length_eq, reach]
  rw [Tree.ids, List.length_map] at hle
  omega

end Arena
end OrderedMap
