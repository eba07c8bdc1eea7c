import OrderedMap.Arena.InOrder
import OrderedMap.Proofs.Arena.Ascent

/-!
Steps in the order of the tags. A step towards a side goes to the cell that comes next in that
direction, whatever the shape of the tree. A walk keeps apart what it has passed and what is left.
-/
namespace OrderedMap
namespace Arena

variable {κ ν : Type} {a : Arena κ ν} {p : Path κ ν} {t : Tree κ ν} {n : NodeId} {fuel : Nat}
  {s : Side}

theorem extremeFrom_eq (h : a.Hangs none (p.plug t)) (hn : t.root? = some n)
    (hf : a.slots.size < fuel + p.length) :
    ∃ c, (t.toward s).getLast? = some c ∧ extremeFrom s a fuel n = .ok c.id := by
  induction fuel generalizing p t n with
  | zero =>
    have := h.path_lt hn
    omega
  | succ fuel ih =>
    obtain ⟨near, k, c, far, rfl⟩ := Tree.exists_join s (t := t) (by rintro rfl; cases hn)
    rw [Tree.root?_join] at hn
    cases hn
    rw [extremeFrom, h.child (Tree.root?_join ..), Tree.child_join, Tree.toward_join]
    cases hr : near.root? with
    | none =>
      obtain rfl := Tree.root?_eq_none_iff.mp hr
      exact ⟨c, by simp, rfl⟩
    | some m =>
      have hfuel : a.slots.size < fuel + (⟨s, k, c, far⟩ :: p).length := by simp; omega
      obtain ⟨d, hd, he⟩ := ih (p := ⟨s, k, c, far⟩ :: p) h hr hfuel
      exact ⟨d, by simp [List.getLast?_cons, hd], he⟩

theorem size_lt_reach_add (a : Arena κ ν) (k : Nat) : a.slots.size < a.reach + k := by
  unfold reach
  omega

/-- At the end of the links on one side is the last cell in that direction. -/
theorem extreme_eq (h : a.Hangs none (p.plug t)) {c : Cell κ ν}
    (hc : (t.toward s).getLast? = some c) (hn : t.root? = some n) : a.extreme s n = .ok c.id := by
  obtain ⟨d, hd, he⟩ := extremeFrom_eq (s := s) h hn (a.size_lt_reach_add _)
  rw [hc] at hd
  cases hd
  exact he

theorem outermost_eq (h : a.Stands t) :
    a.outermost s = .ok ((t.toward s).getLast?.map (·.id)) := by
  unfold outermost
  rw [h.root]
  cases hn : t.root? with
  | none =>
    obtain rfl := Tree.root?_eq_none_iff.mp hn
    simp [pure, Except.pure]
  | some n =>
    obtain ⟨c, hc, he⟩ := extremeFrom_eq (p := []) (s := s) h.links hn (a.size_lt_reach_add _)
    simp only [extreme, he, hc]
    rfl

/-- The climb ends at the nearest ancestor that lies ahead, if no node behind is the one from which
it begins. -/
theorem climbFrom_eq (h : a.Hangs none (p.plug t)) (hn : t.root? = some n)
    (behind : (n :: (p.beyond s.opposite).map (·.id)).Nodup) (hf : p.length < fuel) :
    climbFrom s a fuel n = .ok ((p.beyond s).head?.map (·.id)) := by
  induction fuel generalizing p t n with
  | zero => omega
  | succ fuel ih =>
    rw [climbFrom, h.parent hn]
    cases p with
    | nil => rfl
    | cons f up =>
      obtain ⟨side, k, c, o⟩ := f
      have hchild := Hangs.child (p := up) h (Tree.root?_join ..) s.opposite
      simp only [bind, Except.bind, Path.above?_cons, hchild]
      rcases Side.eq_or_eq_opposite s side with rfl | rfl
      · rw [Path.beyond, if_neg (Side.opposite_ne side).symm, List.map_cons, List.map_append,
          List.nodup_cons, List.nodup_cons] at behind
        obtain ⟨hmem, hc, hnd⟩ := behind
        have hne : o.root? ≠ some n := fun e => by
          obtain ⟨d, hd, rfl⟩ := List.mem_map.mp (Tree.root?_mem_ids e)
          have ho : d.id ∈ (o.toward side.opposite).map (·.id) :=
            List.mem_map_of_mem (Tree.mem_toward.mpr hd)
          exact hmem (List.mem_cons_of_mem _ (List.mem_append_left _ ho))
        rw [Tree.child_opposite_join, if_neg hne, Path.beyond, if_pos rfl]
        refine ih (p := up) h (Tree.root?_join ..) ?_ (by simpa using hf)
        exact List.nodup_cons.mpr ⟨fun hm => hc (List.mem_append_right _ hm),
          (List.nodup_append.mp hnd).2.1⟩
      · rw [Tree.child_join, if_pos hn, Path.beyond, if_neg (Side.opposite_ne s)]
        rfl

/-- The neighbour of a node is the cell that comes next, if no node is met twice up to there. -/
theorem Hangs.neighbour_eq (h : a.Hangs none t) {xs ys : List (Cell κ ν)} {c : Cell κ ν}
    (ht : t.toward s = xs ++ c :: ys) (hnd : ((xs ++ [c]).map (·.id)).Nodup) :
    a.neighbour s c.id = .ok (ys.head?.map (·.id)) := by
  obtain ⟨p, k, near, far, rfl, rfl, rfl⟩ := Path.exists_split s ht
  unfold neighbour
  rw [h.child (Tree.root?_join ..), Tree.child_join]
  cases hr : near.root? with
  | none =>
    obtain rfl := Tree.root?_eq_none_iff.mp hr
    have behind : (c.id :: (p.beyond s.opposite).map (·.id)).Nodup := by
      have hperm : ((p.beyond s.opposite).reverse ++ far.toward s ++ [c]).Perm
          ((c :: p.beyond s.opposite) ++ far.toward s) :=
        List.perm_append_singleton .. |>.trans
          (((List.reverse_perm _).append_right _).cons c)
      have := (hperm.map (·.id)).nodup_iff.mp hnd
      rw [List.map_append] at this
      exact (List.nodup_append.mp this).1
    have hlt : p.length < a.reach := Nat.lt_succ_of_lt (h.path_lt (Tree.root?_join ..))
    simpa [bind, Except.bind] using climbFrom_eq h (Tree.root?_join ..) behind hlt
  | some m =>
    have hne : near.toward s ≠ [] := by
      intro e
      obtain rfl : near = .nil := by cases s <;> simpa [Tree.toward] using e
      cases hr
    obtain ⟨d, ds, hd⟩ := List.exists_cons_of_ne_nil hne
    have hlast : (near.toward s.opposite).getLast? = some d := by
      rw [Tree.toward_opposite, List.getLast?_reverse, hd]
      rfl
    simp only [bind, Except.bind]
    rw [extreme_eq (p := ⟨s, k, c, far⟩ :: p) h hlast hr, hd]
    rfl

/-- Steps to the right that begin at the first node and come to an end have passed all nodes in
order. So none of them is in two places. -/
theorem Hangs.ids_eq_of_follows (h : a.Hangs none t) {ns : List NodeId}
    (hf : Follows (a.neighbour .right) ns) (hh : ns.head? = t.ids.head?) : ns = t.ids := by
  -- Up to any point the same nodes were passed, none of them twice, so the next one is the same.
  have key : ∀ rest us ys, ns = us ++ rest → t.ids = us ++ ys → rest.head? = ys.head? →
      rest = ys := by
    intro rest
    induction rest with
    | nil =>
      intro us ys _ _ e
      exact (List.head?_eq_none_iff.mp e.symm).symm
    | cons n rest ih =>
      intro us ys hn ht e
      obtain ⟨zs, rfl⟩ := List.head?_eq_some_iff.mp e.symm
      obtain ⟨cs, ds, hcells, rfl, hds⟩ := List.map_eq_append_iff.mp ht
      obtain ⟨c, ds, rfl, rfl, rfl⟩ := List.map_eq_cons_iff.mp hds
      have passed : ((cs ++ [c]).map (·.id)).Nodup := by
        have hnd := hf.nodup
        rw [hn, List.append_cons] at hnd
        rw [List.map_append]
        exact (List.nodup_append.mp hnd).1
      have next := h.neighbour_eq (s := .right) hcells passed
      have onward : Follows (a.neighbour .right) (c.id :: rest) := Follows.of_append (hn ▸ hf)
      have same : rest.head? = (ds.map (·.id)).head? := by
        rw [List.head?_map]
        exact Except.ok.inj (onward.1.symm.trans next)
      rw [ih (cs.map (·.id) ++ [c.id]) (ds.map (·.id)) (by simp [hn]) (by simp [ht]) same]
  exact key ns [] t.ids rfl rfl hh

/-- The neighbour of a node is the cell that comes next, if no node is in two places. -/
theorem Hangs.next_eq (h : a.Hangs none t) (hnd : t.ids.Nodup) {xs ys : List (Cell κ ν)}
    {c : Cell κ ν} (ht : t.toward s = xs ++ c :: ys) :
    a.neighbour s c.id = .ok (ys.head?.map (·.id)) := by
  have distinct : ((t.toward s).map (·.id)).Nodup := by
    cases s <;> simpa [Tree.toward, Tree.ids] using hnd
  rw [ht, List.append_cons, List.map_append] at distinct
  exact h.neighbour_eq ht (List.nodup_append.mp distinct).1

theorem neighbour_eq {ts : List (Tree κ ν)} (h : a.Bears t ts) {xs ys : List (Cell κ ν)}
    {c : Cell κ ν} (ht : t.toward s = xs ++ c :: ys) :
    a.neighbour s c.id = .ok (ys.head?.map (·.id)) := h.hangs.next_eq h.nodup ht

/-- Steps towards a side lead from each node of a tree to the one that comes next, whatever the
shape of the tree. -/
theorem Stands.follows (h : a.Stands t) (hnd : t.ids.Nodup) :
    Follows (a.neighbour s) ((t.toward s).map (·.id)) :=
  .of_cells fun _ _ _ => h.links.next_eq hnd

/-- A walk whose steps run through a list ends with that list. -/
theorem Follows.follow_eq {next : NodeId → Except Fault (Option NodeId)} {ns : List NodeId}
    (h : Follows next ns) (hf : ns.length ≤ fuel) : follow next fuel ns.head? = .ok ns := by
  induction ns generalizing fuel with
  | nil => cases fuel <;> rfl
  | cons n ns ih =>
    cases fuel with
    | zero => cases hf
    | succ fuel =>
      have hrest := ih h.2 (Nat.le_of_succ_le_succ hf)
      simp only [List.head?_cons, follow, h.1, bind, Except.bind, hrest]
      rfl

/-- A walk goes through all nodes of a tree in order, whatever its shape. -/
theorem Stands.walk_eq (h : a.Stands t) (hnd : t.ids.Nodup) :
    a.walk s = .ok ((t.toward s).map (·.id)) := by
  have hlast : (t.toward s.opposite).getLast?.map (·.id) = ((t.toward s).map (·.id)).head? := by
    rw [Tree.toward_opposite, List.getLast?_reverse, List.head?_map]
  unfold walk
  rw [outermost_eq h, hlast]
  refine (h.follows hnd).follow_eq ?_
  have hle := length_le_size hnd h.links.occupied
  unfold reach
  cases s <;> simp [Tree.toward, Tree.ids] at hle ⊢ <;> omega

theorem walk_eq {ts : List (Tree κ ν)} (h : a.Bears t ts) :
    a.walk s = .ok ((t.toward s).map (·.id)) := h.stands.walk_eq h.nodup

end Arena
end OrderedMap
