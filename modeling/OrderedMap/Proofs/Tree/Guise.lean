import Mathlib.Data.Set.Function
import Mathlib.Logic.Equiv.Basic
import OrderedMap.Proofs.Tree.Seek
import OrderedMap.Proofs.Tree.Unhook

/-!
Guises of a tree. One tree is another one in a guise if it has the same shape and colours, but for
its mirror image perhaps, and the same entries, in slots with other numbers and under other stamps.
No repair looks at a slot number or at a stamp, and none tells left from right, so each does the
same to a tree in any guise.
-/
namespace OrderedMap

/-- How one map differs from another one that is like it. -/
structure Guise where
  /-- Left and right are exchanged at every node. -/
  mirrored : Bool
  /-- The vacant slots are the same ones as well, and no slot has another number. -/
  level : Bool
  node : Equiv.Perm NodeId
  stamp : Nat → Nat
  map : MapId → MapId

namespace Guise

def side (g : Guise) (s : Side) : Side := if g.mirrored then s.opposite else s

/-- How tags compare in the guise. -/
def ordering (g : Guise) (o : Ordering) : Ordering := if g.mirrored then o.swap else o

variable (g : Guise)

@[simp] theorem side_opposite (s : Side) : g.side s.opposite = (g.side s).opposite := by
  unfold side
  split <;> rfl

@[simp] theorem side_inj {s t : Side} : g.side s = g.side t ↔ s = t := by
  unfold side
  split
  · cases s <;> cases t <;> decide
  · exact .rfl

theorem side_of_upright {g : Guise} (h : g.mirrored = false) (s : Side) : g.side s = s := by
  simp [side, h]

theorem ofOrdering?_ordering (o : Ordering) :
    Side.ofOrdering? (g.ordering o) = (Side.ofOrdering? o).map g.side := by
  unfold side ordering
  cases o <;> cases g.mirrored <;> rfl

/-- Another guise is the same as far as the given nodes and stamps go. -/
structure Agrees (g g₁ : Guise) (ns : List NodeId) (S : Set Nat) : Prop where
  mirrored : g₁.mirrored = g.mirrored
  level : g₁.level = g.level
  map : g₁.map = g.map
  flat : g.level = true → g.node = .refl _ → g₁.node = .refl _
  node : ∀ n ∈ ns, g₁.node n = g.node n
  stamp : Set.EqOn g₁.stamp g.stamp S

/-- A guise in which a node and a stamp are given another look. -/
def extend (n n' : NodeId) (s s' : Nat) : Guise :=
  { g with
    node := g.node.trans (Equiv.swap (g.node n) n')
    stamp := Function.update g.stamp s s' }

section Extend

variable {n n' : NodeId} {s s' : Nat}

@[simp] theorem node_extend : (g.extend n n' s s').node n = n' := Equiv.swap_apply_left ..

@[simp] theorem stamp_extend : (g.extend n n' s s').stamp s = s' := Function.update_self ..

/-- What was known before looks the same in the extended guise. -/
theorem agrees_extend {ns : List NodeId} {S : Set Nat} (hn : n ∉ ns)
    (hn' : n' ∉ ns.map g.node) (hs : s ∉ S)
    (hflat : g.level = true → g.node = .refl _ → n = n') :
    g.Agrees (g.extend n n' s s') ns S where
  mirrored := rfl
  level := rfl
  map := rfl
  flat hl hg := by
    obtain rfl := hflat hl hg
    simp [extend, hg]
  node m hm := by
    refine Equiv.swap_apply_of_ne_of_ne (fun e => hn ?_) fun e => hn' ?_
    · rwa [← g.node.injective e]
    · rw [← e]
      exact List.mem_map_of_mem hm
  stamp m hm := Function.update_of_ne (ne_of_mem_of_not_mem hm hs) ..

end Extend

end Guise

def Cell.recast {κ ν : Type} (g : Guise) (c : Cell κ ν) : Cell κ ν :=
  ⟨g.node c.id, g.stamp c.stamp, c.entry⟩

def Record.recast (g : Guise) : Record → Record
  | recolored n => recolored (g.node n)
  | innerRotation n => innerRotation (g.node n)
  | outerRotation n => outerRotation (g.node n)
  | redSibling n => redSibling (g.node n)
  | absorbed n => absorbed (g.node n)
  | movedUp n => movedUp (g.node n)
  | nephewRotation n => nephewRotation (g.node n)
  | terminalRotation n => terminalRotation (g.node n)
  | cleared m k => cleared (g.map m) k
  | moved k source target => moved k (g.map source) (g.map target)
  | dropping m k => dropping (g.map m) k

/-- The nodes that a record names. -/
def Record.nodes : Record → List NodeId
  | recolored n | innerRotation n | outerRotation n | redSibling n | absorbed n | movedUp n
  | nephewRotation n | terminalRotation n => [n]
  | cleared _ _ | moved _ _ _ | dropping _ _ => []

theorem Guise.Agrees.record {g g₁ : Guise} {ns : List NodeId} {S : Set Nat} (h : g.Agrees g₁ ns S)
    {r : Record} (hr : ∀ n ∈ r.nodes, n ∈ ns) : r.recast g₁ = r.recast g := by
  cases r <;> simp_all [Record.recast, Record.nodes, h.node, h.map]

namespace Tree

variable {κ ν : Type} (g : Guise)

def recast : Tree κ ν → Tree κ ν
  | nil => nil
  | node l k c r => join (g.side .left) (recast l) k (c.recast g) (recast r)

@[simp] theorem recast_nil : (nil : Tree κ ν).recast g = nil := rfl

theorem recast_node {g : Guise} (hg : g.mirrored = false) (l : Tree κ ν) (k : Color)
    (c : Cell κ ν) (r : Tree κ ν) :
    (node l k c r).recast g = node (l.recast g) k (c.recast g) (r.recast g) := by
  rw [recast, Guise.side_of_upright hg]
  rfl

@[simp] theorem recast_join (s : Side) (t : Tree κ ν) (k : Color) (c : Cell κ ν) (u : Tree κ ν) :
    (join s t k c u).recast g = join (g.side s) (t.recast g) k (c.recast g) (u.recast g) := by
  cases s with
  | left => rfl
  | right =>
    rw [show Side.right = Side.left.opposite from rfl, g.side_opposite, join_opposite,
      join_opposite]
    rfl

@[simp] theorem recast_eq_nil_iff {t : Tree κ ν} : t.recast g = nil ↔ t = nil := by
  cases t with
  | nil => simp
  | node l k c r =>
    rw [recast]
    cases g.side .left <;> simp [join]

@[simp] theorem root?_recast (t : Tree κ ν) : (t.recast g).root? = t.root?.map g.node := by
  cases t with
  | nil => rfl
  | node l k c r => simp [recast, Cell.recast]

@[simp] theorem color_recast (t : Tree κ ν) : (t.recast g).color = t.color := by
  cases t with
  | nil => rfl
  | node l k c r => exact color_join ..

@[simp] theorem paint_recast (k : Color) (t : Tree κ ν) :
    (t.recast g).paint k = (t.paint k).recast g := by
  cases t with
  | nil => rfl
  | node l k' c r => exact paint_join ..

@[simp] theorem child_recast (s : Side) (t : Tree κ ν) :
    (t.recast g).child (g.side s) = (t.child s).recast g := by
  by_cases h : t = nil
  · rw [h]
    rfl
  · obtain ⟨near, k, c, far, rfl⟩ := exists_join s h
    simp

@[simp] theorem paintChild_recast (s : Side) (k : Color) (t : Tree κ ν) :
    (t.recast g).paintChild (g.side s) k = (t.paintChild s k).recast g := by
  by_cases h : t = nil
  · rw [h]
    rfl
  · obtain ⟨near, k', c, far, rfl⟩ := exists_join s h
    simp

/-- A rotation whose far child is missing does nothing. -/
theorem rotate_join_nil (s : Side) (t : Tree κ ν) (k : Color) (c : Cell κ ν) :
    rotate s (join s t k c nil) = join s t k c nil := by cases s <;> cases t <;> rfl

@[simp] theorem rotate_recast (s : Side) (t : Tree κ ν) :
    (t.recast g).rotate (g.side s) = (t.rotate s).recast g := by
  by_cases h : t = nil
  · rw [h]
    cases s <;> cases g.side _ <;> rfl
  · obtain ⟨near, k, c, far, rfl⟩ := exists_join s h
    by_cases hf : far = nil
    · subst hf
      simp [rotate_join_nil]
    · obtain ⟨x, k', d, y, rfl⟩ := exists_join s hf
      simp

/-- In order, the cells are the same ones, the other way round in a mirror image. -/
theorem cells_recast (t : Tree κ ν) : (t.recast g).cells =
    if g.mirrored then (t.cells.map (Cell.recast g)).reverse else t.cells.map (Cell.recast g) := by
  induction t with
  | nil => simp
  | node l k c r ihl ihr =>
    rw [recast, Guise.side]
    split at ihl <;> simp_all [join, cells, Side.opposite]

theorem cells_recast_of_upright {g : Guise} (hg : g.mirrored = false) (t : Tree κ ν) :
    (t.recast g).cells = t.cells.map (Cell.recast g) := by
  rw [cells_recast, hg]
  rfl

theorem cells_recast_perm (t : Tree κ ν) :
    (t.recast g).cells.Perm (t.cells.map (Cell.recast g)) := by
  rw [cells_recast]
  split
  · exact List.reverse_perm _
  · exact .refl _

theorem ids_recast_perm (t : Tree κ ν) : (t.recast g).ids.Perm (t.ids.map g.node) := by
  have h := (t.cells_recast_perm g).map Cell.id
  rw [List.map_map] at h
  rw [ids, ids, List.map_map]
  exact h

theorem ids_recast_all_perm (ts : List (Tree κ ν)) :
    ((ts.map (recast g)).flatMap ids).Perm ((ts.flatMap ids).map g.node) := by
  rw [List.flatMap_map, List.map_flatMap]
  exact List.Perm.flatMap_left ts fun t _ => t.ids_recast_perm g

theorem balanced_recast {t : Tree κ ν} {h : Nat} (hb : t.Balanced h) :
    (t.recast g).Balanced h := by
  induction hb with
  | nil => exact .nil
  | red _ _ bl br ihl ihr =>
    rw [recast]
    exact balanced_red_join.mpr ⟨ihl, ihr, by simpa using bl, by simpa using br⟩
  | black _ _ ihl ihr =>
    rw [recast]
    exact balanced_black_join.mpr ⟨_, rfl, ihl, ihr⟩

theorem redBlack_recast {t : Tree κ ν} {h : Nat} (hr : t.RedBlack h) : (t.recast g).RedBlack h :=
  ⟨by simpa using hr.color, balanced_recast g hr.balanced⟩

theorem recast_congr {g g₁ : Guise} {ns : List NodeId} {S : Set Nat} (h : g.Agrees g₁ ns S)
    {t : Tree κ ν} (hc : ∀ c ∈ t.cells, c.id ∈ ns ∧ c.stamp ∈ S) : t.recast g₁ = t.recast g := by
  have hside (s : Side) : g₁.side s = g.side s := by rw [Guise.side, h.mirrored, Guise.side]
  induction t with
  | nil => rfl
  | node l k c r ihl ihr =>
    simp only [cells, List.mem_append, List.mem_cons] at hc
    obtain ⟨hid, hst⟩ := hc c (.inr (.inl rfl))
    have hcell : c.recast g₁ = c.recast g := by
      rw [Cell.recast, h.node _ hid, h.stamp hst]
      rfl
    rw [recast, recast, ihl fun d hd => hc d (.inl hd), ihr fun d hd => hc d (.inr (.inr hd)),
      hside, hcell]

end Tree

def Frame.recast {κ ν : Type} (g : Guise) (f : Frame κ ν) : Frame κ ν :=
  ⟨g.side f.side, f.color, f.cell.recast g, f.other.recast g⟩

def Relief.recast {κ ν : Type} (g : Guise) (x : Relief κ ν) : Relief κ ν :=
  ⟨x.tree.recast g, x.records.map (Record.recast g), x.rotations, x.short⟩

def Repair.recast {κ ν : Type} (g : Guise) (x : Repair κ ν) : Repair κ ν :=
  ⟨x.tree.recast g, x.records.map (Record.recast g), x.rotations⟩

namespace Path

variable {κ ν : Type} (g : Guise)

def recast (p : Path κ ν) : Path κ ν := p.map (Frame.recast g)

@[simp] theorem recast_nil : recast g ([] : Path κ ν) = [] := rfl

@[simp] theorem recast_cons (f : Frame κ ν) (up : Path κ ν) :
    recast g (f :: up) = f.recast g :: recast g up := rfl

@[simp] theorem recast_append (p q : Path κ ν) : recast g (p ++ q) = recast g p ++ recast g q :=
  List.map_append ..

@[simp] theorem above?_recast (p : Path κ ν) : (recast g p).above? = p.above?.map g.node := by
  cases p <;> rfl

theorem plug_recast (p : Path κ ν) (t : Tree κ ν) :
    (plug p t).recast g = plug (recast g p) (t.recast g) := by
  induction p generalizing t with
  | nil => rfl
  | cons f up ih =>
    rw [plug_cons, ih, Tree.recast_join]
    rfl

theorem straighten_recast (f h : Frame κ ν) (t : Tree κ ν) :
    straighten (f.recast g) (h.recast g) (t.recast g) = (straighten f h t).recast g := by
  simp only [straighten, Frame.recast, g.side_inj, ← g.side_opposite, ← Tree.recast_join]
  split
  · simp only [Tree.paint_recast, ← Tree.recast_join, Tree.rotate_recast]
  · simp only [Tree.paint_recast, ← Tree.recast_join, Tree.rotate_recast]

theorem straightenRecords_recast (f h : Frame κ ν) :
    straightenRecords (f.recast g) (h.recast g) =
      (straightenRecords f h).map (Record.recast g) := by
  simp only [straightenRecords, Frame.recast, g.side_inj]
  split <;> rfl

/-- The repair after an insertion does the same in every guise. -/
theorem settle_recast (p : Path κ ν) (t : Tree κ ν) :
    settle (recast g p) (t.recast g) = (settle p t).recast g := by
  fun_induction settle p t with
  | case1 t => simp [settle, Repair.recast]
  | case2 f t hf => simp [settle, Repair.recast, Frame.recast, hf]
  | case3 f t hf => simp [settle, Repair.recast, Frame.recast, hf]
  | case4 f h up t hf hh ih =>
    simp only [Tree.recast_join, ← Tree.paint_recast] at ih
    rw [recast_cons, recast_cons, settle, if_pos (show (f.recast g).color = .red from hf),
      if_pos (show (h.recast g).other.color = .red from (Tree.color_recast ..).trans hh)]
    exact congrArg (Repair.noting (.recolored (g.node h.cell.id))) ih
  | case5 f h up t hf hh =>
    rw [recast_cons, recast_cons, settle, if_pos (show (f.recast g).color = .red from hf),
      if_neg (show ¬ (h.recast g).other.color = .red from fun e => hh (by simpa [Frame.recast]
        using e)), straighten_recast, straightenRecords_recast, ← plug_recast, List.length_map]
    rfl
  | case6 f h up t hf =>
    rw [recast_cons, recast_cons, settle, if_neg (show ¬ (f.recast g).color = .red from hf),
      ← recast_cons, ← recast_cons, ← plug_recast]
    rfl

end Path

namespace Frame

variable {κ ν : Type} (g : Guise) (f : Frame κ ν) (t : Tree κ ν)

@[simp] theorem near_recast : (f.recast g).near = f.near.recast g := Tree.child_recast ..

@[simp] theorem far_recast : (f.recast g).far = f.far.recast g := by
  rw [far, far, recast, ← g.side_opposite, Tree.child_recast]

theorem turned_recast : (f.recast g).turned = f.turned.recast g := by
  unfold turned
  rw [far_recast, Tree.color_recast]
  split
  · rfl
  · rw [recast, ← g.side_opposite, Tree.rotate_recast]

theorem raised_recast : (f.recast g).raised (t.recast g) = (f.raised t).recast g := by
  unfold raised
  rw [turned_recast]
  simp only [recast, ← g.side_opposite, Tree.paintChild_recast, Tree.paint_recast,
    ← Tree.recast_join, Tree.rotate_recast]

theorem raisedRecords_recast :
    (f.recast g).raisedRecords = f.raisedRecords.map (Record.recast g) := by
  unfold raisedRecords
  rw [far_recast, Tree.color_recast]
  split
  · rfl
  · rw [recast, Tree.root?_recast]
    cases f.other.root? <;> rfl

theorem relieveBlack_recast :
    (f.recast g).relieveBlack (t.recast g) = (f.relieveBlack t).recast g := by
  unfold relieveBlack
  simp only [near_recast, far_recast, raised_recast, raisedRecords_recast, Tree.color_recast]
  simp only [recast, Tree.root?_recast, Option.map_eq_none_iff]
  split
  · simp [Relief.recast]
  split
  · simp [Relief.recast]
  split <;> rename_i hk <;> simp [Relief.recast, Record.recast, Cell.recast, hk]

theorem sunk_recast : (f.recast g).sunk = f.sunk.recast g := by
  unfold sunk
  rw [near_recast]
  rfl

theorem relieve_recast : (f.recast g).relieve (t.recast g) = (f.relieve t).recast g := by
  cases hc : f.other.color with
  | black =>
    rw [relieve_of_black t hc, relieve_of_black _ ((Tree.color_recast ..).trans hc),
      relieveBlack_recast]
  | red =>
    obtain ⟨near, k, q, far, ho⟩ := Tree.exists_join f.side (t := f.other)
      (by intro e; rw [e] at hc; cases hc)
    rw [ho, Tree.color_join] at hc
    subst hc
    have ho' : (f.recast g).other = .join (f.recast g).side (near.recast g) .red (q.recast g)
        (far.recast g) := by rw [recast, ho, Tree.recast_join]
    rw [relieve_of_red t ho, relieve_of_red _ ho', sunk_recast, relieveBlack_recast]
    simp [Relief.recast, recast, Record.recast, Cell.recast]

end Frame

namespace Path

variable {κ ν : Type} (g : Guise)

/-- The repair after a removal does the same in every guise. -/
theorem refill_recast (p : Path κ ν) (t : Tree κ ν) :
    refill (recast g p) (t.recast g) = (refill p t).recast g := by
  fun_induction refill p t with
  | case1 t => rfl
  | case2 f up t hs ih =>
    have short : ((f.relieve t).recast g).short := hs
    rw [recast_cons, refill, Frame.relieve_recast, if_pos short]
    have hi : refill (recast g up) ((f.relieve t).recast g).tree =
        (refill up (f.relieve t).tree).recast g := ih
    rw [hi, above?_recast]
    cases up <;> simp [Repair.recast, Repair.movingUp, Record.recast]
  | case3 f up t hs =>
    rw [recast_cons, refill, Frame.relieve_recast,
      if_neg (show ¬ ((f.relieve t).recast g).short from hs)]
    simp [Repair.recast, Relief.recast, plug_recast]

theorem unhook_recast (p : Path κ ν) (k : Color) (t : Tree κ ν) :
    unhook (recast g p) k (t.recast g) = (unhook p k t).recast g := by
  unfold unhook
  rw [Tree.color_recast, refill_recast, Tree.paint_recast, ← plug_recast, ← plug_recast]
  split
  · rfl
  · split <;> rfl

end Path

namespace Tree

variable {κ ν : Type} {g : Guise} {order order' : Cell κ ν → Ordering}

/-- A search, with every node read from a given side. -/
theorem seek_join (s : Side) (p : Path κ ν) (t : Tree κ ν) (k : Color) (c : Cell κ ν)
    (u : Tree κ ν) : seek order p (join s t k c u) = match Side.ofOrdering? (order c) with
      | none => (p, join s t k c u)
      | some side => if side = s then seek order (⟨s, k, c, u⟩ :: p) t
          else seek order (⟨s.opposite, k, c, t⟩ :: p) u := by
  cases s <;> rw [join, seek] <;> cases order c <;> rfl

theorem visited_join (s : Side) (t : Tree κ ν) (k : Color) (c : Cell κ ν) (u : Tree κ ν) :
    visited order (join s t k c u) = c :: match Side.ofOrdering? (order c) with
      | none => []
      | some side => if side = s then visited order t else visited order u := by
  cases s <;> rw [join, visited] <;> cases order c <;> rfl

/-- A search by the same comparisons takes the same way. -/
theorem seek_recast (h : ∀ c : Cell κ ν, order' (c.recast g) = g.ordering (order c))
    (p : Path κ ν) (t : Tree κ ν) : seek order' (p.recast g) (t.recast g) =
      ((seek order p t).1.recast g, (seek order p t).2.recast g) := by
  induction t using join_induction .left generalizing p with
  | nil => rfl
  | join near k c far ihn ihf =>
    rw [recast_join, seek_join, seek_join, h, g.ofOrdering?_ordering]
    cases Side.ofOrdering? (order c) with
    | none => simp
    | some side =>
      simp only [Option.map_some, g.side_inj]
      split
      · exact ihn (⟨.left, k, c, far⟩ :: p)
      · rw [← g.side_opposite]
        exact ihf (⟨Side.left.opposite, k, c, near⟩ :: p)

theorem visited_recast (h : ∀ c : Cell κ ν, order' (c.recast g) = g.ordering (order c))
    (t : Tree κ ν) : visited order' (t.recast g) = (visited order t).map (Cell.recast g) := by
  induction t using join_induction .left with
  | nil => rfl
  | join near k c far ihn ihf =>
    rw [recast_join, visited_join, visited_join, h, g.ofOrdering?_ordering]
    cases Side.ofOrdering? (order c) with
    | none => rfl
    | some side =>
      simp only [Option.map_some, g.side_inj, List.map_cons]
      split
      · rw [ihn]
      · rw [ihf]

end Tree
end OrderedMap
