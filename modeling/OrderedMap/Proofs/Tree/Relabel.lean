import Mathlib.Logic.Equiv.Basic
import OrderedMap.Proofs.Tree.Basic

/-!
Other cells and colours at the places of a tree. The shape stays as it is, so that a tree in which
two nodes have traded places is the same tree with the two labels exchanged. Three replacements, one
node after the other and through a placeholder, come to such an exchange.
-/
namespace OrderedMap

/-- What stands at a place of a tree: a cell and its colour. -/
abbrev Label (κ ν : Type) := Color × Cell κ ν

variable {κ ν : Type} {f g : Label κ ν → Label κ ν} {x y z : Label κ ν} {n : NodeId}

namespace Label

/-- At the place of a node stands another label. -/
def replace (n : NodeId) (y x : Label κ ν) : Label κ ν := if x.2.id = n then y else x

/-- Each of two labels stands at the place of the other one. -/
def trade (x y z : Label κ ν) : Label κ ν :=
  if z.2.id = x.2.id then y else if z.2.id = y.2.id then x else z

theorem replace_of_ne (h : x.2.id ≠ n) (y : Label κ ν) : replace n y x = x := if_neg h

theorem replace_self (x y : Label κ ν) : replace x.2.id y x = y := if_pos rfl

theorem trade_left (x y : Label κ ν) : trade x y x = y := if_pos rfl

theorem trade_right (h : x.2.id ≠ y.2.id) : trade x y y = x := by simp [trade, h.symm]

theorem trade_of_ne (hx : z.2.id ≠ x.2.id) (hy : z.2.id ≠ y.2.id) : trade x y z = z := by
  simp [trade, hx, hy]

/-- Of the nodes two are swapped. -/
theorem id_trade (x y z : Label κ ν) :
    (trade x y z).2.id = Equiv.swap x.2.id y.2.id z.2.id := by
  rw [trade, Equiv.swap_apply_def]
  split
  · rfl
  · split <;> rfl

/-- A trade goes through a placeholder. -/
theorem replace_replace_replace {w : Label κ ν} (hwx : w.2.id ≠ x.2.id) (hwy : w.2.id ≠ y.2.id)
    (hwz : w.2.id ≠ z.2.id) :
    replace w.2.id y (replace y.2.id x (replace x.2.id w z)) = trade x y z := by
  unfold replace trade
  by_cases hx : z.2.id = x.2.id
  · simp [hx, hwy]
  · by_cases hy : z.2.id = y.2.id
    · have hyx : y.2.id ≠ x.2.id := hy ▸ hx
      simp [hy, hyx, hwx.symm]
    · simp [hx, hy, hwz.symm]

end Label

namespace Tree

/-- What stands at the places, in order. -/
def labels : Tree κ ν → List (Label κ ν)
  | nil => []
  | node l k c r => l.labels ++ (k, c) :: r.labels

/-- Put other labels at the places. -/
def relabel (f : Label κ ν → Label κ ν) : Tree κ ν → Tree κ ν
  | nil => nil
  | node l k c r => node (l.relabel f) (f (k, c)).1 (f (k, c)).2 (r.relabel f)

theorem labels_relabel (f : Label κ ν → Label κ ν) (t : Tree κ ν) :
    (t.relabel f).labels = t.labels.map f := by
  induction t with
  | nil => rfl
  | node l k c r ihl ihr => simp [relabel, labels, ihl, ihr]

theorem cells_eq_labels (t : Tree κ ν) : t.cells = t.labels.map (·.2) := by
  induction t with
  | nil => rfl
  | node l k c r ihl ihr => simp [cells, labels, ihl, ihr]

theorem ids_eq_labels (t : Tree κ ν) : t.ids = t.labels.map (·.2.id) := by
  rw [ids, cells_eq_labels, List.map_map]
  rfl

theorem mem_ids_of_label {t : Tree κ ν} (h : x ∈ t.labels) : x.2.id ∈ t.ids := by
  rw [ids_eq_labels]
  exact List.mem_map_of_mem (f := fun x : Label κ ν => x.2.id) h

/-- In a tree without repeated nodes a label is told by its node. -/
theorem eq_of_labels {t : Tree κ ν} (hnd : t.ids.Nodup) (hx : x ∈ t.labels) (hy : y ∈ t.labels)
    (h : x.2.id = y.2.id) : x = y := by
  rw [ids_eq_labels] at hnd
  exact List.inj_on_of_nodup_map hnd hx hy h

theorem exists_label {t : Tree κ ν} (h : n ∈ t.ids) : ∃ x ∈ t.labels, x.2.id = n := by
  rw [ids_eq_labels] at h
  exact List.mem_map.mp h

theorem ids_relabel_trade (x y : Label κ ν) (t : Tree κ ν) :
    (t.relabel (Label.trade x y)).ids = t.ids.map (Equiv.swap x.2.id y.2.id) := by
  rw [ids_eq_labels, ids_eq_labels, labels_relabel, List.map_map, List.map_map]
  exact List.map_congr_left fun z _ => Label.id_trade x y z

theorem swap_mem {m k : NodeId} {ns : List NodeId} (hn : n ∈ ns) (hm : m ∈ ns) (hk : k ∈ ns) :
    Equiv.swap n m k ∈ ns := by
  rw [Equiv.swap_apply_def]
  split_ifs <;> assumption

theorem mem_ids_relabel_trade {t : Tree κ ν} (hx : x ∈ t.labels) (hy : y ∈ t.labels) :
    n ∈ (t.relabel (Label.trade x y)).ids ↔ n ∈ t.ids := by
  have hx := mem_ids_of_label hx
  have hy := mem_ids_of_label hy
  rw [ids_relabel_trade, List.mem_map]
  constructor
  · rintro ⟨m, hm, rfl⟩
    exact swap_mem hx hy hm
  · intro hn
    exact ⟨_, swap_mem hx hy hn, Equiv.swap_apply_self ..⟩

theorem root?_relabel_trade (x y : Label κ ν) (t : Tree κ ν) :
    (t.relabel (Label.trade x y)).root? = t.root?.map (Equiv.swap x.2.id y.2.id) := by
  cases t with
  | nil => rfl
  | node l k c r => exact congrArg some (Label.id_trade x y (k, c))

/-- A replacement brings in one node at most. -/
theorem mem_ids_relabel_replace {t : Tree κ ν} {m : NodeId}
    (h : m ∈ (t.relabel (Label.replace n y)).ids) : m = y.2.id ∨ m ∈ t.ids := by
  rw [ids_eq_labels, labels_relabel, List.map_map] at h
  obtain ⟨z, hz, rfl⟩ := List.mem_map.mp h
  by_cases e : z.2.id = n
  · exact .inl (by simp [Label.replace, e])
  · exact .inr (by simpa [Label.replace, e] using mem_ids_of_label hz)

theorem relabel_relabel (t : Tree κ ν) : (t.relabel f).relabel g = t.relabel (g ∘ f) := by
  induction t with
  | nil => rfl
  | node l k c r ihl ihr => simp [relabel, ihl, ihr]

theorem relabel_congr {t : Tree κ ν} (h : ∀ x ∈ t.labels, f x = g x) :
    t.relabel f = t.relabel g := by
  induction t with
  | nil => rfl
  | node l k c r ihl ihr =>
    simp only [labels, List.mem_append, List.mem_cons] at h
    rw [relabel, relabel, ihl fun x hx => h x (.inl hx), ihr fun x hx => h x (.inr (.inr hx)),
      h (k, c) (.inr (.inl rfl))]

theorem relabel_id (t : Tree κ ν) : t.relabel id = t := by
  induction t with
  | nil => rfl
  | node l k c r ihl ihr => rw [relabel, ihl, ihr]; rfl

theorem relabel_eq_self {t : Tree κ ν} (h : ∀ x : Label κ ν, x.2.id ∈ t.ids → f x = x) :
    t.relabel f = t :=
  (relabel_congr fun x hx => h x (mem_ids_of_label hx)).trans t.relabel_id

theorem labels_join_perm (s : Side) (t : Tree κ ν) (k : Color) (c : Cell κ ν) (u : Tree κ ν) :
    (join s t k c u).labels.Perm ((k, c) :: (t.labels ++ u.labels)) := by
  cases s with
  | left => exact List.perm_middle
  | right => exact List.perm_middle.trans (List.perm_append_comm.cons _)

/-- A trade made twice was none. -/
theorem relabel_trade_trade {t : Tree κ ν} (hnd : t.ids.Nodup) (hx : x ∈ t.labels)
    (hy : y ∈ t.labels) (hne : x.2.id ≠ y.2.id) :
    (t.relabel (Label.trade x y)).relabel (Label.trade x y) = t := by
  rw [relabel_relabel]
  refine (relabel_congr fun z hz => ?_).trans t.relabel_id
  rw [Function.comp_apply]
  by_cases hzx : z.2.id = x.2.id
  · rw [eq_of_labels hnd hz hx hzx, Label.trade_left, Label.trade_right hne]
    rfl
  · by_cases hzy : z.2.id = y.2.id
    · rw [eq_of_labels hnd hz hy hzy, Label.trade_right hne, Label.trade_left]
      rfl
    · rw [Label.trade_of_ne hzx hzy, Label.trade_of_ne hzx hzy]
      rfl

theorem relabel_join (s : Side) (t : Tree κ ν) (k : Color) (c : Cell κ ν) (u : Tree κ ν) :
    (join s t k c u).relabel f = join s (t.relabel f) (f (k, c)).1 (f (k, c)).2 (u.relabel f) := by
  cases s <;> rfl

end Tree

/-- Put other labels at the places along a path and beside it. -/
def Path.relabel (f : Label κ ν → Label κ ν) (p : Path κ ν) : Path κ ν :=
  p.map fun x => ⟨x.side, (f (x.color, x.cell)).1, (f (x.color, x.cell)).2, x.other.relabel f⟩

namespace Path

theorem relabel_plug (p : Path κ ν) (t : Tree κ ν) :
    (p.plug t).relabel f = (p.relabel f).plug (t.relabel f) := by
  induction p generalizing t with
  | nil => rfl
  | cons x up ih => rw [plug_cons, ih, Tree.relabel_join]; rfl

theorem above?_relabel_trade (x y : Label κ ν) (p : Path κ ν) :
    (p.relabel (Label.trade x y)).above? = p.above?.map (Equiv.swap x.2.id y.2.id) := by
  cases p with
  | nil => rfl
  | cons f up => exact congrArg some (Label.id_trade x y (f.color, f.cell))

theorem relabel_eq_self {p : Path κ ν} (h : ∀ x : Label κ ν, x.2.id ∈ p.ids → f x = x) :
    p.relabel f = p := by
  induction p with
  | nil => rfl
  | cons x up ih =>
    simp only [ids_cons, List.mem_cons, List.mem_append] at h
    have other : x.other.relabel f = x.other :=
      Tree.relabel_eq_self fun y hy => h y (.inr (.inl hy))
    have here : f (x.color, x.cell) = (x.color, x.cell) := h _ (.inl rfl)
    have rest : Path.relabel f up = up := ih fun y hy => h y (.inr (.inr hy))
    rw [relabel] at rest
    rw [relabel, List.map_cons, rest, here, other]

theorem label_mem_plug (p : Path κ ν) {t : Tree κ ν} (h : x ∈ t.labels) :
    x ∈ (p.plug t).labels := by
  induction p generalizing t with
  | nil => exact h
  | cons f up ih =>
    refine ih ((Tree.labels_join_perm ..).mem_iff.mpr ?_)
    simp [h]

/-- Every label of a tree stands at the end of a path. -/
theorem exists_plug_label {t : Tree κ ν} (hnd : t.ids.Nodup) (h : x ∈ t.labels) :
    ∃ p l r, t = plug p (.node l x.1 x.2 r) := by
  have hc : x.2 ∈ t.cells := by
    rw [Tree.cells_eq_labels]
    exact List.mem_map_of_mem (f := fun x : Label κ ν => x.2) h
  obtain ⟨p, l, k, r, rfl⟩ := exists_plug hc
  have here : (k, x.2) ∈ (plug p (.node l k x.2 r)).labels :=
    p.label_mem_plug (by simp [Tree.labels])
  rw [Tree.eq_of_labels hnd h here rfl]
  exact ⟨p, l, r, rfl⟩

/-- A replacement changes one place. -/
theorem relabel_replace {p : Path κ ν} {l r : Tree κ ν}
    (hnd : (p.plug (.node l x.1 x.2 r)).ids.Nodup) :
    (p.plug (.node l x.1 x.2 r)).relabel (Label.replace x.2.id y) = p.plug (.node l y.1 y.2 r) := by
  rw [(p.ids_plug_perm _).nodup_iff, Tree.ids_node] at hnd
  simp only [List.nodup_append, List.nodup_cons, List.mem_append, List.mem_cons] at hnd
  have other {ns : List NodeId} (hns : x.2.id ∉ ns) (z : Label κ ν) (hz : z.2.id ∈ ns) :
      Label.replace x.2.id y z = z := Label.replace_of_ne (by rintro e; exact hns (e ▸ hz)) y
  rw [relabel_plug, Tree.relabel, relabel_eq_self (other (by grind)),
    Tree.relabel_eq_self (other (by grind)), Tree.relabel_eq_self (other (by grind)),
    Label.replace_self (x.1, x.2)]

/-- A node trades places with one below its left side. -/
theorem relabel_trade {p q : Path κ ν} {u v r : Tree κ ν}
    (hnd : (p.plug (.node (q.plug (.node u y.1 y.2 v)) x.1 x.2 r)).ids.Nodup) :
    (p.plug (.node (q.plug (.node u y.1 y.2 v)) x.1 x.2 r)).relabel (Label.trade x y) =
      p.plug (.node (q.plug (.node u x.1 x.2 v)) y.1 y.2 r) := by
  rw [(p.ids_plug_perm _).nodup_iff, Tree.ids_node,
    (((q.ids_plug_perm _).append_right _).append_left _).nodup_iff, Tree.ids_node] at hnd
  simp only [List.nodup_append, List.nodup_cons, List.mem_append, List.mem_cons] at hnd
  have hne : x.2.id ≠ y.2.id := by grind
  have other {ns : List NodeId} (hx : x.2.id ∉ ns) (hy : y.2.id ∉ ns) (z : Label κ ν)
      (hz : z.2.id ∈ ns) : Label.trade x y z = z :=
    Label.trade_of_ne (by rintro e; exact hx (e ▸ hz)) (by rintro e; exact hy (e ▸ hz))
  rw [relabel_plug, Tree.relabel, relabel_plug, Tree.relabel,
    relabel_eq_self (other (by grind) (by grind)), relabel_eq_self (other (by grind) (by grind)),
    Tree.relabel_eq_self (other (by grind) (by grind)),
    Tree.relabel_eq_self (other (by grind) (by grind)),
    Tree.relabel_eq_self (other (by grind) (by grind)),
    Label.trade_left (x.1, x.2), Label.trade_right hne]

end Path
end OrderedMap
