import Mathlib.Data.List.Nodup
import Mathlib.Data.List.Perm.Basic
import OrderedMap.Journal

/-!
Trees apart from the arena that holds them. A tree labels its nodes with cells and colours. A path
leads from a subtree up to the root and keeps what was left aside on the way; plugging a subtree in
again gives the whole. Sides are a parameter, so that mirrored facts are stated once.
-/
namespace OrderedMap

/-- What a node is apart from its links and its colour. -/
structure Cell (κ ν : Type) where
  id : NodeId
  stamp : Nat
  entry : Option (Entry κ ν)
  deriving DecidableEq, Repr

inductive Tree (κ ν : Type)
  | nil
  | node (left : Tree κ ν) (color : Color) (cell : Cell κ ν) (right : Tree κ ν)
  deriving DecidableEq, Repr

namespace Tree

variable {κ ν : Type}

def root? : Tree κ ν → Option NodeId
  | nil => none
  | node _ _ c _ => some c.id

/-- The colour of the root. A missing node counts as black. -/
def color : Tree κ ν → Color
  | nil => .black
  | node _ k _ _ => k

/-- Give the root another colour. -/
def paint (k : Color) : Tree κ ν → Tree κ ν
  | nil => nil
  | node l _ c r => node l k c r

def child (side : Side) : Tree κ ν → Tree κ ν
  | nil => nil
  | node l _ _ r => match side with
    | .left => l
    | .right => r

/-- A node with the subtree on the given side first. -/
def join (side : Side) (near : Tree κ ν) (k : Color) (c : Cell κ ν) (far : Tree κ ν) : Tree κ ν :=
  match side with
  | .left => node near k c far
  | .right => node far k c near

/-- The cells in order. -/
def cells : Tree κ ν → List (Cell κ ν)
  | nil => []
  | node l _ c r => l.cells ++ c :: r.cells

/-- The cells in the order in which a walk towards `side` meets them. -/
def toward (side : Side) (t : Tree κ ν) : List (Cell κ ν) :=
  match side with
  | .left => t.cells.reverse
  | .right => t.cells

def ids (t : Tree κ ν) : List NodeId := t.cells.map (·.id)

@[simp] theorem root?_nil : (nil : Tree κ ν).root? = none := rfl

@[simp] theorem root?_node (l : Tree κ ν) (k : Color) (c : Cell κ ν) (r : Tree κ ν) :
    (node l k c r).root? = some c.id := rfl

@[simp] theorem root?_eq_none_iff {t : Tree κ ν} : t.root? = none ↔ t = nil := by
  cases t <;> simp [root?]

@[simp] theorem root?_join (s : Side) (t : Tree κ ν) (k : Color) (c : Cell κ ν) (u : Tree κ ν) :
    (join s t k c u).root? = some c.id := by cases s <;> rfl

@[simp] theorem color_nil : (nil : Tree κ ν).color = .black := rfl

@[simp] theorem color_join (s : Side) (t : Tree κ ν) (k : Color) (c : Cell κ ν) (u : Tree κ ν) :
    (join s t k c u).color = k := by cases s <;> rfl

@[simp] theorem paint_join (s : Side) (t : Tree κ ν) (k k' : Color) (c : Cell κ ν)
    (u : Tree κ ν) : (join s t k c u).paint k' = join s t k' c u := by cases s <;> rfl

theorem color_paint {t : Tree κ ν} (k : Color) (h : t ≠ nil) : (t.paint k).color = k := by
  cases t with
  | nil => exact absurd rfl h
  | node l k' c r => rfl

@[simp] theorem child_join (s : Side) (t : Tree κ ν) (k : Color) (c : Cell κ ν) (u : Tree κ ν) :
    (join s t k c u).child s = t := by cases s <;> rfl

@[simp] theorem child_opposite_join (s : Side) (t : Tree κ ν) (k : Color) (c : Cell κ ν)
    (u : Tree κ ν) : (join s t k c u).child s.opposite = u := by cases s <;> rfl

@[simp] theorem child_nil (s : Side) : (nil : Tree κ ν).child s = nil := rfl

theorem join_opposite (s : Side) (t : Tree κ ν) (k : Color) (c : Cell κ ν) (u : Tree κ ν) :
    join s.opposite t k c u = join s u k c t := by cases s <;> rfl

/-- Every node can be read from either side. -/
theorem exists_join (s : Side) {t : Tree κ ν} (h : t ≠ nil) :
    ∃ near k c far, t = join s near k c far := by
  cases t with
  | nil => exact absurd rfl h
  | node l k c r =>
    cases s with
    | left => exact ⟨l, k, c, r, rfl⟩
    | right => exact ⟨r, k, c, l, rfl⟩

/-- Induction in which every node is read from a given side. -/
theorem join_induction (s : Side) {motive : Tree κ ν → Prop} (nil : motive nil)
    (join : ∀ near k c far, motive near → motive far → motive (join s near k c far))
    (t : Tree κ ν) : motive t := by
  induction t with
  | nil => exact nil
  | node l k c r ihl ihr =>
    cases s with
    | left => exact join l k c r ihl ihr
    | right => exact join r k c l ihr ihl

@[simp] theorem cells_nil : (nil : Tree κ ν).cells = [] := rfl

@[simp] theorem cells_paint (k : Color) (t : Tree κ ν) : (t.paint k).cells = t.cells := by
  cases t <;> rfl

@[simp] theorem cells_eq_nil_iff {t : Tree κ ν} : t.cells = [] ↔ t = nil := by
  cases t <;> simp [cells]

@[simp] theorem toward_nil (s : Side) : (nil : Tree κ ν).toward s = [] := by cases s <;> rfl

theorem mem_toward {s : Side} {t : Tree κ ν} {c : Cell κ ν} : c ∈ t.toward s ↔ c ∈ t.cells := by
  cases s <;> simp [toward]

theorem toward_opposite (s : Side) (t : Tree κ ν) : t.toward s.opposite = (t.toward s).reverse := by
  cases s <;> simp [toward, Side.opposite]

theorem toward_join (s : Side) (t : Tree κ ν) (k : Color) (c : Cell κ ν) (u : Tree κ ν) :
    (join s t k c u).toward s = u.toward s ++ c :: t.toward s := by
  cases s <;> simp [toward, join, cells]

theorem toward_join_opposite (s : Side) (t : Tree κ ν) (k : Color) (c : Cell κ ν)
    (u : Tree κ ν) : (join s.opposite t k c u).toward s = t.toward s ++ c :: u.toward s := by
  cases s <;> simp [toward, join, cells, Side.opposite]

theorem cells_join_perm (s : Side) (t : Tree κ ν) (k : Color) (c : Cell κ ν) (u : Tree κ ν) :
    (join s t k c u).cells.Perm (c :: (t.cells ++ u.cells)) := by
  cases s with
  | left => exact List.perm_middle
  | right => exact List.perm_middle.trans (List.perm_append_comm.cons c)

@[simp] theorem ids_nil : (nil : Tree κ ν).ids = [] := rfl

@[simp] theorem ids_node (l : Tree κ ν) (k : Color) (c : Cell κ ν) (r : Tree κ ν) :
    (node l k c r).ids = l.ids ++ c.id :: r.ids := by simp [ids, cells]

theorem ids_join_perm (s : Side) (t : Tree κ ν) (k : Color) (c : Cell κ ν) (u : Tree κ ν) :
    (join s t k c u).ids.Perm (c.id :: (t.ids ++ u.ids)) := by
  simpa [ids] using (cells_join_perm s t k c u).map Cell.id

theorem count_ids_join (n : NodeId) (s : Side) (t : Tree κ ν) (k : Color) (c : Cell κ ν)
    (u : Tree κ ν) : (join s t k c u).ids.count n =
      t.ids.count n + u.ids.count n + if c.id = n then 1 else 0 := by
  simp [(ids_join_perm s t k c u).count_eq, List.count_cons]

theorem root?_mem_ids {t : Tree κ ν} {n : NodeId} (h : t.root? = some n) : n ∈ t.ids := by
  cases t with
  | nil => cases h
  | node l k c r => cases h; simp

end Tree

/-- One step of a path: a node, the side on which the subtree below hangs, and what hangs on the
other side. -/
structure Frame (κ ν : Type) where
  side : Side
  color : Color
  cell : Cell κ ν
  other : Tree κ ν
  deriving DecidableEq, Repr

/-- The way from a subtree up to the root, the parent first. -/
abbrev Path (κ ν : Type) := List (Frame κ ν)

namespace Path

variable {κ ν : Type}

/-- The node on which the subtree at the end of the path hangs. -/
def above? : Path κ ν → Option NodeId
  | [] => none
  | f :: _ => some f.cell.id

def plug : Path κ ν → Tree κ ν → Tree κ ν
  | [], t => t
  | f :: up, t => plug up (.join f.side t f.color f.cell f.other)

def cells : Path κ ν → List (Cell κ ν)
  | [] => []
  | f :: up => f.cell :: (f.other.cells ++ cells up)

def ids (p : Path κ ν) : List NodeId := (cells p).map (·.id)

/-- The cells that a walk towards `side` meets after the subtree. -/
def beyond (side : Side) : Path κ ν → List (Cell κ ν)
  | [] => []
  | f :: up =>
    if f.side = side then beyond side up else f.cell :: (f.other.toward side ++ beyond side up)

@[simp] theorem above?_nil : above? ([] : Path κ ν) = none := rfl

@[simp] theorem above?_cons (f : Frame κ ν) (up : Path κ ν) :
    above? (f :: up) = some f.cell.id := rfl

@[simp] theorem plug_nil (t : Tree κ ν) : plug [] t = t := rfl

@[simp] theorem plug_cons (f : Frame κ ν) (up : Path κ ν) (t : Tree κ ν) :
    plug (f :: up) t = plug up (.join f.side t f.color f.cell f.other) := rfl

theorem plug_append (p q : Path κ ν) (t : Tree κ ν) : plug (p ++ q) t = plug q (plug p t) := by
  induction p generalizing t with
  | nil => rfl
  | cons f up ih => exact ih _

/-- The whole, seen from the other side of the parent. -/
theorem plug_across (f : Frame κ ν) (up : Path κ ν) (t : Tree κ ν) :
    plug (f :: up) t = plug (⟨f.side.opposite, f.color, f.cell, t⟩ :: up) f.other := by
  rw [plug_cons, plug_cons, Tree.join_opposite]

theorem root?_plug_congr (p : Path κ ν) {t u : Tree κ ν} (h : t.root? = u.root?) :
    (plug p t).root? = (plug p u).root? := by
  induction p generalizing t u with
  | nil => exact h
  | cons f up ih => exact ih (by simp)

theorem cells_plug_perm (p : Path κ ν) (t : Tree κ ν) :
    (plug p t).cells.Perm (cells p ++ t.cells) := by
  induction p generalizing t with
  | nil => exact .refl _
  | cons f up ih =>
    refine (ih _).trans ((List.perm_append_comm.trans
      ((Tree.cells_join_perm _ _ _ _ _).append_right _)).trans ?_)
    simp only [cells, List.cons_append, List.append_assoc, List.perm_cons]
    exact List.perm_append_comm.trans (by simp)

theorem ids_plug_perm (p : Path κ ν) (t : Tree κ ν) :
    (plug p t).ids.Perm (ids p ++ t.ids) := by
  simpa [Tree.ids, ids] using (cells_plug_perm p t).map Cell.id

theorem count_ids_plug (n : NodeId) (p : Path κ ν) (t : Tree κ ν) :
    (plug p t).ids.count n = (ids p).count n + t.ids.count n := by
  simp [(ids_plug_perm p t).count_eq]

@[simp] theorem ids_nil : ids ([] : Path κ ν) = [] := rfl

@[simp] theorem ids_cons (f : Frame κ ν) (up : Path κ ν) :
    ids (f :: up) = f.cell.id :: (f.other.ids ++ ids up) := by simp [ids, cells, Tree.ids]

theorem cell_mem_ids {p : Path κ ν} {f : Frame κ ν} (hf : f ∈ p) : f.cell.id ∈ p.ids := by
  induction p with
  | nil => cases hf
  | cons g up ih =>
    rw [ids_cons]
    rcases List.mem_cons.mp hf with rfl | hf
    · exact List.mem_cons_self ..
    · exact List.mem_cons_of_mem _ (List.mem_append_right _ (ih hf))

/-- The root of a tree is the last node of a path. -/
theorem root?_plug (p : Path κ ν) (t : Tree κ ν) :
    (plug p t).root? = (p.getLast?.map (·.cell.id)).or t.root? := by
  induction p generalizing t with
  | nil => rfl
  | cons f up ih =>
    rw [plug_cons, ih, Tree.root?_join, List.getLast?_cons]
    cases up.getLast? <;> rfl

/-- The root is on every path that is not empty, whatever hangs at its end. -/
theorem exists_root_plug (f : Frame κ ν) (up : Path κ ν) :
    ∃ n ∈ ids (f :: up), ∀ t, (plug (f :: up) t).root? = some n := by
  obtain ⟨g, hg⟩ : ∃ g, (f :: up).getLast? = some g := ⟨_, List.getLast?_cons⟩
  refine ⟨g.cell.id, cell_mem_ids (List.mem_of_getLast? hg), fun t => ?_⟩
  rw [root?_plug, hg]
  rfl

theorem above?_mem_ids {p : Path κ ν} {n : NodeId} (h : p.above? = some n) : n ∈ p.ids := by
  cases p with
  | nil => cases h
  | cons f up => cases h; simp

theorem other_ids_subset {p : Path κ ν} {f : Frame κ ν} (hf : f ∈ p) : f.other.ids ⊆ p.ids := by
  induction p with
  | nil => cases hf
  | cons g up ih =>
    intro n hn
    rw [ids_cons]
    rcases List.mem_cons.mp hf with rfl | hf
    · exact List.mem_cons_of_mem _ (List.mem_append_left _ hn)
    · exact List.mem_cons_of_mem _ (List.mem_append_right _ (ih hf hn))

/-- Where no node is in two places, what hangs beside a subtree has another root. -/
theorem other_root?_ne {f : Frame κ ν} {up : Path κ ν} {t : Tree κ ν} {n : NodeId}
    (hnd : (plug (f :: up) t).ids.Nodup) (hn : t.root? = some n) : f.other.root? ≠ some n := by
  intro e
  have hm := other_ids_subset (p := f :: up) (List.mem_cons_self ..) (Tree.root?_mem_ids e)
  have hdisj := (List.nodup_append.mp ((ids_plug_perm _ t).nodup_iff.mp hnd)).2.2
  exact hdisj n hm n (Tree.root?_mem_ids hn) rfl

@[simp] theorem beyond_nil (s : Side) : beyond s ([] : Path κ ν) = [] := rfl

theorem toward_plug (s : Side) (p : Path κ ν) (t : Tree κ ν) :
    (plug p t).toward s = (beyond s.opposite p).reverse ++ t.toward s ++ beyond s p := by
  induction p generalizing t with
  | nil => simp
  | cons f up ih =>
    rw [plug_cons, ih]
    rcases Side.eq_or_eq_opposite s f.side with h | h
    · simp [beyond, h, Tree.toward_join, Tree.toward_opposite s f.other,
        (Side.opposite_ne s).symm]
    · simp [beyond, h, Tree.toward_join_opposite]

theorem cells_plug (p : Path κ ν) (t : Tree κ ν) :
    (plug p t).cells = (beyond .left p).reverse ++ t.cells ++ beyond .right p :=
  toward_plug .right p t

/-- Every node of a tree is met at the end of a path. -/
theorem exists_plug {t : Tree κ ν} {c : Cell κ ν} (h : c ∈ t.cells) :
    ∃ p l k r, t = plug p (.node l k c r) := by
  induction t with
  | nil => cases h
  | node l k d r ihl ihr =>
    rcases List.mem_append.mp h with h | h
    · obtain ⟨p, l', k', r', rfl⟩ := ihl h
      exact ⟨p ++ [⟨.left, k, d, r⟩], l', k', r', by rw [plug_append]; rfl⟩
    · rcases List.mem_cons.mp h with rfl | h
      · exact ⟨[], l, k, r, rfl⟩
      · obtain ⟨p, l', k', r', rfl⟩ := ihr h
        exact ⟨p ++ [⟨.right, k, d, l⟩], l', k', r', by rw [plug_append]; rfl⟩

theorem beyond_append (s : Side) (p q : Path κ ν) :
    beyond s (p ++ q) = beyond s p ++ beyond s q := by
  induction p with
  | nil => rfl
  | cons f up ih =>
    rw [List.cons_append, beyond, beyond, ih]
    split <;> simp

theorem exists_plug_join (s : Side) {t : Tree κ ν} {n : NodeId} (h : n ∈ t.ids) :
    ∃ p near k c far, t = plug p (.join s near k c far) ∧ c.id = n := by
  obtain ⟨c, hc, rfl⟩ := List.mem_map.mp h
  obtain ⟨p, l, k, r, rfl⟩ := exists_plug hc
  cases s with
  | left => exact ⟨p, l, k, c, r, rfl, rfl⟩
  | right => exact ⟨p, r, k, c, l, rfl, rfl⟩

/-- Where a node stands in order tells what is beside it and beyond. -/
theorem exists_split (s : Side) {t : Tree κ ν} {xs ys : List (Cell κ ν)} {c : Cell κ ν}
    (h : t.toward s = xs ++ c :: ys) : ∃ p k near far, t = plug p (.join s near k c far) ∧
      xs = (beyond s.opposite p).reverse ++ far.toward s ∧ ys = near.toward s ++ beyond s p := by
  induction t using Tree.join_induction s generalizing xs ys with
  | nil => simp at h
  | join near k d far ihn ihf =>
    rw [Tree.toward_join] at h
    rcases List.append_eq_append_iff.mp h with ⟨zs, rfl, hz⟩ | ⟨zs, hz, hy⟩
    · cases zs with
      | nil =>
        cases hz
        exact ⟨[], k, near, far, rfl, by simp, by simp⟩
      | cons z zs =>
        obtain ⟨rfl, hnear⟩ := List.cons_eq_cons.mp hz
        obtain ⟨p, k', near', far', rfl, rfl, rfl⟩ := ihn hnear
        refine ⟨p ++ [⟨s, k, d, far⟩], k', near', far', by rw [plug_append]; rfl, ?_, ?_⟩
        · simp [beyond_append, beyond, (Side.opposite_ne s).symm, Tree.toward_opposite]
        · simp [beyond_append, beyond]
    · cases zs with
      | nil =>
        cases hy
        exact ⟨[], k, near, far, rfl, by simpa using hz.symm, by simp⟩
      | cons z zs =>
        obtain ⟨rfl, rfl⟩ := List.cons_eq_cons.mp hy
        obtain ⟨p, k', near', far', rfl, rfl, rfl⟩ := ihf hz
        refine ⟨p ++ [⟨s.opposite, k, d, near⟩], k', near', far', ?_, ?_, ?_⟩
        · rw [plug_append, plug_cons, plug_nil, Tree.join_opposite]
        · simp [beyond_append, beyond]
        · simp [beyond_append, beyond, Side.opposite_ne]

end Path
end OrderedMap
