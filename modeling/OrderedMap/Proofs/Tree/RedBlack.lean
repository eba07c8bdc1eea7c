import OrderedMap.Proofs.Tree.Basic

/-!
The colour and height rules. Below a root they are `Balanced`; above a hole in the tree they are
`Fits`, which tells the height that a subtree must have there and the height of the whole. The root
counts as hanging from a red node, since it has to be black.
-/
namespace OrderedMap

theorem Color.eq_black {k : Color} (h : k ≠ .red) : k = .black := by
  cases k with
  | black => rfl
  | red => exact absurd rfl h

namespace Tree

variable {κ ν : Type}

/-- No red node has a red child, and every path from the root down to a missing child crosses the
same number of black nodes, which is the height when the missing child counts as one. -/
inductive Balanced : Tree κ ν → Nat → Prop
  | nil : Balanced nil 1
  | red {l r : Tree κ ν} {c : Cell κ ν} {h : Nat} (left : Balanced l h) (right : Balanced r h)
      (blackLeft : l.color = .black) (blackRight : r.color = .black) : Balanced (node l .red c r) h
  | black {l r : Tree κ ν} {c : Cell κ ν} {h : Nat} (left : Balanced l h) (right : Balanced r h) :
      Balanced (node l .black c r) (h + 1)

/-- A balanced tree with a black root. -/
structure RedBlack (t : Tree κ ν) (h : Nat) : Prop where
  color : t.color = .black
  balanced : t.Balanced h

/-- Turn the root down towards a side: its child on the other side takes its place. -/
def rotate : Side → Tree κ ν → Tree κ ν
  | .left, node a k c (node b k' d e) => node (node a k c b) k' d e
  | .right, node (node a k c b) k' d e => node a k c (node b k' d e)
  | _, t => t

/-- Give a child of the root another colour. -/
def paintChild (side : Side) (k : Color) : Tree κ ν → Tree κ ν
  | nil => nil
  | node l k' c r => match side with
    | .left => node (l.paint k) k' c r
    | .right => node l k' c (r.paint k)

@[simp] theorem rotate_join (s : Side) (t u v : Tree κ ν) (k k' : Color) (c d : Cell κ ν) :
    rotate s (join s t k c (join s u k' d v)) = join s (join s t k c u) k' d v := by
  cases s <;> rfl

@[simp] theorem rotate_opposite_join (s : Side) (t u v : Tree κ ν) (k k' : Color)
    (c d : Cell κ ν) :
    rotate s.opposite (join s (join s t k c u) k' d v) = join s t k c (join s u k' d v) := by
  cases s <;> rfl

@[simp] theorem cells_rotate (s : Side) (t : Tree κ ν) : (t.rotate s).cells = t.cells := by
  unfold rotate
  split <;> simp [cells]

@[simp] theorem paintChild_join (s : Side) (t u : Tree κ ν) (k k' : Color) (c : Cell κ ν) :
    (join s t k c u).paintChild s k' = join s (t.paint k') k c u := by cases s <;> rfl

@[simp] theorem paintChild_opposite_join (s : Side) (t u : Tree κ ν) (k k' : Color)
    (c : Cell κ ν) : (join s t k c u).paintChild s.opposite k' = join s t k c (u.paint k') := by
  cases s <;> rfl

@[simp] theorem cells_paintChild (s : Side) (k : Color) (t : Tree κ ν) :
    (t.paintChild s k).cells = t.cells := by
  cases t with
  | nil => rfl
  | node l k' c r => cases s <;> simp [paintChild, cells]

theorem balanced_red_join {s : Side} {t u : Tree κ ν} {c : Cell κ ν} {h : Nat} :
    (join s t .red c u).Balanced h ↔
      t.Balanced h ∧ u.Balanced h ∧ t.color = .black ∧ u.color = .black := by
  constructor
  · intro hb
    cases s with
    | left => cases hb with | red l r bl br => exact ⟨l, r, bl, br⟩
    | right => cases hb with | red l r bl br => exact ⟨r, l, br, bl⟩
  · rintro ⟨ht, hu, bt, bu⟩
    cases s with
    | left => exact .red ht hu bt bu
    | right => exact .red hu ht bu bt

theorem balanced_black_join {s : Side} {t u : Tree κ ν} {c : Cell κ ν} {h : Nat} :
    (join s t .black c u).Balanced h ↔ ∃ m, h = m + 1 ∧ t.Balanced m ∧ u.Balanced m := by
  constructor
  · intro hb
    cases s with
    | left => cases hb with | black l r => exact ⟨_, rfl, l, r⟩
    | right => cases hb with | black l r => exact ⟨_, rfl, r, l⟩
  · rintro ⟨m, rfl, ht, hu⟩
    cases s with
    | left => exact .black ht hu
    | right => exact .black hu ht

namespace Balanced

theorem pos {t : Tree κ ν} {h : Nat} (hb : t.Balanced h) : 0 < h := by
  induction hb with
  | nil => exact Nat.one_pos
  | red _ _ _ _ ih _ => exact ih
  | black => exact Nat.succ_pos _

theorem height_unique {t : Tree κ ν} {h k : Nat} (hb : t.Balanced h) (kb : t.Balanced k) :
    h = k := by
  induction hb generalizing k with
  | nil => cases kb; rfl
  | red _ _ _ _ ih _ => cases kb with | red l _ _ _ => exact ih l
  | black _ _ ih _ => cases kb with | black l _ => rw [ih l]

/-- A tree higher than a missing node has a root. -/
theorem ne_nil {t : Tree κ ν} {h : Nat} (hb : t.Balanced (h + 1)) (hp : 0 < h) : t ≠ .nil := by
  rintro rfl
  cases hb
  exact absurd hp (Nat.lt_irrefl 0)

theorem paint_black {t : Tree κ ν} {h : Nat} (hb : t.Balanced h) (hr : t.color = .red) :
    (t.paint .black).Balanced (h + 1) := by
  cases hb with
  | nil => cases hr
  | red l r _ _ => exact .black l r
  | black => cases hr

end Balanced
end Tree

namespace Path

variable {κ ν : Type}

/-- The colour above a hole. -/
def roof : Path κ ν → Color
  | [] => .red
  | f :: _ => f.color

/-- A subtree of height `h` at the end of the path makes a whole of height `H`, in which all rules
hold that do not concern the colour of its root. -/
inductive Fits : Path κ ν → Nat → Nat → Prop
  | nil {h : Nat} : Fits [] h h
  | red {s : Side} {c : Cell κ ν} {t : Tree κ ν} {up : Path κ ν} {h H : Nat}
      (balanced : t.Balanced h) (black : t.color = .black) (above : roof up = .black)
      (rest : Fits up h H) : Fits (⟨s, .red, c, t⟩ :: up) h H
  | black {s : Side} {c : Cell κ ν} {t : Tree κ ν} {up : Path κ ν} {h H : Nat}
      (balanced : t.Balanced h) (rest : Fits up (h + 1) H) : Fits (⟨s, .black, c, t⟩ :: up) h H

@[simp] theorem roof_nil : roof ([] : Path κ ν) = .red := rfl

@[simp] theorem roof_cons (f : Frame κ ν) (up : Path κ ν) : roof (f :: up) = f.color := rfl

/-- The rules of a tree, split at a subtree. -/
theorem redBlack_plug {p : Path κ ν} {t : Tree κ ν} {H : Nat} :
    (plug p t).RedBlack H ↔
      ∃ h, Fits p h H ∧ t.Balanced h ∧ (roof p = .red → t.color = .black) := by
  induction p generalizing t with
  | nil =>
    constructor
    · intro hr
      exact ⟨H, .nil, hr.balanced, fun _ => hr.color⟩
    · rintro ⟨h, hf, hb, hc⟩
      cases hf
      exact ⟨hc rfl, hb⟩
  | cons f up ih =>
    obtain ⟨s, k, c, u⟩ := f
    rw [plug_cons, ih]
    constructor
    · rintro ⟨h, hf, hb, hc⟩
      simp only [Tree.color_join] at hc
      cases k with
      | red =>
        obtain ⟨ht, hu, bt, bu⟩ := Tree.balanced_red_join.mp hb
        have above : roof up = .black := Color.eq_black fun hr => by cases hc hr
        exact ⟨h, .red hu bu above hf, ht, fun _ => bt⟩
      | black =>
        obtain ⟨m, rfl, ht, hu⟩ := Tree.balanced_black_join.mp hb
        exact ⟨m, .black hu hf, ht, fun hr => by cases hr⟩
    · rintro ⟨h, hf, hb, hc⟩
      cases hf with
      | red hu bu above rest =>
        refine ⟨h, rest, Tree.balanced_red_join.mpr ⟨hb, hu, hc rfl, bu⟩, ?_⟩
        rw [above]
        intro h
        cases h
      | black hu rest =>
        exact ⟨h + 1, rest, Tree.balanced_black_join.mpr ⟨h, rfl, hb, hu⟩, fun _ => by simp⟩

/-- The rules do not look at what a node holds. -/
theorem redBlack_plug_cell {p : Path κ ν} {l r : Tree κ ν} {k : Color} {c : Cell κ ν} {H : Nat}
    (h : (plug p (.node l k c r)).RedBlack H) (d : Cell κ ν) :
    (plug p (.node l k d r)).RedBlack H := by
  obtain ⟨j, hp, hb, hc⟩ := redBlack_plug.mp h
  refine redBlack_plug.mpr ⟨j, hp, ?_, hc⟩
  cases hb with
  | red l r bl br => exact .red l r bl br
  | black l r => exact .black l r

theorem cells_plug_congr (p : Path κ ν) {t u : Tree κ ν} (h : t.cells = u.cells) :
    (plug p t).cells = (plug p u).cells := by
  have ht := toward_plug .right p t
  have hu := toward_plug .right p u
  simp only [Tree.toward] at ht hu
  rw [ht, hu, h]

/-- The number of black nodes above a hole. -/
def blacks (p : Path κ ν) : Nat := p.countP (·.color = .black)

theorem blacks_append (p q : Path κ ν) : blacks (p ++ q) = blacks p + blacks q :=
  List.countP_append ..

theorem balanced_of_plug {p : Path κ ν} {t : Tree κ ν} {H : Nat} (hb : (plug p t).Balanced H) :
    ∃ h, t.Balanced h ∧ h + blacks p = H := by
  induction p generalizing t with
  | nil => exact ⟨H, hb, rfl⟩
  | cons f up ih =>
    obtain ⟨s, k, c, u⟩ := f
    obtain ⟨h, hj, rfl⟩ := ih hb
    cases k with
    | red =>
      obtain ⟨ht, -⟩ := Tree.balanced_red_join.mp hj
      exact ⟨h, ht, by simp [blacks]⟩
    | black =>
      obtain ⟨m, rfl, ht, -⟩ := Tree.balanced_black_join.mp hj
      exact ⟨m, ht, by simp [blacks]; omega⟩

end Path

namespace Tree

variable {κ ν : Type}

/-- No red node has a red child. -/
def RedApart (t : Tree κ ν) : Prop :=
  ∀ p l c r, t = Path.plug p (.node l .red c r) → l.color = .black ∧ r.color = .black

/-- Every path from the root down to a missing child crosses the same number of black nodes, which
is the height when the missing child counts as one. -/
def Level (t : Tree κ ν) (h : Nat) : Prop := ∀ p : Path κ ν, t = p.plug .nil → p.blacks + 1 = h

theorem RedApart.of_plug {p : Path κ ν} {t : Tree κ ν} (h : (p.plug t).RedApart) : t.RedApart := by
  rintro q l c r rfl
  exact h (q ++ p) l c r (Path.plug_append ..).symm

theorem Level.of_plug {p : Path κ ν} {t : Tree κ ν} {h : Nat} (hl : (p.plug t).Level h) :
    t.Level (h - p.blacks) := by
  rintro q rfl
  have := hl (q ++ p) (Path.plug_append ..).symm
  rw [Path.blacks_append] at this
  omega

/-- The colour and height rules, path by path. -/
theorem balanced_iff {t : Tree κ ν} {h : Nat} : t.Balanced h ↔ t.RedApart ∧ t.Level h := by
  constructor
  · intro hb
    constructor
    · rintro p l c r rfl
      obtain ⟨j, hj, -⟩ := Path.balanced_of_plug hb
      cases hj with | red _ _ bl br => exact ⟨bl, br⟩
    · rintro p rfl
      obtain ⟨j, hj, rfl⟩ := Path.balanced_of_plug hb
      cases hj
      omega
  · rintro ⟨ha, hl⟩
    induction t generalizing h with
    | nil =>
      obtain rfl : 1 = h := hl [] rfl
      exact .nil
    | node l k c r ihl ihr =>
      have left : (Path.plug [⟨.left, k, c, r⟩] l).Level h := hl
      have right : (Path.plug [⟨.right, k, c, l⟩] r).Level h := hl
      have hbl := ihl (RedApart.of_plug (p := [⟨.left, k, c, r⟩]) ha) left.of_plug
      have hbr := ihr (RedApart.of_plug (p := [⟨.right, k, c, l⟩]) ha) right.of_plug
      cases k with
      | red =>
        obtain ⟨bl, br⟩ := ha [] l c r rfl
        exact .red hbl hbr bl br
      | black =>
        simp only [Path.blacks, List.countP_singleton, decide_true, if_true] at hbl hbr
        have hpos := hbl.pos
        have hh : h - 1 + 1 = h := by omega
        exact hh ▸ .black hbl hbr

end Tree
end OrderedMap
