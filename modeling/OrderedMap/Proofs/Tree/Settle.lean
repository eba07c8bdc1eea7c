import OrderedMap.Proofs.Tree.Climb
import OrderedMap.Proofs.Tree.RedBlack

/-!
The repair after an insertion, on trees. The subtree at the end of the path has a red root that may
hang from a red node; two steps of the path are used up each time the redness moves up. The repair
keeps the cells in order and restores the rules, and makes the whole higher by at most one.
-/
namespace OrderedMap

/-- What a repair ends with, and what it lets be observed. -/
structure Repair (κ ν : Type) where
  tree : Tree κ ν
  records : List Record
  rotations : Nat

/-- A record made before the rest of the repair. -/
def Repair.noting {κ ν : Type} (r : Record) (x : Repair κ ν) : Repair κ ν :=
  { x with records := r :: x.records }

namespace Path

variable {κ ν : Type}

/-- The subtree of the grandparent after the rotations of a repair with a black uncle. -/
def straighten (f g : Frame κ ν) (t : Tree κ ν) : Tree κ ν :=
  let parent := Tree.join f.side t f.color f.cell f.other
  let top := if f.side = g.side then parent else parent.rotate g.side
  Tree.rotate g.side.opposite (.join g.side (top.paint .black) .red g.cell g.other)

def straightenRecords (f g : Frame κ ν) : List Record :=
  if f.side = g.side then
    [.outerRotation g.cell.id]
  else
    [.innerRotation f.cell.id, .outerRotation g.cell.id]

/-- Restore the colour rules above a subtree with a red root. -/
def settle : Path κ ν → Tree κ ν → Repair κ ν
  | [], t => ⟨t.paint .black, [], 0⟩
  | [f], t =>
    if f.color = .red then
      ⟨plug [{ f with color := .black }] t, [], 0⟩
    else
      ⟨plug [f] t, [], 0⟩
  | f :: g :: up, t =>
    if f.color = .red then
      if g.other.color = .red then
        (settle up (.join g.side (.join f.side t .black f.cell f.other) .red g.cell
          (g.other.paint .black))).noting (.recolored g.cell.id)
      else
        ⟨plug up (straighten f g t), straightenRecords f g, (straightenRecords f g).length⟩
    else
      ⟨plug (f :: g :: up) t, [], 0⟩

theorem cells_plug_recolor (f : Frame κ ν) (up : Path κ ν) (k : Color) (t : Tree κ ν) :
    (plug ({ f with color := k } :: up) t).cells = (plug (f :: up) t).cells := by
  rw [plug_cons, plug_cons]
  apply cells_plug_congr
  cases f.side <;> simp [Tree.join, Tree.cells]

theorem join_cells_congr (s : Side) {t u t' u' : Tree κ ν} (k k' : Color) (c : Cell κ ν)
    (ht : t.cells = t'.cells) (hu : u.cells = u'.cells) :
    (Tree.join s t k c u).cells = (Tree.join s t' k' c u').cells := by
  cases s <;> simp [Tree.join, Tree.cells, ht, hu]

theorem cells_straighten (f g : Frame κ ν) (t : Tree κ ν) :
    (straighten f g t).cells =
      (Tree.join g.side (.join f.side t f.color f.cell f.other) g.color g.cell g.other).cells := by
  unfold straighten
  rw [Tree.cells_rotate]
  refine join_cells_congr _ _ _ _ ?_ rfl
  split
  · rw [Tree.cells_paint]
  · rw [Tree.cells_paint, Tree.cells_rotate]

theorem cells_settle (p : Path κ ν) (t : Tree κ ν) :
    (settle p t).tree.cells = (plug p t).cells := by
  fun_induction settle p t with
  | case1 t => simp
  | case2 f t hf => exact cells_plug_recolor f [] .black t
  | case3 => rfl
  | case4 f g up t hf hg ih =>
    refine ih.trans ?_
    apply cells_plug_congr
    apply join_cells_congr
    · exact join_cells_congr _ _ _ _ rfl rfl
    · simp
  | case5 f g up t hf hg => exact cells_plug_congr up (cells_straighten f g t)
  | case6 => rfl

/-- With a black uncle the rotations end the repair: the grandparent's subtree gets back its height
and a black root. -/
theorem straighten_redBlack {f g : Frame κ ν} {t : Tree κ ν} {h : Nat} (hf : f.color = .red)
    (ht : t.Balanced h) (hr : t.color = .red) (ho : f.other.Balanced h)
    (bo : f.other.color = .black) (hu : g.other.Balanced h) (bu : g.other.color = .black) :
    (straighten f g t).Balanced (h + 1) ∧ (straighten f g t).color = .black := by
  obtain ⟨fs, fk, fc, fo⟩ := f
  obtain ⟨gs, gk, gc, go⟩ := g
  simp only at hf ho bo hu bu
  subst hf
  by_cases hs : fs = gs
  · subst hs
    simp only [straighten, if_true, Tree.paint_join, Tree.rotate_opposite_join, Tree.color_join,
      and_true]
    exact Tree.balanced_black_join.mpr
      ⟨h, rfl, ht, Tree.balanced_red_join.mpr ⟨ho, hu, bo, bu⟩⟩
  · have hg : fs = gs.opposite := by
      rcases Side.eq_or_eq_opposite gs fs with e | e
      · exact absurd e hs
      · exact e
    subst hg
    obtain ⟨x, k, n, y, rfl⟩ := Tree.exists_join gs (t := t) (by rintro rfl; cases hr)
    rw [Tree.color_join] at hr
    subst hr
    obtain ⟨hx, hy, bx, byy⟩ := Tree.balanced_red_join.mp ht
    simp only [straighten, Side.opposite_ne, if_false, Tree.join_opposite, Tree.rotate_join,
      Tree.paint_join, Tree.rotate_opposite_join, Tree.color_join, and_true]
    exact Tree.balanced_black_join.mpr ⟨h, rfl, Tree.balanced_red_join.mpr ⟨ho, hx, bo, bx⟩,
      Tree.balanced_red_join.mpr ⟨hy, hu, byy, bu⟩⟩

theorem turns_straightenRecords (f g : Frame κ ν) :
    Record.turns (straightenRecords f g) = (straightenRecords f g).length := by
  unfold straightenRecords
  split <;> rfl

/-- The records of the rotations do not depend on the colours, only on the sides. -/
theorem turning_straightenRecords (f g : Frame κ ν) (up : Path κ ν) :
    Repair.Turning ((f :: g :: up).map (·.cell.id)) (straightenRecords f g) := by
  unfold straightenRecords
  split
  · exact .outer f.cell.id g.cell.id _
  · exact .inner f.cell.id g.cell.id _

/-- The repair restores all rules. Its records tell how the redness climbed, past a black node each
time, and the height grows by one exactly if the redness reached the root. -/
theorem settle_climb {p : Path κ ν} {t : Tree κ ν} {h H : Nat} (hp : Fits p h H)
    (ht : t.Balanced h) (hr : t.color = .red) : ∃ atRoot,
      Repair.Climb (p.map (·.cell.id)) (settle p t).records atRoot ∧
      (settle p t).tree.RedBlack (H + atRoot.toNat) ∧
      Record.recolorings (settle p t).records ≤ blacks p ∧
      (settle p t).rotations = Record.turns (settle p t).records := by
  fun_induction settle p t generalizing h with
  | case1 t =>
    cases hp
    have hn : t ≠ .nil := by rintro rfl; cases hr
    exact ⟨true, .stops [] (.none []), ⟨Tree.color_paint _ hn, ht.paint_black hr⟩, Nat.zero_le _,
      rfl⟩
  | case2 f t hf =>
    cases hp with
    | red _ _ above _ => cases above
    | black => cases hf
  | case3 f t hf =>
    exact ⟨false, .stops [] (.none [f.cell.id]),
      redBlack_plug.mpr ⟨h, hp, ht, fun e => absurd e hf⟩, Nat.zero_le _, rfl⟩
  | case4 f g up t hf hg ih =>
    cases hp with
    | black => cases hf
    | @red fs fc o _ _ _ ho bo above rest =>
      cases rest with
      | red => cases above
      | @black gs gc u _ _ _ hu rest =>
        have uncle : (u.paint .black).color = .black :=
          Tree.color_paint _ (by rintro rfl; cases hg)
        have grown : (Tree.join gs (.join fs t .black fc o) .red gc (u.paint .black)).Balanced
            (h + 1) :=
          Tree.balanced_red_join.mpr ⟨Tree.balanced_black_join.mpr ⟨h, rfl, ht, ho⟩,
            hu.paint_black hg, by simp, uncle⟩
        obtain ⟨atRoot, climb, redBlack, recolorings, rotations⟩ := ih rest grown (by simp)
        refine ⟨atRoot, climb.recolor fc.id gc.id, redBlack, ?_, ?_⟩
        · simp only [Repair.noting, Record.recolorings, List.countP_cons, Record.recolors, blacks,
            if_true, decide_true, reduceCtorEq, decide_false, Bool.false_eq_true, if_false]
          exact Nat.succ_le_succ recolorings
        · exact rotations
  | case5 f g up t hf hg =>
    have turning := turning_straightenRecords f g up
    refine ⟨false, .stops [] turning, ?_, ?_, (turns_straightenRecords f g).symm⟩
    · cases hp with
      | black => cases hf
      | @red fs fc o _ _ _ ho bo above rest =>
        cases rest with
        | red => cases above
        | @black gs gc u _ _ _ hu rest =>
          have bu : u.color = .black := Color.eq_black hg
          obtain ⟨hb, hk⟩ := straighten_redBlack (f := ⟨fs, .red, fc, o⟩)
            (g := ⟨gs, .black, gc, u⟩) rfl ht hr ho bo hu bu
          exact redBlack_plug.mpr ⟨h + 1, rest, hb, fun _ => hk⟩
    · rw [turning.recolorings_eq]
      exact Nat.zero_le _
  | case6 f g up t hf =>
    exact ⟨false, .stops [] (.none _), redBlack_plug.mpr ⟨h, hp, ht, fun e => absurd e hf⟩,
      Nat.zero_le _, rfl⟩

end Path
end OrderedMap
