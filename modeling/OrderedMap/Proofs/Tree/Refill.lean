import OrderedMap.Proofs.Tree.Course
import OrderedMap.Proofs.Tree.Settle

/-!
The repair after a removal, on trees. The subtree at the end of the path is one black node short.
At each node the repair either ends, or makes the whole subtree of the node short and goes on above
it. It keeps the cells in order and restores the rules. The whole becomes lower by one exactly when
the shortage has moved past the root.
-/
namespace OrderedMap

/-- What becomes of the subtree of a node with a short side. -/
structure Relief (κ ν : Type) where
  tree : Tree κ ν
  records : List Record
  rotations : Nat
  /-- The whole subtree is short now. -/
  short : Bool

/-- The shortage moves up to the node on which the subtree hangs, if there is one. -/
def Repair.movingUp {κ ν : Type} (above : Option NodeId) (x : Repair κ ν) : Repair κ ν :=
  { x with records := (above.map Record.movedUp).toList ++ x.records }

namespace Frame

variable {κ ν : Type}

def near (f : Frame κ ν) : Tree κ ν := f.other.child f.side

def far (f : Frame κ ν) : Tree κ ν := f.other.child f.side.opposite

/-- The sibling after a red near nephew has been turned into a far one. -/
def turned (f : Frame κ ν) : Tree κ ν :=
  if f.far.color = .red then f.other else f.other.rotate f.side.opposite

/-- The subtree after the rotation that ends the repair. -/
def raised (f : Frame κ ν) (t : Tree κ ν) : Tree κ ν :=
  .rotate f.side (.join f.side t .black f.cell
    ((f.turned.paintChild f.side.opposite .black).paint f.color))

def raisedRecords (f : Frame κ ν) : List Record :=
  if f.far.color = .red then
    [.terminalRotation f.cell.id]
  else
    (f.other.root?.map Record.nephewRotation).toList ++ [.terminalRotation f.cell.id]

/-- The repair at a node whose sibling side has a black root. -/
def relieveBlack (f : Frame κ ν) (t : Tree κ ν) : Relief κ ν :=
  if f.other.root? = none then
    ⟨.join f.side t f.color f.cell f.other, [], 0, false⟩
  else if f.near.color = .red ∨ f.far.color = .red then
    ⟨f.raised t, f.raisedRecords, f.raisedRecords.length, false⟩
  else if f.color = .red then
    ⟨.join f.side t .black f.cell (f.other.paint .red), [.absorbed f.cell.id], 0, false⟩
  else
    ⟨.join f.side t f.color f.cell (f.other.paint .red), [], 0, true⟩

/-- The frame below a red sibling that has been rotated up. -/
def sunk (f : Frame κ ν) : Frame κ ν := { f with color := .red, other := f.near }

/-- The repair at a node. A red sibling is first made black by a rotation. -/
def relieve (f : Frame κ ν) (t : Tree κ ν) : Relief κ ν :=
  match f.other with
  | .nil => f.relieveBlack t
  | .node _ k q _ =>
    if k = .red then
      ⟨.join f.side (f.sunk.relieveBlack t).tree .black q f.far,
        .redSibling q.id :: (f.sunk.relieveBlack t).records,
        (f.sunk.relieveBlack t).rotations + 1, false⟩
    else
      f.relieveBlack t

end Frame

namespace Path

variable {κ ν : Type}

/-- Restore the black heights above a subtree that is one black node short. -/
def refill : Path κ ν → Tree κ ν → Repair κ ν
  | [], t => ⟨t, [], 0⟩
  | f :: up, t =>
    if (f.relieve t).short then
      (refill up (f.relieve t).tree).movingUp (above? up)
    else
      ⟨plug up (f.relieve t).tree, (f.relieve t).records, (f.relieve t).rotations⟩

end Path

/-- The repair of the whole when that of a frame is known. -/
def Relief.above {κ ν : Type} (x : Relief κ ν) (up : Path κ ν) : Repair κ ν :=
  if x.short then
    (up.refill x.tree).movingUp up.above?
  else
    ⟨up.plug x.tree, x.records, x.rotations⟩

theorem Path.refill_cons {κ ν : Type} (f : Frame κ ν) (up : Path κ ν) (t : Tree κ ν) :
    refill (f :: up) t = (f.relieve t).above up := rfl

namespace Frame

variable {κ ν : Type}

theorem cells_turned (f : Frame κ ν) : f.turned.cells = f.other.cells := by
  unfold turned
  split <;> simp

theorem cells_relieveBlack (f : Frame κ ν) (t : Tree κ ν) :
    (f.relieveBlack t).tree.cells = (Tree.join f.side t f.color f.cell f.other).cells := by
  unfold relieveBlack
  split
  · rfl
  split
  · unfold raised
    rw [Tree.cells_rotate]
    refine Path.join_cells_congr _ _ _ _ rfl ?_
    rw [Tree.cells_paint, Tree.cells_paintChild, cells_turned]
  split <;> exact Path.join_cells_congr _ _ _ _ rfl (by simp)

/-- A red node makes up for the shortage. -/
theorem short_relieveBlack {f : Frame κ ν} (t : Tree κ ν) (h : f.color = .red) :
    (f.relieveBlack t).short = false := by
  unfold relieveBlack
  simp only [h, if_true]
  split
  · rfl
  · split <;> rfl

theorem relieve_of_black {f : Frame κ ν} (t : Tree κ ν) (h : f.other.color = .black) :
    f.relieve t = f.relieveBlack t := by
  unfold relieve
  split
  · rfl
  · rename_i heq
    rw [heq] at h
    simp [Tree.color] at h
    simp [h]

theorem relieve_of_red {f : Frame κ ν} {near far : Tree κ ν} {q : Cell κ ν} (t : Tree κ ν)
    (h : f.other = .join f.side near .red q far) : f.relieve t =
      ⟨.join f.side (f.sunk.relieveBlack t).tree .black q far,
        .redSibling q.id :: (f.sunk.relieveBlack t).records,
        (f.sunk.relieveBlack t).rotations + 1, false⟩ := by
  have hfar : f.far = far := by simp [Frame.far, h]
  unfold relieve
  split
  · rename_i heq
    rw [h] at heq
    cases hs : f.side <;> simp [hs, Tree.join] at heq
  · rename_i heq
    rw [h] at heq
    cases hs : f.side <;> simp [hs, Tree.join] at heq <;> obtain ⟨-, rfl, rfl, -⟩ := heq <;>
      simp [hfar]

theorem cells_relieve (f : Frame κ ν) (t : Tree κ ν) :
    (f.relieve t).tree.cells = (Tree.join f.side t f.color f.cell f.other).cells := by
  cases hc : f.other.color with
  | black => rw [relieve_of_black t hc, cells_relieveBlack]
  | red =>
    obtain ⟨near, k, q, far, ho⟩ := Tree.exists_join f.side (t := f.other)
      (by intro e; rw [e] at hc; cases hc)
    rw [ho, Tree.color_join] at hc
    subst hc
    rw [relieve_of_red t ho, ho]
    have hn : f.near = near := by simp [Frame.near, ho]
    calc (Tree.join f.side (f.sunk.relieveBlack t).tree .black q far).cells
        = (Tree.join f.side (.join f.side t .red f.cell near) .black q far).cells :=
          Path.join_cells_congr _ _ _ _ (by rw [cells_relieveBlack]; simp [sunk, hn]) rfl
      _ = (Tree.rotate f.side (.join f.side t .red f.cell (.join f.side near .black q far))).cells
        := by rw [Tree.rotate_join]
      _ = (Tree.join f.side t f.color f.cell (.join f.side near .red q far)).cells := by
          rw [Tree.cells_rotate]
          exact Path.join_cells_congr _ _ _ _ rfl (Path.join_cells_congr _ _ _ _ rfl rfl)

/-- The height a frame adds to what hangs below it. -/
def rise (f : Frame κ ν) : Nat := if f.color = .black then 1 else 0

theorem balanced_raised {f : Frame κ ν} {t : Tree κ ν} {h : Nat} (ht : t.Balanced h)
    (ho : f.other.Balanced (h + 1)) (bo : f.other.color = .black)
    (hn : f.other ≠ .nil) (hr : f.near.color = .red ∨ f.far.color = .red) :
    (f.raised t).Balanced (h + 1 + f.rise) ∧ (f.raised t).color = f.color := by
  obtain ⟨near, k, q, far, e⟩ := Tree.exists_join f.side hn
  rw [e, Tree.color_join] at bo
  subst bo
  rw [e] at ho
  obtain ⟨m, hm, hne, hfa⟩ := Tree.balanced_black_join.mp ho
  obtain rfl : h = m := by omega
  simp only [Frame.near, Frame.far, e, Tree.child_join, Tree.child_opposite_join] at hr
  -- The sibling that is brought up, with a far side of the intended height.
  have key : ∃ x n y, (f.turned.paintChild f.side.opposite .black).paint f.color =
      .join f.side x f.color n y ∧ x.Balanced h ∧ y.Balanced (h + 1) ∧ y.color = .black := by
    unfold turned
    simp only [Frame.far, e, Tree.child_opposite_join]
    split
    · rename_i hf
      refine ⟨near, q, far.paint .black, by simp, hne, hfa.paint_black hf, ?_⟩
      exact Tree.color_paint _ (by rintro rfl; cases hf)
    · rename_i hf
      have hrn := hr.resolve_right hf
      obtain ⟨x, k, n, y, rfl⟩ := Tree.exists_join f.side (t := near) (by rintro rfl; cases hrn)
      rw [Tree.color_join] at hrn
      subst hrn
      obtain ⟨hx, hy, -, -⟩ := Tree.balanced_red_join.mp hne
      refine ⟨x, n, .join f.side y .black q far, by simp, hx, ?_, by simp⟩
      exact Tree.balanced_black_join.mpr ⟨h, rfl, hy, hfa⟩
  obtain ⟨x, n, y, hkey, hx, hy, by'⟩ := key
  unfold raised
  rw [hkey, Tree.rotate_join]
  refine ⟨?_, Tree.color_join _ _ _ _ _⟩
  have hlow : (Tree.join f.side t .black f.cell x).Balanced (h + 1) :=
    Tree.balanced_black_join.mpr ⟨h, rfl, ht, hx⟩
  cases hc : f.color with
  | red => simpa [rise, hc] using Tree.balanced_red_join.mpr ⟨hlow, hy, by simp, by'⟩
  | black => simpa [rise, hc] using Tree.balanced_black_join.mpr ⟨h + 1, rfl, hlow, hy⟩

/-- At a node with a black sibling the repair ends with the intended height, or the whole subtree
is short by one and has a black root. -/
theorem balanced_relieveBlack {f : Frame κ ν} {t : Tree κ ν} {h : Nat} (ht : t.Balanced h)
    (ho : f.other.Balanced (h + 1)) (bo : f.other.color = .black) :
    if (f.relieveBlack t).short then
      f.color = .black ∧ (f.relieveBlack t).tree.Balanced (h + 1) ∧
        (f.relieveBlack t).tree.color = .black
    else
      (f.relieveBlack t).tree.Balanced (h + 1 + f.rise) ∧
        ((f.relieveBlack t).tree.color = .red → f.color = .red) := by
  have hn : f.other ≠ .nil := ho.ne_nil ht.pos
  have hroot : f.other.root? ≠ none := by simpa using hn
  unfold relieveBlack
  rw [if_neg hroot]
  split
  · rename_i hr
    obtain ⟨hb, hc⟩ := balanced_raised ht ho bo hn hr
    exact ⟨hb, fun e => hc ▸ e⟩
  · rename_i hr
    obtain ⟨near, k, q, far, e⟩ := Tree.exists_join f.side hn
    rw [e, Tree.color_join] at bo
    subst bo
    rw [e] at ho
    obtain ⟨m, hm, hne, hfa⟩ := Tree.balanced_black_join.mp ho
    obtain rfl : h = m := by omega
    simp only [Frame.near, Frame.far, e, Tree.child_join, Tree.child_opposite_join, not_or] at hr
    have hred : (f.other.paint .red).Balanced h := by
      rw [e, Tree.paint_join]
      exact Tree.balanced_red_join.mpr ⟨hne, hfa, Color.eq_black hr.1, Color.eq_black hr.2⟩
    have hblack : (Tree.join f.side t .black f.cell (f.other.paint .red)).Balanced (h + 1) :=
      Tree.balanced_black_join.mpr ⟨h, rfl, ht, hred⟩
    split
    · rename_i hc
      exact ⟨by simpa [rise, hc] using hblack, fun e => by simp at e⟩
    · rename_i hc
      rw [Color.eq_black hc]
      exact ⟨rfl, hblack, Tree.color_join _ _ _ _ _⟩

theorem balanced_relieve {f : Frame κ ν} {t : Tree κ ν} {h : Nat} (ht : t.Balanced h)
    (ho : f.other.Balanced (h + 1))
    (hf : f.color = .red → f.other.color = .black) :
    if (f.relieve t).short then
      f.color = .black ∧ (f.relieve t).tree.Balanced (h + 1) ∧ (f.relieve t).tree.color = .black
    else
      (f.relieve t).tree.Balanced (h + 1 + f.rise) ∧
        ((f.relieve t).tree.color = .red → f.color = .red) := by
  cases hc : f.other.color with
  | black =>
    rw [relieve_of_black t hc]
    exact balanced_relieveBlack ht ho hc
  | red =>
    have hk : f.color = .black := Color.eq_black fun e => by rw [hf e] at hc; cases hc
    obtain ⟨near, k, q, far, e⟩ := Tree.exists_join f.side (ho.ne_nil ht.pos)
    rw [e, Tree.color_join] at hc
    subst hc
    rw [e] at ho
    obtain ⟨hne, hfa, bne, bfa⟩ := Tree.balanced_red_join.mp ho
    have hnear : f.near = near := by simp [Frame.near, e]
    have hfar : f.far = far := by simp [Frame.far, e]
    have hlow := balanced_relieveBlack (f := f.sunk) ht
      (by simpa [sunk, hnear] using hne) (by simpa [sunk, hnear] using bne)
    rw [relieve_of_red t e]
    simp only [Bool.false_eq_true, if_false]
    refine ⟨?_, fun e => by simp at e⟩
    split at hlow
    · cases hlow.1
    · have hbelow : (f.sunk.relieveBlack t).tree.Balanced (h + 1) := by
        simpa [rise, sunk] using hlow.1
      simpa [rise, hk] using Tree.balanced_black_join.mpr ⟨h + 1, rfl, hbelow, hfa⟩

theorem rotations_relieveBlack (f : Frame κ ν) (t : Tree κ ν) :
    (f.relieveBlack t).rotations = Record.turns (f.relieveBlack t).records := by
  have raised : f.raisedRecords.length = Record.turns f.raisedRecords := by
    unfold raisedRecords
    split
    · rfl
    · cases f.other.root? <;> rfl
  unfold relieveBlack
  split
  · rfl
  split
  · exact raised
  split <;> rfl

theorem rotations_relieve (f : Frame κ ν) (t : Tree κ ν) :
    (f.relieve t).rotations = Record.turns (f.relieve t).records := by
  unfold relieve
  split
  · exact f.rotations_relieveBlack t
  split
  · rw [f.sunk.rotations_relieveBlack t, Record.turns, Record.turns,
      List.countP_cons_of_pos (by rfl)]
  · exact f.rotations_relieveBlack t

/-- At a node with a black sibling the repair ends, or nothing is recorded. -/
theorem ending_relieveBlack {f : Frame κ ν} (t : Tree κ ν) (hn : f.other ≠ .nil)
    (sibling : Option NodeId) :
    if (f.relieveBlack t).short then
      (f.relieveBlack t).records = []
    else
      Repair.Ending f.cell.id
        ((sibling.map .redSibling).toList ++ (f.relieveBlack t).records) := by
  have raised (sibling : Option NodeId) :
      Repair.Ending f.cell.id ((sibling.map .redSibling).toList ++ f.raisedRecords) := by
    unfold raisedRecords
    split
    · simpa using Repair.Ending.rotated sibling none
    · rw [← List.append_assoc]
      exact .rotated sibling f.other.root?
  unfold relieveBlack
  rw [if_neg (mt Tree.root?_eq_none_iff.mp hn)]
  split
  · exact raised sibling
  split
  · exact .absorbed sibling
  · rfl

theorem ending_relieve {f : Frame κ ν} {t : Tree κ ν} {h : Nat} (ht : t.Balanced h)
    (ho : f.other.Balanced (h + 1)) :
    if (f.relieve t).short then
      (f.relieve t).records = []
    else
      Repair.Ending f.cell.id (f.relieve t).records := by
  cases hc : f.other.color with
  | black =>
    rw [relieve_of_black t hc]
    exact ending_relieveBlack t (ho.ne_nil ht.pos) none
  | red =>
    obtain ⟨near, k, q, far, e⟩ := Tree.exists_join f.side (ho.ne_nil ht.pos)
    rw [e, Tree.color_join] at hc
    subst hc
    rw [e] at ho
    obtain ⟨hne, -⟩ := Tree.balanced_red_join.mp ho
    have hnear : f.sunk.other = near := by simp [sunk, Frame.near, e]
    have ended := ending_relieveBlack (f := f.sunk) t
      (hnear ▸ hne.ne_nil ht.pos) (some q.id)
    rw [short_relieveBlack t rfl] at ended
    rw [relieve_of_red t e]
    exact ended

end Frame

namespace Path

variable {κ ν : Type}

theorem cells_refill (p : Path κ ν) (t : Tree κ ν) :
    (refill p t).tree.cells = (plug p t).cells := by
  fun_induction refill p t with
  | case1 => rfl
  | case2 f up t hs ih => exact ih.trans (cells_plug_congr up (f.cells_relieve t))
  | case3 f up t hs => exact cells_plug_congr up (f.cells_relieve t)

/-- What a frame that fits says of its other side and of the path above. -/
theorem fits_cons {f : Frame κ ν} {up : Path κ ν} {h H : Nat} (hp : Fits (f :: up) h H) :
    f.other.Balanced h ∧ (f.color = .red → f.other.color = .black ∧ roof up = .black) ∧
      Fits up (h + f.rise) H := by
  cases hp with
  | red hb bo above rest => exact ⟨hb, fun _ => ⟨bo, above⟩, by simpa [Frame.rise] using rest⟩
  | black hb rest => exact ⟨hb, fun e => (by cases e), by simpa [Frame.rise] using rest⟩

/-- The repair restores all rules, and the height shrinks by one exactly when the shortage has moved
past the root. -/
theorem refill_course {p : Path κ ν} {t : Tree κ ν} {h H : Nat} (hp : Fits p (h + 1) H)
    (ht : t.Balanced h) (bt : t.color = .black) :
    ∃ past H', (refill p t).tree.RedBlack H' ∧ H' + past.toNat = H ∧
      Repair.Course (p.map (·.cell.id)) (refill p t).records past := by
  fun_induction refill p t generalizing h with
  | case1 t =>
    cases hp
    exact ⟨true, h, ⟨bt, ht⟩, rfl, .past []⟩
  | case2 f up t hs ih =>
    obtain ⟨ho, hf, rest⟩ := fits_cons hp
    have hb := Frame.balanced_relieve ht ho fun e => (hf e).1
    rw [if_pos hs] at hb
    obtain ⟨hk, hb, hc⟩ := hb
    rw [Frame.rise, if_pos hk] at rest
    obtain ⟨past, H', hr, hH, course⟩ := ih rest hb hc
    refine ⟨past, H', hr, hH, ?_⟩
    have above : above? up = (up.map (·.cell.id)).head? := by cases up <;> rfl
    rw [Repair.movingUp, above]
    exact course.moveUp f.cell.id
  | case3 f up t hs =>
    obtain ⟨ho, hf, rest⟩ := fits_cons hp
    have hb := Frame.balanced_relieve ht ho fun e => (hf e).1
    have ended := Frame.ending_relieve ht ho
    rw [if_neg hs] at hb ended
    refine ⟨false, H, redBlack_plug.mpr ⟨_, rest, hb.1, fun above => ?_⟩, rfl, .ends [] _ _ ended⟩
    refine Color.eq_black fun e => ?_
    rw [(hf (hb.2 e)).2] at above
    cases above

/-- Every rotation of the repair is recorded. -/
theorem rotations_refill (p : Path κ ν) (t : Tree κ ν) :
    (refill p t).rotations = Record.turns (refill p t).records := by
  fun_induction refill p t with
  | case1 => rfl
  | case2 f up t hs ih =>
    have moved : Record.turns ((above? up).map Record.movedUp).toList = 0 := by
      cases up <;> rfl
    rw [Repair.movingUp, Record.turns_append, moved, Nat.zero_add]
    exact ih
  | case3 f up t hs => exact f.rotations_relieve t

end Path
end OrderedMap
