import OrderedMap.Map.Placement
import OrderedMap.Proofs.Arena.Ascent
import OrderedMap.Proofs.Map.Setting

/-!
The repair after an insertion carries out on the arena what `Path.settle` does on trees. Every pass
of its loop uses up two steps of the path to the red node.
-/
namespace OrderedMap
namespace Map

open OrderedMap.Path (straighten straightenRecords)

variable {κ ν α : Type} {w : Workspace κ ν} {up : Path κ ν} {f g : Frame κ ν} {t : Tree κ ν}
  {n : NodeId}

/-- The zig-zag below a grandparent is straightened, if there is one. -/
theorem yields_straightenInner (h : w.map.arena.Plants (Path.plug (f :: g :: up) t))
    (hn : t.root? = some n) (hs : f.side ≠ g.side) :
    Yields (rotate g.side f.cell.id) w fun _ w' => Repaired w w'
      ⟨Path.plug (g :: up) ((Tree.join f.side t f.color f.cell f.other).rotate g.side), [], 1⟩ := by
  obtain ⟨fs, fk, fc, fo⟩ := f
  obtain rfl : fs = g.side.opposite := (Side.eq_or_eq_opposite g.side fs).resolve_left hs
  obtain ⟨x, k, c, y, rfl⟩ := Tree.exists_join g.side (t := t) (by rintro rfl; cases hn)
  simp only [Tree.join_opposite, Tree.rotate_join]
  rw [Path.plug_cons] at h
  simp only [Tree.join_opposite] at h
  exact yields_rotate (p := g :: up) h

/-- The rotation of the grandparent, and the colours after it. -/
theorem yields_straightenOuter {x y : Tree κ ν} {k : Color} {c : Cell κ ν}
    (h : w.map.arena.Plants (Path.plug (g :: up) (.join g.side x k c y))) :
    Yields (do
      rotate g.side.opposite g.cell.id
      paint c.id .black
      paint g.cell.id .red) w fun _ w' => Repaired w w'
        ⟨up.plug (.join g.side x .black c (.join g.side y .red g.cell g.other)), [], 1⟩ := by
  rw [Path.plug_cons, ← Tree.join_opposite, ← Tree.join_opposite g.side y k c x] at h
  rw [yields_bind]
  apply (yields_rotate h).mono
  intro _ w₁ r₁
  rw [yields_bind]
  refine (yields_paint r₁.plants (Tree.root?_join ..) .black).mono ?_
  intro _ w₂ r₂
  have hb := r₂.plants
  simp only [Tree.paint_join, Tree.join_opposite] at hb
  rw [← Tree.join_opposite] at hb
  refine (yields_paint (p := ⟨g.side.opposite, .black, c, x⟩ :: up) hb
    (Tree.root?_join ..) .red).mono ?_
  intro _ w₃ r₃
  simpa [Tree.join_opposite] using (r₁.trans r₂).trans r₃

theorem yields_settleByRotation (h : w.map.arena.Plants (Path.plug (f :: g :: up) t))
    (hn : t.root? = some n) :
    Yields (settleByRotation n f.cell.id g.cell.id g.side) w fun _ w' => Repaired w w'
      ⟨up.plug (straighten f g t), straightenRecords f g, (straightenRecords f g).length⟩ := by
  obtain ⟨r, hr, hs⟩ := h.child_above hn g.side.opposite
  unfold settleByRotation
  rw [yields_bind, yields_look hr]
  by_cases e : f.side = g.side
  · have inner : ¬ r = some n := fun e' => Side.opposite_ne g.side ((hs.mp e').symm.trans e)
    simp only [inner, decide_false, Bool.false_eq_true, if_false]
    rw [yields_bind]
    apply (yields_record_repaired h _).mono
    intro _ w₁ r₁
    have hb := r₁.plants
    rw [Path.plug_cons, e] at hb
    apply (yields_straightenOuter hb).mono
    intro _ w₂ r₂
    simpa [straighten, straightenRecords, e] using r₁.trans r₂
  · have inner : r = some n := hs.mpr ((Side.eq_or_eq_opposite g.side f.side).resolve_left e)
    obtain ⟨x, k, c, y, rfl⟩ := Tree.exists_join g.side (t := t) (by rintro rfl; cases hn)
    obtain rfl : c.id = n := by simpa using hn
    simp only [inner, decide_true, if_true]
    rw [yields_bind]
    apply (yields_record_repaired h _).mono
    intro _ w₁ r₁
    rw [yields_bind]
    refine (yields_straightenInner r₁.plants (Tree.root?_join ..) e).mono ?_
    intro _ w₂ r₂
    have opp := (Side.eq_or_eq_opposite g.side f.side).resolve_left e
    simp only [opp, Tree.join_opposite, Tree.rotate_join] at r₂
    rw [yields_bind]
    apply (yields_record_repaired r₂.plants _).mono
    intro _ w₃ r₃
    apply (yields_straightenOuter r₃.plants).mono
    intro _ w₄ r₄
    simpa [straighten, straightenRecords, opp, Tree.join_opposite] using
      ((r₁.trans r₂).trans r₃).trans r₄

/-- Below a black parent nothing is to be repaired. -/
theorem yields_settleFrom_black {fuel : Nat} (h : w.map.arena.Plants (Path.plug (f :: up) t))
    (hn : t.root? = some n) (hk : f.color ≠ .red) :
    Yields (settleFrom (fuel + 1) n) w fun _ w' =>
      Repaired w w' ⟨Path.plug (f :: up) t, [], 0⟩ := by
  have hp : w.map.arena.Plants (up.plug (.join f.side t f.color f.cell f.other)) := h
  rw [settleFrom, yields_bind, yields_look (h.parent hn)]
  simp only [Path.above?_cons]
  rw [yields_bind, yields_look (hp.color (Tree.root?_join ..)), Tree.color_join, if_neg hk]
  exact yields_pure.mpr (.refl h)

/-- With a red uncle the redness moves up to the grandparent. -/
theorem yields_recolor {u : NodeId} {next : MapM κ ν α} {post : α → Workspace κ ν → Prop}
    (h : w.map.arena.Plants (Path.plug (f :: g :: up) t)) (hu : g.other.root? = some u)
    (hnext : ∀ w', Repaired w w' ⟨up.plug (.join g.side (.join f.side t .black f.cell f.other) .red
      g.cell (g.other.paint .black)), [.recolored g.cell.id], 0⟩ → Yields next w' post) :
    Yields (do
      record (.recolored g.cell.id)
      paint f.cell.id .black
      paint u .black
      paint g.cell.id .red
      next) w post := by
  rw [yields_bind]
  apply (yields_record_repaired h _).mono
  intro _ w₁ r₁
  rw [yields_bind]
  refine (yields_paint (p := g :: up) r₁.plants (Tree.root?_join ..) .black).mono ?_
  intro _ w₂ r₂
  have hb := r₂.plants
  simp only [Tree.paint_join] at hb
  rw [Path.plug_across] at hb
  rw [yields_bind]
  apply (yields_paint hb hu .black).mono
  intro _ w₃ r₃
  have hb := r₃.plants
  simp only [Path.plug_cons, Tree.join_opposite] at hb
  rw [yields_bind]
  refine (yields_paint hb (Tree.root?_join ..) .red).mono ?_
  intro _ w₄ r₄
  exact hnext w₄ (by simpa using ((r₁.trans r₂).trans r₃).trans r₄)

/-- With a red parent below a grandparent the next pass depends on the uncle. -/
theorem yields_settleFrom_red {fuel : Nat} {post : Unit → Workspace κ ν → Prop}
    (h : w.map.arena.Plants (Path.plug (f :: g :: up) t)) (hn : t.root? = some n)
    (hk : f.color = .red) : Yields (settleFrom (fuel + 1) n) w post ↔
      Yields (match g.other.root? with
        | some u =>
          if g.other.color = .red then do
            record (.recolored g.cell.id)
            paint f.cell.id .black
            paint u .black
            paint g.cell.id .red
            settleFrom fuel g.cell.id
          else
            settleByRotation n f.cell.id g.cell.id g.side
        | none => settleByRotation n f.cell.id g.cell.id g.side) w post := by
  have hp : w.map.arena.Plants (Path.plug (g :: up) (.join f.side t f.color f.cell f.other)) := h
  have hroot := Tree.root?_join f.side t f.color f.cell f.other
  have hg : w.map.arena.child g.side.opposite g.cell.id = _ :=
    Arena.Plants.child (p := up) hp (Tree.root?_join ..) g.side.opposite
  rw [settleFrom, yields_bind, yields_look (h.parent hn)]
  simp only [Path.above?_cons]
  rw [yields_bind, yields_look (hp.color hroot), Tree.color_join, if_pos hk, yields_bind,
    yields_look (hp.parent hroot), yields_bind, yields_look (hp.hangingSide hroot)]
  simp only [Path.above?_cons, List.head?_cons, Option.map_some]
  rw [yields_bind, yields_look hg, Tree.child_opposite_join]
  cases hu : g.other.root? with
  | none => exact .rfl
  | some u =>
    rw [Path.plug_across] at hp
    simp only
    rw [yields_bind, yields_look (hp.color hu)]

theorem yields_settleFrom {p : Path κ ν} {fuel : Nat} (h : w.map.arena.Plants (p.plug t))
    (hn : t.root? = some n) (hf : p.length < fuel) :
    Yields (settleFrom fuel n) w fun _ w' => Repaired w w' (Path.settle p t) := by
  obtain ⟨fuel, rfl⟩ := Nat.exists_eq_add_of_lt hf
  fun_induction Path.settle p t generalizing w n fuel with
  | case1 t =>
    rw [settleFrom, yields_bind, yields_look (h.parent hn)]
    exact yields_paint h hn .black
  | case2 f t hk =>
    have hp : w.map.arena.Plants (Path.plug [] (.join f.side t f.color f.cell f.other)) := h
    have hroot := Tree.root?_join f.side t f.color f.cell f.other
    rw [settleFrom, yields_bind, yields_look (h.parent hn)]
    simp only [Path.above?_cons]
    rw [yields_bind, yields_look (hp.color hroot), Tree.color_join, if_pos hk, yields_bind,
      yields_look (hp.parent hroot), yields_bind, yields_look (hp.hangingSide hroot)]
    simpa using yields_paint hp hroot .black
  | case3 f t hk => exact yields_settleFrom_black h hn hk
  | case4 f g up t hk hg ih =>
    rw [yields_settleFrom_red h hn hk]
    cases hu : g.other.root? with
    | none =>
      rw [Tree.root?_eq_none_iff.mp hu] at hg
      cases hg
    | some u =>
      simp only [hg, if_true]
      refine yields_recolor h hu fun w₁ r₁ => ?_
      have hfuel : (f :: g :: up).length + fuel = up.length + (fuel + 1) + 1 := by simp; omega
      rw [hfuel]
      refine (ih r₁.plants (Tree.root?_join ..) (fuel + 1) (by omega)).mono ?_
      intro _ w₂ r₂
      simpa [Repair.noting] using r₁.trans r₂
  | case5 f g up t hk hg =>
    rw [yields_settleFrom_red h hn hk]
    cases hu : g.other.root? with
    | none => exact yields_settleByRotation h hn
    | some u =>
      simp only [hg, if_false]
      exact yields_settleByRotation h hn
  | case6 f g up t hk => exact yields_settleFrom_black h hn hk

theorem yields_settle {p : Path κ ν} (h : w.map.arena.Plants (p.plug t)) (hn : t.root? = some n) :
    Yields (settle n) w fun _ w' => Repaired w w' (Path.settle p t) := by
  unfold settle
  rw [yields_bind, yields_look_pure]
  exact yields_settleFrom h hn (h.hangs.path_lt_rounds hn)

end Map
end OrderedMap
