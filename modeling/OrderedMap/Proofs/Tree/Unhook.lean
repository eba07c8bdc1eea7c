import OrderedMap.Proofs.Tree.Refill

/-!
Taking a node out of a tree. A node with at most one child is unhooked directly. A node with two
children first trades places with its predecessor, the last node of its left subtree; the cells
change places, the colours stay where they are.
-/
namespace OrderedMap
namespace Path

variable {κ ν : Type}

/-- Put the only subtree of a node with the given colour into its place. -/
def unhook (p : Path κ ν) (k : Color) (t : Tree κ ν) : Repair κ ν :=
  if k = .red then
    ⟨plug p t, [], 0⟩
  else if t.color = .red then
    ⟨plug p (t.paint .black), [], 0⟩
  else
    refill p t

theorem cells_unhook (p : Path κ ν) (k : Color) (t : Tree κ ν) :
    (unhook p k t).tree.cells = (plug p t).cells := by
  unfold unhook
  split
  · rfl
  split
  · exact cells_plug_congr p (Tree.cells_paint _ _)
  · exact cells_refill p t

theorem rotations_unhook (p : Path κ ν) (k : Color) (t : Tree κ ν) :
    (unhook p k t).rotations = Record.turns (unhook p k t).records := by
  unfold unhook
  split
  · rfl
  split
  · rfl
  · exact rotations_refill p t

/-- If the node or its subtree is red, nothing has to be repaired. -/
theorem unhook_course {p : Path κ ν} {s : Side} {k : Color} {c : Cell κ ν} {t : Tree κ ν}
    {H : Nat} (ht : (plug p (.join s t k c .nil)).RedBlack H) :
    ∃ past H', (unhook p k t).tree.RedBlack H' ∧ H' + past.toNat = H ∧
      (k = .red ∨ t.color = .red → (unhook p k t).records = [] ∧ past = false) ∧
      (¬(k = .red ∨ t.color = .red) →
        Repair.Course (p.map (·.cell.id)) (unhook p k t).records past) := by
  obtain ⟨h, hp, hb, hc⟩ := redBlack_plug.mp ht
  cases k with
  | red =>
    obtain ⟨hb, -, bt, -⟩ := Tree.balanced_red_join.mp hb
    exact ⟨false, H, redBlack_plug.mpr ⟨h, hp, hb, fun _ => bt⟩, rfl, fun _ => ⟨rfl, rfl⟩,
      fun hn => absurd (.inl rfl) hn⟩
  | black =>
    obtain ⟨m, rfl, hb, -⟩ := Tree.balanced_black_join.mp hb
    by_cases hr : t.color = .red
    · have hn : t ≠ .nil := by rintro rfl; cases hr
      have spared : unhook p .black t = ⟨plug p (t.paint .black), [], 0⟩ := by simp [unhook, hr]
      rw [spared]
      exact ⟨false, H, redBlack_plug.mpr ⟨m + 1, hp, hb.paint_black hr, fun _ =>
        Tree.color_paint _ hn⟩, rfl, fun _ => ⟨rfl, rfl⟩, fun hn => absurd (.inr hr) hn⟩
    · obtain ⟨past, H', hr', hH, course⟩ := refill_course hp hb (Color.eq_black hr)
      have repaired : unhook p .black t = refill p t := by simp [unhook, hr]
      rw [repaired]
      exact ⟨past, H', hr', hH, fun h => absurd h (by simp [hr]), fun _ => course⟩

theorem roof_append_cons (q p : Path κ ν) (s : Side) (k : Color) (c d : Cell κ ν)
    (r : Tree κ ν) : roof (q ++ ⟨s, k, c, r⟩ :: p) = roof (q ++ ⟨s, k, d, r⟩ :: p) := by
  cases q <;> rfl

/-- The rules do not depend on which cell stands where. -/
theorem fits_append_cons {q p : Path κ ν} {s : Side} {k : Color} {c : Cell κ ν} (d : Cell κ ν)
    {r : Tree κ ν} {h H : Nat} (hp : Fits (q ++ ⟨s, k, c, r⟩ :: p) h H) :
    Fits (q ++ ⟨s, k, d, r⟩ :: p) h H := by
  induction q generalizing h with
  | nil =>
    cases hp with
    | red hb bo above rest => exact .red hb bo above rest
    | black hb rest => exact .black hb rest
  | cons f q ih =>
    cases hp with
    | red hb bo above rest =>
      exact .red hb bo ((roof_append_cons q p s k d c r).trans above) (ih rest)
    | black hb rest => exact .black hb (ih rest)

/-- The cells may be exchanged below and at a node, as the rules look at colours alone. -/
theorem exchanged_redBlack {q p : Path κ ν} {u r : Tree κ ν} {k k' : Color}
    {c d : Cell κ ν} {H : Nat}
    (ht : (plug p (.node (plug q (.node u k' d .nil)) k c r)).RedBlack H) :
    (plug (q ++ ⟨.left, k, d, r⟩ :: p) (.node u k' c .nil)).RedBlack H := by
  have he : plug p (.node (plug q (.node u k' d .nil)) k c r) =
      plug (q ++ ⟨.left, k, c, r⟩ :: p) (.node u k' d .nil) := by rw [plug_append]; rfl
  rw [he] at ht
  obtain ⟨h, hp, hb, hc⟩ := redBlack_plug.mp (redBlack_plug_cell ht c)
  refine redBlack_plug.mpr ⟨h, fits_append_cons d hp, hb, ?_⟩
  rw [roof_append_cons q p .left k d c r]
  exact hc

/-- The last node of a tree on one side is met at the end of a path that keeps to that side. -/
theorem exists_outermost (s : Side) {t : Tree κ ν} (h : t ≠ .nil) :
    ∃ q k c u, t = plug q (.join s .nil k c u) ∧ ∀ f ∈ q, f.side = s := by
  induction t with
  | nil => exact absurd rfl h
  | node l k c r ihl ihr =>
    obtain ⟨near, k, c, far, e⟩ := Tree.exists_join s h
    have ih : near ≠ .nil →
        ∃ q k c u, near = plug q (.join s .nil k c u) ∧ ∀ f ∈ q, f.side = s := by
      cases s <;> cases e
      · exact ihl
      · exact ihr
    by_cases hn : near = .nil
    · exact ⟨[], k, c, far, by rw [e, hn]; rfl, fun f hf => by cases hf⟩
    · obtain ⟨q, k', c', u, hq, hs⟩ := ih hn
      refine ⟨q ++ [⟨s, k, c, far⟩], k', c', u, by rw [e, hq, plug_append]; rfl, fun f hf => ?_⟩
      rcases List.mem_append.mp hf with hf | hf
      · exact hs f hf
      · rw [List.mem_singleton.mp hf]

theorem beyond_eq_nil {s : Side} {q : Path κ ν} (h : ∀ f ∈ q, f.side = s) : beyond s q = [] := by
  induction q with
  | nil => rfl
  | cons f q ih =>
    rw [beyond, if_pos (h f (by simp))]
    exact ih fun g hg => h g (by simp [hg])

/-- The predecessor of a node with a left side is the last node there. -/
theorem exists_last {t : Tree κ ν} (h : t ≠ .nil) : ∃ q k d u,
    t = plug q (.node u k d .nil) ∧ t.cells = (plug q u).cells ++ [d] := by
  obtain ⟨q, k, d, u, rfl, hs⟩ := exists_outermost .right h
  refine ⟨q, k, d, u, rfl, ?_⟩
  rw [cells_plug, cells_plug, beyond_eq_nil hs]
  simp [Tree.join, Tree.cells]

end Path
end OrderedMap
