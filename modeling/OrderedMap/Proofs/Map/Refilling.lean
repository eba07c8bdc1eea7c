import OrderedMap.Map.Extraction
import OrderedMap.Proofs.Map.Setting
import OrderedMap.Proofs.Tree.Unhook

/-!
The repair after a removal carries out on the arena what `Path.refill` does on trees. Every pass of
its loop either ends the repair or uses up one step of the path to the short subtree.
-/
namespace OrderedMap
namespace Map

variable {κ ν α : Type} {w : Workspace κ ν} {up : Path κ ν} {f : Frame κ ν} {t : Tree κ ν}
  {ts : List (Tree κ ν)}

/-- The rotation that ends a repair, with its colours. -/
theorem yields_raise {x y : Tree κ ν} {k : Color} {q : Cell κ ν}
    (h : w.map.arena.Plants (up.plug (.join f.side t f.color f.cell (.join f.side x k q y))) ts) :
    Yields (do
      record (.terminalRotation f.cell.id)
      paint q.id (← look (·.color f.cell.id))
      paint f.cell.id .black
      if let some c ← look (·.child f.side.opposite q.id) then
        paint c .black
      rotate f.side f.cell.id) w fun _ w' => Repaired w w'
        ⟨up.plug (.rotate f.side (.join f.side t .black f.cell
          (.join f.side x f.color q (y.paint .black)))), [.terminalRotation f.cell.id], 1⟩ ts := by
  rw [yields_bind]
  apply (yields_record_repaired h _).mono
  intro _ w₁ r₁
  rw [yields_bind, yields_look (r₁.plants.color (Tree.root?_join ..)), Tree.color_join, yields_bind]
  have hb := r₁.plants
  rw [← Tree.join_opposite] at hb
  refine (yields_paint (p := ⟨f.side.opposite, f.color, f.cell, t⟩ :: up) hb
    (Tree.root?_join ..) f.color).mono ?_
  intro _ w₂ r₂
  have hb := r₂.plants
  rw [Path.plug_cons, Tree.join_opposite] at hb
  rw [yields_bind]
  refine (yields_paint hb (Tree.root?_join ..) .black).mono ?_
  intro _ w₃ r₃
  have hb := r₃.plants
  simp only [Tree.paint_join] at hb
  rw [← Tree.join_opposite] at hb
  rw [yields_bind, yields_look (Arena.Plants.child (p := ⟨f.side.opposite, .black, f.cell, t⟩ :: up)
    hb (Tree.root?_join ..) f.side.opposite), Tree.child_opposite_join]
  rw [Tree.join_opposite] at hb
  have finish : ∀ w₄, Repaired w₃ w₄ ⟨up.plug (.join f.side t .black f.cell
      (.join f.side x f.color q (y.paint .black))), [], 0⟩ ts →
      Yields (rotate f.side f.cell.id) w₄ fun _ w' => Repaired w w'
        ⟨up.plug (.rotate f.side (.join f.side t .black f.cell
          (.join f.side x f.color q (y.paint .black)))), [.terminalRotation f.cell.id], 1⟩ ts := by
    intro w₄ r₄
    apply (yields_rotate r₄.plants).mono
    intro _ w₅ r₅
    simpa using (((r₁.trans r₂).trans r₃).trans r₄).trans r₅
  cases hy : y.root? with
  | none =>
    obtain rfl := Tree.root?_eq_none_iff.mp hy
    exact finish w₃ (.refl hb)
  | some c =>
    have hc : w₃.map.arena.Plants (Path.plug (⟨f.side.opposite, f.color, q, x⟩ ::
        ⟨f.side.opposite, .black, f.cell, t⟩ :: up) y) ts := by
      simpa [Tree.join_opposite] using hb
    simp only
    rw [yields_bind]
    apply (yields_paint hc hy .black).mono
    intro _ w₄ r₄
    exact finish w₄ (by simpa [Tree.join_opposite] using r₄)

/-- The nephews of a short side, seen from themselves. -/
theorem plug_nephews (up : Path κ ν) (t : Tree κ ν) {near far : Tree κ ν} {k : Color}
    {q : Cell κ ν} (e : f.other = .join f.side near k q far) :
    Path.plug (f :: up) t =
        Path.plug (⟨f.side, k, q, far⟩ :: ⟨f.side.opposite, f.color, f.cell, t⟩ :: up) near ∧
      Path.plug (f :: up) t = Path.plug (⟨f.side.opposite, k, q, near⟩ ::
        ⟨f.side.opposite, f.color, f.cell, t⟩ :: up) far := by
  simp [e, Tree.join_opposite]

theorem yields_refillByRotation {n : NodeId} (h : w.map.arena.Plants (Path.plug (f :: up) t) ts)
    (hn : f.other.root? = some n) (hr : f.near.color = .red ∨ f.far.color = .red) :
    Yields (refillByRotation f.cell.id n f.side f.near.root? f.far.root?) w fun _ w' =>
      Repaired w w' ⟨up.plug (f.raised t), f.raisedRecords, f.raisedRecords.length⟩ ts := by
  obtain ⟨near, k, q, far, e⟩ := Tree.exists_join f.side (t := f.other)
    (by intro e; rw [e] at hn; cases hn)
  obtain rfl : q.id = n := by simpa [e] using hn
  obtain ⟨hnear, hfar⟩ := plug_nephews up t e
  have en : f.near = near := by simp [Frame.near, e]
  have ef : f.far = far := by simp [Frame.far, e]
  rw [en, ef] at hr
  have hb := h
  rw [hfar] at hb
  unfold refillByRotation
  rw [en, ef, yields_bind, yields_look hb.isRed]
  by_cases hf : far.color = .red
  · simp only [hf, decide_true, if_true, pure_bind]
    rw [hfar] at h
    rw [Path.plug_cons, Path.plug_cons, Tree.join_opposite, Tree.join_opposite] at h
    apply (yields_raise h).mono
    intro _ w₁ r₁
    simpa [Frame.raised, Frame.raisedRecords, Frame.turned, ef, hf, e] using r₁
  · have hnr := hr.resolve_right hf
    obtain ⟨x, k', n, y, rfl⟩ := Tree.exists_join f.side (t := near)
      (by rintro rfl; cases hnr)
    simp only [hf, decide_false, Bool.false_eq_true, if_false, Tree.root?_join, pure_bind]
    rw [yields_bind]
    apply (yields_record_repaired h _).mono
    intro _ w₁ r₁
    have hb := r₁.plants
    rw [hnear] at hb
    rw [yields_bind]
    refine (yields_paint hb (Tree.root?_join ..) .black).mono ?_
    intro _ w₂ r₂
    have hb := r₂.plants
    rw [Path.plug_cons, Tree.paint_join] at hb
    rw [yields_bind]
    refine (yields_paint hb (Tree.root?_join ..) .red).mono ?_
    intro _ w₃ r₃
    have hb := r₃.plants
    rw [Tree.paint_join, ← Tree.join_opposite, ← Tree.join_opposite f.side y] at hb
    rw [yields_bind]
    apply (yields_rotate hb).mono
    intro _ w₄ r₄
    have hb := r₄.plants
    rw [Path.plug_cons, Tree.join_opposite, Tree.join_opposite, Tree.join_opposite] at hb
    apply (yields_raise hb).mono
    intro _ w₅ r₅
    simpa [Frame.raised, Frame.raisedRecords, Frame.turned, ef, hf, e] using
      (((r₁.trans r₂).trans r₃).trans r₄).trans r₅

/-- The sibling turns red, and what was missing is absorbed by a red parent or missed above it,
where `again` is what is done there. -/
def passOn (again : NodeId → Side → MapM κ ν Unit) (parent sibling : NodeId) : MapM κ ν Unit := do
  paint sibling .red
  if (← look (·.color parent)) = .red then
    record (.absorbed parent)
    paint parent .black
  else
    let grand ← look (·.parent parent)
    let above ← look (·.hangingSide parent)
    match grand, above with
    | some grand, some above =>
      record (.movedUp grand)
      again grand above
    | _, _ => pure ()

/-- A pass of the repair once the sibling of the short side is known. -/
def refillBlack (again : NodeId → Side → MapM κ ν Unit) (parent : NodeId) (side : Side)
    (sibling : NodeId) : MapM κ ν Unit := do
  let near ← look (·.child side sibling)
  let far ← look (·.child side.opposite sibling)
  let redNephew ← if ← look (·.isRed near) then pure true else look (·.isRed far)
  if redNephew then
    refillByRotation parent sibling side near far
  else
    passOn again parent sibling

theorem refillFrom_succ (fuel : Nat) (parent : NodeId) (side : Side) :
    (refillFrom (fuel + 1) parent side : MapM κ ν Unit) = (do
      match ← blackSibling? parent side with
      | none => pure ()
      | some sibling => refillBlack (refillFrom fuel) parent side sibling) := by
  rw [refillFrom]
  rfl

/-- With black nephews the shortage is absorbed by a red parent, or moves up. -/
theorem yields_passOn {n : NodeId} {again : NodeId → Side → MapM κ ν Unit}
    (h : w.map.arena.Plants (Path.plug (f :: up) t) ts)
    (hn : f.other.root? = some n) (hb : ¬ (f.near.color = .red ∨ f.far.color = .red))
    (next : f.color ≠ .red → ∀ g rest, up = g :: rest →
      ∀ w₁ u, w₁.map.arena.Plants (up.plug u) ts → Yields (again g.cell.id g.side) w₁
        fun _ w' => Repaired w₁ w' (up.refill u) ts) :
    Yields (passOn again f.cell.id n) w fun _ w' =>
      Repaired w w' (Relief.above (f.relieveBlack t) up) ts := by
  unfold passOn
  rw [Path.plug_across] at h
  rw [yields_bind]
  apply (yields_paint h hn .red).mono
  intro _ w₁ r₁
  have h₁ := r₁.plants
  rw [Path.plug_cons, Tree.join_opposite] at h₁
  have hroot := Tree.root?_join f.side t f.color f.cell (f.other.paint .red)
  rw [yields_bind, yields_look (h₁.color hroot), Tree.color_join]
  by_cases hk : f.color = .red
  · rw [if_pos hk, yields_bind]
    apply (yields_record_repaired h₁ _).mono
    intro _ w₂ r₂
    apply (yields_paint r₂.plants hroot .black).mono
    intro _ w₃ r₃
    simpa [Frame.relieveBlack, hn, hb, hk, Relief.above] using (r₁.trans r₂).trans r₃
  · rw [if_neg hk, yields_bind, yields_look (h₁.parent hroot), yields_bind,
      yields_look (h₁.hangingSide hroot)]
    cases up with
    | nil =>
      refine yields_pure.mpr ?_
      simpa [Frame.relieveBlack, hn, hb, hk, Relief.above, Path.refill, Repair.movingUp,
        Tree.join_opposite] using r₁
    | cons g rest =>
      simp only [Path.above?_cons, List.head?_cons, Option.map_some]
      rw [yields_bind]
      apply (yields_record_repaired h₁ _).mono
      intro _ w₂ r₂
      apply (next hk g rest rfl w₂ _ r₂.plants).mono
      intro _ w₃ r₃
      simpa [Frame.relieveBlack, hn, hb, hk, Relief.above, Repair.movingUp] using
        (r₁.trans r₂).trans r₃

theorem yields_refillBlack {n : NodeId} {again : NodeId → Side → MapM κ ν Unit}
    (h : w.map.arena.Plants (Path.plug (f :: up) t) ts) (hn : f.other.root? = some n)
    (next : f.color ≠ .red → ∀ g rest, up = g :: rest →
      ∀ w₁ u, w₁.map.arena.Plants (up.plug u) ts → Yields (again g.cell.id g.side) w₁
        fun _ w' => Repaired w₁ w' (up.refill u) ts) :
    Yields (refillBlack again f.cell.id f.side n) w fun _ w' =>
      Repaired w w' (Relief.above (f.relieveBlack t) up) ts := by
  obtain ⟨near, k, q, far, e⟩ := Tree.exists_join f.side (t := f.other)
    (by intro e; rw [e] at hn; cases hn)
  obtain ⟨hnear, hfar⟩ := plug_nephews up t e
  have en : f.near = near := by simp [Frame.near, e]
  have ef : f.far = far := by simp [Frame.far, e]
  have hs := h
  rw [Path.plug_across] at hs
  have redNear := h
  rw [hnear, ← en] at redNear
  have redFar := h
  rw [hfar, ← ef] at redFar
  unfold refillBlack
  rw [yields_bind, yields_look (hs.child hn f.side), yields_bind,
    yields_look (hs.child hn f.side.opposite), yields_bind, yields_look redNear.isRed]
  have byRotation (hr : f.near.color = .red ∨ f.far.color = .red) :
      Yields (refillByRotation f.cell.id n f.side f.near.root? f.far.root?) w fun _ w' =>
        Repaired w w' (Relief.above (f.relieveBlack t) up) ts := by
    apply (yields_refillByRotation h hn hr).mono
    intro _ w' r
    simpa [Frame.relieveBlack, hn, hr, Relief.above] using r
  by_cases hn' : f.near.color = .red
  · simp only [hn', decide_true, if_true, pure_bind]
    exact byRotation (.inl hn')
  · simp only [hn', decide_false, Bool.false_eq_true, if_false]
    rw [yields_bind]
    refine (yields_look redFar.isRed).mpr ?_
    by_cases hf : f.far.color = .red
    · simp only [hf, decide_true, if_true]
      exact byRotation (.inr hf)
    · simp only [hf, decide_false, Bool.false_eq_true, if_false]
      exact yields_passOn h hn (by simp [hn', hf]) next

/-- A black sibling stays, and so does a missing one. -/
theorem yields_blackSibling_of_black (h : w.map.arena.Plants (Path.plug (f :: up) t) ts)
    (hk : f.other.color = .black) {post : Option NodeId → Workspace κ ν → Prop} :
    Yields (blackSibling? f.cell.id f.side) w post ↔ post f.other.root? w := by
  have hp : w.map.arena.Plants (up.plug (.join f.side t f.color f.cell f.other)) ts := h
  unfold blackSibling?
  rw [yields_bind, yields_look (hp.child (Tree.root?_join ..) f.side.opposite),
    Tree.child_opposite_join]
  cases hn : f.other.root? with
  | none => exact yields_pure
  | some n =>
    rw [Path.plug_across] at h
    simp only
    rw [yields_bind, yields_look (h.color hn), hk]
    exact yields_pure

/-- A red sibling is rotated up, which leaves a black one or none. -/
theorem yields_blackSibling_of_red {near far : Tree κ ν} {q : Cell κ ν}
    (h : w.map.arena.Plants (Path.plug (f :: up) t) ts)
    (e : f.other = .join f.side near .red q far) :
    Yields (blackSibling? f.cell.id f.side) w fun r w' => r = near.root? ∧ Repaired w w'
      ⟨Path.plug (f.sunk :: ⟨f.side, .black, q, far⟩ :: up) t, [.redSibling q.id], 1⟩ ts := by
  have hp : w.map.arena.Plants (up.plug (.join f.side t f.color f.cell f.other)) ts := h
  have hn : f.other.root? = some q.id := by simp [e]
  have hk : f.other.color = .red := by simp [e]
  have en : f.near = near := by simp [Frame.near, e]
  unfold blackSibling?
  rw [yields_bind, yields_look (hp.child (Tree.root?_join ..) f.side.opposite),
    Tree.child_opposite_join]
  simp only [hn]
  rw [Path.plug_across] at h
  rw [yields_bind, yields_look (h.color hn), if_pos hk, yields_bind]
  apply (yields_record_repaired h _).mono
  intro _ w₁ r₁
  rw [yields_bind]
  apply (yields_paint r₁.plants hn .black).mono
  intro _ w₂ r₂
  have h₂ := r₂.plants
  rw [Path.plug_cons, Tree.join_opposite, e, Tree.paint_join] at h₂
  rw [yields_bind]
  refine (yields_paint h₂ (Tree.root?_join ..) .red).mono ?_
  intro _ w₃ r₃
  have h₃ := r₃.plants
  rw [Tree.paint_join] at h₃
  rw [yields_bind]
  apply (yields_rotate h₃).mono
  intro _ w₄ r₄
  have h₄ : w₄.map.arena.Plants (Path.plug (⟨f.side, .black, q, far⟩ :: up)
      (.join f.side t .red f.cell near)) ts := r₄.plants
  refine (yields_look (h₄.child (Tree.root?_join ..) f.side.opposite)).mpr ⟨by simp, ?_⟩
  simpa [Frame.sunk, en] using ((r₁.trans r₂).trans r₃).trans r₄

theorem yields_refillFrom_cons {fuel : Nat} (h : w.map.arena.Plants (Path.plug (f :: up) t) ts)
    (again : ∀ g rest, up = g :: rest → ∀ w₁ u, w₁.map.arena.Plants (up.plug u) ts →
      Yields (refillFrom fuel g.cell.id g.side) w₁ fun _ w' => Repaired w₁ w' (up.refill u) ts) :
    Yields (refillFrom (fuel + 1) f.cell.id f.side) w fun _ w' =>
      Repaired w w' (Path.refill (f :: up) t) ts := by
  rw [refillFrom_succ, yields_bind, Path.refill_cons]
  cases hk : f.other.color with
  | black =>
    rw [yields_blackSibling_of_black h hk, Frame.relieve_of_black t hk]
    cases hn : f.other.root? with
    | none =>
      refine yields_pure.mpr ?_
      simpa [Frame.relieveBlack, hn, Relief.above] using Repaired.refl h
    | some n => exact yields_refillBlack h hn fun _ => again
  | red =>
    obtain ⟨near, k, q, far, e⟩ := Tree.exists_join f.side (t := f.other)
      (by intro e; rw [e] at hk; cases hk)
    rw [e, Tree.color_join] at hk
    subst hk
    apply (yields_blackSibling_of_red h e).mono
    rintro - w₁ ⟨rfl, r₁⟩
    have hs : f.sunk.other = near := by simp [Frame.sunk, Frame.near, e]
    have hshort := Frame.short_relieveBlack (f := f.sunk) t rfl
    rw [Frame.relieve_of_red t e]
    cases hn : near.root? with
    | none =>
      refine yields_pure.mpr ?_
      simpa [Frame.relieveBlack, hs, hn, Relief.above] using r₁
    | some n =>
      apply (yields_refillBlack r₁.plants (hs ▸ hn) fun hred => absurd rfl hred).mono
      intro _ w₂ r₂
      simpa [Relief.above, hshort, Nat.add_comm] using r₁.trans r₂

theorem yields_refillFrom {fuel : Nat} (h : w.map.arena.Plants (Path.plug (f :: up) t) ts)
    (hf : up.length < fuel) : Yields (refillFrom fuel f.cell.id f.side) w fun _ w' =>
      Repaired w w' (Path.refill (f :: up) t) ts := by
  induction up generalizing w f t fuel with
  | nil =>
    obtain ⟨fuel, rfl⟩ := Nat.exists_eq_add_of_lt hf
    exact yields_refillFrom_cons h fun g rest e => by cases e
  | cons g up ih =>
    obtain ⟨fuel, rfl⟩ := Nat.exists_eq_add_of_lt hf
    refine yields_refillFrom_cons h fun g' rest e w₁ u h₁ => ?_
    cases e
    exact ih h₁ (by simp; omega)

theorem yields_refill (h : w.map.arena.Plants (Path.plug (f :: up) t) ts) :
    Yields (refill f.cell.id f.side) w fun _ w' => Repaired w w' (Path.refill (f :: up) t) ts := by
  have hlen : up.length < w.map.arena.rounds :=
    Arena.Hangs.path_lt_rounds (p := up) h.hangs (Tree.root?_join ..)
  unfold refill
  rw [yields_bind, yields_look_pure]
  exact yields_refillFrom h hlen

end Map
end OrderedMap
