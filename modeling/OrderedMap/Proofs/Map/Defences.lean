import OrderedMap.Proofs.Map.Items

/-!
Branches that are never taken. The repair after an insertion provides for a red parent that is the
root, and the repair after a removal for a missing sibling. In a red-black tree neither occurs:
whatever else was done there, placing and extracting would be the same actions.
-/
namespace OrderedMap
namespace Map

variable {κ ν α : Type} {w : Workspace κ ν} {p up : Path κ ν} {f : Frame κ ν} {t : Tree κ ν}
  {ts : List (Tree κ ν)} {n : NodeId} {fuel h H : Nat}

theorem look_congr {β : Type} {q : Arena κ ν → Except Fault α} {x y : α → MapM κ ν β}
    (h : ∀ r, x r w = y r w) : (look q >>= x) w = (look q >>= y) w := by
  rw [look_bind, look_bind]
  cases q w.map.arena with
  | ok r => exact h r
  | error e => rfl

section Settling

/-- A pass of the repair after an insertion. Further passes are left open, and so is what is done
at a red parent that is the root. -/
def settlePass (again redRoot : NodeId → MapM κ ν Unit) (n : NodeId) : MapM κ ν Unit := do
  match ← look (·.parent n) with
  | none => paint n .black
  | some parent =>
    if (← look (·.color parent)) = .red then
      let grand ← look (·.parent parent)
      let side ← look (·.hangingSide parent)
      match grand, side with
      | some grand, some side =>
        match ← look (·.child side.opposite grand) with
        | some uncle =>
          if (← look (·.color uncle)) = .red then
            record (.recolored grand)
            paint parent .black
            paint uncle .black
            paint grand .red
            again grand
          else
            settleByRotation n parent grand side
        | none => settleByRotation n parent grand side
      | _, _ => redRoot parent

def settleFromWith (redRoot : NodeId → MapM κ ν Unit) : Nat → NodeId → MapM κ ν Unit
  | 0, _ => throw .endless
  | fuel + 1, n => settlePass (settleFromWith redRoot fuel) redRoot n

theorem settleFrom_succ (fuel : Nat) (n : NodeId) : (settleFrom (fuel + 1) n : MapM κ ν Unit) =
    settlePass (settleFrom fuel) (paint · .black) n := by
  rw [settleFrom]
  rfl

/-- The repair after an insertion with something else done at a red parent that is the root. -/
def settleWith (redRoot : NodeId → MapM κ ν Unit) (n : NodeId) : MapM κ ν Unit := do
  let a ← look pure
  settleFromWith redRoot a.rounds n

theorem recolor_congr {f g : Frame κ ν} {u : NodeId} {x y : MapM κ ν Unit}
    (hb : w.map.arena.Plants (Path.plug (f :: g :: up) t)) (hu : g.other.root? = some u)
    (hxy : ∀ w', Repaired w w' ⟨up.plug (.join g.side (.join f.side t .black f.cell f.other) .red
      g.cell (g.other.paint .black)), [.recolored g.cell.id], 0⟩ → x w' = y w') :
    (do
      record (.recolored g.cell.id)
      paint f.cell.id .black
      paint u .black
      paint g.cell.id .red
      x) w = (do
      record (.recolored g.cell.id)
      paint f.cell.id .black
      paint u .black
      paint g.cell.id .red
      y) w := by
  let recolored : MapM κ ν Unit := do
    record (.recolored g.cell.id)
    paint f.cell.id .black
    paint u .black
    paint g.cell.id .red
    pure ()
  have split (next : MapM κ ν Unit) : (do
      record (.recolored g.cell.id)
      paint f.cell.id .black
      paint u .black
      paint g.cell.id .red
      next) = recolored >>= fun _ => next := by
    simp only [recolored, bind_assoc, pure_bind]
  have reached : Yields recolored w fun _ w' => Repaired w w' _ :=
    yields_recolor hb hu fun w' r => yields_pure.mpr r
  rw [split x, split y]
  exact reached.bind_congr fun _ w' r => hxy w' r

/-- A path from a black root on never ends below a red root. -/
theorem settleFromWith_eq (redRoot : NodeId → MapM κ ν Unit) (hb : w.map.arena.Plants (p.plug t))
    (hn : t.root? = some n) (hp : p.Fits h H) :
    settleFromWith redRoot fuel n w = settleFrom fuel n w := by
  induction fuel generalizing p t n w h with
  | zero => rfl
  | succ fuel ih =>
    rw [settleFromWith, settleFrom_succ]
    unfold settlePass
    cases p with
    | nil => simp only [look_bind, hb.parent hn, Path.above?_nil]
    | cons f up =>
      have hf : w.map.arena.Plants (Path.plug up (.join f.side t f.color f.cell f.other)) := hb
      have hroot := Tree.root?_join f.side t f.color f.cell f.other
      simp only [look_bind, hb.parent hn, Path.above?_cons, hf.color hroot, Tree.color_join]
      by_cases hk : f.color = .red
      · simp only [if_pos hk, look_bind, hf.parent hroot, hf.hangingSide hroot]
        obtain ⟨-, hroof, hup⟩ := Path.fits_cons hp
        cases up with
        | nil => cases (hroof hk).2
        | cons g rest =>
          have hg : w.map.arena.child g.side.opposite g.cell.id = _ :=
            Arena.Plants.child (p := rest) hf (Tree.root?_join ..) g.side.opposite
          simp only [Path.above?_cons, List.head?_cons, Option.map_some, look_bind, hg,
            Tree.child_opposite_join]
          cases hu : g.other.root? with
          | none => rfl
          | some u =>
            have hother := hf
            rw [Path.plug_across] at hother
            simp only [look_bind, hother.color hu]
            by_cases hred : g.other.color = .red
            · simp only [if_pos hred]
              refine recolor_congr hb hu fun w₁ r₁ => ?_
              exact ih r₁.plants (Tree.root?_join ..) (Path.fits_cons hup).2.2
            · simp only [if_neg hred]
      · simp only [if_neg hk]

theorem settleWith_eq (redRoot : NodeId → MapM κ ν Unit) (hb : w.map.arena.Plants (p.plug t))
    (hn : t.root? = some n) (hp : p.Fits h H) : settleWith redRoot n w = settle n w :=
  look_congr fun _ => settleFromWith_eq redRoot hb hn hp

/-- Putting an entry into the tree with a repair of any kind. -/
def placeBy (settle : NodeId → MapM κ ν Unit) (t : κ) (v : ν) : MapM κ ν (NodeId × Bool) := do
  match ← nearest t with
  | none =>
    let n ← allocate (some ⟨t, v⟩) .red
    edit (Arena.setRoot (some n))
    settle n
    return (n, true)
  | some (found, order) =>
    match Side.ofOrdering? order with
    | none =>
      let old ← edit (Arena.replaceEntry found fun _ => ⟨t, v⟩)
      releaseTag old.tag
      releaseValue old.value
      return (found, false)
    | some side =>
      let n ← allocate (some ⟨t, v⟩) .red
      edit (Arena.attach side found n)
      settle n
      return (n, true)

theorem place_eq (s : κ) (v : ν) : (place s v : MapM κ ν _) = placeBy settle s v := rfl

/-- A new leaf, before it is hung. -/
theorem yields_leaf (hb : w.map.arena.Bears t) (e : Entry κ ν) :
    Yields (allocate (some e) .red) w fun n w' => n = w.map.arena.nextId ∧
      w'.map.arena.Forest [t, Arena.leaf .red ⟨w.map.arena.nextId, w.clock, some e⟩] ∧
      w'.map.arena.root = t.root? := by
  unfold allocate
  rw [yields_bind, yields_drawStamp, yields_edit]
  apply (Arena.yields_allocate hb.forest _ _ _).mono
  intro n a h₁
  exact ⟨h₁.1, h₁.2.1.perm (.swap ..), h₁.2.2.1.trans hb.root⟩

/-- A new leaf hangs in a red-black tree. -/
theorem placeBy_eq (redRoot : NodeId → MapM κ ν Unit) (hb : w.map.arena.Bears t)
    (hfill : t.Filled) (hr : t.RedBlack H) (s : κ) (v : ν) :
    placeBy (settleWith redRoot) s v w = place s v w := by
  rw [place_eq]
  unfold placeBy
  refine (yields_nearest hb.stands hfill).bind_congr ?_
  rintro r w₁ ⟨rfl, rfl⟩
  rcases hq : t.seek (w.map.order s) [] with ⟨q, u⟩
  obtain rfl := Tree.eq_plug_of_seek hq
  have hb₁ : (afterSearch w s (q.plug u)).map.arena.Bears (q.plug u) := hb
  cases u with
  | node l k c r =>
    have ho : w.map.order s c = .eq := Tree.order_of_seek hq
    simp only [landing, ho, Side.ofOrdering?]
  | nil =>
    cases q with
    | nil =>
      simp only [landing]
      refine (yields_leaf hb₁ ⟨s, v⟩).bind_congr ?_
      rintro - w₂ ⟨rfl, h₂, -⟩
      have rooted := (Arena.Forest.nil_cons.mp h₂).with_root (some w.map.arena.nextId)
      have placed : Yields (edit (Arena.setRoot (some w.map.arena.nextId))) w₂ fun _ w₃ =>
          w₃.map.arena.Bears (Path.plug [] (Arena.leaf .red ⟨w.map.arena.nextId, w.clock,
            some ⟨s, v⟩⟩)) := yields_edit.mpr (Arena.yields_setRoot.mpr ⟨rooted, rfl⟩)
      exact placed.bind_congr fun _ w₃ h₃ => bind_congr_left
        (settleWith_eq (h := H) (H := H) redRoot h₃.plants rfl .nil)
    | cons f up =>
      have ho : Side.ofOrdering? (w.map.order s f.cell) = some f.side :=
        (Tree.side_of_seek hq (List.mem_cons_self ..)).resolve_left (by simp)
      simp only [landing, ho]
      refine (yields_leaf hb₁ ⟨s, v⟩).bind_congr ?_
      rintro - w₂ ⟨rfl, h₂, root₂⟩
      have hung : Yields (edit (Arena.attach f.side f.cell.id w.map.arena.nextId)) w₂ fun _ w₃ =>
          w₃.map.arena.Bears (Path.plug (f :: up) (Arena.leaf .red ⟨w.map.arena.nextId, w.clock,
            some ⟨s, v⟩⟩)) := by
        rw [yields_edit]
        apply (Arena.yields_attach h₂ rfl).mono
        intro _ a h₃
        exact ⟨h₃.1, (h₃.2.2.trans root₂).trans (Path.root?_plug_congr up (by simp))⟩
      obtain ⟨j, hp, -, -⟩ := Path.redBlack_plug.mp hr
      exact hung.bind_congr fun _ w₃ h₃ => bind_congr_left (settleWith_eq redRoot h₃.plants rfl hp)

end Settling

section Refilling

def refillFromWith (noSibling : MapM κ ν Unit) : Nat → NodeId → Side → MapM κ ν Unit
  | 0, _, _ => throw .endless
  | fuel + 1, parent, side => do
    match ← blackSibling? parent side with
    | none => noSibling
    | some sibling => refillBlack (refillFromWith noSibling fuel) parent side sibling

/-- The repair after a removal with something else done where the sibling is missing. -/
def refillWith (noSibling : MapM κ ν Unit) (parent : NodeId) (side : Side) : MapM κ ν Unit := do
  let a ← look pure
  refillFromWith noSibling a.rounds parent side

/-- Only a pass at a black node goes on to another one. -/
theorem passOn_congr {x y : NodeId → Side → MapM κ ν Unit}
    (hb : w.map.arena.Plants (Path.plug (f :: up) t) ts) (hn : f.other.root? = some n)
    (hxy : f.color ≠ .red → ∀ g rest, up = g :: rest → ∀ w' u,
      w'.map.arena.Plants (up.plug u) ts → x g.cell.id g.side w' = y g.cell.id g.side w') :
    passOn x f.cell.id n w = passOn y f.cell.id n w := by
  rw [Path.plug_across] at hb
  unfold passOn
  refine (yields_paint hb hn .red).bind_congr fun _ w₁ r₁ => ?_
  have h₁ := r₁.plants
  rw [Path.plug_cons, Tree.join_opposite] at h₁
  have hroot := Tree.root?_join f.side t f.color f.cell (f.other.paint .red)
  simp only [look_bind, h₁.color hroot, Tree.color_join]
  by_cases hk : f.color = .red
  · simp only [if_pos hk]
  · simp only [if_neg hk, look_bind, h₁.parent hroot, h₁.hangingSide hroot]
    cases up with
    | nil => rfl
    | cons g rest =>
      simp only [Path.above?_cons, List.head?_cons, Option.map_some]
      refine (yields_record_repaired h₁ _).bind_congr fun _ w₂ r₂ => ?_
      exact hxy hk g rest rfl w₂ _ r₂.plants

theorem refillBlack_congr {x y : NodeId → Side → MapM κ ν Unit} {parent : NodeId} {side : Side}
    (hxy : passOn x parent n w = passOn y parent n w) :
    refillBlack x parent side n w = refillBlack y parent side n w := by
  unfold refillBlack
  refine look_congr fun near => look_congr fun far => look_congr fun red => ?_
  cases red with
  | true => rfl
  | false =>
    refine look_congr fun red => ?_
    cases red with
    | true => rfl
    | false => exact hxy

/-- Where a subtree is short, the sibling is there. -/
theorem refillFromWith_eq (noSibling : MapM κ ν Unit)
    (hb : w.map.arena.Plants (Path.plug (f :: up) t) ts) (hp : Path.Fits (f :: up) (h + 1) H)
    (hh : 0 < h) : refillFromWith noSibling fuel f.cell.id f.side w =
      refillFrom fuel f.cell.id f.side w := by
  induction fuel generalizing f up t w h with
  | zero => rfl
  | succ fuel ih =>
    obtain ⟨hother, -, hup⟩ := Path.fits_cons hp
    rw [refillFromWith, refillFrom_succ]
    cases hk : f.other.color with
    | black =>
      obtain ⟨n, hn⟩ := Option.ne_none_iff_exists'.mp fun e =>
        hother.ne_nil hh (Tree.root?_eq_none_iff.mp e)
      have found : Yields (blackSibling? f.cell.id f.side) w fun r w' => r = some n ∧ w' = w :=
        (yields_blackSibling_of_black hb hk).mpr ⟨hn, rfl⟩
      refine found.bind_congr ?_
      rintro r w' ⟨rfl, rfl⟩
      refine refillBlack_congr (passOn_congr hb hn fun hred g rest e w₁ u h₁ => ?_)
      subst e
      rw [Frame.rise, if_pos (Color.eq_black hred)] at hup
      exact ih h₁ hup (Nat.succ_pos h)
    | red =>
      obtain ⟨near, k, q, far, e⟩ := Tree.exists_join f.side (t := f.other)
        (by intro e; rw [e] at hk; cases hk)
      rw [e, Tree.color_join] at hk
      subst hk
      rw [e] at hother
      have hnear := (Tree.balanced_red_join.mp hother).1
      obtain ⟨n, hn⟩ := Option.ne_none_iff_exists'.mp fun e =>
        hnear.ne_nil hh (Tree.root?_eq_none_iff.mp e)
      have hs : f.sunk.other = near := by simp [Frame.sunk, Frame.near, e]
      refine (yields_blackSibling_of_red hb e).bind_congr ?_
      rintro - w₁ ⟨rfl, r₁⟩
      rw [hn]
      exact refillBlack_congr
        (passOn_congr (f := f.sunk) r₁.plants (hs ▸ hn) fun hred => absurd rfl hred)

theorem refillWith_eq (noSibling : MapM κ ν Unit)
    (hb : w.map.arena.Plants (Path.plug (f :: up) t) ts) (hp : Path.Fits (f :: up) (h + 1) H)
    (hh : 0 < h) : refillWith noSibling f.cell.id f.side w = refill f.cell.id f.side w :=
  look_congr fun _ => refillFromWith_eq noSibling hb hp hh

/-- Taking a node out with a repair of any kind. -/
def extractBy (refill : NodeId → Side → MapM κ ν Unit) (target : NodeId) :
    MapM κ ν (Entry κ ν) := do
  lower target
  let side := if (← look (·.child .left target)).isSome then Side.left else Side.right
  let c ← edit (Arena.detach side target)
  let parent ← look (·.parent target)
  let above ← look (·.hangingSide target)
  edit (Arena.redirect target c)
  if (← look (·.color target)) = .black then
    if ← look (·.isRed c) then
      if let some c := c then
        paint c .black
    else if let (some p, some s) := (parent, above) then
      refill p s
  match ← edit (Arena.vacate target) with
  | some e => pure e
  | none => throw (.removedNoEntry target)

theorem extract_eq (n : NodeId) : (extract n : MapM κ ν (Entry κ ν)) = extractBy refill n := rfl

/-- A node is missed only below a node with a sibling there. -/
theorem extractBy_eq (noSibling : MapM κ ν Unit) {l r : Tree κ ν} {k : Color} {c : Cell κ ν}
    (hb : w.map.arena.Bears (p.plug (.node l k c r))) (hr : (p.plug (.node l k c r)).RedBlack H) :
    extractBy (refillWith noSibling) c.id w = extract c.id w := by
  rw [extract_eq]
  unfold extractBy
  refine (yields_lower hb hr).bind_congr ?_
  rintro - w₁ ⟨-, -, -, p', l', k', r', hlr, b₁, hr₁, -⟩
  obtain ⟨hu, -⟩ := node_eq_join_onlySide (k := k') (c := c) hlr
  generalize onlyChild l' r' = u at hu
  simp only [look_bind, b₁.child rfl .left]
  rw [hu] at b₁ hr₁
  have detached : Yields (edit (Arena.detach (onlySide l') c.id)) w₁ fun n w₂ => n = u.root? ∧
      w₂.map.arena.Bears (p'.plug (.join (onlySide l') .nil k' c .nil)) [u] := by
    rw [yields_edit]
    apply (Arena.yields_detach b₁.forest).mono
    intro n a h₂
    refine ⟨h₂.1, h₂.2.1, ?_⟩
    rw [Workspace.arena_withArena, h₂.2.2.2, b₁.root]
    exact Path.root?_plug_congr p' (by simp)
  refine detached.bind_congr ?_
  rintro - w₂ ⟨rfl, b₂⟩
  have hroot := Tree.root?_join (onlySide l') (.nil : Tree κ ν) k' c .nil
  have hleaf : Tree.join (onlySide l') .nil k' c .nil = Arena.leaf k' c := by
    cases onlySide l' <;> rfl
  simp only [look_bind, b₂.parent hroot, b₂.hangingSide hroot]
  have redirected : Yields (edit (Arena.redirect c.id u.root?)) w₂ fun _ w₃ =>
      w₃.map.arena.Bears (p'.plug u) [Arena.leaf k' c] ∧ w₃.map.arena.color c.id = .ok k' := by
    rw [yields_edit]
    apply (Arena.yields_redirect b₂.forest hroot b₂.root).mono
    intro _ a h₃
    rw [hleaf] at h₃
    obtain ⟨hc, -, -⟩ := h₃.1.tail_hangs _ (List.mem_cons_self ..)
    refine ⟨⟨h₃.1, h₃.2.2⟩, ?_⟩
    rw [Workspace.arena_withArena, Arena.color_of_get? hc, Cell.color_node]
  refine redirected.bind_congr ?_
  rintro - w₃ ⟨b₃, hcolor⟩
  simp only [look_bind, hcolor]
  by_cases hk : k' = .black
  · subst hk
    simp only [if_true, look_bind, b₃.isRed]
    by_cases hu : u.color = .red
    · simp only [hu, decide_true, if_true]
    · simp only [hu, decide_false, Bool.false_eq_true, if_false]
      cases p' with
      | nil => rfl
      | cons f up =>
        obtain ⟨m, hp, hbal, -⟩ := Path.redBlack_plug.mp hr₁
        obtain ⟨m, rfl, hm, -⟩ := Tree.balanced_black_join.mp hbal
        exact bind_congr_left (refillWith_eq noSibling b₃.plants hp hm.pos)
  · simp only [if_neg hk]

end Refilling

section Lists

variable {xs : List (Item κ ν)}

theorem Lists.placeBy_eq (h : w.map.Lists xs) (redRoot : NodeId → MapM κ ν Unit) (s : κ) (v : ν) :
    placeBy (settleWith redRoot) s v w = place s v w := by
  obtain ⟨t, ht⟩ := h
  obtain ⟨H, hr⟩ := ht.redBlack
  exact Map.placeBy_eq redRoot ht.bears ht.filled hr s v

/-- At a vacant slot nothing is taken out in the first place. -/
theorem Lists.extractBy_eq (h : w.map.Lists xs) (noSibling : MapM κ ν Unit) (n : NodeId) :
    extractBy (refillWith noSibling) n w = extract n w := by
  obtain ⟨t, ht⟩ := h
  cases hn : w.map.arena.get? n with
  | none =>
    obtain ⟨e, he⟩ := Arena.node_of_vacant hn
    have hc : w.map.arena.child .left n = .error e := by
      rw [Arena.child, he]
      rfl
    simp only [extract_eq, extractBy, lower, bind_assoc, look_bind, hc]
  | some y =>
    obtain ⟨x, hx, rfl, -, -⟩ := ht.exists_item hn
    obtain ⟨cs, ds, hcells⟩ := List.append_of_mem (List.mem_map_of_mem (f := Item.cell) hx)
    obtain ⟨H, hr⟩ := ht.redBlack
    obtain ⟨p, k, r, l, rfl, -, -⟩ :=
      Path.exists_split .right (ht.cells.trans hcells)
    exact Map.extractBy_eq noSibling ht.bears hr

end Lists
end Map
end OrderedMap
