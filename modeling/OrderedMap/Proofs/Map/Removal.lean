import OrderedMap.Proofs.Map.Refilling

/-!
Taking a node out of the tree. Once the node has at most one child, that child takes its place,
what is missing above is made up for, and the slot of the node is freed. All other cells stay in
their order.
-/
namespace OrderedMap
namespace Map

variable {κ ν : Type} {w : Workspace κ ν} {p : Path κ ν} {l r u : Tree κ ν} {k : Color}
  {c : Cell κ ν} {s : Side} {ts : List (Tree κ ν)}

/-- The side from which the only child of a node is taken, as the links tell it. -/
def onlySide (l : Tree κ ν) : Side := if l.root?.isSome then .left else .right

/-- The only child of a node, from either side. -/
def onlyChild : Tree κ ν → Tree κ ν → Tree κ ν
  | .nil, r => r
  | l, _ => l

theorem onlyChild_comm (h : l = .nil ∨ r = .nil) : onlyChild l r = onlyChild r l := by
  rcases h with rfl | rfl
  · cases r <;> rfl
  · cases l <;> rfl

theorem node_eq_join_onlySide (h : l = .nil ∨ r = .nil) :
    .node l k c r = Tree.join (onlySide l) (onlyChild l r) k c .nil ∧
      (onlyChild l r).cells = l.cells ++ r.cells := by
  rcases h with rfl | rfl
  · exact ⟨rfl, by simp [onlyChild]⟩
  · cases l <;> exact ⟨rfl, by simp [onlyChild]⟩

/-- A node has been lowered to where it has at most one child. Without the node the cells are the
same before and after. -/
structure Lowered (w w' : Workspace κ ν) (p : Path κ ν) (l r : Tree κ ν) (c : Cell κ ν) (H : Nat) :
    Prop where
  eq : w' = (w.withArena w'.map.arena).withClock w'.clock
  clock : w.clock ≤ w'.clock
  size : w'.map.arena.slots.size ≤ w.map.arena.nextSize
  place : ∃ p' l' k r', (l' = .nil ∨ r' = .nil) ∧
    w'.map.arena.Bears (Path.plug p' (.node l' k c r')) ∧
    (Path.plug p' (.node l' k c r')).RedBlack H ∧
    ∀ u : Tree κ ν, u.cells = l'.cells ++ r'.cells →
      (Path.plug p' u).cells = (p.beyond .left).reverse ++ (l.cells ++ r.cells) ++ p.beyond .right

theorem lower_of_narrow (h : w.map.arena.Bears (p.plug (.node l k c r)) ts)
    (hlr : l = .nil ∨ r = .nil) : Yields (lower c.id) w fun _ w' => w' = w := by
  unfold lower
  rw [yields_bind, yields_look (h.child rfl .left), yields_bind, yields_look (h.child rfl .right)]
  simp only [Tree.child]
  rcases hlr with rfl | rfl
  · exact yields_pure.mpr rfl
  · cases l.root? <;> exact yields_pure.mpr rfl

/-- A node with two children trades places with the last node of its left side. -/
theorem yields_lower_of_wide {q : Path κ ν} {k' : Color} {d : Cell κ ν}
    (h : w.map.arena.Bears (p.plug (.node (q.plug (.node u k' d .nil)) k c r)) ts)
    (hcells : (q.plug (.node u k' d .nil)).cells = (q.plug u).cells ++ [d]) (hr : r ≠ .nil) :
    Yields (lower c.id) w fun _ w' =>
      w' = (w.withArena w'.map.arena).withClock (w.clock + 1) ∧
      w'.map.arena.Bears (Path.plug (q ++ ⟨.left, k, d, r⟩ :: p) (.node u k' c .nil)) ts ∧
      w'.map.arena.free = w.map.arena.nextId.index :: w.map.arena.free.tail ∧
      w'.map.arena.slots.size = w.map.arena.nextSize := by
  obtain ⟨n, hn⟩ : ∃ n, (q.plug (.node u k' d .nil)).root? = some n := by
    refine Option.ne_none_iff_exists'.mp fun e => ?_
    rw [Tree.root?_eq_none_iff.mp e] at hcells
    simp at hcells
  obtain ⟨m, hm⟩ := Option.ne_none_iff_exists'.mp (mt Tree.root?_eq_none_iff.mp hr)
  have hlast : ((q.plug (.node u k' d .nil)).toward .right).getLast? = some d := by
    simp [Tree.toward, hcells]
  unfold lower
  rw [yields_bind, yields_look (h.child rfl .left), yields_bind, yields_look (h.child rfl .right)]
  simp only [Tree.child, hn, hm]
  rw [yields_bind, yields_look (Arena.extreme_eq (p := ⟨.left, k, c, r⟩ :: p) h.hangs hlast hn),
    yields_bind, yields_exchange]
  apply (Arena.yields_exchange _ h).mono
  rintro - a₁ ⟨h₁, f₁, s₁⟩
  rw [yields_edit]
  apply h₁.plants.yields_exchangeColors.mono
  rintro - a₂ ⟨h₂, k₂⟩
  refine ⟨rfl, ?_, k₂.free.trans f₁, k₂.size.trans s₁⟩
  rw [Path.plug_append]
  have below : (q.plug (.node u k' c .nil)).cells = (q.plug (.node u k c .nil)).cells :=
    q.cells_plug_congr rfl
  exact h₁.rebuild h₂ k₂ (p.cells_plug_congr (congrArg (· ++ d :: r.cells) below))

/-- A node with two children is lowered to the place of its predecessor. -/
theorem yields_lower {H : Nat} (h : w.map.arena.Bears (p.plug (.node l k c r)))
    (hr : (p.plug (.node l k c r)).RedBlack H) :
    Yields (lower c.id) w fun _ w' => Lowered w w' p l r c H := by
  by_cases hlr : l = .nil ∨ r = .nil
  · apply (lower_of_narrow h hlr).mono
    rintro - w' rfl
    exact ⟨rfl, Nat.le_refl _, Nat.le_add_right .., p, l, k, r, hlr, h, hr,
      fun u hu => by rw [Path.cells_plug, hu]⟩
  · obtain ⟨hl, hrr⟩ := not_or.mp hlr
    obtain ⟨q, k', d, u, rfl, hcells⟩ := Path.exists_last hl
    apply (yields_lower_of_wide h hcells hrr).mono
    rintro - w' ⟨e, hb, -, hs⟩
    refine ⟨by rw [e]; rfl, by rw [e]; exact Nat.le_succ _, Nat.le_of_eq hs,
      q ++ ⟨.left, k, d, r⟩ :: p, u, k', .nil, .inr rfl, hb, Path.exchanged_redBlack hr, ?_⟩
    intro x hx
    rw [Tree.cells_nil, List.append_nil] at hx
    rw [Path.plug_append, Path.plug_cons, Path.cells_plug p]
    simp only [Tree.join, Tree.cells, hcells, Path.cells_plug_congr q hx, List.append_assoc,
      List.singleton_append]

/-- The only child of a node takes its place, and what is missing above is made up for. -/
theorem yields_unhook (h : w.map.arena.Bears (p.plug (.join s u k c .nil)) ts) {e : Entry κ ν}
    (he : c.entry = some e) : Yields (do
      let c' ← edit (Arena.detach s c.id)
      let parent ← look (·.parent c.id)
      let above ← look (·.hangingSide c.id)
      edit (Arena.redirect c.id c')
      if (← look (·.color c.id)) = .black then
        if ← look (·.isRed c') then
          if let some c := c' then
            paint c .black
        else if let (some p, some s) := (parent, above) then
          refill p s
      match ← edit (Arena.vacate c.id) with
      | some e => pure e
      | none => throw (.removedNoEntry c.id)) w fun r w' => r = e ∧
        w' = (w.withArena w'.map.arena).withJournal ((Path.unhook p k u).onto w.journal) ∧
        w'.map.arena.Bears (Path.unhook p k u).tree ts ∧
        w'.map.arena.slots.size = w.map.arena.slots.size ∧
        w'.map.arena.free = c.id.index :: w.map.arena.free := by
  rw [yields_bind, yields_edit]
  apply (Arena.yields_detach h.forest).mono
  rintro - a₁ ⟨rfl, h₁, k₁, r₁⟩
  have b₁ : a₁.Bears (p.plug (.join s .nil k c .nil)) (u :: ts) :=
    ⟨h₁, by rw [r₁, h.root]; exact Path.root?_plug_congr p (by simp)⟩
  have hroot := Tree.root?_join s (.nil : Tree κ ν) k c .nil
  rw [yields_bind, yields_look (b₁.parent hroot), yields_bind, yields_look (b₁.hangingSide hroot),
    yields_bind, yields_edit]
  apply (Arena.yields_redirect h₁ hroot b₁.root).mono
  rintro - a₂ ⟨h₂, k₂, r₂⟩
  have hleaf : Tree.join s .nil k c .nil = Arena.leaf k c := by cases s <;> rfl
  rw [hleaf] at h₂
  obtain ⟨hc, -, -⟩ := h₂.tail_hangs _ (List.mem_cons_self ..)
  have hcolor : a₂.color c.id = .ok k := by rw [Arena.color_of_get? hc, Cell.color_node]
  rw [yields_bind]
  refine (yields_look hcolor).mpr ?_
  rw [Workspace.withArena_withArena]
  have b₂ : (w.withArena a₂).map.arena.Bears (p.plug u) (Arena.leaf k c :: ts) := ⟨h₂, r₂⟩
  have finish : ∀ w₃, Repaired (w.withArena a₂) w₃ (p.unhook k u) (Arena.leaf k c :: ts) →
      Yields (do
        match ← edit (Arena.vacate c.id) with
        | some e => pure e
        | none => throw (.removedNoEntry c.id)) w₃ fun r w' => r = e ∧
          w' = (w.withArena w'.map.arena).withJournal ((p.unhook k u).onto w.journal) ∧
          w'.map.arena.Bears (p.unhook k u).tree ts ∧
          w'.map.arena.slots.size = w.map.arena.slots.size ∧
          w'.map.arena.free = c.id.index :: w.map.arena.free := by
    intro w₃ r₃
    have hw := r₃.eq
    have b₃ := r₃.bears b₂
    rw [yields_bind, yields_edit]
    apply (Arena.yields_vacate (b₃.forest.perm (.swap ..))).mono
    rintro - a₄ ⟨rfl, h₄, r₄, f₄, s₄⟩
    have free₃ := r₃.keeps.free.trans (k₂.free.trans k₁.free)
    rw [he]
    refine yields_pure.mpr ⟨rfl, ?_, ⟨h₄, by rw [← b₃.root, ← r₄]; rfl⟩,
      s₄.trans (r₃.keeps.size.trans (k₂.size.trans k₁.size)), f₄.trans (by rw [free₃])⟩
    rw [hw]
    rfl
  by_cases hk : k = .red
  · subst hk
    exact finish _ (by simpa [Path.unhook] using Repaired.refl b₂.plants)
  · obtain rfl := Color.eq_black hk
    simp only [if_true]
    rw [yields_bind, yields_look b₂.isRed]
    by_cases hu : u.color = .red
    · simp only [hu, decide_true, if_true]
      cases hn : u.root? with
      | none =>
        rw [Tree.root?_eq_none_iff.mp hn] at hu
        cases hu
      | some n =>
        simp only
        rw [yields_bind]
        apply (yields_paint b₂.plants hn .black).mono
        intro _ w₃ r₃
        exact finish w₃ (by simpa [Path.unhook, hu] using r₃)
    · simp only [hu, decide_false, Bool.false_eq_true, if_false]
      cases p with
      | nil => exact finish _ (by simpa [Path.unhook, hu, Path.refill] using Repaired.refl b₂.plants)
      | cons f up =>
        simp only [Path.above?_cons, List.head?_cons, Option.map_some]
        rw [yields_bind]
        apply (yields_refill b₂.plants).mono
        intro _ w₃ r₃
        exact finish w₃ (by simpa [Path.unhook, hu] using r₃)

/-- Taking a node out once it has been lowered to where it has at most one child. -/
theorem yields_extract_of_lower {Q : Workspace κ ν → Prop} {e : Entry κ ν}
    (hl : Yields (lower c.id) w fun _ w₁ => w₁.map.arena.Bears (p.plug (.node l k c r)) ts ∧ Q w₁)
    (hlr : l = .nil ∨ r = .nil) (he : c.entry = some e) :
    Yields (extract c.id) w fun r' w' => r' = e ∧ ∃ w₁, Q w₁ ∧
      w' = (w₁.withArena w'.map.arena).withJournal ((p.unhook k (onlyChild l r)).onto w₁.journal) ∧
      w'.map.arena.Bears (p.unhook k (onlyChild l r)).tree ts ∧
      w'.map.arena.slots.size = w₁.map.arena.slots.size ∧
      w'.map.arena.free = c.id.index :: w₁.map.arena.free := by
  unfold extract
  rw [yields_bind]
  apply hl.mono
  rintro - w₁ ⟨b₁, hq⟩
  rw [yields_bind, yields_look (b₁.child rfl .left)]
  rw [(node_eq_join_onlySide hlr).1] at b₁
  apply (yields_unhook b₁ he).mono
  rintro r w₂ ⟨rfl, h₂⟩
  exact ⟨rfl, w₁, hq, h₂⟩

/-- A node with at most one child is taken out, whichever side the child is on. -/
theorem yields_extract_of_narrow {e : Entry κ ν}
    (h : w.map.arena.Bears (p.plug (.join s l k c r)) ts) (hlr : l = .nil ∨ r = .nil)
    (he : c.entry = some e) : Yields (extract c.id) w fun r' w' => r' = e ∧
      w' = (w.withArena w'.map.arena).withJournal ((p.unhook k (onlyChild l r)).onto w.journal) ∧
      w'.map.arena.Bears (p.unhook k (onlyChild l r)).tree ts ∧
      w'.map.arena.slots.size = w.map.arena.slots.size ∧
      w'.map.arena.free = c.id.index :: w.map.arena.free := by
  have upright {l r : Tree κ ν} (h : w.map.arena.Bears (p.plug (.node l k c r)) ts)
      (hlr : l = .nil ∨ r = .nil) := yields_extract_of_lower (Q := (· = w))
    ((lower_of_narrow h hlr).mono fun _ w₁ e => ⟨e ▸ h, e⟩) hlr he
  have narrowed : Yields (extract c.id) w fun r' w' => r' = e ∧ ∃ w₁, w₁ = w ∧
      w' = (w₁.withArena w'.map.arena).withJournal ((p.unhook k (onlyChild l r)).onto w₁.journal) ∧
      w'.map.arena.Bears (p.unhook k (onlyChild l r)).tree ts ∧
      w'.map.arena.slots.size = w₁.map.arena.slots.size ∧
      w'.map.arena.free = c.id.index :: w₁.map.arena.free := by
    cases s with
    | left => exact upright h hlr
    | right =>
      rw [onlyChild_comm hlr]
      exact upright h hlr.symm
  apply narrowed.mono
  rintro r' w' ⟨rfl, w₁, rfl, h'⟩
  exact ⟨rfl, h'⟩

/-- A node with two children is taken out from the place of its predecessor. A slot serves as a
placeholder meanwhile, and is the next one to be used after that of the node itself. -/
theorem yields_extract_of_wide {q : Path κ ν} {k' : Color} {d : Cell κ ν} {e : Entry κ ν}
    (h : w.map.arena.Bears (p.plug (.node (q.plug (.node u k' d .nil)) k c r)) ts)
    (hcells : (q.plug (.node u k' d .nil)).cells = (q.plug u).cells ++ [d]) (hr : r ≠ .nil)
    (he : c.entry = some e) : Yields (extract c.id) w fun r' w' => r' = e ∧
      w' = ((w.withArena w'.map.arena).withClock (w.clock + 1)).withJournal
        ((Path.unhook (q ++ ⟨.left, k, d, r⟩ :: p) k' u).onto w.journal) ∧
      w'.map.arena.Bears (Path.unhook (q ++ ⟨.left, k, d, r⟩ :: p) k' u).tree ts ∧
      w'.map.arena.slots.size = w.map.arena.nextSize ∧
      w'.map.arena.free =
        c.id.index :: w.map.arena.nextId.index :: w.map.arena.free.tail := by
  have only : onlyChild u .nil = u := (onlyChild_comm (.inr rfl)).trans rfl
  have lowered := yields_extract_of_lower ((yields_lower_of_wide h hcells hr).mono
    fun _ w₁ h₁ => ⟨h₁.2.1, h₁⟩) (.inr rfl) he
  rw [only] at lowered
  apply lowered.mono
  rintro r' w' ⟨rfl, w₁, ⟨e₁, -, f₁, s₁⟩, e₂, b₂, s₂, f₂⟩
  refine ⟨rfl, ?_, b₂, s₂.trans s₁, f₂.trans (by rw [f₁])⟩
  rw [e₁] at e₂
  rw [e₂]
  rfl

/-- A node was taken out: the repair tells the tree and the records, and stamps may have been
drawn. -/
structure Extracted (w w' : Workspace κ ν) (x : Repair κ ν) (ts : List (Tree κ ν) := []) :
    Prop where
  eq : w' = ((w.withArena w'.map.arena).withClock w'.clock).withJournal (x.onto w.journal)
  clock : w.clock ≤ w'.clock
  size : w'.map.arena.slots.size ≤ w.map.arena.nextSize
  bears : w'.map.arena.Bears x.tree ts
  redBlack : ∃ H, x.tree.RedBlack H

theorem yields_extract {t : Tree κ ν} {H : Nat} {cs ds : List (Cell κ ν)} {e : Entry κ ν}
    (h : w.map.arena.Bears t ts) (hr : t.RedBlack H) (ht : t.cells = cs ++ c :: ds)
    (he : c.entry = some e) : Yields (extract c.id) w fun r w' => r = e ∧
      ∃ x, Extracted w w' x ts ∧ x.tree.cells = cs ++ ds := by
  obtain ⟨p, k, right, left, rfl, rfl, rfl⟩ := Path.exists_split .right ht
  by_cases hlr : left = .nil ∨ right = .nil
  · obtain ⟨hnode, hcells⟩ := node_eq_join_onlySide (k := k) (c := c) hlr
    have hr₁ : (p.plug (.node left k c right)).RedBlack H := hr
    rw [hnode] at hr₁
    obtain ⟨-, H', hr', -⟩ := Path.unhook_course hr₁
    apply (yields_extract_of_narrow (s := .left) h hlr he).mono
    rintro - w' ⟨rfl, e₂, b₂, s₂, -⟩
    refine ⟨rfl, _, ⟨?_, ?_, s₂ ▸ Nat.le_add_right .., b₂, H', hr'⟩, ?_⟩
    · rw [e₂]
      rfl
    · rw [e₂]
      exact Nat.le_refl _
    · rw [Path.cells_unhook, Path.cells_plug, hcells]
      simp [Tree.toward, Side.opposite]
  · obtain ⟨hl, hrr⟩ := not_or.mp hlr
    obtain ⟨q, k', d, u, rfl, hcells⟩ := Path.exists_last hl
    obtain ⟨-, H', hr', -⟩ :=
      Path.unhook_course (s := .left) (Path.exchanged_redBlack hr)
    apply (yields_extract_of_wide h hcells hrr he).mono
    rintro - w' ⟨rfl, e₂, b₂, s₂, -⟩
    refine ⟨rfl, _, ⟨?_, ?_, Nat.le_of_eq s₂, b₂, H', hr'⟩, ?_⟩
    · rw [e₂]
      rfl
    · rw [e₂]
      exact Nat.le_succ _
    · rw [Path.cells_unhook, Path.plug_append, Path.plug_cons, Path.cells_plug p]
      simp [Tree.join, Tree.cells, Tree.toward, Side.opposite, hcells]

end Map
end OrderedMap
