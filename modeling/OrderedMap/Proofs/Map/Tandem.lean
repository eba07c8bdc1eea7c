import OrderedMap.Proofs.Map.Operating
import OrderedMap.Proofs.Map.Twins
import OrderedMap.Proofs.Roll.Guise

/-!
Operations on two maps side by side, one like the other one in a guise. Each operation answers
alike on both, and leaves them alike.
-/
namespace OrderedMap
namespace Map

variable {κ ν : Type} {g : Guise} {t : Tree κ ν} {xs : List (Item κ ν)} {x : Item κ ν}
  {w w' : Workspace κ ν} {tag : κ} {v : ν} {n : NodeId}

/-- Of two maps the second one is like the first in the guise, whatever they hold. -/
def Alike (g : Guise) (w w' : Workspace κ ν) : Prop := ∃ t xs, Twins g t xs w w'

theorem Twins.alike (h : Twins g t xs w w') : Alike g w w' := ⟨t, xs, h⟩

section Reading

variable {α β : Type}

theorem survey_eq {q : Map κ ν → Except Fault α} {a : α} (h : q w.map = .ok a) :
    survey q w = .ok a w := by
  unfold survey
  rw [h]

theorem look_eq {q : Arena κ ν → Except Fault α} {a : α} (h : q w.map.arena = .ok a) :
    look q w = .ok a w := survey_eq h

theorem both_survey {q : Map κ ν → Except Fault α} {q' : Map κ ν → Except Fault β} {a : α} {b : β}
    {post : α → β → Workspace κ ν → Workspace κ ν → Prop} (h : q w.map = .ok a)
    (h' : q' w'.map = .ok b) : Both (survey q) (survey q') w w' post ↔ post a b w w' :=
  (yields_survey h).trans (yields_survey h')

theorem both_survey_pure (f : Map κ ν → α)
    {post : α → α → Workspace κ ν → Workspace κ ν → Prop} :
    Both (survey fun m => pure (f m)) (survey fun m => pure (f m)) w w' post ↔
      post (f w.map) (f w'.map) w w' := both_survey rfl rfl

theorem both_attempt {a : MapM κ ν α} {b : MapM κ ν β}
    {post : α → β → Workspace κ ν → Workspace κ ν → Prop} (h : Both a b w w' post) :
    Both (attempt a) (attempt b) w w' fun r s w₁ w₁' =>
      ∃ x y, r = .ok x ∧ s = .ok y ∧ post x y w₁ w₁' := by
  obtain ⟨x, w₁, hx, y, w₁', hy, hp⟩ := h
  exact .of_eq (by simp only [attempt, hx]) (.of_eq (by simp only [attempt, hy])
    ⟨x, y, rfl, rfl, hp⟩)

end Reading

namespace Twins

theorem shows (h : Twins g t xs w w') : w.map.Shows ⟨w.map.id, w.map.policy, xs⟩ :=
  ⟨rfl, rfl, t, h.holds⟩

theorem shows_right (h : Twins g t xs w w') (up : g.mirrored = false) :
    w'.map.Shows (Roll.recast g ⟨w.map.id, w.map.policy, xs⟩) := by
  refine ⟨h.id, ?_, t.recast g, ?_⟩
  · rw [h.policy, Guise.policy_of_upright _ up]
    rfl
  · have := h.holds_right
    rwa [Guise.items_of_upright up] at this

/-- The item in a corresponding node has the same entry. -/
theorem entry_right (h : Twins g t xs w w') (hx : x ∈ xs) :
    w'.map.arena.entry (g.node x.node) = .ok x.entry := by
  refine h.holds_right.entry (x := x.recast g) ?_
  unfold Guise.items
  split <;> simp [List.mem_map_of_mem hx]

theorem releaseTag (h : Twins g t xs w w') (tag : κ) : Twins g t xs
    (w.withJournal (w.journal.releaseTag w.map.policy tag))
    (w'.withJournal (w'.journal.releaseTag w'.map.policy tag)) := by
  have := h.withJournal (w.journal.releaseTag w.map.policy tag)
  rwa [Journal.recast_releaseTag, ← h.journal, ← h.policy] at this

theorem releaseValue (h : Twins g t xs w w') (v : ν) : Twins g t xs
    (w.withJournal (w.journal.releaseValue w.map.policy v))
    (w'.withJournal (w'.journal.releaseValue w'.map.policy v)) := by
  have := h.withJournal (w.journal.releaseValue w.map.policy v)
  rwa [Journal.recast_releaseValue, ← h.journal, ← h.policy] at this

end Twins

section Access

variable (h : Twins g t xs w w')
include h

theorem both_getEntry_tag (tag : κ) : Both (entryOf? tag) (entryOf? tag) w w'
    fun e e' w₁ w₁' => e' = e ∧ Twins g t xs w₁ w₁' := by
  unfold entryOf?
  refine (both_locate h tag).bind ?_
  rintro n - w₁ w₁' ⟨⟨hn, rfl⟩, -, -, h₁⟩
  cases n with
  | none => exact both_pure.mpr ⟨rfl, h₁⟩
  | some n =>
    obtain ⟨x, hx, rfl⟩ := h.mem_of_found hn.symm
    refine (both_bind_of_eq (look_eq (h₁.holds.entry hx)) (look_eq (h₁.entry_right hx))).mpr ?_
    exact both_pure.mpr ⟨rfl, h₁⟩

theorem both_contains (tag : κ) : Both (contains tag) (contains tag) w w'
    fun b b' w₁ w₁' => b' = b ∧ Twins g t xs w₁ w₁' := by
  unfold contains
  refine (both_locate h tag).bind ?_
  rintro n - w₁ w₁' ⟨⟨-, rfl⟩, -, -, h₁⟩
  exact both_pure.mpr ⟨Option.isSome_map, h₁⟩

theorem both_overwrite? (tag : κ) (v : ν) : Both (overwrite? tag v) (overwrite? tag v) w w'
    fun old old' w₁ w₁' => old' = old ∧ Alike g w₁ w₁' := by
  unfold overwrite?
  refine (both_locate h tag).bind ?_
  rintro n - w₁ w₁' ⟨⟨hn, rfl⟩, -, -, h₁⟩
  cases n with
  | none => exact both_pure.mpr ⟨rfl, h₁.alike⟩
  | some n =>
    obtain ⟨x, hx, rfl⟩ := h.mem_of_found hn.symm
    refine (both_overwriteAt h₁ hx v).bind ?_
    rintro old - w₂ w₂' ⟨⟨-, rfl⟩, t₂, h₂⟩
    exact both_pure.mpr ⟨rfl, h₂.alike⟩

theorem both_dispose (hx : x ∈ xs) (hslim : g.mirrored = true → w.map.Slim x.node) :
    Both (dispose x.node) (dispose (g.node x.node)) w w' fun _ _ w₁ w₁' =>
      ∃ t₁, Twins g t₁ (Item.without x.node xs) w₁ w₁' := by
  unfold dispose
  refine (both_takeOut h hx hslim).bind ?_
  rintro - e w₁ w₁' ⟨⟨-, rfl⟩, t₁, h₁⟩
  exact yields_release.mpr (yields_release.mpr ⟨t₁, (h₁.releaseTag e.tag).releaseValue e.value⟩)

variable (hslim : g.mirrored = true → ∀ n, w.map.found? tag = some n → w.map.Slim n)
include hslim

theorem both_erase : Both (erase tag) (erase tag) w w' fun gone gone' w₁ w₁' =>
    gone' = gone ∧ Alike g w₁ w₁' := by
  unfold erase
  refine (both_locate h tag).bind ?_
  rintro n - w₁ w₁' ⟨⟨hn, rfl⟩, hm, -, h₁⟩
  cases n with
  | none => exact both_pure.mpr ⟨rfl, h₁.alike⟩
  | some n =>
    obtain ⟨x, hx, rfl⟩ := h.mem_of_found hn.symm
    refine (both_dispose h₁ hx fun hg => hm ▸ hslim hg _ hn.symm).bind ?_
    rintro - - w₂ w₂' ⟨t₂, h₂⟩
    exact both_pure.mpr ⟨rfl, h₂.alike⟩

theorem both_remove? : Both (remove? tag) (remove? tag) w w' fun e e' w₁ w₁' =>
    e' = e ∧ Alike g w₁ w₁' := by
  unfold remove?
  refine (both_locate h tag).bind ?_
  rintro n - w₁ w₁' ⟨⟨hn, rfl⟩, hm, -, h₁⟩
  cases n with
  | none => exact both_pure.mpr ⟨rfl, h₁.alike⟩
  | some n =>
    obtain ⟨x, hx, rfl⟩ := h.mem_of_found hn.symm
    refine (both_takeOut h₁ hx fun hg => hm ▸ hslim hg _ hn.symm).bind ?_
    rintro e - w₂ w₂' ⟨⟨-, rfl⟩, t₂, h₂⟩
    exact both_pure.mpr ⟨rfl, h₂.alike⟩

theorem both_removeValue? : Both (removeValue? tag) (removeValue? tag) w w' fun v v' w₁ w₁' =>
    v' = v ∧ Alike g w₁ w₁' := by
  unfold removeValue?
  refine (both_remove? h hslim).bind ?_
  rintro - e w₁ w₁' ⟨rfl, t₁, ys, h₁⟩
  cases e with
  | none => exact both_pure.mpr ⟨rfl, h₁.alike⟩
  | some e =>
    refine (both_bind_of_eq (x := releaseTag _) (y := releaseTag _) rfl rfl).mpr ?_
    exact both_pure.mpr ⟨rfl, (h₁.releaseTag e.tag).alike⟩

end Access

section Upright

variable (h : Twins g t xs w w') (up : g.mirrored = false)
include h up

theorem both_outermost (side : Side) : Both (outermost? side) (outermost? side)
    w w' fun e e' w₁ w₁' => e' = e ∧ Twins g t xs w₁ w₁' := by
  have left := h.shows.outermost side
  have right := (h.shows_right up).outermost side
  rw [Roll.outermost_recast] at right
  unfold outermost?
  refine (both_bind_of_eq (look_eq left) (look_eq right)).mpr ?_
  cases hx : (⟨w.map.id, w.map.policy, xs⟩ : Roll κ ν).outermost side with
  | none => exact both_pure.mpr ⟨rfl, h⟩
  | some x =>
    have hmem : x ∈ xs := by
      cases side with
      | left => exact List.mem_of_mem_head? hx
      | right => exact List.mem_of_getLast? hx
    refine (both_bind_of_eq (look_eq (h.holds.entry hmem)) (look_eq (h.entry_right hmem))).mpr ?_
    exact both_pure.mpr ⟨rfl, h⟩

theorem both_find? (tag : κ) : Both (find? tag) (find? tag) w w' fun p p' w₁ w₁' =>
    p' = p.map (Position.recast g) ∧ Twins g t xs w₁ w₁' := by
  unfold find?
  refine (both_locate h tag).bind ?_
  rintro - - w₁ w₁' ⟨⟨rfl, rfl⟩, -, -, h₁⟩
  have rests := h.shows.rests_found tag
  have rests' := (h.shows_right up).rests_found tag
  rw [h.found?_eq] at rests'
  refine (both_survey (h₁.shows.position? (c := ⟨w.map.found? tag⟩) rests)
    ((h₁.shows_right up).position? (c := ⟨(w.map.found? tag).map g.node⟩) rests')).mpr ⟨?_, h₁⟩
  simp only [Roll.at?_recast, Option.map_map]
  rfl

variable {p q : Position} (hp : w'.map.nodeAt q = (w.map.nodeAt p).map g.node)
include hp

theorem both_erasePosition : Both (erasePosition p) (erasePosition q) w w' fun r r' w₁ w₁' =>
    (r = (w.map.nodeAt p).map (fun _ => ()) ∧ r' = r) ∧ Alike g w₁ w₁' := by
  unfold erasePosition
  refine (both_bind_of_eq (x := survey pure) (y := survey pure) rfl rfl).mpr ?_
  rw [hp]
  cases hn : w.map.nodeAt p with
  | error e => exact both_pure.mpr ⟨⟨rfl, rfl⟩, h.alike⟩
  | ok n =>
    obtain ⟨-, rfl, x, hx, hxn, -⟩ := h.holds.nodeAt_eq_ok_iff.mp hn
    rw [← hxn]
    refine (both_dispose h hx fun hg => by rw [up] at hg; cases hg).bind ?_
    rintro - - w₁ w₁' ⟨t₁, h₁⟩
    exact both_pure.mpr ⟨⟨rfl, rfl⟩, h₁.alike⟩

/-- Neither position is that of another map. -/
theorem both_eraseOwnPosition (own : w.map.nodeAt p ≠ .error .foreign) :
    Both (eraseOwnPosition p) (eraseOwnPosition q) w w' fun b b' w₁ w₁' =>
      b' = b ∧ Alike g w₁ w₁' := by
  unfold eraseOwnPosition
  refine (both_erasePosition h up hp).bind ?_
  rintro r r' w₁ w₁' ⟨⟨hr, hr'⟩, h₁⟩
  rw [hr']
  match r, hr with
  | .ok _, _ => exact both_pure.mpr ⟨rfl, h₁⟩
  | .error .stale, _ => exact both_pure.mpr ⟨rfl, h₁⟩
  | .error .foreign, hr =>
    cases hn : w.map.nodeAt p with
    | ok n =>
      rw [hn] at hr
      cases hr
    | error e =>
      rw [hn] at hr own
      cases hr
      exact absurd rfl own

end Upright

end Map

/-! Cursors. -/

/-- The same start, but for the position if it is one. -/
def Start.moveTo {κ : Type} (p : Position) : Start κ → Start κ
  | .position _ => .position p
  | start => start

namespace Map

variable {κ ν : Type} {g : Guise} {t : Tree κ ν} {xs : List (Item κ ν)} {w w' : Workspace κ ν}
  {c : Cursor} {p q : Position}

section Cursors

variable (h : Twins g t xs w w') (up : g.mirrored = false)
include h up

theorem both_cursor (start : Start κ)
    (hp : ∀ p₀, start = .position p₀ → w'.map.nodeAt q = (w.map.nodeAt p).map g.node) :
    Both (cursor (start.moveTo p)) (cursor (start.moveTo q)) w w' fun c c' w₁ w₁' =>
      c' = c.map (Cursor.recast g) ∧ (∀ c₁, c = .ok c₁ → c₁.Rests ⟨w₁.map.id, w₁.map.policy, xs⟩) ∧
        Twins g t xs w₁ w₁' := by
  have rests := (yields_cursor h.shows (start.moveTo p)).mono
    fun _ w₁ ⟨_, hr, hc⟩ => (⟨hr.map, hc⟩ : w₁.map = w.map ∧ _)
  have outermost (side : Side) := (h.shows_right up).outermost side
  have alike : Both (cursor (start.moveTo p)) (cursor (start.moveTo q)) w w' fun c c' w₁ w₁' =>
      c' = c.map (Cursor.recast g) ∧ Twins g t xs w₁ w₁' := by
    cases start with
    | front =>
      have left := look_eq (h.shows.outermost .left)
      refine (both_bind_of_eq left (look_eq (outermost .left))).mpr ?_
      rw [Roll.outermost_recast]
      exact both_pure.mpr ⟨by simp [Except.map, Cursor.recast, Function.comp_def, Item.recast], h⟩
    | back =>
      refine (both_bind_of_eq (look_eq (h.shows.outermost .right))
        (look_eq (outermost .right))).mpr ?_
      rw [Roll.outermost_recast]
      exact both_pure.mpr ⟨by simp [Except.map, Cursor.recast, Function.comp_def, Item.recast], h⟩
    | find tag =>
      refine (both_locate h tag).bind ?_
      rintro n - w₁ w₁' ⟨⟨-, rfl⟩, -, -, h₁⟩
      exact both_pure.mpr ⟨rfl, h₁⟩
    | position p₀ =>
      refine (both_bind_of_eq (x := survey pure) (y := survey pure) rfl rfl).mpr ?_
      rw [hp p₀ rfl]
      refine both_pure.mpr ⟨?_, h⟩
      cases w.map.nodeAt p <;> rfl
  refine (alike.and_left rests).mono ?_
  rintro c c' w₁ w₁' ⟨⟨hc, h₁⟩, hm, hr⟩
  exact ⟨hc, hm ▸ hr, h₁⟩

theorem both_walk (start : Start κ) (steps : List Step)
    (hp : ∀ p₀, start = .position p₀ → w'.map.nodeAt q = (w.map.nodeAt p).map g.node) :
    Both (walk (start.moveTo p) steps) (walk (start.moveTo q) steps) w w' fun a a' w₁ w₁' =>
      a' = a.recast g ∧ Twins g t xs w₁ w₁' := by
  unfold walk
  refine (both_cursor h up start hp).bind ?_
  rintro c - w₁ w₁' ⟨rfl, hc, h₁⟩
  cases c with
  | error e => exact both_pure.mpr ⟨rfl, h₁⟩
  | ok c =>
    refine (both_bind_of_eq (survey_eq (Step.walk_eq h₁.shows (hc c rfl) steps))
      (survey_eq (Step.walk_eq (h₁.shows_right up) (Cursor.rests_recast g (hc c rfl))
        steps))).mpr ?_
    refine both_pure.mpr ⟨?_, h₁⟩
    rw [Roll.walk_recast, Reply.recast, Reply.recastAll_eq_map]

end Cursors

section Revisions

variable (h : Twins g t xs w w') (hc : c.Rests ⟨w.map.id, w.map.policy, xs⟩)
include h hc

theorem both_assign (v : ν) : Both (attempt (assign c v)) (attempt (assign (c.recast g) v)) w w'
    fun r r' w₁ w₁' => r' = r ∧ Alike g w₁ w₁' := by
  obtain ⟨n⟩ := c
  cases n with
  | none => exact both_pure.mpr ⟨rfl, h.alike⟩
  | some n =>
    obtain ⟨x, hx, rfl⟩ := Roll.mem_nodes.mp (hc n rfl)
    have stored : Both (overwriteAt x.node v >>= releaseValue)
        (overwriteAt (g.node x.node) v >>= releaseValue) w w' fun _ _ w₁ w₁' => Alike g w₁ w₁' := by
      refine (both_overwriteAt h hx v).bind ?_
      rintro - old w₁ w₁' ⟨⟨-, rfl⟩, t₁, h₁⟩
      exact yields_releaseValue.mpr (yields_releaseValue.mpr (h₁.releaseValue old).alike)
    refine (both_attempt stored).mono ?_
    rintro - - w₁ w₁' ⟨⟨⟩, ⟨⟩, rfl, rfl, h₁⟩
    exact ⟨rfl, h₁⟩

theorem both_overwriteUnder? (v : ν) :
    Both (overwriteUnder? c v) (overwriteUnder? (c.recast g) v) w w'
      fun old old' w₁ w₁' => old' = old ∧ Alike g w₁ w₁' := by
  obtain ⟨n⟩ := c
  cases n with
  | none => exact both_pure.mpr ⟨rfl, h.alike⟩
  | some n =>
    obtain ⟨x, hx, rfl⟩ := Roll.mem_nodes.mp (hc n rfl)
    refine (both_overwriteAt h hx v).bind ?_
    rintro - old w₁ w₁' ⟨⟨-, rfl⟩, t₁, h₁⟩
    exact both_pure.mpr ⟨rfl, h₁.alike⟩

variable (up : g.mirrored = false)
include up

theorem both_eraseUnder : Both (eraseUnder c) (eraseUnder (c.recast g)) w w'
    fun r r' w₁ w₁' => r' = (r.1, r.2.recast g) ∧ Alike g w₁ w₁' := by
  obtain ⟨n⟩ := c
  cases n with
  | none => exact both_pure.mpr ⟨rfl, h.alike⟩
  | some n =>
    have hn := hc n rfl
    have hn' : g.node n ∈ (Roll.recast g ⟨w.map.id, w.map.policy, xs⟩).nodes :=
      Cursor.rests_recast g hc _ rfl
    refine (both_bind_of_eq (look_eq (h.shows.neighbour .right hn))
      (look_eq ((h.shows_right up).neighbour .right hn'))).mpr ?_
    obtain ⟨x, hx, rfl⟩ := Roll.mem_nodes.mp hn
    refine (both_dispose h hx fun hg => by rw [up] at hg; cases hg).bind ?_
    rintro - - w₁ w₁' ⟨t₁, h₁⟩
    rw [Roll.next_recast]
    exact both_pure.mpr ⟨rfl, h₁.alike⟩

/-- A step of a writing cursor, which rests on corresponding nodes before and after it. -/
theorem both_revision (s : Revision ν) : Both (s.perform c) (s.perform (c.recast g)) w w'
    fun r r' w₁ w₁' => r' = (r.1.recast g, r.2.recast g) ∧
      ∃ t₁ ys, Twins g t₁ ys w₁ w₁' ∧ r.2.Rests ⟨w₁.map.id, w₁.map.policy, ys⟩ := by
  have alike : Both (s.perform c) (s.perform (c.recast g)) w w' fun r r' w₁ w₁' =>
      r' = (r.1.recast g, r.2.recast g) ∧ Alike g w₁ w₁' := by
    cases s with
    | look step =>
      have hc' := Cursor.rests_recast g hc
      rw [Revision.perform, Revision.perform,
        both_survey (Step.perform_eq h.shows hc step) (Step.perform_eq (h.shows_right up) hc' step),
        Roll.step_recast]
      exact ⟨rfl, h.alike⟩
    | set v =>
      refine (both_assign h hc v).bind ?_
      rintro - r w₁ w₁' ⟨rfl, h₁⟩
      cases r <;> exact both_pure.mpr ⟨rfl, h₁⟩
    | write v =>
      refine (both_overwriteUnder? h hc v).bind ?_
      rintro - old w₁ w₁' ⟨rfl, h₁⟩
      exact both_pure.mpr ⟨rfl, h₁⟩
    | erase =>
      refine (both_eraseUnder h hc up).bind ?_
      rintro r - w₁ w₁' ⟨rfl, h₁⟩
      exact both_pure.mpr ⟨rfl, h₁⟩
    | view steps =>
      refine (both_bind_of_eq (survey_eq (Step.walk_eq h.shows hc steps))
        (survey_eq (Step.walk_eq (h.shows_right up) (Cursor.rests_recast g hc) steps))).mpr ?_
      refine both_pure.mpr ⟨?_, h.alike⟩
      rw [Roll.walk_recast, Reply.recast, Reply.recastAll_eq_map]
  refine (alike.and_left (s.yields_perform h.shows hc)).mono ?_
  rintro - r' w₁ w₁' ⟨⟨hr, t₁, ys, h₁⟩, rfl, hl⟩
  refine ⟨hr, t₁, ys, h₁, ?_⟩
  have items : (Roll.amend ⟨w.map.id, w.map.policy, xs⟩ s c).2.2.items = ys :=
    hl.shows.items_eq.symm.trans h₁.holds.items_eq
  have rests := s.rests hc h.shows.nodup
  unfold Cursor.Rests Roll.nodes at rests ⊢
  rwa [items] at rests

end Revisions

theorem both_revisions (h : Twins g t xs w w') (up : g.mirrored = false)
    (hc : c.Rests ⟨w.map.id, w.map.policy, xs⟩) (steps : List (Revision ν)) :
    Both (Revision.walk steps c) (Revision.walk steps (c.recast g)) w w' fun as as' w₁ w₁' =>
      as' = as.map (Reply.recast g) ∧ Alike g w₁ w₁' := by
  induction steps generalizing t xs w w' c with
  | nil => exact both_pure.mpr ⟨rfl, h.alike⟩
  | cons s rest ih =>
    rw [Revision.walk, Revision.walk]
    refine (both_revision h hc up s).bind ?_
    rintro r - w₁ w₁' ⟨rfl, t₁, ys, h₁, hc₁⟩
    refine (ih h₁ hc₁).bind ?_
    rintro as - w₂ w₂' ⟨rfl, h₂⟩
    exact both_pure.mpr ⟨rfl, h₂⟩

theorem both_revise (h : Twins g t xs w w') (up : g.mirrored = false) (start : Start κ)
    (steps : List (Revision ν))
    (hp : ∀ p₀, start = .position p₀ → w'.map.nodeAt q = (w.map.nodeAt p).map g.node) :
    Both (revise (start.moveTo p) steps) (revise (start.moveTo q) steps) w w' fun a a' w₁ w₁' =>
      a' = a.recast g ∧ Alike g w₁ w₁' := by
  unfold revise
  refine (both_cursor h up start hp).bind ?_
  rintro c - w₁ w₁' ⟨rfl, hc, h₁⟩
  cases c with
  | error e => exact both_pure.mpr ⟨rfl, h₁.alike⟩
  | ok c =>
    refine (both_revisions h₁ up (hc c rfl) steps).bind ?_
    rintro as - w₂ w₂' ⟨rfl, h₂⟩
    refine both_pure.mpr ⟨?_, h₂⟩
    rw [Reply.recast, Reply.recastAll_eq_map]

/-! Whole operations. -/

/-- The same operation, but at another position if it acts at one. -/
def Op.moveTo (p : Position) : Op κ ν → Op κ ν
  | .eraseOwnPosition _ => .eraseOwnPosition p
  | .erasePosition _ => .erasePosition p
  | .walk start steps => .walk (start.moveTo p) steps
  | .revise start steps => .revise (start.moveTo p) steps
  | op => op

theorem Op.moveTo_of_none {op : Op κ ν} (h : op.position? = none) : op.moveTo p = op := by
  match op, h with
  | .walk start _, h => cases start <;> first | rfl | cases h
  | .revise start _, h => cases start <;> first | rfl | cases h
  | .size, _ | .isEmpty, _ | .insert _ _, _ | .insertMany _, _ | .get _, _ | .getEntry _, _
  | .contains _, _ | .overwrite _ _, _ | .outermost _, _ | .position _, _ | .erase _, _
  | .removeValue _, _ | .remove _, _ | .clear, _ | .audit, _ | .iterate _ _, _ => rfl

/-- The operation stores entries, under tags that may be new. -/
def Op.stores : Op κ ν → Bool
  | .insert _ _ | .insertMany _ => true
  | _ => false

section Answers

variable {α : Type} {x y : MapM κ ν α}

theorem both_answer {f f' : α → Reply κ ν}
    (hx : Both x y w w' fun a b w₁ w₁' => f' b = (f a).recast g ∧ Alike g w₁ w₁') :
    Both (x >>= fun a => pure (f a)) (y >>= fun b => pure (f' b)) w w' fun a a' w₁ w₁' =>
      a' = a.recast g ∧ Alike g w₁ w₁' :=
  hx.bind fun _ _ _ _ hp => both_pure.mpr hp

theorem both_answer_same {f : α → Reply κ ν} (hf : ∀ a, (f a).recast g = f a)
    (hx : Both x y w w' fun a b w₁ w₁' => b = a ∧ Alike g w₁ w₁') :
    Both (x >>= fun a => pure (f a)) (y >>= fun b => pure (f b)) w w' fun a a' w₁ w₁' =>
      a' = a.recast g ∧ Alike g w₁ w₁' :=
  both_answer (hx.mono fun a b _ _ ⟨e, hp⟩ => ⟨by rw [e, hf], hp⟩)

end Answers

/-- An operation that stores nothing answers alike on both maps, and leaves them alike. If it acts
at a position, the positions have to be of these maps and resolve alike. -/
theorem both_perform_of_not_stores {op : Op κ ν} (h : Twins g t xs w w')
    (up : g.mirrored = false) (hop : op.stores = false)
    (hp : op.position?.isSome → w'.map.nodeAt q = (w.map.nodeAt p).map g.node ∧
      w.map.nodeAt p ≠ .error .foreign) :
    Both (op.moveTo p).perform (op.moveTo q).perform w w' fun a a' w₁ w₁' =>
      a' = a.recast g ∧ Alike g w₁ w₁' := by
  have flat {α : Type} {x y : MapM κ ν α}
      (hx : Both x y w w' fun a b w₁ w₁' => b = a ∧ Twins g t xs w₁ w₁') :
      Both x y w w' fun a b w₁ w₁' => b = a ∧ Alike g w₁ w₁' :=
    hx.mono fun _ _ _ _ h₁ => h₁.imp_right Twins.alike
  have slim (tag : κ) (hg : g.mirrored = true) (n : NodeId) (_ : w.map.found? tag = some n) :
      w.map.Slim n := by
    rw [up] at hg
    cases hg
  cases op with
  | insert tag v => cases hop
  | insertMany es => cases hop
  | size =>
    refine both_answer_same (f := .number) (fun _ => rfl) ((both_survey_pure (·.count)).mpr ?_)
    exact ⟨h.count, h.alike⟩
  | isEmpty =>
    refine both_answer_same (f := .flag) (fun _ => rfl) ((both_survey_pure (·.isEmpty)).mpr ?_)
    exact ⟨by rw [isEmpty, h.count, isEmpty], h.alike⟩
  | get tag =>
    refine both_answer_same (fun _ => rfl) ((both_getEntry_tag h tag).bind ?_)
    rintro e - w₁ w₁' ⟨rfl, h₁⟩
    exact both_pure.mpr ⟨rfl, h₁.alike⟩
  | getEntry tag => exact both_answer_same (fun _ => rfl) (flat (both_getEntry_tag h tag))
  | contains tag => exact both_answer_same (fun _ => rfl) (flat (both_contains h tag))
  | overwrite tag v => exact both_answer_same (fun _ => rfl) (both_overwrite? h tag v)
  | outermost side => exact both_answer_same (fun _ => rfl) (flat (both_outermost h up side))
  | position tag =>
    refine both_answer ((both_find? h up tag).mono ?_)
    rintro p - w₁ w₁' ⟨rfl, h₁⟩
    exact ⟨rfl, h₁.alike⟩
  | erase tag => exact both_answer_same (fun _ => rfl) (both_erase h (slim tag))
  | removeValue tag => exact both_answer_same (fun _ => rfl) (both_removeValue? h (slim tag))
  | remove tag => exact both_answer_same (fun _ => rfl) (both_remove? h (slim tag))
  | eraseOwnPosition p₀ =>
    exact both_answer_same (fun _ => rfl)
      (both_eraseOwnPosition h up (hp rfl).1 (hp rfl).2)
  | erasePosition p₀ =>
    refine (both_erasePosition h up (hp rfl).1).bind ?_
    rintro - r w₁ w₁' ⟨⟨-, rfl⟩, h₁⟩
    cases r <;> exact both_pure.mpr ⟨rfl, h₁⟩
  | clear =>
    refine both_answer (f := fun _ => .done) ((both_clear h up).mono ?_)
    exact fun _ _ _ _ h₁ => ⟨rfl, h₁.alike⟩
  | audit =>
    refine both_answer ((both_audit h up).mono ?_)
    rintro a - w₁ w₁' ⟨rfl, h₁⟩
    exact ⟨rfl, h₁.alike⟩
  | iterate v pulls =>
    refine (both_survey (iterate_eq h.shows v pulls)
      (iterate_eq (h.shows_right up) v pulls)).mpr ⟨?_, h.alike⟩
    rw [Roll.entries_recast, Reply.recast, Reply.recastAll_eq_map, View.recast_pulls]
  | walk start steps =>
    refine (both_walk h up start steps fun p₀ e => ?_).mono ?_
    · exact (hp (by rw [e]; rfl)).1
    · exact fun _ _ _ _ h₁ => h₁.imp_right Twins.alike
  | revise start steps =>
    exact both_revise h up start steps fun p₀ e => (hp (by rw [e]; rfl)).1

end Map
end OrderedMap
