import OrderedMap.Proofs.Map.Access
import OrderedMap.Proofs.Map.Releases

/-!
Cursors in terms of the roll. A writing cursor rests on an item or on nothing after every step, and
does to the map what it does to the roll.
-/
namespace OrderedMap

theorem Item.ne_of_follower {κ ν : Type} {xs : List (Item κ ν)} {n m : NodeId}
    (h : (xs.map (·.node)).Nodup) (hf : follower n xs = some m) : m ≠ n := by
  induction xs with
  | nil => cases hf
  | cons x xs ih =>
    rw [List.map_cons, List.nodup_cons] at h
    rw [follower] at hf
    split at hf
    · rename_i hx
      obtain ⟨y, hy, rfl⟩ := Option.map_eq_some_iff.mp hf
      rintro rfl
      exact h.1 (hx ▸ List.mem_map_of_mem (List.mem_of_mem_head? hy))
    · exact ih h.2 hf

namespace Roll

variable {κ ν : Type} (r : Roll κ ν) (n : Option NodeId) (f : Entry κ ν → Entry κ ν)

@[simp] theorem nodes_rewrite : (r.rewrite n f).nodes = r.nodes := by
  cases n with
  | none => rfl
  | some n =>
    simp only [nodes, rewrite, Item.rewriteAt, List.map_map]
    refine List.map_congr_left fun x _ => ?_
    simp only [Function.comp_apply]
    split <;> rfl

/-- The successor of an item stays when the item goes. -/
theorem rests_erase (h : r.nodes.Nodup) :
    Cursor.Rests ⟨n.bind (r.next .right)⟩ (r.erase n) := by
  intro m hm
  obtain ⟨n, rfl, hn⟩ := Option.bind_eq_some_iff.mp hm
  obtain ⟨x, hx, rfl⟩ := mem_nodes.mp (mem_nodes_of_next hn)
  have hne : x.node ≠ n := Item.ne_of_follower h hn
  exact List.mem_map_of_mem (List.mem_filter.mpr ⟨hx, decide_eq_true hne⟩)

end Roll

namespace Map

variable {κ ν : Type} {w : Workspace κ ν} {r : Roll κ ν} {c : Cursor}

section Starts

variable (h : w.map.Shows r)
include h

theorem yields_find? (s : κ) : Yields (find? s) w fun p w' =>
    p = (r.at? (w.map.found? s)).map r.position ∧ Reads w w' := by
  unfold find?
  rw [yields_bind]
  apply (yields_find_node h s).mono
  rintro n w₁ ⟨rfl, hr⟩
  rw [yields_survey ((hr.leaves h).shows.position? (h.rests_found s))]
  exact ⟨rfl, hr⟩

/-- A cursor is had at any start but a position that does not resolve. -/
theorem yields_cursor (start : Start κ) : Yields (cursor start) w fun c w' =>
    c = r.cursor w.map.found? start ∧ Reads w w' ∧ ∀ c', c = .ok c' → c'.Rests r := by
  unfold cursor
  cases start with
  | front =>
    rw [yields_bind, yields_look (h.outermost .left)]
    refine yields_pure.mpr ⟨rfl, ⟨rfl, rfl, rfl⟩, ?_⟩
    rintro - ⟨⟩ n hn
    obtain ⟨x, hx, rfl⟩ := Option.map_eq_some_iff.mp hn
    exact Roll.mem_nodes_of_outermost hx
  | back =>
    rw [yields_bind, yields_look (h.outermost .right)]
    refine yields_pure.mpr ⟨rfl, ⟨rfl, rfl, rfl⟩, ?_⟩
    rintro - ⟨⟩ n hn
    obtain ⟨x, hx, rfl⟩ := Option.map_eq_some_iff.mp hn
    exact Roll.mem_nodes_of_outermost hx
  | find t =>
    rw [yields_bind]
    apply (yields_find_node h t).mono
    rintro n w₁ ⟨rfl, hr⟩
    refine yields_pure.mpr ⟨rfl, hr, ?_⟩
    rintro - ⟨⟩
    exact h.rests_found t
  | position p =>
    rw [yields_bind, yields_of_eq (x := survey pure) (s := w) rfl]
    refine yields_pure.mpr ⟨?_, ⟨rfl, rfl, rfl⟩, ?_⟩
    · rw [h.nodeAt, Roll.cursor]
      cases r.resolve p <;> rfl
    · rw [h.nodeAt]
      cases hr : r.resolve p with
      | error e => exact nofun
      | ok x =>
        rintro - ⟨⟩ n ⟨⟩
        exact List.mem_map_of_mem (Roll.mem_items_of_resolve hr).1

theorem yields_walk (start : Start κ) (steps : List Step) : Yields (walk start steps) w
    fun a w' => Reads w w' ∧ a = match r.cursor w.map.found? start with
      | .ok c => .many (r.walk steps c)
      | .error e => .refused e := by
  unfold walk
  rw [yields_bind]
  apply (yields_cursor h start).mono
  rintro - w₁ ⟨rfl, hr, hc⟩
  cases hs : r.cursor w.map.found? start with
  | error e => exact yields_pure.mpr ⟨hr, rfl⟩
  | ok c =>
    simp only
    rw [yields_bind, yields_survey (Step.walk_eq (hr.leaves h).shows (hc c hs) steps)]
    exact yields_pure.mpr ⟨hr, rfl⟩

end Starts

theorem yields_attempt {α : Type} {x : MapM κ ν α} {post : Except Fault α → Workspace κ ν → Prop}
    (h : Ends x w post) : Yields (attempt x) w post := by
  unfold Ends at h
  cases hx : x w with
  | ok y w' =>
    rw [hx] at h
    exact .of_eq (by simp only [attempt, hx]) h
  | error f w' =>
    rw [hx] at h
    exact .of_eq (by simp only [attempt, hx]) h

theorem ends_assign (h : w.map.Shows r) (hc : c.Rests r) (v : ν) :
    Ends (assign c v) w fun res w' =>
      res = (if c.rest.isSome then .ok () else .error .setsUnavailable) ∧
        Disposes w w' (r.rewrite c.rest fun e => ⟨e.tag, v⟩) (w.map.valueReleasesAt c.rest) := by
  unfold assign
  cases hn : c.rest with
  | none => exact ⟨rfl, .refl h⟩
  | some n =>
    simp only
    have hy : Yields (overwriteAt n v >>= releaseValue) w fun _ w' =>
        Disposes w w' (r.rewrite (some n) fun e => ⟨e.tag, v⟩)
          (w.map.valueReleasesAt (some n)) := by
      rw [yields_bind]
      apply (yields_overwrite_node h (hc n hn)).mono
      rintro old w₁ ⟨ho, hl⟩
      refine yields_releaseValue.mpr ⟨⟨hl.shows, hl.clock⟩, ?_⟩
      have hp : w₁.map.policy = w.map.policy := hl.shows.policy.trans h.policy.symm
      obtain ⟨x, hx, rfl⟩ := Option.map_eq_some_iff.mp ho
      rw [valueReleasesAt, h.bind_entryAt?, hx, Workspace.journal_withJournal,
        Journal.released_releaseValue, hl.released, hp]
      simp
    exact hy.ends fun _ _ hl => ⟨rfl, hl⟩

theorem yields_overwriteUnder? (h : w.map.Shows r) (hc : c.Rests r) (v : ν) :
    Yields (overwriteUnder? c v) w fun old w' =>
      old = (r.at? c.rest).map (·.entry.value) ∧
        Disposes w w' (r.rewrite c.rest fun e => ⟨e.tag, v⟩) [] := by
  unfold overwriteUnder?
  cases hn : c.rest with
  | none => exact yields_pure.mpr ⟨rfl, .refl h⟩
  | some n =>
    simp only
    rw [yields_bind]
    apply (yields_overwrite_node h (hc n hn)).mono
    exact fun _ _ ⟨ho, hl⟩ => yields_pure.mpr ⟨ho.symm, hl⟩

theorem yields_eraseUnder (h : w.map.Shows r) (hc : c.Rests r) :
    Yields (eraseUnder c) w fun res w' =>
      res = (c.rest.isSome, ⟨c.rest.bind (r.next .right)⟩) ∧
        Disposes w w' (r.erase c.rest) (w.map.releasesAt c.rest) := by
  obtain ⟨n⟩ := c
  unfold eraseUnder
  cases n with
  | none => exact yields_pure.mpr ⟨rfl, .refl h⟩
  | some n =>
    simp only
    rw [yields_bind, yields_look (h.neighbour .right (hc n rfl)), yields_bind]
    apply (yields_dispose_node h (hc n rfl)).mono
    exact fun _ _ hl => yields_pure.mpr ⟨rfl, hl⟩

end Map

namespace Revision

variable {κ ν : Type} {w : Workspace κ ν} {r : Roll κ ν} {c : Cursor}

/-- Wherever a step takes a writing cursor, it rests on an item or on nothing. -/
theorem rests (s : Revision ν) (hc : c.Rests r) (hr : r.nodes.Nodup) :
    (r.amend s c).2.1.Rests (r.amend s c).2.2 := by
  cases s with
  | look s => exact s.rests hc
  | set v =>
    intro n hn
    rw [Roll.amend, Roll.nodes_rewrite]
    exact hc n hn
  | write v =>
    intro n hn
    rw [Roll.amend, Roll.nodes_rewrite]
    exact hc n hn
  | erase => exact r.rests_erase c.rest hr
  | view steps => exact hc

theorem yields_perform (h : w.map.Shows r) (hc : c.Rests r) (s : Revision ν) :
    Yields (s.perform c) w fun res w' =>
      res = ((r.amend s c).1, (r.amend s c).2.1) ∧
        Map.Disposes w w' (r.amend s c).2.2 (s.releases c w.map) := by
  cases s with
  | look s =>
    rw [perform, Map.yields_survey (Step.perform_eq h hc s)]
    exact ⟨rfl, .refl h⟩
  | set v =>
    rw [perform, yields_bind]
    apply (Map.yields_attempt (Map.ends_assign h hc v)).mono
    rintro res w' ⟨rfl, hl⟩
    obtain ⟨n⟩ := c
    cases n <;> exact yields_pure.mpr ⟨rfl, hl⟩
  | write v =>
    rw [perform, yields_bind]
    apply (Map.yields_overwriteUnder? h hc v).mono
    rintro - w' ⟨rfl, hl⟩
    exact yields_pure.mpr ⟨rfl, hl⟩
  | erase =>
    rw [perform, yields_bind]
    apply (Map.yields_eraseUnder h hc).mono
    rintro - w' ⟨rfl, hl⟩
    exact yields_pure.mpr ⟨rfl, hl⟩
  | view steps =>
    rw [perform, yields_bind, Map.yields_survey (Step.walk_eq h hc steps)]
    exact yields_pure.mpr ⟨rfl, .refl h⟩

theorem yields_walk (h : w.map.Shows r) (hc : c.Rests r) (steps : List (Revision ν)) :
    Yields (walk steps c) w fun as w' =>
      as = (r.revise steps c).1 ∧
        Map.Disposes w w' (r.revise steps c).2 (walkReleases steps c w) := by
  induction steps generalizing w r c with
  | nil => exact yields_pure.mpr ⟨rfl, .refl h⟩
  | cons s rest ih =>
    obtain ⟨-, w₁, he, rfl, hl⟩ := s.yields_perform h hc
    have releases_eq : walkReleases (s :: rest) c w =
        s.releases c w.map ++ walkReleases rest (r.amend s c).2.1 w₁ := by
      simp only [walkReleases, he]
    rw [walk, yields_bind, yields_of_eq he, releases_eq]
    simp only
    rw [yields_bind]
    apply (ih hl.shows (s.rests hc h.nodup)).mono
    rintro - w₂ ⟨rfl, hl₂⟩
    exact yields_pure.mpr ⟨rfl, hl.trans hl₂⟩

end Revision

namespace Map

variable {κ ν : Type} {w : Workspace κ ν} {r : Roll κ ν}

theorem yields_revise (h : w.map.Shows r) (start : Start κ) (steps : List (Revision ν)) :
    Yields (revise start steps) w fun a w' => match r.cursor w.map.found? start with
      | .ok c => a = .many (r.revise steps c).1 ∧
        Disposes w w' (r.revise steps c).2 ((Op.revise start steps).releases w)
      | .error e => a = .refused e ∧ Disposes w w' r ((Op.revise start steps).releases w) := by
  obtain ⟨-, w₁, he, rfl, hr, hc⟩ := yields_cursor h start
  have hl := hr.disposes h
  unfold revise
  rw [yields_bind, yields_of_eq he]
  cases hs : r.cursor w.map.found? start with
  | error e =>
    rw [hs] at he
    have releases_eq : (Op.revise start steps).releases w = [] := by simp only [Op.releases, he]
    rw [releases_eq]
    exact yields_pure.mpr ⟨rfl, hl⟩
  | ok c =>
    rw [hs] at he
    have releases_eq : (Op.revise start steps).releases w = Revision.walkReleases steps c w₁ := by
      simp only [Op.releases, he]
    rw [releases_eq]
    simp only
    rw [yields_bind]
    apply (Revision.yields_walk hl.shows (hc c hs) steps).mono
    rintro - w₂ ⟨rfl, hl₂⟩
    exact yields_pure.mpr ⟨rfl, hl.trans hl₂⟩

end Map
end OrderedMap
