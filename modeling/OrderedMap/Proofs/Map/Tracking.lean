import OrderedMap.Proofs.Map.Fate

/-!
Every operation on a map gives every entry its fate, whatever the comparator.
-/
namespace OrderedMap

variable {κ ν : Type} {w w' w'' : Workspace κ ν} {r r' r'' : Roll κ ν}
  {f g : NodeId → Entry κ ν → Option (Entry κ ν)}

/-- An action leaves the map as another roll, to which the items of the former one are followed. -/
structure Map.Tracks (f : NodeId → Entry κ ν → Option (Entry κ ν)) (w w' : Workspace κ ν)
    (r r' : Roll κ ν) : Prop where
  leaves : Map.Leaves w w' r'
  follows : r.Follows f w.clock w'.clock r'
  stamped : r'.Stamped w'.clock
  id : r'.id = r.id

namespace Map.Tracks

theorem trans (h : Map.Tracks f w w' r r') (h' : Map.Tracks g w' w'' r' r'')
    (hr : r.Stamped w.clock) : Map.Tracks (fun n e => (f n e).bind (g n)) w w'' r r'' :=
  ⟨h.leaves.trans h'.leaves, h.follows.trans h'.follows hr h.leaves.clock h'.leaves.clock,
    h'.stamped, h'.id.trans h.id⟩

theorem of_thins (hl : Map.Leaves w w' r') (ht : r.Thins r') (hr : r.Stamped w.clock)
    (hf : r.Follows f w.clock w'.clock r') : Map.Tracks f w w' r r' :=
  ⟨hl, hf, hr.thins ht hl.clock, ht.id⟩

theorem refl (h : w.map.Shows r) (hr : r.Stamped w.clock) :
    Map.Tracks (fun _ e => some e) w w r r :=
  of_thins ⟨h, Nat.le_refl _⟩ (.refl r) hr (.refl r)

end Map.Tracks

namespace Revision

variable {c : Cursor}

theorem follows_amend (hr : r.Stamped w.clock) (s : Revision ν) (high : Nat) :
    r.Follows (s.fate c) w.clock high (r.amend s c).2.2 := by
  have fate_eq {f : Entry κ ν → Entry κ ν} (hs : ∀ n e, s.fate c n e =
      if c.rest = some n then some (f e) else some e) :
      s.fate c = fun n e => some (if c.rest = some n then f e else e) := by
    funext n e
    rw [hs]
    split <;> rfl
  cases s with
  | look s =>
    rw [fate_eq (f := fun e => e) fun _ _ => rfl]
    simp only [ite_self]
    exact .refl r
  | set v =>
    rw [fate_eq (f := fun e => ⟨e.tag, v⟩) fun _ _ => rfl]
    exact .rewrite r c.rest _
  | write v =>
    rw [fate_eq (f := fun e => ⟨e.tag, v⟩) fun _ _ => rfl]
    exact .rewrite r c.rest _
  | erase => exact .erase hr c.rest
  | view steps =>
    rw [fate_eq (f := fun e => e) fun _ _ => rfl]
    simp only [ite_self]
    exact .refl r

theorem yields_perform_tracks (h : w.map.Shows r) (hr : r.Stamped w.clock) (hc : c.Rests r)
    (s : Revision ν) : Yields (s.perform c) w fun res w' =>
      res.2 = (r.amend s c).2.1 ∧ Map.Tracks (s.fate c) w w' r (r.amend s c).2.2 := by
  apply (s.yields_perform h hc).mono
  rintro - w' ⟨rfl, hl⟩
  exact ⟨rfl, .of_thins hl.toLeaves (.amend r s c) hr (s.follows_amend hr w'.clock)⟩

theorem yields_walk_tracks (h : w.map.Shows r) (hr : r.Stamped w.clock) (hc : c.Rests r)
    (steps : List (Revision ν)) : Yields (walk steps c) w fun _ w' =>
      ∃ r', Map.Tracks (walkFate steps c w) w w' r r' := by
  induction steps generalizing w r c with
  | nil => exact yields_pure.mpr ⟨r, .refl h hr⟩
  | cons s rest ih =>
    obtain ⟨⟨a, c₁⟩, w₁, he, rfl, ht⟩ := s.yields_perform_tracks h hr hc
    have fate_eq : walkFate (s :: rest) c w =
        fun n e => (s.fate c n e).bind (walkFate rest (r.amend s c).2.1 w₁ n) := by
      funext n e
      simp only [walkFate, he]
    rw [walk, yields_bind, yields_of_eq he]
    simp only
    rw [yields_bind, fate_eq]
    apply (ih ht.leaves.shows ht.stamped (s.rests hc h.nodup)).mono
    rintro as w₂ ⟨r₂, ht₂⟩
    exact yields_pure.mpr ⟨r₂, ht.trans ht₂ hr⟩

end Revision

namespace Map

variable {c : Cursor}

theorem yields_insert_tracks (h : w.map.Shows r) (hr : r.Stamped w.clock) (t : κ) (v : ν) :
    Yields (insert t v) w fun _ w' =>
      ∃ r', Tracks (fun n e => some (insertFate t v w n e)) w w' r r' := by
  apply (yields_insert h t v).mono
  rintro - w' ⟨-, r', hs, hl⟩
  exact ⟨r', hl.toLeaves, .stores h.nodup hs, hr.stores hs hl.clock, hs.id⟩

theorem yields_insertMany_tracks (h : w.map.Shows r) (hr : r.Stamped w.clock)
    (es : List (κ × ν)) : Yields (insertMany es) w fun _ w' =>
      ∃ r', Tracks (fun n e => some (insertManyFate es w n e)) w w' r r' := by
  induction es generalizing w r with
  | nil => exact yields_pure.mpr ⟨r, .refl h hr⟩
  | cons e rest ih =>
    obtain ⟨t, v⟩ := e
    obtain ⟨b, w₁, he, r₁, ht⟩ := yields_insert_tracks h hr t v
    have fate_eq : (fun n e => some (insertManyFate ((t, v) :: rest) w n e)) =
        fun n e => (some (insertFate t v w n e)).bind fun e =>
          some (insertManyFate rest w₁ n e) := by
      funext n e
      simp only [insertManyFate, he, Option.bind_some]
    rw [insertMany, yields_bind, yields_of_eq he, fate_eq]
    apply (ih ht.leaves.shows ht.stamped).mono
    rintro - w₂ ⟨r₂, ht₂⟩
    exact ⟨r₂, ht.trans ht₂ hr⟩

theorem yields_revise_tracks (h : w.map.Shows r) (hr : r.Stamped w.clock) (start : Start κ)
    (steps : List (Revision ν)) : Yields (revise start steps) w fun _ w' =>
      ∃ r', Tracks ((Op.revise start steps).fate w) w w' r r' := by
  obtain ⟨res, w₁, he, rfl, hread, hc⟩ := yields_cursor h start
  have hl := hread.leaves h
  unfold revise
  rw [yields_bind, yields_of_eq he]
  cases hs : r.cursor w.map.found? start with
  | error e =>
    rw [hs] at he
    have fate_eq : (Op.revise start steps).fate w = fun _ e => some e := by
      funext n e
      simp only [Op.fate, he]
    rw [fate_eq]
    exact yields_pure.mpr ⟨r, .of_thins hl (.refl r) hr (.refl r)⟩
  | ok c =>
    rw [hs] at he
    have fate_eq : (Op.revise start steps).fate w = Revision.walkFate steps c w₁ := by
      funext n e
      simp only [Op.fate, he]
    simp only
    rw [yields_bind, fate_eq]
    apply (Revision.yields_walk_tracks hl.shows (hread.clock ▸ hr) (hc c hs) steps).mono
    rintro as w₂ ⟨r₂, ht⟩
    have hf := ht.follows
    rw [hread.clock] at hf
    exact yields_pure.mpr ⟨r₂, hl.trans ht.leaves, hf, ht.stamped, ht.id⟩

/-- An operation that stores no new entries and revises none gives every item its fate. -/
theorem follows_perform {op : Op κ ν} {out : Except Fault (Reply κ ν)} {high : Nat}
    (h : w.map.Shows r) (hr : r.Stamped w.clock)
    (hop : ∀ start steps, op ≠ .revise start steps)
    (hp : r.perform? w.map.found? op = some (out, r')) :
    r.Follows (op.fate w) w.clock high r' := by
  have target_eq (p : Position) :
      (w.map.nodeAt p).toOption = (r.resolve p).toOption.map (·.node) := by
    rw [h.nodeAt]
    cases r.resolve p <;> rfl
  cases op <;> simp only [Roll.perform?, Option.some.injEq, reduceCtorEq] at hp
  case overwrite t v =>
    cases hp
    exact .rewrite r _ _
  case erase t =>
    cases hp
    exact .erase hr _
  case removeValue t =>
    cases hp
    exact .erase hr _
  case remove t =>
    cases hp
    exact .erase hr _
  case eraseOwnPosition p =>
    change r.Follows (eraseFate (w.map.nodeAt p).toOption) w.clock high r'
    rw [target_eq]
    split at hp <;> cases hp <;> rename_i hx <;> rw [hx]
    · exact .erase hr (some _)
    · exact .refl r
    · exact .refl r
  case erasePosition p =>
    change r.Follows (eraseFate (w.map.nodeAt p).toOption) w.clock high r'
    rw [target_eq]
    split at hp <;> cases hp <;> rename_i hx <;> rw [hx]
    · exact .erase hr (some _)
    · exact .refl r
  case clear =>
    cases hp
    exact .empty r
  case walk start steps =>
    split at hp <;> cases hp <;> exact .refl r
  case revise start steps => exact absurd rfl (hop start steps)
  all_goals
    cases hp
    exact .refl r

/-- Every operation gives every item its fate. -/
theorem ends_perform_tracks (h : w.map.Shows r) (hr : r.Stamped w.clock) (op : Op κ ν) :
    Ends op.perform w fun _ w' => ∃ r', Tracks (op.fate w) w w' r r' := by
  by_cases hop : ∃ start steps, op = .revise start steps
  · obtain ⟨start, steps, rfl⟩ := hop
    exact (yields_revise_tracks h hr start steps).ends fun _ _ ht => ht
  have hop' : ∀ start steps, op ≠ .revise start steps := fun a b e => hop ⟨a, b, e⟩
  refine ends_perform_elim h ?_ ?_ ?_ ?_
  · intro out r' w' hp hl
    exact ⟨r', .of_thins hl.toLeaves (.perform hp) hr (follows_perform h hr hop' hp)⟩
  · rintro t v rfl
    exact yields_insert_tracks h hr t v
  · rintro es rfl
    exact yields_insertMany_tracks h hr es
  · rintro rfl
    apply (yields_audit h.lists).mono
    rintro - w' ⟨hread, -⟩
    exact ⟨r, .of_thins (hread.leaves h) (.refl r) hr (.refl r)⟩

end Map
end OrderedMap
