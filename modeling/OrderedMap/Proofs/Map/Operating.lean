import OrderedMap.Proofs.Map.Cursors

/-!
An operation on a map that stores no new entries does to its roll what the roll says, and answers
what the roll answers.
-/
namespace OrderedMap
namespace Map

variable {κ ν : Type} {w : Workspace κ ν} {r : Roll κ ν}

/-- Only the position of another map makes the erasure at an own position fail. -/
theorem ends_eraseOwnPosition (h : w.map.Shows r) (p : Position) :
    Ends (eraseOwnPosition p) w fun res w' => match r.resolve p with
      | .ok x => res = .ok true ∧
        Disposes w w' (r.erase (some x.node)) ((Op.eraseOwnPosition p).releases w)
      | .error .foreign => res = .error .erasesForeign ∧
        Disposes w w' r ((Op.eraseOwnPosition p).releases w)
      | .error .stale => res = .ok false ∧
        Disposes w w' r ((Op.eraseOwnPosition p).releases w) := by
  unfold eraseOwnPosition
  refine (yields_erasePosition h p).bind_ends ?_
  rintro - w' ⟨rfl, hl⟩
  cases hr : r.resolve p with
  | ok x =>
    rw [hr] at hl
    exact ⟨rfl, hl⟩
  | error e =>
    rw [hr] at hl
    cases e <;> exact ⟨rfl, hl⟩

/-- The position at which an operation is asked to act. -/
def Op.position? : Op κ ν → Option Position
  | .eraseOwnPosition p | .erasePosition p => some p
  | .walk (.position p) _ | .revise (.position p) _ => some p
  | _ => none

/-- What comes of an operation at a position that does not resolve. -/
def Op.denial (e : PositionError) : Op κ ν → Except Fault (Reply κ ν)
  | .eraseOwnPosition _ =>
    match e with
    | .foreign => .error .erasesForeign
    | .stale => .ok (.flag false)
  | _ => .ok (.refused e)

/-- An operation at a position that does not resolve does nothing, in whatever state the map is. -/
theorem ends_denied {op : Op κ ν} {p : Position} {e : PositionError} (hp : op.position? = some p)
    (hn : w.map.nodeAt p = .error e) :
    Ends op.perform w fun res w' => res = op.denial e ∧ w' = w := by
  have survey_eq : survey pure w = .ok w.map w := rfl
  have erase_eq : erasePosition p w = .ok (.error e) w := by
    rw [erasePosition, bind_of_eq survey_eq, hn]
    rfl
  have cursor_eq : cursor (.position p) w = .ok (.error e) w := by
    rw [cursor, bind_of_eq survey_eq, hn]
    rfl
  match op, hp with
  | .eraseOwnPosition p, rfl =>
    rw [Ends, Op.perform, eraseOwnPosition, bind_assoc, bind_of_eq erase_eq]
    cases e <;> exact ⟨rfl, rfl⟩
  | .erasePosition p, rfl =>
    rw [Ends, Op.perform, bind_of_eq erase_eq]
    exact ⟨rfl, rfl⟩
  | .walk (.position p) steps, rfl =>
    rw [Ends, Op.perform, walk, bind_of_eq cursor_eq]
    exact ⟨rfl, rfl⟩
  | .revise (.position p) steps, rfl =>
    rw [Ends, Op.perform, revise, bind_of_eq cursor_eq]
    exact ⟨rfl, rfl⟩

section Answers

variable {α : Type} {x : MapM κ ν α} {a : α} {r' : Roll κ ν} {rs : List (Released κ ν)}

theorem ends_answer (f : α → Reply κ ν)
    (hx : Yields x w fun b w' => b = a ∧ Disposes w w' r' rs) :
    Ends (x >>= fun b => pure (f b)) w fun res w' => res = .ok (f a) ∧ Disposes w w' r' rs := by
  refine (hx.mono ?_).ends_with
  rintro - w' ⟨rfl, hl⟩
  exact ⟨rfl, hl⟩

theorem ends_reading (h : w.map.Shows r) (f : α → Reply κ ν)
    (hx : Yields x w fun b w' => b = a ∧ Reads w w') :
    Ends (x >>= fun b => pure (f b)) w fun res w' => res = .ok (f a) ∧ Disposes w w' r [] :=
  ends_answer f (hx.mono fun _ _ ⟨hb, hr⟩ => ⟨hb, hr.disposes h⟩)

end Answers

/-- An operation that stores no new entries does to the map what it does to the roll. -/
theorem ends_perform {op : Op κ ν} {out : Except Fault (Reply κ ν)} {r' : Roll κ ν}
    (h : w.map.Shows r) (hp : r.perform? w.map.found? op = some (out, r')) :
    Ends op.perform w fun res w' => res = out ∧ Disposes w w' r' (op.releases w) := by
  cases op with
  | size =>
    cases hp
    exact ends_reading h .number ((yields_survey_pure _).mpr ⟨h.count, rfl, rfl, rfl⟩)
  | isEmpty =>
    cases hp
    refine ends_reading h .flag ((yields_survey_pure _).mpr ⟨?_, rfl, rfl, rfl⟩)
    rw [isEmpty, h.count]
    cases r.items <;> rfl
  | get t =>
    cases hp
    refine ends_reading h .value (yields_bind.mpr ((yields_lookup h t).mono ?_))
    rintro - w' ⟨rfl, hr⟩
    exact yields_pure.mpr ⟨Option.map_map .., hr⟩
  | getEntry t =>
    cases hp
    exact ends_reading h .entry (yields_lookup h t)
  | contains t =>
    cases hp
    refine ends_reading h .flag (yields_bind.mpr ((yields_find_node h t).mono ?_))
    rintro - w' ⟨rfl, hr⟩
    exact yields_pure.mpr ⟨rfl, hr⟩
  | overwrite t v =>
    cases hp
    exact ends_answer .value (yields_overwrite? h t v)
  | outermost side =>
    cases hp
    exact ends_reading h .entry (yields_outermost h side)
  | position t =>
    cases hp
    exact ends_reading h .position (yields_find? h t)
  | erase t =>
    cases hp
    exact ends_answer .flag (yields_erase h t)
  | removeValue t =>
    cases hp
    exact ends_answer .value (yields_removeValue? h t)
  | remove t =>
    cases hp
    exact ends_answer .entry (yields_remove? h t)
  | eraseOwnPosition p =>
    refine (ends_eraseOwnPosition h p).bind_pure ?_
    simp only [Roll.perform?, Option.some.injEq] at hp
    intro res w' hres
    cases hr : r.resolve p with
    | ok x =>
      rw [hr] at hp hres
      cases hp
      exact ⟨congrArg _ hres.1, hres.2⟩
    | error e =>
      rw [hr] at hp hres
      cases e <;> cases hp <;> exact ⟨congrArg _ hres.1, hres.2⟩
  | erasePosition p =>
    simp only [Roll.perform?, Option.some.injEq] at hp
    have hy : Yields (Op.erasePosition p).perform w fun a w' => .ok a = out ∧
        Disposes w w' r' ((Op.erasePosition p).releases w) := by
      rw [Op.perform, yields_bind]
      apply (yields_erasePosition h p).mono
      rintro - w' ⟨rfl, hl⟩
      cases hr : r.resolve p with
      | ok x =>
        rw [hr] at hp hl
        cases hp
        exact yields_pure.mpr ⟨rfl, hl⟩
      | error e =>
        rw [hr] at hp hl
        cases hp
        exact yields_pure.mpr ⟨rfl, hl⟩
    exact hy.ends fun _ _ ha => ha
  | clear =>
    cases hp
    refine ends_answer (fun _ => .done) (a := ()) ((yields_clear h.lists).mono ?_)
    exact fun _ _ ⟨_, hb, _⟩ => ⟨rfl, hb.disposes h⟩
  | iterate v pulls =>
    cases hp
    have hy : Yields (survey (iterate v pulls)) w fun a w' =>
        a = .many (v.pulls pulls r.entries) ∧ Disposes w w' r [] :=
      (yields_survey (iterate_eq h v pulls)).mpr ⟨rfl, .refl h⟩
    exact hy.ends fun _ _ ⟨ha, hl⟩ => ⟨congrArg _ ha, hl⟩
  | walk start steps =>
    simp only [Roll.perform?, Option.some.injEq] at hp
    refine (yields_walk h start steps).ends ?_
    rintro - w' ⟨hr, rfl⟩
    cases hs : r.cursor w.map.found? start <;> rw [hs] at hp <;> cases hp <;>
      exact ⟨rfl, hr.disposes h⟩
  | revise start steps =>
    simp only [Roll.perform?, Option.some.injEq] at hp
    refine (yields_revise h start steps).ends ?_
    intro a w' ha
    cases hs : r.cursor w.map.found? start <;> rw [hs] at hp ha <;> cases hp <;>
      exact ⟨congrArg _ ha.1, ha.2⟩
  | insert t v => cases hp
  | insertMany entries => cases hp
  | audit => cases hp

/-- What every operation achieves: those that the roll does not tell of are treated each on its
own. -/
theorem ends_perform_elim {op : Op κ ν} {post : Except Fault (Reply κ ν) → Workspace κ ν → Prop}
    (h : w.map.Shows r)
    (told : ∀ out r' w', r.perform? w.map.found? op = some (out, r') →
      Disposes w w' r' (op.releases w) → post out w')
    (stored : ∀ t v, op = .insert t v →
      Yields (insert t v) w fun new w' => post (.ok (.flag new)) w')
    (storedMany : ∀ es, op = .insertMany es →
      Yields (insertMany es) w fun _ w' => post (.ok .done) w')
    (audited : op = .audit → Yields audit w fun a w' => post (.ok (.audited a)) w') :
    Ends op.perform w post := by
  cases hp : r.perform? w.map.found? op with
  | some p =>
    apply (ends_perform h hp).mono
    rintro - w' ⟨rfl, hl⟩
    exact told _ _ w' hp hl
  | none =>
    cases op with
    | insert t v => exact (stored t v rfl).ends_with
    | insertMany es => exact (storedMany es rfl).ends_with
    | audit => exact (audited rfl).ends_with
    | _ => cases hp

end Map
end OrderedMap
