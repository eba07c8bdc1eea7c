import OrderedMap.Proofs.Map.Defences
import OrderedMap.Proofs.Map.Room
import OrderedMap.Proofs.Store.Revival

/-!
Faults. In the course of a run only a misuse ends in one, and none of the assertions on the way
does. A misuse, a position that is refused and a value that cannot be stored leave everything as it
was.
-/
namespace OrderedMap

variable {κ ν : Type}

/-- A fault is among the answers. -/
inductive Reply.Tells (f : Fault) : Reply κ ν → Prop
  | here : Tells f (.faulted f)
  | within {a : Reply κ ν} {as : List (Reply κ ν)} (mem : a ∈ as) (tells : Tells f a) :
      Tells f (.many as)

section Answers

variable {f : Fault} {a : Reply κ ν} {as : List (Reply κ ν)}

theorem Reply.tells_faulted {g : Fault} : Tells f (.faulted g : Reply κ ν) ↔ f = g := by
  constructor
  · rintro ⟨⟩
    rfl
  · rintro rfl
    exact .here

theorem Reply.tells_many : Tells f (.many as) ↔ ∃ a ∈ as, Tells f a := by
  constructor
  · rintro ⟨⟩
    exact ⟨_, ‹_›, ‹_›⟩
  · rintro ⟨a, ha, hf⟩
    exact .within ha hf

/-- An iterator tells of no fault. -/
theorem View.not_tells_of_pulls (v : View) (pulls : List Pull) (es : List (Entry κ ν))
    (h : a ∈ v.pulls pulls es) : ¬ a.Tells f := by
  have single (e : Option (Entry κ ν)) : ¬ (v.shown e).Tells f := by
    intro hf
    cases v <;> cases e <;> cases hf
  have several (es : List (Entry κ ν)) : ¬ (v.shownAll es).Tells f := by
    rw [View.shownAll, Reply.tells_many]
    rintro ⟨b, hb, hf⟩
    obtain ⟨e, -, rfl⟩ := List.mem_map.mp hb
    exact single (some e) hf
  refine View.forall_mem_pulls (P := fun a => ¬ a.Tells f) single several ?_ ?_ pulls es a h
  · rintro n ⟨⟩
  · rintro lower upper ⟨⟩

end Answers

namespace Roll

variable {r r' : Roll κ ν} {f : Fault}

mutual

theorem not_tells_of_step (s : Step) (c : Cursor) : ¬ (r.step s c).1.Tells f := by
  cases s with
  | move side =>
    rw [step]
    split <;> exact nofun
  | available => exact nofun
  | tag => exact nofun
  | value => exact nofun
  | entry => exact nofun
  | position => exact nofun
  | fork steps =>
    intro h
    obtain ⟨a, ha, hf⟩ := Reply.tells_many.mp h
    exact not_tells_of_walk steps c ha hf

theorem not_tells_of_walk (steps : List Step) (c : Cursor) {a : Reply κ ν}
    (ha : a ∈ r.walk steps c) : ¬ a.Tells f := by
  cases steps with
  | nil =>
    rw [walk] at ha
    cases ha
  | cons s rest =>
    rw [walk] at ha
    rcases List.mem_cons.mp ha with rfl | ha
    · exact not_tells_of_step s c
    · exact not_tells_of_walk rest _ ha

end

theorem tells_of_amend (s : Revision ν) (c : Cursor) (h : (r.amend s c).1.Tells f) :
    f = .setsUnavailable := by
  cases s with
  | look s => exact absurd h (not_tells_of_step s c)
  | set v =>
    rw [amend] at h
    split at h
    · cases h
    · exact Reply.tells_faulted.mp h
  | write v => cases h
  | erase => cases h
  | view steps =>
    obtain ⟨a, ha, hf⟩ := Reply.tells_many.mp h
    exact absurd hf (not_tells_of_walk steps c ha)

theorem tells_of_revise (steps : List (Revision ν)) (c : Cursor) {a : Reply κ ν}
    (ha : a ∈ (r.revise steps c).1) (h : a.Tells f) : f = .setsUnavailable := by
  induction steps generalizing r c with
  | nil => cases ha
  | cons s rest ih =>
    rcases List.mem_cons.mp ha with rfl | ha
    · exact tells_of_amend s c h
    · exact ih _ ha

end Roll

/-- The answer refuses nothing, and tells of no fault but in the course of a revision. -/
structure Reply.Regular (op : Map.Op κ ν) (a : Reply κ ν) : Prop where
  not_refused : ∀ e, a ≠ .refused e
  tells : ∀ f, a.Tells f → f = .setsUnavailable ∧ ∃ start steps, op = .revise start steps

namespace Roll

variable {r r' : Roll κ ν}

theorem resolve_of_cursor {seek : κ → Option NodeId} {start : Start κ} {e : PositionError}
    (h : r.cursor seek start = .error e) : ∃ p, start = .position p ∧ r.resolve p = .error e := by
  cases start with
  | front => cases h
  | back => cases h
  | find t => cases h
  | position p =>
    refine ⟨p, rfl, ?_⟩
    rw [cursor] at h
    cases hr : r.resolve p with
    | ok x =>
      rw [hr] at h
      cases h
    | error e' =>
      rw [hr] at h
      cases h
      rfl

/-- An operation that the roll tells of acts at a position that does not resolve, or it ends with a
regular answer. -/
theorem denied_or_regular {seek : κ → Option NodeId} {op : Map.Op κ ν}
    {out : Except Fault (Reply κ ν)} (hp : r.perform? seek op = some (out, r')) :
    (∃ p e, op.position? = some p ∧ r.resolve p = .error e) ∨ ∃ a, out = .ok a ∧ a.Regular op := by
  cases op <;> simp only [perform?, Option.some.injEq, reduceCtorEq] at hp
  case eraseOwnPosition p =>
    cases hr : r.resolve p with
    | error e => exact .inl ⟨p, e, rfl, hr⟩
    | ok x =>
      rw [hr] at hp
      cases hp
      refine .inr ⟨_, rfl, fun e he => ?_, fun f hf => ?_⟩
      · cases he
      · cases hf
  case erasePosition p =>
    cases hr : r.resolve p with
    | error e => exact .inl ⟨p, e, rfl, hr⟩
    | ok x =>
      rw [hr] at hp
      cases hp
      refine .inr ⟨_, rfl, fun e he => ?_, fun f hf => ?_⟩
      · cases he
      · cases hf
  case iterate v pulls =>
    cases hp
    refine .inr ⟨_, rfl, fun e he => ?_, fun f hf => ?_⟩
    · cases he
    · obtain ⟨b, hb, hf⟩ := Reply.tells_many.mp hf
      exact absurd hf (v.not_tells_of_pulls pulls _ hb)
  case walk start steps =>
    cases hc : r.cursor seek start with
    | error e =>
      obtain ⟨p, rfl, hr⟩ := resolve_of_cursor hc
      exact .inl ⟨p, e, rfl, hr⟩
    | ok c =>
      rw [hc] at hp
      cases hp
      refine .inr ⟨_, rfl, fun e he => ?_, fun f hf => ?_⟩
      · cases he
      · obtain ⟨b, hb, hf⟩ := Reply.tells_many.mp hf
        exact absurd hf (not_tells_of_walk steps c hb)
  case revise start steps =>
    cases hc : r.cursor seek start with
    | error e =>
      obtain ⟨p, rfl, hr⟩ := resolve_of_cursor hc
      exact .inl ⟨p, e, rfl, hr⟩
    | ok c =>
      rw [hc] at hp
      cases hp
      refine .inr ⟨_, rfl, fun e he => ?_, fun f hf => ⟨?_, start, steps, rfl⟩⟩
      · cases he
      · obtain ⟨b, hb, hf⟩ := Reply.tells_many.mp hf
        exact tells_of_revise steps c hb hf
  all_goals
    cases hp
    refine .inr ⟨_, rfl, fun e he => ?_, fun f hf => ?_⟩
    · cases he
    · cases hf

end Roll

namespace Map

variable {w w' : Workspace κ ν} {r : Roll κ ν}

/-- The operation acts at a position that does not resolve. -/
def Denied (m : Map κ ν) (op : Op κ ν) : Prop :=
  ∃ p e, op.position? = some p ∧ m.nodeAt p = .error e

theorem ends_regular {op : Op κ ν} (h : w.map.Shows r) (hn : ¬ w.map.Denied op) :
    Ends op.perform w fun res _ => ∃ a, res = .ok a ∧ a.Regular op := by
  refine ends_perform_elim h ?_ ?_ ?_ ?_
  · intro out r' w' hp hl
    refine (Roll.denied_or_regular hp).resolve_left ?_
    rintro ⟨p, e, hop, hr⟩
    exact hn ⟨p, e, hop, by rw [h.nodeAt, hr]; rfl⟩
  · rintro t v rfl
    apply (yields_insert h t v).mono
    exact fun _ _ _ => ⟨_, rfl, nofun, nofun⟩
  · rintro es rfl
    apply (yields_insertMany_grows h.lists es).mono
    exact fun _ _ _ => ⟨_, rfl, nofun, nofun⟩
  · rintro rfl
    apply (yields_audit h.lists).mono
    exact fun _ _ _ => ⟨_, rfl, nofun, nofun⟩

/-- A value that cannot be stored leaves everything as it was. -/
theorem assign_error {c : Cursor} {v : ν} {f : Fault} (h : assign c v w = .error f w') :
    w' = w := by
  unfold assign at h
  cases hc : c.rest with
  | none =>
    rw [hc] at h
    cases h
    rfl
  | some n =>
    rw [hc] at h
    simp only [overwriteAt, edit, Arena.replaceEntry, Arena.inspect, Arena.alter, Bind.bind,
      EStateM.bind, Arena.entry, Except.bind] at h
    cases hn : w.map.arena.node n with
    | error e =>
      simp only [hn] at h
      cases h
      rfl
    | ok x =>
      simp only [hn] at h
      cases he : x.entry with
      | none =>
        simp only [he] at h
        cases h
        rfl
      | some e => simp [he, hn, pure, Except.pure, EStateM.pure, releaseValue, survey, note,
          Bind.bind, EStateM.bind] at h

end Map

section Revisions

variable {w w' : Workspace κ ν} {before later : List (Revision ν)} {v : ν} {c : Cursor} {f : Fault}
  {as bs : List (Reply κ ν)}

theorem Revision.walk_cons_eq_ok {s : Revision ν} {rest : List (Revision ν)} :
    Revision.walk (s :: rest) c w = .ok as w' ↔ ∃ a c₁ w₁ rs, s.perform c w = .ok (a, c₁) w₁ ∧
      Revision.walk rest c₁ w₁ = .ok rs w' ∧ as = a :: rs := by
  rw [Revision.walk, bind_eq_ok]
  constructor
  · rintro ⟨⟨a, c₁⟩, w₁, hs, h⟩
    obtain ⟨rs, w₂, hr, h⟩ := bind_eq_ok.mp h
    cases h
    exact ⟨a, c₁, w₁, rs, hs, hr, rfl⟩
  · rintro ⟨a, c₁, w₁, rs, hs, hr, rfl⟩
    exact ⟨(a, c₁), w₁, hs, bind_eq_ok.mpr ⟨rs, w', hr, rfl⟩⟩

theorem Revision.set_faulted {c' : Cursor}
    (h : (Revision.set v).perform c w = .ok (.faulted f, c') w') : c' = c ∧ w' = w := by
  obtain ⟨res, w₁, ha, h⟩ := bind_eq_ok.mp h
  unfold Map.attempt at ha
  split at ha <;> cases ha
  · cases h
  · rename_i he
    cases h
    exact ⟨rfl, Map.assign_error he⟩

/-- A value that cannot be stored might as well have been left out. -/
theorem Revision.walk_leave_out (hlen : as.length = before.length)
    (h : Revision.walk (before ++ .set v :: later) c w = .ok (as ++ .faulted f :: bs) w') :
    Revision.walk (before ++ later) c w = .ok (as ++ bs) w' := by
  induction before generalizing as c w with
  | nil =>
    obtain rfl := List.length_eq_zero_iff.mp hlen
    obtain ⟨a, c₁, w₁, rs, hs, hr, e⟩ := Revision.walk_cons_eq_ok.mp h
    cases e
    obtain ⟨rfl, rfl⟩ := Revision.set_faulted hs
    exact hr
  | cons s before ih =>
    obtain ⟨b, as, rfl⟩ := List.exists_cons_of_length_eq_add_one hlen
    obtain ⟨a, c₁, w₁, rs, hs, hr, e⟩ := Revision.walk_cons_eq_ok.mp h
    cases e
    exact Revision.walk_cons_eq_ok.mpr ⟨b, c₁, w₁, as ++ bs, hs, ih (by simpa using hlen) hr, rfl⟩

theorem Map.revise_eq_many {start : Start κ} {steps : List (Revision ν)} :
    Map.revise start steps w = .ok (.many as) w' ↔ ∃ c w₁, Map.cursor start w = .ok (.ok c) w₁ ∧
      Revision.walk steps c w₁ = .ok as w' := by
  rw [Map.revise, bind_eq_ok]
  constructor
  · rintro ⟨res, w₁, hc, h⟩
    cases res with
    | error e => cases h
    | ok c =>
      obtain ⟨rs, w₂, hr, h⟩ := bind_eq_ok.mp h
      cases h
      exact ⟨c, w₁, hc, hr⟩
  · rintro ⟨c, w₁, hc, hr⟩
    exact ⟨.ok c, w₁, hc, bind_eq_ok.mpr ⟨as, w', hr, rfl⟩⟩

end Revisions

/-- What the repairs do at a red parent that is the root, and where a sibling is missing, makes no
difference to any entry that is put into the map or taken out. -/
structure Map.NeedsNoDefence (m : Map κ ν) : Prop where
  place : ∀ (redRoot : NodeId → MapM κ ν Unit) t v clock j,
    placeBy (settleWith redRoot) t v ⟨m, clock, j⟩ = Map.place t v ⟨m, clock, j⟩
  extract : ∀ (noSibling : MapM κ ν Unit) n clock j,
    extractBy (refillWith noSibling) n ⟨m, clock, j⟩ = Map.extract n ⟨m, clock, j⟩

theorem Map.Shows.needsNoDefence {m : Map κ ν} {r : Roll κ ν} (h : m.Shows r) : m.NeedsNoDefence :=
  ⟨fun redRoot t v clock j => Map.Lists.placeBy_eq (w := ⟨m, clock, j⟩) h.lists redRoot t v,
    fun noSibling n clock j => Map.Lists.extractBy_eq (w := ⟨m, clock, j⟩) h.lists noSibling n⟩

namespace Store

variable {s : Store κ ν} {k : Nat} {m : Map κ ν}

/-- The fault that an operation is sure to end in because it is misused, if it is. -/
def Op.misuse? (op : Op κ ν) (s : Store κ ν) : Option Fault :=
  match op with
  | .on k (.eraseOwnPosition p) =>
    if (s.map? k).isSome ∧ p.map ≠ ⟨k⟩ then some .erasesForeign else none
  | .transfer j k =>
    if j ≠ k ∧ (s.map? k).isSome ∧ (s.map? j).any (!·.isEmpty) then
      some .movesIntoNonEmpty
    else
      none
  | _ => none

theorem Op.misuse?_eq_some {f : Map.Op κ ν} {g : Fault} (hm : s.map? k = some m)
    (hid : m.id = ⟨k⟩) : Op.misuse? (.on k f) s = some g ↔
      g = .erasesForeign ∧ ∃ p, f = .eraseOwnPosition p ∧ m.nodeAt p = .error .foreign := by
  cases f
  case eraseOwnPosition p =>
    have foreign_iff : p.map ≠ ⟨k⟩ ↔ m.nodeAt p = .error .foreign := by
      constructor
      · intro hp
        rw [Map.nodeAt, if_pos (hid ▸ hp)]
      · intro hn hp
        have := nodeAt_error hn
        rw [if_pos (hp.trans hid.symm)] at this
        cases this
    simp [misuse?, hm, ← foreign_iff, and_comm, eq_comm (a := g)]
  all_goals simp [misuse?]

variable [EntrySize κ ν]

/-- How an operation may go wrong, and what is left of it then: nothing. -/
structure Op.Safe (op : Op κ ν) (s : Store κ ν) : Prop where
  /-- Only a misuse ends in a fault, and every misuse does. -/
  error_iff : ∀ f, (s.step op).1.result = .error f ↔ op.misuse? s = some f
  misused : ∀ f, (s.step op).1.result = .error f → s.step op = (⟨.error f, ∅⟩, s)
  refused : ∀ e, (s.step op).1.result = .ok (.refused e) → s.step op = (⟨.ok (.refused e), ∅⟩, s)
  /-- On the way only a value stored through a cursor that rests on nothing is at fault. -/
  tells : ∀ a f, (s.step op).1.result = .ok a → a.Tells f →
    f = .setsUnavailable ∧ ∃ k start steps, op = .on k (.revise start steps)
  /-- Without that value everything comes out the same. -/
  left_out : ∀ k start before v later as f bs,
    op = .on k (.revise start (before ++ .set v :: later)) →
    as.length = before.length → (s.step op).1.result = .ok (.many (as ++ .faulted f :: bs)) →
    s.step (.on k (.revise start (before ++ later))) =
      (⟨.ok (.many (as ++ bs)), (s.step op).1.journal⟩, (s.step op).2)

theorem step_on_eq {f : Map.Op κ ν} {a : Reply κ ν} {w : Workspace κ ν} (hm : s.map? k = some m)
    (h : f.perform ⟨m, s.clock, ∅⟩ = .ok a w) :
    s.step (.on k f) = (⟨.ok a, w.journal⟩, ⟨s.maps.setIfInBounds k (some w.map), w.clock⟩) := by
  have he : Ends f.perform ⟨m, s.clock, ∅⟩ fun res w' => res = .ok a ∧ w' = w := by
    rw [Ends, h]
    exact ⟨rfl, rfl⟩
  obtain ⟨res, w', ⟨rfl, rfl⟩, hs⟩ := step_on hm he
  exact hs

theorem perform_of_step_on {f : Map.Op κ ν} {a : Reply κ ν} (hm : s.map? k = some m)
    (h : (s.step (.on k f)).1.result = .ok a) : ∃ w, f.perform ⟨m, s.clock, ∅⟩ = .ok a w := by
  cases hf : f.perform ⟨m, s.clock, ∅⟩ with
  | ok b w =>
    rw [step_on_eq hm hf] at h
    cases h
    exact ⟨w, rfl⟩
  | error e w =>
    have he : Ends f.perform ⟨m, s.clock, ∅⟩ fun res _ => res = .error e := by rw [Ends, hf]
    obtain ⟨res, w', rfl, hs⟩ := step_on hm he
    rw [hs] at h
    cases h

theorem step_leave_out {op : Op κ ν} {start : Start κ} {before later : List (Revision ν)} {v : ν}
    {f : Fault} {as bs : List (Reply κ ν)}
    (he : op = .on k (.revise start (before ++ .set v :: later)))
    (hlen : as.length = before.length)
    (h : (s.step op).1.result = .ok (.many (as ++ .faulted f :: bs))) :
    s.step (.on k (.revise start (before ++ later))) =
      (⟨.ok (.many (as ++ bs)), (s.step op).1.journal⟩, (s.step op).2) := by
  subst he
  cases hm : s.map? k with
  | none =>
    rw [step_on_none hm] at h
    cases h
  | some m =>
    obtain ⟨w, hw⟩ := perform_of_step_on hm h
    obtain ⟨c, w₁, hc, hr⟩ := Map.revise_eq_many.mp hw
    have without : Map.revise start (before ++ later) ⟨m, s.clock, ∅⟩ = .ok (.many (as ++ bs)) w :=
      Map.revise_eq_many.mpr ⟨c, w₁, hc, Revision.walk_leave_out hlen hr⟩
    rw [step_on_eq hm hw, step_on_eq hm (f := .revise start (before ++ later)) without]

/-- An operation that does nothing is safe if it ends in a fault exactly where it is misused. -/
theorem Op.safe_of_still {op : Op κ ν} {out : Except Fault (Reply κ ν)}
    (he : s.step op = (⟨out, ∅⟩, s)) (hf : ∀ f, out = .error f ↔ op.misuse? s = some f)
    (ht : ∀ a f, out = .ok a → ¬ a.Tells f) : op.Safe s where
  error_iff f := by
    rw [he]
    exact hf f
  misused f h := by
    rw [he] at h ⊢
    obtain rfl : out = .error f := h
    rfl
  refused e h := by
    rw [he] at h ⊢
    obtain rfl : out = .ok (.refused e) := h
    rfl
  tells a f h hf := by
    rw [he] at h
    exact absurd hf (ht a f h)
  left_out _ _ _ _ _ _ _ _ := step_leave_out

/-- An operation that is answered, and not misused, is safe. -/
theorem Op.safe_of_answer {op : Op κ ν} {a : Reply κ ν} (ha : (s.step op).1.result = .ok a)
    (hm : op.misuse? s = none) (hr : ∀ e, a ≠ .refused e)
    (ht : ∀ f, a.Tells f →
      f = .setsUnavailable ∧ ∃ k start steps, op = .on k (.revise start steps)) : op.Safe s where
  error_iff f := by simp [ha, hm]
  misused f h := by
    rw [ha] at h
    cases h
  refused e h := by
    rw [ha] at h
    exact absurd (Except.ok.inj h) (hr e)
  tells b f h hf := by
    rw [ha] at h
    cases h
    exact ht f hf
  left_out _ _ _ _ _ _ _ _ := step_leave_out

theorem Op.safe_on (hm : s.map? k = some m) {r : Roll κ ν} (hr : m.Shows r) (hid : m.id = ⟨k⟩)
    (f : Map.Op κ ν) : Op.Safe (.on k f) s := by
  by_cases denied : m.Denied f
  · obtain ⟨p, e, hp, hn⟩ := denied
    refine safe_of_still (step_denied hm hp hn) ?_ ?_
    · intro g
      rw [misuse?_eq_some hm hid]
      cases f
      case eraseOwnPosition q =>
        cases hp
        cases e <;> simp [Map.Op.denial, hn, eq_comm]
      all_goals simp [Map.Op.denial]
    · intro a g ha hg
      cases f
      case eraseOwnPosition q =>
        cases e with
        | foreign => cases ha
        | stale =>
          cases ha
          cases hg
      all_goals
        cases ha
        cases hg
  · have regular := Map.ends_regular (w := ⟨m, s.clock, ∅⟩) hr denied
    obtain ⟨res, w, ⟨a, rfl, ha⟩, he⟩ := step_on hm regular
    refine safe_of_answer (a := a) (by rw [he]) ?_ ha.not_refused fun g hg => ?_
    · refine Option.eq_none_iff_forall_ne_some.mpr fun g hg => ?_
      obtain ⟨-, p, rfl, hn⟩ := (misuse?_eq_some hm hid).mp hg
      exact denied ⟨p, _, rfl, hn⟩
    · obtain ⟨rfl, start, steps, rfl⟩ := ha.tells g hg
      exact ⟨rfl, k, start, steps, rfl⟩

theorem Op.safe_transfer (j k : Nat) : Op.Safe (.transfer j k) s := by
  by_cases hm : ∃ x y, s.Moves j k x y
  · obtain ⟨x, y, hm⟩ := hm
    refine safe_of_answer (a := .done) (by rw [step_transfer hm]) ?_ nofun nofun
    simp [misuse?, hm.target, hm.empty]
  · refine safe_of_still (step_transfer_refused fun x y hxy => hm ⟨x, y, hxy⟩) (fun g => ?_) ?_
    · have full : ∀ x ∈ s.map? j, j ≠ k → (s.map? k).isSome → x.isEmpty = false := by
        intro x hx hne hy
        obtain ⟨y, hy⟩ := Option.isSome_iff_exists.mp hy
        by_contra he
        exact hm ⟨x, y, hx, hy, hne, by simpa using he⟩
      cases hx : s.map? j with
      | none => simp [misuse?, hx]
      | some x =>
        by_cases hy : j ≠ k ∧ (s.map? k).isSome
        · simp [misuse?, hx, hy, full x hx hy.1 hy.2]
        · have fine : Op.misuse? (.transfer j k) s = none := if_neg fun h => hy ⟨h.1, h.2.1⟩
          rw [if_neg fun h => hy ⟨h.1, h.2.2⟩, fine]
          simp
    · intro a g ha
      split at ha <;> cases ha
      exact nofun

theorem Op.safe_of_sound (h : s.Sound) (op : Op κ ν) : op.Safe s := by
  cases op with
  | create policy entries =>
    have hy := Map.yields_insertMany_grows (w := ⟨.fresh ⟨s.maps.size⟩ policy, s.clock, ∅⟩)
      (Map.lists_fresh _ _) entries
    obtain ⟨res, w, rfl, he⟩ :=
      step_create (hy.ends (q := fun res _ => res = .ok ()) fun _ _ _ => rfl)
    exact safe_of_answer (a := .number s.maps.size) (by rw [he]; rfl) rfl nofun nofun
  | on k f =>
    cases hm : s.map? k with
    | none =>
      refine safe_of_still (step_on_none hm f) (fun g => ?_) ?_
      · cases f <;> simp [misuse?, hm]
      · rintro a g ⟨⟩
        exact nofun
    | some m =>
      obtain ⟨r, hr, hid, -⟩ := h k m hm
      exact safe_on hm hr (hr.id.trans hid) f
  | transfer j k => exact safe_transfer j k
  | discard k =>
    cases hm : s.map? k with
    | none =>
      refine safe_of_still (step_discard_none hm) (fun g => by simp [misuse?]) ?_
      rintro a g ⟨⟩
      exact nofun
    | some m =>
      obtain ⟨r, hr, -⟩ := h k m hm
      obtain ⟨j, -, he⟩ := step_discard_lists hm hr.lists
      exact safe_of_answer (a := .done) (by rw [he]) rfl nofun nofun
  | consume k pulls =>
    cases hm : s.map? k with
    | none =>
      refine safe_of_still (step_consume_none hm pulls) (fun g => by simp [misuse?]) ?_
      rintro a g ⟨⟩
      exact nofun
    | some m =>
      obtain ⟨r, hr, -⟩ := h k m hm
      obtain ⟨j, -, he⟩ := step_consume_lists hm hr.lists pulls
      refine safe_of_answer (a := .many (Harvest.answers pulls ⟨r.entries⟩)) (by rw [he]; rfl) rfl
        nofun ?_
      intro g hg
      rw [Harvest.answers_eq, Reply.tells_many] at hg
      obtain ⟨b, hb, hg⟩ := hg
      exact absurd hg (View.not_tells_of_pulls _ pulls _ hb)

/-- After every run, whatever the comparators, every operation is safe: it ends in a fault exactly
where it is misused, and neither then nor where it refuses a position does it change anything. No
map ever needs the defensive branches of the repairs; an operation that puts in or takes out several
entries passes through maps that shorter ones leave. -/
theorem safe_after (ops : List (Op κ ν)) : (∀ op : Op κ ν, op.Safe (after ops ∅)) ∧
    ∀ k m, (after ops ∅).map? k = some m → m.NeedsNoDefence := by
  refine ⟨Op.safe_of_sound (sound_after ops), fun k m hm => ?_⟩
  obtain ⟨r, hr, -⟩ := sound_after ops k m hm
  exact hr.needsNoDefence

end Store
end OrderedMap
