import OrderedMap.Proofs.Store.WellFormed

/-!
Iteration from both ends at once. The steps at the two ends of an iterator know nothing of each
other: only the count of what is left keeps them apart.
-/
namespace OrderedMap

namespace LazyIter

variable {α : Type}

/-- What pulls from given sides take off a list, one after the other. -/
def pulled : List Side → List α → List (Option α)
  | [], _ => []
  | s :: sides, xs => (takeEnd s xs).1 :: pulled sides (takeEnd s xs).2

/-- What these pulls leave in the middle. -/
def between : List Side → List α → List α
  | [], xs => xs
  | s :: sides, xs => between sides (takeEnd s xs).2

/-- Of all that was pulled, what came from one side, in the order in which it came. -/
def given (side : Side) (sides : List Side) (outs : List (Option α)) : List α :=
  (sides.zip outs).filterMap fun p => if p.1 = side then p.2 else none

theorem length_pulled (sides : List Side) (xs : List α) :
    (pulled sides xs).length = sides.length := by
  induction sides generalizing xs with
  | nil => rfl
  | cons s sides ih => rw [pulled, List.length_cons, List.length_cons, ih]

theorem length_between (sides : List Side) (xs : List α) :
    (between sides xs).length = xs.length - sides.length := by
  induction sides generalizing xs with
  | nil => rfl
  | cons s sides ih =>
    rw [between, ih, length_takeEnd, List.length_cons]
    omega

/-- A pull yields as long as there is something left, and not any more then. -/
theorem isSome_getElem?_pulled {sides : List Side} {xs : List α} {i : Nat} {o : Option α}
    (h : (pulled sides xs)[i]? = some o) : o.isSome ↔ i < xs.length := by
  induction sides generalizing xs i with
  | nil => cases h
  | cons s sides ih =>
    cases i with
    | zero =>
      obtain rfl : (takeEnd s xs).1 = o := Option.some.inj h
      rw [Option.isSome_iff_ne_none, ne_eq, takeEnd_fst_eq_none, List.length_pos_iff]
    | succ i =>
      have later : (pulled sides (takeEnd s xs).2)[i]? = some o := h
      rw [ih later, length_takeEnd]
      omega

theorem given_cons (side s : Side) (sides : List Side) (o : Option α) (outs : List (Option α)) :
    given side (s :: sides) (o :: outs) =
      (if s = side then o.toList else []) ++ given side sides outs := by
  by_cases hs : s = side
  · cases o <;> simp [given, hs]
  · simp [given, hs]

/-- What came from the left, what is left, and what came from the right, the last first, make up
the list. -/
theorem given_between (sides : List Side) (xs : List α) :
    given .left sides (pulled sides xs) ++ between sides xs ++
      (given .right sides (pulled sides xs)).reverse = xs := by
  induction sides generalizing xs with
  | nil => simp [given, pulled, between]
  | cons s sides ih =>
    have split := ih (takeEnd s xs).2
    rw [pulled, between, given_cons, given_cons]
    cases s with
    | left =>
      rw [if_pos rfl, if_neg nofun, List.append_assoc, List.append_assoc, List.nil_append,
        ← List.append_assoc (given ..), split]
      cases xs <;> rfl
    | right =>
      rw [if_neg nofun, if_pos rfl, List.nil_append, List.reverse_append, ← List.append_assoc,
        split]
      obtain rfl | ⟨ys, y, rfl⟩ := List.eq_nil_or_concat' xs
      · rfl
      · simp [takeEnd]

end LazyIter

/-- Pulls from given sides in turn, with the count asked for before the first and after each. -/
def Pull.counted (sides : List Side) : List Pull :=
  .length :: .bounds :: sides.flatMap fun s => [.next s, .length, .bounds]

variable {κ ν : Type}

/-- What an iterator answers to counted pulls: its count, and after each entry one less. Of each
entry it answers what comes through the view. -/
def View.told (v : View) : Nat → List (Option (Entry κ ν)) → List (Reply κ ν)
  | n, [] => [.number n, .bounds n n]
  | n, none :: outs => .number n :: .bounds n n :: v.shown none :: v.told n outs
  | n, some e :: outs => .number n :: .bounds n n :: v.shown (some e) :: v.told (n - 1) outs

theorem View.pull_next (v : View) (s : Side) (es : List (Entry κ ν)) :
    v.pull es (.next s) = (v.shown (LazyIter.takeEnd s es).1, (LazyIter.takeEnd s es).2) := by
  cases s <;> rfl

theorem View.pulls_counted (v : View) (sides : List Side) (es : List (Entry κ ν)) :
    v.pulls (Pull.counted sides) es = v.told es.length (LazyIter.pulled sides es) := by
  induction sides generalizing es with
  | nil => rfl
  | cons s sides ih =>
    have rest := ih (LazyIter.takeEnd s es).2
    rw [LazyIter.length_takeEnd] at rest
    have step : v.pulls (Pull.counted (s :: sides)) es =
        .number es.length :: .bounds es.length es.length :: v.shown (LazyIter.takeEnd s es).1 ::
          v.pulls (Pull.counted sides) (LazyIter.takeEnd s es).2 := by
      rw [Pull.counted, List.flatMap_cons]
      simp only [View.pulls, List.cons_append, View.pull_next]
      rfl
    rw [step, rest, LazyIter.pulled]
    cases hx : (LazyIter.takeEnd s es).1 with
    | none =>
      obtain rfl := (LazyIter.takeEnd_fst_eq_none s).mp hx
      rfl
    | some e => rfl

namespace Store

variable [EntrySize κ ν]

/-- An iterator over any map that any run leaves, whatever its comparator, is pulled from both ends
in any order. What comes from the left, in order, is a prefix of the entries in order, and what
comes from the right, in reverse, a suffix; the two do not overlap, and what is not yet pulled lies
between them. Every pull yields until all entries have come, and none does after that. At all times
the iterator tells exactly how many are left. Through each view the same entries come; the map stays
as it is. -/
theorem iteration_after (ops : List (Op κ ν)) {k : Nat} {m : Map κ ν}
    (hm : (after ops ∅).map? k = some m) (sides : List Side) : ∃ outs rest,
    (∀ v : View, (after ops ∅).step (.on k (.iterate v (Pull.counted sides))) =
      (⟨.ok (.many (v.told m.items.length outs)), ∅⟩, after ops ∅)) ∧
    outs.length = sides.length ∧
    m.items.map (·.entry) = LazyIter.given .left sides outs ++ rest ++
      (LazyIter.given .right sides outs).reverse ∧
    rest.length = m.items.length - sides.length ∧
    ∀ i o, outs[i]? = some o → (o.isSome ↔ i < m.items.length) := by
  obtain ⟨r, hr, -, -⟩ := sound_after ops k m hm
  have length_eq : r.entries.length = r.items.length := by rw [Roll.entries, List.length_map]
  rw [hr.items_eq, ← length_eq]
  refine ⟨LazyIter.pulled sides r.entries, LazyIter.between sides r.entries, fun v => ?_,
    LazyIter.length_pulled .., (LazyIter.given_between sides r.entries).symm,
    LazyIter.length_between .., fun i o => LazyIter.isSome_getElem?_pulled⟩
  have answered : (Map.Op.iterate v (Pull.counted sides)).perform ⟨m, (after ops ∅).clock, ∅⟩ =
      .ok (.many (v.told r.entries.length (LazyIter.pulled sides r.entries)))
        ⟨m, (after ops ∅).clock, ∅⟩ := by
    simp only [Map.Op.perform, Map.survey, Map.iterate_eq hr, View.pulls_counted]
  rw [step_on_ok hm answered]
  exact congrArg (Prod.mk _) (setMap_self hm)

/-- A map with a hole in its arena and five entries. -/
def gapped : List (Op Nat Nat) :=
  [.create .natural [(5, 50), (2, 20), (8, 80), (1, 10), (3, 30), (7, 70)], .on 0 (.erase 2)]

/-- Both ends meet in the middle, and pulls from either end yield nothing after that. -/
theorem iteration_after_gapped : ∃ m, (after gapped ∅).map? 0 = some m ∧
    ∃ outs, ((after gapped ∅).step (.on 0 (.iterate .keys (Pull.counted
        [.right, .left, .right, .right, .left, .right, .left])))).1.result =
      .ok (.many (View.keys.told 5 outs)) ∧ outs.length = 7 ∧ outs[4]?.isSome ∧
      outs[5]? = some none := by
  have there : ((after gapped ∅).map? 0).isSome := by decide +kernel
  have listed : ((after gapped ∅).map? 0).map (·.items.length) = some 5 := by decide +kernel
  obtain ⟨m, hm⟩ := Option.isSome_iff_exists.mp there
  rw [hm] at listed
  have five : m.items.length = 5 := Option.some.inj listed
  obtain ⟨outs, rest, hstep, hlen, -, -, hsome⟩ := iteration_after gapped hm
    [.right, .left, .right, .right, .left, .right, .left]
  rw [five] at hstep hsome
  obtain ⟨o, fifth⟩ : ∃ o, outs[4]? = some o :=
    Option.isSome_iff_exists.mp (by rw [isSome_getElem?, hlen]; decide)
  obtain ⟨o', sixth⟩ : ∃ o, outs[5]? = some o :=
    Option.isSome_iff_exists.mp (by rw [isSome_getElem?, hlen]; decide)
  have ceases : ¬o'.isSome := mt (hsome 5 o' sixth).mp (by decide)
  rw [Option.not_isSome_iff_eq_none.mp ceases] at sixth
  exact ⟨m, hm, outs, congrArg (·.1.result) (hstep .keys), hlen, fifth ▸ rfl, sixth⟩

end Store
end OrderedMap
