import OrderedMap.Benchmark.Script
import OrderedMap.Proofs.Map.Integers

/-!
The work of the benchmark on the map under test, for all element counts. At every moment the map
holds a row of keys with their doubles: it grows downwards from the greatest key to one, and goes
upwards from one. The work comes to its end exactly if the double of the greatest key fits.
-/
namespace OrderedMap
namespace Benchmark

variable {α : Type} {b : Bench} {n key : Int} {k : Nat}

/-- A row of so many keys, beginning with a given one, each with its double. -/
def doubles : Nat → Int → List (Entry Int Int)
  | 0, _ => []
  | k + 1, key => ⟨key, key * 2⟩ :: doubles k (key + 1)

/-- The keys for an element count. -/
def keys (elements : Int) : List Int :=
  (List.range (keyCount elements)).map fun i : Nat => (i : Int) + 1

theorem length_doubles (k : Nat) (key : Int) : (doubles k key).length = k := by
  induction k generalizing key with
  | zero => rfl
  | succ k ih => rw [doubles, List.length_cons, ih]

theorem tags_doubles (k : Nat) (key : Int) :
    (doubles k key).map (·.tag) = (List.range k).map fun i : Nat => (i : Int) + key := by
  induction k generalizing key with
  | zero => rfl
  | succ k ih =>
    rw [doubles, List.map_cons, ih, List.range_succ_eq_map, List.map_cons, List.map_map]
    refine congrArg₂ List.cons (by simp) (List.map_congr_left fun i _ => ?_)
    rw [Function.comp_apply]
    omega

theorem mem_doubles {e : Entry Int Int} :
    e ∈ doubles k key ↔ key ≤ e.tag ∧ e.tag < key + k ∧ e.value = e.tag * 2 := by
  induction k generalizing key with
  | zero =>
    simp only [doubles, List.not_mem_nil, false_iff]
    omega
  | succ k ih =>
    rw [doubles, List.mem_cons, ih]
    obtain ⟨t, v⟩ := e
    simp only [Entry.mk.injEq]
    constructor
    · rintro (⟨rfl, rfl⟩ | h)
      · omega
      · omega
    · intro h
      by_cases ht : t = key
      · exact .inl ⟨ht, ht ▸ h.2.2⟩
      · exact .inr (by omega)

/-- Of an action on the map under test only the comparisons are forgotten. -/
theorem yields_onMap {action : MapM Int Int α} {post : α → Bench → Prop}
    (h : Yields action b.space fun x w =>
      post x ⟨w.withJournal w.journal.forgetCalls, b.reference⟩) :
    Yields (onMap action) b post := by
  obtain ⟨x, w, he, hp⟩ := h
  refine .of_eq ?_ hp
  simp only [onMap, he]
  rfl

theorem doubled_of_fits (place : Place) (h : IsInt32 (key * 2)) :
    doubled place key = pure (key * 2) := if_pos h

theorem increased_of_fits (place : Place) (h : IsInt32 (n + 1)) :
    increased place n = pure (n + 1) := if_pos h

theorem confirm_self [DecidableEq α] (text : α → String) (place : Place) (x : α) :
    confirm text place x x = pure () := if_pos rfl

/-- What one pass of a loop keeps from key to key, the whole loop keeps. -/
theorem yields_downwards {work : Int → BenchM Unit} {P : Nat → Bench → Prop}
    (step : ∀ j b, j < k → P (j + 1) b → Yields (work (j + 1 : Nat)) b fun _ b' => P j b')
    (h : P k b) : Yields (downwards work k) b fun _ b' => P 0 b' := by
  induction k generalizing b with
  | zero => exact yields_pure.mpr h
  | succ k ih =>
    rw [downwards, yields_bind]
    apply (step k b (Nat.lt_succ_self k) h).mono
    intro _ b' h'
    exact ih (fun j b hj => step j b (Nat.lt_succ_of_lt hj)) h'

/-- The condition may depend on the key and on how many keys are left. -/
theorem yields_upwards {place : Place} {work : Int → BenchM Unit} {P : Nat → Int → Bench → Prop}
    {last : Int} (fits : IsInt32 (last + 1))
    (step : ∀ (j : Nat) key b, 1 ≤ key → key + j = last → P (j + 1) key b →
      Yields (work key) b fun _ b' => P j (key + 1) b')
    (h : P k key b) (positive : 1 ≤ key) (reach : key + k = last + 1) :
    Yields (upwards place work k key) b fun _ b' => P 0 (last + 1) b' := by
  induction k generalizing b key with
  | zero =>
    obtain rfl : key = last + 1 := by omega
    exact yields_pure.mpr h
  | succ k ih =>
    have next_fits : IsInt32 (key + 1) := by
      unfold IsInt32 at *
      omega
    rw [upwards, increased_of_fits place next_fits, pure_bind, yields_bind]
    apply (step k key b positive (by omega) h).mono
    intro _ b' h'
    exact ih h' (by omega) (by omega)

/-- All doubles fit for an element count within the bound. -/
theorem isInt32_double (hn : n ≤ 0x40000000) (h : 1 ≤ key) (hk : key ≤ keyCount n) :
    IsInt32 (key * 2) := by
  unfold keyCount IsInt32 at *
  omega

/-- So do the numbers one above the keys. -/
theorem isInt32_succ (hn : n ≤ 0x40000000) (h : 0 ≤ key) (hk : key ≤ keyCount n) :
    IsInt32 (key + 1) := by
  unfold keyCount IsInt32 at *
  omega

theorem confirmKeys_doubles (s : Subject) (hn : n ≤ 0x40000000) (positive : 1 ≤ key)
    (reach : key + k = keyCount n + 1) :
    s.confirmKeys ((doubles k key).map (·.tag)) key = pure () := by
  induction k generalizing key with
  | zero => rfl
  | succ k ih =>
    have next_fits : IsInt32 (key + 1) := isInt32_succ hn (by omega) (by omega)
    rw [doubles, List.map_cons, Subject.confirmKeys, confirm_self, pure_bind,
      increased_of_fits _ next_fits, pure_bind, ih (by omega) (by omega)]

namespace Subject

theorem yields_fill (hn : n ≤ 0x40000000) :
    Yields (map.fill n) .start fun _ b => b.space.map.Carries (doubles (keyCount n) 1) := by
  -- with j keys still to come, the row begins right above them
  refine (yields_downwards (P := fun j b => ∃ i, i + j = keyCount n ∧
    b.space.map.Carries (doubles i (j + 1))) ?_ ⟨0, Nat.zero_add _, Map.carries_fresh _⟩).mono ?_
  · rintro j b - ⟨i, hi, carries⟩
    rw [doubled_of_fits _ (isInt32_double hn (by omega) (by omega)), pure_bind, map, yields_bind]
    have less : ∀ e ∈ doubles i ((j + 1 : Nat) + 1), ((j + 1 : Nat) : Int) < e.tag := by
      intro e he
      have := mem_doubles.mp he
      omega
    refine yields_onMap ((Map.yields_insert_least carries less).mono fun _ w stored => ?_)
    exact yields_pure.mpr ⟨i + 1, by omega, stored⟩
  · rintro - b ⟨i, rfl, carries⟩
    exact carries

theorem yields_lookUp (hn : n ≤ 0x40000000)
    (h : b.space.map.Carries (doubles (keyCount n) 1)) :
    Yields (map.lookUp n) b fun _ b' => b'.space.map.Carries (doubles (keyCount n) 1) := by
  refine yields_upwards (P := fun _ _ b => b.space.map.Carries (doubles (keyCount n) 1))
    (isInt32_succ hn (Int.natCast_nonneg _) (Int.le_refl _)) ?_ h (Int.le_refl 1) (Int.add_comm ..)
  intro j key b positive last carries
  have stored : (⟨key, key * 2⟩ : Entry Int Int) ∈ doubles (keyCount n) 1 :=
    mem_doubles.mpr ⟨positive, by simp only; omega, rfl⟩
  rw [yields_bind]
  refine yields_onMap ((Map.yields_get_carried carries stored).mono ?_)
  rintro - w ⟨rfl, same⟩
  rw [doubled_of_fits _ (isInt32_double hn positive (by omega)), pure_bind, confirm_self]
  refine yields_pure.mpr ?_
  rw [Workspace.map_withJournal, same]
  exact carries

theorem yields_iterate (hn : n ≤ 0x40000000)
    (h : b.space.map.Carries (doubles (keyCount n) 1)) :
    Yields map.iterate b fun _ b' => b'.space.map.Carries (doubles (keyCount n) 1) := by
  unfold iterate
  rw [yields_bind, map, yields_bind]
  refine yields_onMap ((Map.yields_survey h.entries_eq).mpr (yields_pure.mpr ?_))
  rw [confirmKeys_doubles _ hn (Int.le_refl 1) (Int.add_comm ..)]
  exact yields_pure.mpr h

theorem yields_drain (hn : n ≤ 0x40000000)
    (h : b.space.map.Carries (doubles (keyCount n) 1)) :
    Yields (map.drain n) b fun _ b' => b'.space.map.Carries [] := by
  refine yields_upwards (P := fun j key b => b.space.map.Carries (doubles j key))
    (isInt32_succ hn (Int.natCast_nonneg _) (Int.le_refl _)) ?_ h (Int.le_refl 1) (Int.add_comm ..)
  intro j key b positive last carries
  rw [yields_bind]
  refine yields_onMap ((Map.yields_removeValue_first carries).mono ?_)
  rintro - w ⟨rfl, rest⟩
  simp only
  rw [doubled_of_fits _ (isInt32_double hn positive (by omega)), pure_bind, confirm_self]
  exact yields_pure.mpr rest

theorem yields_work (hn : n ≤ 0x40000000) :
    Yields (map.work n) .start fun _ b => Map.Blank b.space := by
  unfold work
  rw [yields_bind]
  apply (yields_fill hn).mono
  intro _ b₁ filled
  rw [yields_bind]
  apply (yields_lookUp hn filled).mono
  intro _ b₂ kept
  rw [yields_bind]
  apply (yields_iterate hn kept).mono
  intro _ b₃ kept
  exact (yields_drain hn kept).mono fun _ _ left => left.blank

end Subject

/-- What the map is after the filling: as many entries as there are keys, each key with its double,
the keys in order; and the values come out one by one, until the map is blank. -/
structure Stocked (n : Int) (w : Workspace Int Int) : Prop where
  count : (w.map.count : Int) = max (n - 1) 0
  get : ∀ i, 1 ≤ i → i < n → ∃ w', Map.get? i w = .ok (some (2 * i)) w'
  iterate : ∃ es, w.map.entries = .ok es ∧ es.map (·.tag) = keys n
  remove : ∃ w', (keys n).mapM Map.removeValue? w = .ok ((keys n).map fun i => some (2 * i)) w' ∧
    Map.Blank w'

/-- The work for an element count comes to its end, and finds and leaves what it should; no number
that it calculates is too large. -/
structure Succeeds (n : Int) : Prop where
  fits : ∀ i, 1 ≤ i → i < n → IsInt32 (i * 2) ∧ IsInt32 (i + 1)
  filled : ∃ b, Subject.map.fill n .start = .ok () b ∧ Stocked n b.space
  ends : ∃ b, Subject.map.work n .start = .ok () b ∧ Map.Blank b.space

theorem keyCount_eq (n : Int) : (keyCount n : Int) = max (n - 1) 0 := by
  unfold keyCount
  omega

theorem stocked_of_carries {w : Workspace Int Int}
    (h : w.map.Carries (doubles (keyCount n) 1)) : Stocked n w where
  count := by rw [h.count, length_doubles, keyCount_eq]
  get i hi hn := by
    have stored : (⟨i, 2 * i⟩ : Entry Int Int) ∈ doubles (keyCount n) 1 := by
      have := keyCount_eq n
      refine mem_doubles.mpr ⟨hi, ?_, Int.mul_comm ..⟩
      simp only
      omega
    obtain ⟨v, w', he, rfl, -⟩ := Map.yields_get_carried h stored
    exact ⟨w', he⟩
  iterate := ⟨_, h.entries_eq, tags_doubles ..⟩
  remove := by
    obtain ⟨vs, w', he, rfl, none_left⟩ := Map.yields_removeValues h
    refine ⟨w', ?_, none_left.blank⟩
    rw [tags_doubles] at he
    rw [keys, he, ← tags_doubles, List.map_map]
    refine congrArg (EStateM.Result.ok · w') (List.map_congr_left fun e hmem => ?_)
    rw [(mem_doubles.mp hmem).2.2, Int.mul_comm]
    rfl

/-- What goes wrong with too great an element count, and where. -/
def doubleTooLarge : Failure := .failed (.overflow .multiply) ⟨25, 25⟩

theorem fill_overflows (hn : 0x40000000 < n) :
    Subject.map.fill n .start = .error doubleTooLarge .start := by
  obtain ⟨k, hk⟩ : ∃ k, keyCount n = k + 1 := ⟨keyCount n - 1, by unfold keyCount; omega⟩
  have too_large : ¬ IsInt32 (((k + 1 : Nat) : Int) * 2) := by
    unfold keyCount at hk
    unfold IsInt32
    omega
  rw [Subject.fill, hk, downwards, doubled, fitting, if_neg too_large]
  rfl

theorem work_overflows (hn : 0x40000000 < n) :
    Subject.map.work n .start = .error doubleTooLarge .start := by
  rw [Subject.work]
  simp only [Bind.bind, EStateM.bind, fill_overflows hn]

theorem Succeeds.le (h : Succeeds n) : n ≤ 0x40000000 := by
  by_contra hn
  obtain ⟨b, he, -⟩ := h.ends
  rw [work_overflows (by omega)] at he
  cases he

/-- The work succeeds exactly if the double of every key is an integer of 32 bits. For all greater
element counts it fails at the first key already, where its double is calculated. -/
theorem succeeds_iff (n : Int) : (Succeeds n ↔ n ≤ 0x40000000) ∧
    (0x40000000 < n → Subject.map.work n .start =
      .error (.failed (.overflow .multiply) ⟨25, 25⟩) .start) := by
  refine ⟨⟨Succeeds.le, fun hn => ?_⟩, work_overflows⟩
  obtain ⟨⟨⟩, b, filled, carries⟩ := Subject.yields_fill hn
  obtain ⟨⟨⟩, b', ends, blank⟩ := Subject.yields_work hn
  refine ⟨fun i hi hlt => ?_, ⟨b, filled, stocked_of_carries carries⟩, b', ends, blank⟩
  unfold IsInt32
  omega

theorem succeeds_iff_limit : Succeeds 0x40000000 ∧ Subject.map.work 0x40000001 .start =
    .error (.failed (.overflow .multiply) ⟨25, 25⟩) .start :=
  ⟨(succeeds_iff 0x40000000).1.mpr (by decide), (succeeds_iff 0x40000001).2 (by decide)⟩

section Transcript

variable (host : Host) (duration : String)

theorem transcribeStages_logged (message : Bench → String) (rest : List Stage) (b : Bench) :
    transcribeStages host duration defaultThreshold (.logged message :: rest) b =
      transcribeStages host duration defaultThreshold rest b := rfl

theorem transcribeStages_failed {stage : Stage} {rest : List Stage} {b b' : Bench} {f : Failure}
    (h : stage.carryOut b = (⟨[], none, some f⟩, b')) :
    transcribeStages host duration defaultThreshold (stage :: rest) b =
      ⟨failureStatus, [], host.report f⟩ := by
  rw [transcribeStages, h]
  rfl

/-- What is reported of too great an element count, wherever the program runs. -/
theorem Host.report_doubleTooLarge : host.report doubleTooLarge = ["",
    "thread \x27main\x27 (" ++ toString host.thread ++ ") panicked at " ++ host.source ++ ":25:25:",
    "attempt to multiply with overflow"] ++ host.trace doubleTooLarge := by
  have place : host.whereabouts doubleTooLarge ++ ":" = host.source ++ ":25:25:" := by
    simp only [whereabouts, doubleTooLarge, String.append_assoc]
    rfl
  simp only [report, String.append_assoc, place]
  rfl

/-- The program ends with the failure before it has reported any duration. -/
theorem transcribe_overflows {arg : String} (hp : Numeral.parse arg = .ok n) (hn : 0x40000000 < n)
    (rest : List String) : transcribeOn host duration defaultThreshold (arg :: rest) =
      ⟨failureStatus, [], host.report doubleTooLarge⟩ := by
  have asked : elements? (arg :: rest) = .ok n := by rw [elements?, hp]
  have overflows : Subject.map.fill n ⟨⟨Map.fresh ⟨0⟩ .natural, 0, ∅⟩, ∅⟩ =
      .error doubleTooLarge ⟨⟨Map.fresh ⟨0⟩ .natural, 0, ∅⟩, ∅⟩ := fill_overflows hn
  have failed : Stage.carryOut .start (.timed "rbtree insert" (Subject.map.fill n)) =
      (⟨[], none, some doubleTooLarge⟩, .start) := by
    simp only [Stage.carryOut, Bench.start, overflows]
    rfl
  rw [transcribeOn, asked]
  simp only [stages]
  rw [transcribeStages_logged, transcribeStages_failed host duration failed]

example : transcribe "<t>" defaultThreshold ["1073741825"] = ⟨101, [], ["",
    "thread \x27main\x27 (1) panicked at benchmark:25:25:",
    "attempt to multiply with overflow"]⟩ := by decide +kernel

end Transcript

/-- An element count that is read without complaint, wherever the program runs. -/
theorem transcribe_beyond_limit : Numeral.parse "1073741825" = .ok 1073741825 ∧
    ¬ Succeeds 1073741825 ∧
    Subject.map.work 1073741825 .start = .error (.failed (.overflow .multiply) ⟨25, 25⟩) .start ∧
    ∀ host : Host, transcribeOn host "<t>" defaultThreshold ["1073741825"] = ⟨101, [], ["",
      "thread \x27main\x27 (" ++ toString host.thread ++ ") panicked at " ++ host.source ++
        ":25:25:",
      "attempt to multiply with overflow"] ++
        host.trace (.failed (.overflow .multiply) ⟨25, 25⟩)⟩ := by
  have parsed : Numeral.parse "1073741825" = .ok 1073741825 := by decide +kernel
  refine ⟨parsed, fun h => absurd h.le (by decide), work_overflows (by decide), fun host => ?_⟩
  rw [transcribe_overflows host "<t>" parsed (by decide), host.report_doubleTooLarge]
  rfl

end Benchmark
end OrderedMap
