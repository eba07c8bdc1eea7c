import OrderedMap.Proofs.Map.Reading

/-!
A lazy iterator spans a stretch of the items of a map: as many as it counts, between the nodes at
its two ends. A pull takes an item off one end of the stretch.
-/
namespace OrderedMap

namespace LazyIter

variable {κ ν : Type} {m : Map κ ν} {r : Roll κ ν} {it : LazyIter} {xs : List (Item κ ν)}

/-- The iterator has the given stretch of items left. -/
structure Spans (it : LazyIter) (r : Roll κ ν) (xs : List (Item κ ν)) : Prop where
  infix_items : ∃ ys zs, r.items = ys ++ xs ++ zs
  remaining : it.remaining = xs.length
  front : ∀ x ∈ xs.head?, it.front = some x.node
  back : ∀ x ∈ xs.getLast?, it.back = some x.node

/-- What a pull takes off a list, and what it leaves. -/
def takeEnd {α : Type} : Side → List α → Option α × List α
  | .left, xs => (xs.head?, xs.tail)
  | .right, xs => (xs.getLast?, xs.dropLast)

/-- The order in which pulls from one end take a list apart. -/
def fromEnd {α : Type} : Side → List α → List α
  | .left, xs => xs
  | .right, xs => xs.reverse

theorem fromEnd_takeEnd {α : Type} (s : Side) {xs : List α} {x : α}
    (h : (takeEnd s xs).1 = some x) : fromEnd s xs = x :: fromEnd s (takeEnd s xs).2 := by
  cases s with
  | left =>
    obtain ⟨xs, rfl⟩ := List.head?_eq_some_iff.mp h
    rfl
  | right =>
    obtain ⟨xs, rfl⟩ := List.getLast?_eq_some_iff.mp h
    simp [fromEnd, takeEnd]

theorem takeEnd_fst_eq_none {α : Type} (s : Side) {xs : List α} :
    (takeEnd s xs).1 = none ↔ xs = [] := by
  cases s <;> simp [takeEnd]

theorem length_takeEnd {α : Type} (s : Side) (xs : List α) :
    (takeEnd s xs).2.length = xs.length - 1 := by
  cases s <;> simp [takeEnd]

/-- A pull from an exhausted iterator gives nothing. -/
theorem pull_of_remaining (s : Side) (a : Arena κ ν) (h : it.remaining = 0) :
    it.pull s a = .ok (none, it) := by
  unfold pull
  rw [h]
  rfl

theorem pull_of_atEnd {s : Side} {a : Arena κ ν} {k : Nat} {n : NodeId} {next : Option NodeId}
    {e : Entry κ ν} (hk : it.remaining = k + 1) (hn : it.atEnd s = some n)
    (hnext : a.neighbour s.opposite n = .ok next) (he : a.entry n = .ok e) :
    it.pull s a = .ok (some e, { it.setEnd s next with remaining := k }) := by
  unfold pull
  rw [hk, hn]
  simp only [hnext, he]
  rfl

/-- A pull takes one item off the stretch. -/
theorem pull_eq (h : m.Shows r) (hs : it.Spans r xs) (s : Side) :
    ∃ it', it.pull s m.arena = .ok ((takeEnd s xs).1.map (·.entry), it') ∧
      it'.Spans r (takeEnd s xs).2 := by
  obtain ⟨t, hl⟩ := h.lists
  obtain ⟨ys, zs, hi⟩ := hs.infix_items
  rcases eq_or_ne xs [] with rfl | hne
  · refine ⟨it, ?_, by cases s <;> exact hs⟩
    rw [pull_of_remaining s _ hs.remaining, (takeEnd_fst_eq_none s).mpr rfl]
    rfl
  cases s with
  | left =>
    obtain ⟨x, xs, rfl⟩ := List.exists_cons_of_ne_nil hne
    have hx : r.items = ys ++ x :: (xs ++ zs) := by simp [hi]
    refine ⟨_, pull_of_atEnd (s := .left) hs.remaining (hs.front x rfl) (hl.successor hx)
      (hl.entry (by simp [hx])), ⟨ys ++ [x], zs, by simp [takeEnd, hi]⟩, rfl, ?_, ?_⟩
    · intro y hy
      obtain ⟨us, hu⟩ := List.head?_eq_some_iff.mp hy
      obtain rfl : xs = y :: us := hu
      rfl
    · intro y hy
      obtain ⟨us, hu⟩ := List.getLast?_eq_some_iff.mp hy
      obtain rfl : xs = us ++ [y] := hu
      exact hs.back y (List.getLast?_concat (l := x :: us) ..)
  | right =>
    obtain ⟨xs, x, rfl⟩ := (List.eq_nil_or_concat' xs).resolve_left hne
    have hx : r.items = (ys ++ xs) ++ x :: zs := by simp [hi]
    have hlen : it.remaining = xs.length + 1 := by simp [hs.remaining]
    have htake : takeEnd .right (xs ++ [x]) = (some x, xs) := by simp [takeEnd]
    rw [htake]
    refine ⟨_, pull_of_atEnd (s := .right) hlen (hs.back x (by simp)) (hl.predecessor hx)
      (hl.entry (by simp [hx])), ⟨ys, x :: zs, by simp [hi]⟩, rfl, ?_, ?_⟩
    · intro y hy
      obtain ⟨us, rfl⟩ := List.head?_eq_some_iff.mp hy
      exact hs.front y (by simp)
    · intro y hy
      obtain ⟨us, rfl⟩ := List.getLast?_eq_some_iff.mp hy
      simp [setEnd]

/-- Pulling on takes all items off the stretch. -/
theorem pullAll_eq (h : m.Shows r) (s : Side) {fuel : Nat} (hs : it.Spans r xs)
    (hf : xs.length = fuel) : ∃ it', pullAll s m.arena fuel it =
      .ok ((fromEnd s xs).map (·.entry), it') ∧ it'.Spans r [] := by
  induction fuel generalizing it xs with
  | zero =>
    obtain rfl := List.length_eq_zero_iff.mp hf
    exact ⟨it, by cases s <;> rfl, hs⟩
  | succ fuel ih =>
    obtain ⟨it₁, hp, hs₁⟩ := pull_eq h hs s
    cases hx : (takeEnd s xs).1 with
    | none =>
      rw [(takeEnd_fst_eq_none s).mp hx] at hf
      cases hf
    | some x =>
      obtain ⟨it₂, hall, hs₂⟩ := ih hs₁ (by rw [length_takeEnd, hf]; rfl)
      refine ⟨it₂, ?_, hs₂⟩
      rw [pullAll, hp, hx, fromEnd_takeEnd s hx]
      simp only [bind, Except.bind, Option.map_some, hall]
      rfl

theorem rest_eq (h : m.Shows r) (hs : it.Spans r xs) (s : Side) : ∃ it',
    it.rest s m.arena = .ok ((fromEnd s xs).map (·.entry), it') ∧ it'.Spans r [] :=
  pullAll_eq h s hs hs.remaining.symm

/-- An iterator over a whole map spans all its items. -/
theorem ofMap_eq (h : m.Shows r) : ∃ it, ofMap m = .ok it ∧ it.Spans r r.items := by
  refine ⟨⟨(r.outermost .left).map (·.node), (r.outermost .right).map (·.node), m.count⟩, ?_,
    ⟨[], [], by simp⟩, h.count, ?_, ?_⟩
  · unfold ofMap
    rw [h.outermost, h.outermost]
    rfl
  · intro x hx
    simp [Roll.outermost, Option.mem_def.mp hx]
  · intro x hx
    simp [Roll.outermost, Option.mem_def.mp hx]

theorem answer_eq (h : m.Shows r) (hs : it.Spans r xs) (v : View) (p : Pull) : ∃ it' ys,
    it.answer v m.arena p = .ok ((v.pull (xs.map (·.entry)) p).1, it') ∧ it'.Spans r ys ∧
      ys.map (·.entry) = (v.pull (xs.map (·.entry)) p).2 := by
  cases p with
  | next s =>
    obtain ⟨it', hp, hs'⟩ := pull_eq h hs s
    refine ⟨it', _, ?_, hs', ?_⟩
    · rw [answer, hp]
      cases s <;> simp [View.pull, takeEnd, View.reply_eq]
    · cases s <;> simp [View.pull, takeEnd, List.map_dropLast]
  | length => exact ⟨it, xs, by rw [answer, hs.remaining]; simp [View.pull]; rfl, hs, rfl⟩
  | bounds => exact ⟨it, xs, by rw [answer, hs.remaining]; simp [View.pull]; rfl, hs, rfl⟩
  | rest s =>
    obtain ⟨it', hr, hs'⟩ := rest_eq h hs s
    refine ⟨it', [], ?_, hs', by cases s <;> rfl⟩
    rw [answer, hr]
    cases s <;> simp [View.pull, fromEnd, View.replies_eq]
  | copy =>
    obtain ⟨it', hr, -⟩ := rest_eq h hs .left
    refine ⟨it, xs, ?_, hs, rfl⟩
    simp only [answer, hr, View.replies_eq]
    rfl

theorem answers_eq (h : m.Shows r) (hs : it.Spans r xs) (v : View) (pulls : List Pull) :
    answers v m.arena pulls it = .ok (v.pulls pulls (xs.map (·.entry))) := by
  induction pulls generalizing it xs with
  | nil => rfl
  | cons p rest ih =>
    obtain ⟨it', ys, ha, hs', hy⟩ := answer_eq h hs v p
    rw [answers, ha]
    simp only [bind, Except.bind, ih hs', View.pulls, hy]
    rfl

end LazyIter

theorem Map.Holds.entries_eq {κ ν : Type} {m : Map κ ν} {t : Tree κ ν} {xs : List (Item κ ν)}
    (h : m.Holds t xs) : m.entries = .ok (xs.map (·.entry)) := by
  have shows : m.Shows ⟨m.id, m.policy, xs⟩ := ⟨rfl, rfl, t, h⟩
  obtain ⟨it, hm, hs⟩ := LazyIter.ofMap_eq shows
  obtain ⟨it', hr, -⟩ := LazyIter.rest_eq shows hs .left
  unfold entries
  simp only [hm, bind, Except.bind, hr]
  rfl

/-- An iterator over a map answers as its list of entries does. -/
theorem Map.iterate_eq {κ ν : Type} {m : Map κ ν} {r : Roll κ ν} (h : m.Shows r) (v : View)
    (pulls : List Pull) : m.iterate v pulls = .ok (.many (v.pulls pulls r.entries)) := by
  obtain ⟨it, hm, hs⟩ := LazyIter.ofMap_eq h
  unfold iterate
  simp only [hm, bind, Except.bind, LazyIter.answers_eq h hs]
  rfl

namespace Harvest

variable {κ ν : Type}

theorem answer_eq (it : Harvest κ ν) (p : Pull) :
    it.answer p = ((View.entries.pull it.entries p).1, ⟨(View.entries.pull it.entries p).2⟩) := by
  cases p with
  | next s => cases s <;> exact congrArg (Prod.mk · _) (View.entries.reply_eq _)
  | length => rfl
  | bounds => rfl
  | rest s => cases s <;> exact congrArg (Prod.mk · _) (View.entries.replies_eq _)
  | copy => exact congrArg (Prod.mk · _) (View.entries.replies_eq _)

/-- A harvest answers as its list of entries does. -/
theorem answers_eq (pulls : List Pull) (it : Harvest κ ν) :
    answers pulls it = View.entries.pulls pulls it.entries := by
  induction pulls generalizing it with
  | nil => rfl
  | cons p rest ih => rw [answers, answer_eq, ih, View.pulls]

end Harvest
end OrderedMap
