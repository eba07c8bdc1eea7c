import OrderedMap.Proofs.Map.Exact
import OrderedMap.Proofs.Map.Stock
import OrderedMap.Proofs.Store.BothEnds

/-!
Iteration over a map that is given away. A harvest walks through the tree while it takes the entries
out, and holds a list from then on; an iterator over a map that stays steps along the links under a
count. Nobody who pulls from them can tell them apart, and a harvest lets nothing else be observed.
-/
namespace OrderedMap

variable {κ ν : Type}

namespace Map

variable {m : Map κ ν} {xs : List (Item κ ν)} {t : Tree κ ν} {es : List (Entry κ ν)}

/-- A map without its entries and without slots. -/
def spent (m : Map κ ν) : Map κ ν := { m with arena := ∅, count := 0 }

theorem Holds.hollows (h : m.Holds t xs) : ∃ first a, m.arena.outermost .left = .ok first ∧
    Arena.harvestFrom m.arena.reach first m.arena = .ok (xs.map (·.entry)) a ∧
    ∀ n, a.get? n = (m.arena.get? n).map (·.withEntry none) := by
  have first : m.arena.outermost .left = .ok (t.cells.head?.map (·.id)) := by
    rw [h.first, h.cells, List.head?_map, Option.map_map]
    rfl
  obtain ⟨es, a, he, rfl, hollow⟩ :=
    Arena.yields_harvestFrom h.bears (List.nil_append _).symm (Nat.le_of_lt h.bears.length_lt_reach)
  refine ⟨_, a, first, ?_, fun n => ?_⟩
  · rw [he, h.cells, List.filterMap_map, ← List.filterMap_eq_map]
    rfl
  · rw [hollow n]
    -- every occupied slot is that of a node of the tree
    refine Option.map_congr fun x hx => if_pos ?_
    have there := h.bears.forest.occupied n (by rw [hx]; rfl)
    rwa [List.flatMap_singleton] at there

variable [EntrySize κ ν]

/-- The map gives the entries away: all that are in its slots, each once, and in order. The walk that
takes them out leaves the links as they are, so that all nodes are hollow after it. No comparison is
made, no record is noted and nothing is released, neither then nor when the rest of the map goes. -/
structure GivesAway (m : Map κ ν) (es : List (Entry κ ν)) : Prop where
  perm : es.Perm m.slotEntries
  inOrder : es = m.items.map (·.entry)
  hollows : ∃ first a, m.arena.outermost .left = .ok first ∧
    Arena.harvestFrom m.arena.reach first m.arena = .ok es a ∧
    ∀ n, a.get? n = (m.arena.get? n).map (·.withEntry none)
  consume : ∀ clock j, Map.consume ⟨m, clock, j⟩ = .ok es ⟨m.spent, clock, j⟩
  discard : ∀ clock j, Map.discard ⟨m.spent, clock, j⟩ = .ok () ⟨m.spent, clock, j⟩

theorem Shows.givesAway {r : Roll κ ν} (h : m.Shows r) : m.GivesAway r.entries where
  perm := h.slotEntries_perm.symm
  inOrder := by rw [h.items_eq, Roll.entries]
  hollows := by
    obtain ⟨t, ht⟩ := h.lists
    exact ht.hollows
  consume clock j := by
    obtain ⟨t, ht⟩ := h.lists
    obtain ⟨es, w, he, rfl, rfl⟩ := yields_consume_eq (w := ⟨m, clock, j⟩) ht
    exact he
  discard clock j := rfl

end Map

namespace Store

variable [EntrySize κ ν]

/-- Any map that any run leaves, whatever its comparator, answers the same whether it is iterated
over or given away, and it gives away each of its entries once: what has been pulled from one end or
the other, and what has not, are all of them, in order. Either iteration lets nothing else be
observed. -/
theorem harvest_after (ops : List (Op κ ν)) {k : Nat} {m : Map κ ν}
    (hm : (after ops ∅).map? k = some m) : ∃ es, m.GivesAway es ∧
    (∀ pulls, ∃ replies,
      (after ops ∅).step (.on k (.iterate .entries pulls)) =
        (⟨.ok (.many replies), ∅⟩, after ops ∅) ∧
      (after ops ∅).step (.consume k pulls) =
        (⟨.ok (.many replies), ∅⟩, (after ops ∅).setMap k none)) ∧
    ∀ sides, ∃ outs rest,
      (after ops ∅).step (.consume k (Pull.counted sides)) =
        (⟨.ok (.many (View.entries.told es.length outs)), ∅⟩, (after ops ∅).setMap k none) ∧
      outs.length = sides.length ∧
      es = LazyIter.given .left sides outs ++ rest ++ (LazyIter.given .right sides outs).reverse := by
  obtain ⟨r, hr, -, -⟩ := sound_after ops k m hm
  have givesAway := hr.givesAway
  have lazy (pulls : List Pull) : (after ops ∅).step (.on k (.iterate .entries pulls)) =
      (⟨.ok (.many (View.entries.pulls pulls r.entries)), ∅⟩, after ops ∅) := by
    have answered : (Map.Op.iterate .entries pulls).perform ⟨m, (after ops ∅).clock, ∅⟩ =
        .ok (.many (View.entries.pulls pulls r.entries)) ⟨m, (after ops ∅).clock, ∅⟩ := by
      simp only [Map.Op.perform, Map.survey, Map.iterate_eq hr]
    rw [step_on_ok hm answered]
    exact congrArg (Prod.mk _) (setMap_self hm)
  have harvested (pulls : List Pull) : (after ops ∅).step (.consume k pulls) =
      (⟨.ok (.many (View.entries.pulls pulls r.entries)), ∅⟩, (after ops ∅).setMap k none) := by
    rw [step_consume_ok hm (givesAway.consume _ _), Harvest.answers_eq]
    rfl
  refine ⟨r.entries, givesAway, fun pulls => ⟨_, lazy pulls, harvested pulls⟩, fun sides => ?_⟩
  refine ⟨LazyIter.pulled sides r.entries, LazyIter.between sides r.entries, ?_,
    LazyIter.length_pulled .., (LazyIter.given_between sides r.entries).symm⟩
  rw [harvested, View.pulls_counted]

/-- Both ends meet in the middle of a map with a hole in its arena. -/
theorem harvest_after_gapped : ∃ m, (after gapped ∅).map? 0 = some m ∧
    m.GivesAway [⟨1, 10⟩, ⟨3, 30⟩, ⟨5, 50⟩, ⟨7, 70⟩, ⟨8, 80⟩] ∧
    ∃ replies,
      ((after gapped ∅).step (.on 0 (.iterate .entries
        [.next .right, .length, .next .left, .bounds, .next .right]))).1 =
        ⟨.ok (.many replies), ∅⟩ ∧
      ((after gapped ∅).step (.consume 0
        [.next .right, .length, .next .left, .bounds, .next .right])).1 =
        ⟨.ok (.many replies), ∅⟩ := by
  have there : ((after gapped ∅).map? 0).isSome := by decide +kernel
  have listed : ((after gapped ∅).map? 0).map (·.items.map (·.entry)) =
      some [⟨1, 10⟩, ⟨3, 30⟩, ⟨5, 50⟩, ⟨7, 70⟩, ⟨8, 80⟩] := by decide +kernel
  obtain ⟨m, hm⟩ := Option.isSome_iff_exists.mp there
  rw [hm] at listed
  have entries : m.items.map (·.entry) = _ := Option.some.inj listed
  obtain ⟨es, givesAway, agree, -⟩ := harvest_after gapped hm
  rw [givesAway.inOrder, entries] at givesAway
  obtain ⟨replies, lazy, harvested⟩ :=
    agree [.next .right, .length, .next .left, .bounds, .next .right]
  exact ⟨m, hm, givesAway, replies, congrArg (·.1) lazy, congrArg (·.1) harvested⟩

end Store
end OrderedMap
