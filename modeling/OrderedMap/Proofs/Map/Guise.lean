import Mathlib.Data.Set.Insert
import Mathlib.Order.Monotone.Defs
import OrderedMap.Proofs.Arena.Guise
import OrderedMap.Proofs.Map.Auditing
import OrderedMap.Proofs.Map.Reading

/-!
Guises of a map, with its policy, its journal and what it answers. A map and its twin in a guise
bear the same tree, but for the guise, under comparators that agree on it.
-/
namespace OrderedMap

variable {κ ν : Type}

/-! The policy, which compares the other way round for a mirror image. -/

def Comparator.reversed : Comparator κ → Comparator κ
  | natural order => natural fun a b => (order a b).swap
  | custom order => custom fun a b => (order a b).swap

def Policy.reversed (p : Policy κ) : Policy κ := { p with comparator := p.comparator.reversed }

namespace Guise

variable (g : Guise) (p : Policy κ)

def policy : Policy κ := if g.mirrored then p.reversed else p

@[simp] theorem tagHook_policy : (g.policy p).tagHook = p.tagHook := by
  unfold policy
  split <;> rfl

@[simp] theorem valueHook_policy : (g.policy p).valueHook = p.valueHook := by
  unfold policy
  split <;> rfl

@[simp] theorem isCustom_policy :
    (g.policy p).comparator.isCustom = p.comparator.isCustom := by
  unfold policy
  split
  · unfold Policy.reversed Comparator.reversed
    cases p.comparator <;> rfl
  · rfl

@[simp] theorem compare_policy (a b : κ) :
    (g.policy p).comparator.compare a b = g.ordering (p.comparator.compare a b) := by
  unfold policy ordering
  split
  · unfold Policy.reversed Comparator.reversed
    cases p.comparator <;> rfl
  · rfl

theorem policy_of_upright {g : Guise} (h : g.mirrored = false) : g.policy p = p := by
  simp [policy, h]

end Guise

/-! What is observed. -/

def Item.recast (g : Guise) (x : Item κ ν) : Item κ ν :=
  ⟨g.node x.node, g.stamp x.stamp, x.entry⟩

theorem Item.cell_recast (g : Guise) (x : Item κ ν) : (x.recast g).cell = x.cell.recast g := rfl

/-- Items in order, which are the other way round in a mirror image. -/
def Guise.items (g : Guise) (xs : List (Item κ ν)) : List (Item κ ν) :=
  if g.mirrored then (xs.map (Item.recast g)).reverse else xs.map (Item.recast g)

theorem Guise.items_of_upright {g : Guise} (h : g.mirrored = false) (xs : List (Item κ ν)) :
    g.items xs = xs.map (Item.recast g) := by simp [Guise.items, h]

theorem Tree.cells_recast_items {t : Tree κ ν} {xs : List (Item κ ν)} (g : Guise)
    (h : t.cells = xs.map Item.cell) : (t.recast g).cells = (g.items xs).map Item.cell := by
  rw [cells_recast, Guise.items, h]
  split <;> simp [Function.comp_def, Item.cell_recast]

def Position.recast (g : Guise) (p : Position) : Position :=
  ⟨g.map p.map, g.node p.node, g.stamp p.stamp⟩

def Violation.recast (g : Guise) : Violation → Violation
  | redRoot => redRoot
  | rootHasParent => rootHasParent
  | redChildOfRed n => redChildOfRed (g.node n)
  | unevenBlackHeight n l r => unevenBlackHeight (g.node n) l r
  | brokenParentLink n => brokenParentLink (g.node n)
  | missingEntry n => missingEntry (g.node n)
  | outOfOrder n => outOfOrder (g.node n)
  | countMismatch tracked counted => countMismatch tracked counted

mutual

/-- An answer, with the positions and the slot numbers in it. -/
def Reply.recast (g : Guise) : Reply κ ν → Reply κ ν
  | done => done
  | flag b => flag b
  | number n => number n
  | tag t => tag t
  | value v => value v
  | entry e => entry e
  | position p => position (p.map (Position.recast g))
  | bounds low high => bounds low high
  | refused e => refused e
  | audited r => audited (r.mapError (Violation.recast g))
  | faulted f => faulted f
  | many replies => many (Reply.recastAll g replies)
  | noMap => noMap

def Reply.recastAll (g : Guise) : List (Reply κ ν) → List (Reply κ ν)
  | [] => []
  | a :: as => a.recast g :: Reply.recastAll g as

end

theorem Reply.recastAll_eq_map (g : Guise) (as : List (Reply κ ν)) :
    recastAll g as = as.map (recast g) := by
  induction as with
  | nil => rfl
  | cons a as ih => rw [recastAll, ih, List.map_cons]

namespace Journal

variable (g : Guise) (j : Journal κ ν)

def recast : Journal κ ν := { j with records := j.records.map (Record.recast g) }

@[simp] theorem recast_empty : (∅ : Journal κ ν).recast g = ∅ :=
  congrArg (fun rs => (⟨rs, #[], #[], 0⟩ : Journal κ ν)) Array.map_empty

@[simp] theorem recast_record (r : Record) :
    (j.record r).recast g = (j.recast g).record (r.recast g) := by simp [record, recast]

@[simp] theorem recast_call (p : Policy κ) (a b : κ) :
    (j.call p.comparator a b).recast g = (j.recast g).call (g.policy p).comparator a b := by
  simp [call, recast]

@[simp] theorem recast_releaseTag (p : Policy κ) (t : κ) :
    (j.releaseTag p t).recast g = (j.recast g).releaseTag (g.policy p) t := by
  simp only [releaseTag, g.tagHook_policy]
  cases p.tagHook <;> rfl

@[simp] theorem recast_releaseValue (p : Policy κ) (v : ν) :
    (j.releaseValue p v).recast g = (j.recast g).releaseValue (g.policy p) v := by
  simp only [releaseValue, g.valueHook_policy]
  cases p.valueHook <;> rfl

@[simp] theorem recast_release (p : Policy κ) (e : Entry κ ν) :
    (j.release p e).recast g = (j.recast g).release (g.policy p) e := by simp [release]

theorem recast_releaseAll (p : Policy κ) (es : Array (Entry κ ν)) :
    (j.releaseAll p es).recast g = (j.recast g).releaseAll (g.policy p) es := by
  obtain ⟨es⟩ := es
  simp only [releaseAll, List.foldl_toArray]
  induction es generalizing j with
  | nil => rfl
  | cons e es ih => rw [List.foldl_cons, List.foldl_cons, ih, recast_release]

theorem recast_onto (x : Repair κ ν) : (x.onto j).recast g = (x.recast g).onto (j.recast g) := by
  simp [Repair.onto, recast, Repair.recast]

theorem recast_callAll (p : Policy κ) (t : κ) (cs : List (Cell κ ν)) :
    (j.callAll p.comparator t cs).recast g =
      (j.recast g).callAll (g.policy p).comparator t (cs.map (Cell.recast g)) := by
  have entries : (cs.map (Cell.recast g)).filterMap (·.entry) = cs.filterMap (·.entry) := by
    rw [List.filterMap_map]
    rfl
  unfold callAll
  rw [entries]
  induction cs.filterMap (·.entry) generalizing j with
  | nil => rfl
  | cons e es ih => rw [List.foldl_cons, List.foldl_cons, ih, recast_call]

end Journal

theorem Map.onlyChild_of_ne {l : Tree κ ν} (h : l ≠ .nil) (r : Tree κ ν) : onlyChild l r = l := by
  cases l with
  | nil => exact absurd rfl h
  | node l k c u => rfl

theorem Tree.onlyChild_recast (g : Guise) (l r : Tree κ ν) :
    (Map.onlyChild l r).recast g = Map.onlyChild (l.recast g) (r.recast g) := by
  by_cases hl : l = .nil
  · rw [hl]
    rfl
  · rw [Map.onlyChild_of_ne hl, Map.onlyChild_of_ne (by simpa using hl)]

namespace Map

variable (g : Guise)

theorem order_recast {m m' : Map κ ν} (h : m'.policy = g.policy m.policy) (s : κ) (c : Cell κ ν) :
    m'.order s (c.recast g) = g.ordering (m.order s c) := by
  unfold order Cell.compared
  rw [h]
  cases he : c.entry with
  | none =>
    rw [Cell.recast, he]
    unfold Guise.ordering
    cases g.mirrored <;> rfl
  | some e =>
    rw [Cell.recast, he]
    exact g.compare_policy ..

variable {g} (up : g.mirrored = false)
include up

/-- Children come before parents in the same order, so they are released in the same order. -/
theorem entries_post_recast (t : Tree κ ν) :
    Teardown.entries (t.recast g).post = Teardown.entries t.post := by
  rw [Tree.post_recast up, Teardown.entries, Teardown.entries, List.filterMap_map]
  rfl

theorem callAdjacent_recast (p : Policy κ) (xs : List (Item κ ν)) (j : Journal κ ν) :
    (callAdjacent p.comparator xs j).recast g =
      callAdjacent p.comparator (xs.map (Item.recast g)) (j.recast g) := by
  have hcall (j : Journal κ ν) (a b : κ) :
      (j.call p.comparator a b).recast g = (j.recast g).call p.comparator a b := by
    rw [Journal.recast_call, Guise.policy_of_upright p up]
  induction xs generalizing j with
  | nil => rfl
  | cons x xs ih =>
    cases xs with
    | nil => rfl
    | cons y ys =>
      rw [callAdjacent, List.map_cons, List.map_cons, callAdjacent]
      split
      · rename_i hlt
        rw [if_pos (by exact hlt), ih, hcall]
        rfl
      · rename_i hlt
        rw [if_neg (by exact hlt), hcall]
        rfl

omit up in
theorem firstDisorder_recast (order : κ → κ → Ordering) (xs : List (Item κ ν)) :
    firstDisorder order (xs.map (Item.recast g)) =
      (firstDisorder order xs).map (Item.recast g) := by
  induction xs with
  | nil => rfl
  | cons x xs ih =>
    cases xs with
    | nil => rfl
    | cons y ys =>
      rw [List.map_cons, List.map_cons, firstDisorder, firstDisorder, apply_ite (Option.map _),
        ← ih]
      rfl

theorem verdict_recast {m m' : Map κ ν} (hp : m'.policy = g.policy m.policy)
    (hc : m'.count = m.count) (H : Nat) (xs : List (Item κ ν)) :
    m'.verdict H (xs.map (Item.recast g)) = (m.verdict H xs).mapError (Violation.recast g) := by
  rw [Guise.policy_of_upright _ up] at hp
  unfold verdict
  rw [compare, compare, hp, firstDisorder_recast, hc, List.length_map]
  cases firstDisorder m.policy.comparator.compare xs with
  | some x => rfl
  | none =>
    simp only [Option.map_none]
    split <;> rfl

end Map
end OrderedMap
