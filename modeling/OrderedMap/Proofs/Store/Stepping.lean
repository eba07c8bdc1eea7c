import Mathlib.Data.List.Infix
import OrderedMap.Proofs.Arena.Stepping
import OrderedMap.Proofs.Store.Sweep

/-!
Cursors that move to and fro. A cursor that began at an index rests on the item as many places
further on as it has moved to the right more often than to the left, until it first moves off
either end; from then on it rests on nothing and does not move.
-/
namespace OrderedMap

variable {κ ν : Type}

namespace Side

/-- How many moves go to the right, less those that go to the left. -/
def net (sides : List Side) : Int := sides.count .right - sides.count .left

theorem net_cons (s : Side) (sides : List Side) : net (s :: sides) = net [s] + net sides := by
  cases s <;> simp [net] <;> omega

end Side

/-- The item on which a cursor rests that began at an index and moved towards the given sides. There
is none if the cursor was beyond either end at any time. -/
def Item.reached (xs : List (Item κ ν)) (i : Int) (sides : List Side) : Option (Item κ ν) :=
  if ∀ p ∈ sides.inits, 0 ≤ i + Side.net p ∧ i + Side.net p < xs.length then
    xs[(i + Side.net sides).toNat]?
  else
    none

/-- A cursor moves towards the given sides, one after the other, and then looks where it is. -/
def Step.trip (sides : List Side) : List Step :=
  sides.map .move ++ [.available, .entry, .position]

/-- What a cursor answers that began at an index. Each move tells whether there is an item. -/
def Item.told (id : MapId) (xs : List (Item κ ν)) (i : Int) (sides : List Side) :
    List (Reply κ ν) :=
  sides.inits.tail.map (fun p => .flag (reached xs i p).isSome) ++
    [.flag (reached xs i sides).isSome, .entry ((reached xs i sides).map (·.entry)),
      .position ((reached xs i sides).map fun x => ⟨id, x.node, x.stamp⟩)]

namespace Item

variable {xs ys zs : List (Item κ ν)} {x : Item κ ν} {i : Int}

theorem reached_nil (h : 0 ≤ i ∧ i < xs.length) : reached xs i [] = xs[i.toNat]? := by
  simp [reached, Side.net, h]

/-- Beyond either end there is nothing to rest on. -/
theorem reached_of_off (h : ¬(0 ≤ i ∧ i < xs.length)) (sides : List Side) :
    reached xs i sides = none := by
  refine if_neg fun hall => h ?_
  simpa [Side.net] using hall [] ((List.mem_inits ..).mpr List.nil_prefix)

theorem reached_cons (h : 0 ≤ i ∧ i < xs.length) (s : Side) (sides : List Side) :
    reached xs i (s :: sides) = reached xs (i + Side.net [s]) sides := by
  obtain ⟨j, hj⟩ : ∃ j, j = i + Side.net [s] := ⟨_, rfl⟩
  have onward (p : List Side) : i + Side.net (s :: p) = j + Side.net p := by
    rw [Side.net_cons, hj]
    omega
  have start : i + Side.net [] = i := by simp [Side.net]
  rw [← hj]
  simp only [reached, List.inits_cons, List.forall_mem_cons, List.forall_mem_map, onward, start,
    h, and_self, true_and]

theorem exists_split (h : 0 ≤ i ∧ i < xs.length) :
    ∃ ys x zs, xs = ys ++ x :: zs ∧ (ys.length : Int) = i := by
  obtain ⟨n, rfl⟩ := Int.eq_ofNat_of_zero_le h.1
  have hn : n < xs.length := by omega
  exact ⟨xs.take n, xs[n], xs.drop (n + 1), by simp, by simp; omega⟩

theorem within_of_split (hx : xs = ys ++ x :: zs) :
    0 ≤ (ys.length : Int) ∧ (ys.length : Int) < xs.length := by
  rw [hx, List.length_append, List.length_cons]
  omega

theorem reached_split (hx : xs = ys ++ x :: zs) : reached xs ys.length [] = some x := by
  rw [reached_nil (within_of_split hx), hx]
  simp

/-- The item one move away from another. -/
theorem reached_singleton (hx : xs = ys ++ x :: zs) (s : Side) :
    reached xs ys.length [s] = beside s ys zs := by
  rw [reached_cons (within_of_split hx)]
  cases s with
  | left =>
    obtain rfl | ⟨us, y, rfl⟩ := List.eq_nil_or_concat' ys
    · exact reached_of_off (by simp [Side.net]) []
    · have split : xs = us ++ y :: x :: zs := by simp [hx]
      have before : reached xs us.length [] = some y := reached_split split
      have net_left : Side.net [.left] = -1 := rfl
      have back : ((us ++ [y]).length : Int) + Side.net [.left] = us.length := by
        rw [net_left, List.length_append, List.length_singleton]
        omega
      rw [back, before]
      simp [beside]
  | right =>
    cases zs with
    | nil => exact reached_of_off (by simp [hx, Side.net]) []
    | cons z zs =>
      have split : xs = (ys ++ [x]) ++ z :: zs := by simp [hx]
      have behind : reached xs (ys ++ [x]).length [] = some z := reached_split split
      have onward : (ys.length : Int) + Side.net [.right] = (ys ++ [x]).length := by
        simp [Side.net]
      rw [onward, behind]
      rfl

theorem told_cons {id : MapId} (h : 0 ≤ i ∧ i < xs.length) (s : Side) (sides : List Side) :
    told id xs i (s :: sides) =
      .flag (reached xs (i + Side.net [s]) []).isSome :: told id xs (i + Side.net [s]) sides := by
  obtain ⟨rest, hrest⟩ : ∃ rest, sides.inits = [] :: rest := by cases sides <;> exact ⟨_, rfl⟩
  simp only [told, List.inits_cons, List.tail_cons, hrest, List.map_cons, List.map_map,
    Function.comp_def, reached_cons h, List.cons_append]

theorem told_cons_of_off {id : MapId} (h : ¬(0 ≤ i ∧ i < xs.length)) (s : Side)
    (sides : List Side) : told id xs i (s :: sides) =
      .flag (reached xs i []).isSome :: told id xs i sides := by
  obtain ⟨rest, hrest⟩ : ∃ rest, sides.inits = [] :: rest := by cases sides <;> exact ⟨_, rfl⟩
  simp only [told, List.inits_cons, List.tail_cons, hrest, List.map_cons, List.map_map,
    Function.comp_def, reached_of_off h, List.cons_append]

end Item

namespace Roll

variable {r : Roll κ ν} {i : Int}

/-- The neighbour of the item at an index is the item one move away. -/
theorem next_reached (h : r.nodes.Nodup) (i : Int) (s : Side) :
    ((Item.reached r.items i []).map (·.node)).bind (r.next s) =
      (Item.reached r.items i [s]).map (·.node) := by
  by_cases hi : 0 ≤ i ∧ i < r.items.length
  · obtain ⟨ys, x, zs, hx, rfl⟩ := Item.exists_split hi
    rw [Item.reached_split hx, Item.reached_singleton hx, Option.map_some, Option.bind_some,
      next_split h hx]
  · rw [Item.reached_of_off hi, Item.reached_of_off hi]
    rfl

theorem step_move (r : Roll κ ν) (s : Side) (n : Option NodeId) : r.step (.move s) ⟨n⟩ =
    (.flag (n.bind (r.next s)).isSome, ⟨n.bind (r.next s)⟩) := by cases n <;> rfl

/-- What a cursor sees at an index. -/
theorem walk_look (h : r.nodes.Nodup) (i : Int) :
    r.walk [.available, .entry, .position] ⟨(Item.reached r.items i []).map (·.node)⟩ =
      Item.told r.id r.items i [] := by
  have at_eq : r.at? ((Item.reached r.items i []).map (·.node)) = Item.reached r.items i [] := by
    by_cases hi : 0 ≤ i ∧ i < r.items.length
    · obtain ⟨ys, x, zs, hx, rfl⟩ := Item.exists_split hi
      rw [Item.reached_split hx]
      exact Item.at?_of_mem h (by simp [hx])
    · rw [Item.reached_of_off hi]
      rfl
  simp only [walk, step, at_eq, Option.isSome_map]
  rfl

theorem walk_trip (h : r.nodes.Nodup) (i : Int) (sides : List Side) :
    r.walk (Step.trip sides) ⟨(Item.reached r.items i []).map (·.node)⟩ =
      Item.told r.id r.items i sides := by
  induction sides generalizing i with
  | nil => exact r.walk_look h i
  | cons s sides ih =>
    have first : r.walk (Step.trip (s :: sides)) ⟨(Item.reached r.items i []).map (·.node)⟩ =
        .flag (Item.reached r.items i [s]).isSome ::
          r.walk (Step.trip sides) ⟨(Item.reached r.items i [s]).map (·.node)⟩ := by
      simp only [Step.trip, List.map_cons, List.cons_append, walk, step_move, next_reached h,
        Option.isSome_map]
    rw [first]
    by_cases hi : 0 ≤ i ∧ i < r.items.length
    · rw [Item.reached_cons hi, ih, Item.told_cons hi]
    · have still : Item.reached r.items i [s] = Item.reached r.items i [] := by
        rw [Item.reached_of_off hi, Item.reached_of_off hi]
      rw [still, ih, Item.told_cons_of_off hi]

end Roll

/-- A writing cursor that only looks goes where a reading one goes, and nothing changes. -/
theorem Revision.walk_looks {w : Workspace κ ν} {r : Roll κ ν} {c : Cursor} (h : w.map.Shows r)
    (hc : c.Rests r) (steps : List Step) :
    Revision.walk (steps.map .look) c w = .ok (r.walk steps c) w := by
  have looked : Yields (Revision.walk (steps.map .look) c) w fun as w' =>
      as = r.walk steps c ∧ w' = w := by
    induction steps generalizing c with
    | nil => exact yields_pure.mpr ⟨by rw [Roll.walk], rfl⟩
    | cons s steps ih =>
      rw [List.map_cons, yields_walk_look h hc]
      apply (ih (s.rests hc)).mono
      rintro - - ⟨rfl, rfl⟩
      exact ⟨by rw [Roll.walk], rfl⟩
  obtain ⟨as, w', he, rfl, rfl⟩ := looked
  exact he

namespace Store

variable [EntrySize κ ν]

/-- In every tree that hangs together, whatever its shape and its colours, steps from the first node
to the right come to every node exactly once and in order, and then to none; steps from the last
node to the left come to the same nodes the other way round; and each undoes the other. So in every
map that any run leaves a cursor that began at an index, whether it only reads or may also write,
rests as many places further on as it has moved to the right more often than to the left. It rests
on nothing from the first move off either end, which fails as all later ones do. Nothing changes. -/
theorem stepping_after :
    (∀ (a : Arena κ ν) (t : Tree κ ν), a.Stands t → t.ids.Nodup → a.Threads t.ids ∧
      ∀ x ∈ t.ids, ∀ y ∈ t.ids,
        (a.neighbour .right x = .ok (some y) ↔ a.neighbour .left y = .ok (some x))) ∧
    ∀ (ops : List (Op κ ν)) (k : Nat) (m : Map κ ν), (after ops ∅).map? k = some m →
      ∀ (i : Nat) (x : Item κ ν), m.items[i]? = some x → ∀ sides : List Side,
        Step.walk m (Step.trip sides) ⟨some x.node⟩ = .ok (Item.told ⟨k⟩ m.items i sides) ∧
        ∀ clock j, Revision.walk ((Step.trip sides).map .look) ⟨some x.node⟩ ⟨m, clock, j⟩ =
          .ok (Item.told ⟨k⟩ m.items i sides) ⟨m, clock, j⟩ := by
  constructor
  · intro a t h hnd
    have threads := h.threads hnd
    exact ⟨threads, fun x hx y hy => threads.inverse hx hy⟩
  · intro ops k m hm i x hx sides
    obtain ⟨r, hr, hid, -⟩ := sound_after ops k m hm
    rw [hr.items_eq] at hx ⊢
    obtain ⟨hi, hget⟩ := List.getElem?_eq_some_iff.mp hx
    have here : Item.reached r.items i [] = some x := by
      rw [Item.reached_nil (by omega)]
      simpa using hx
    have start : (⟨some x.node⟩ : Cursor) = ⟨(Item.reached r.items i []).map (·.node)⟩ := by
      rw [here, Option.map_some]
    have rests : Cursor.Rests ⟨some x.node⟩ r := by
      rintro - ⟨⟩
      exact List.mem_map_of_mem (hget ▸ List.getElem_mem hi)
    have told : r.walk (Step.trip sides) ⟨some x.node⟩ = Item.told ⟨k⟩ r.items i sides := by
      rw [start, r.walk_trip hr.nodup, hid]
    refine ⟨?_, fun clock j => ?_⟩
    · rw [Step.walk_eq hr rests, told]
    · rw [Revision.walk_looks (w := ⟨m, clock, j⟩) hr rests, told]

/-- Three red nodes, each hung on the one before it, to the right and then to the left. -/
def crooked : Tree Nat Nat :=
  .node .nil .red ⟨⟨0⟩, 0, none⟩
    (.node (.node .nil .red ⟨⟨2⟩, 2, none⟩ .nil) .red ⟨⟨1⟩, 1, none⟩ .nil)

def crookedArena : Arena Nat Nat :=
  ⟨#[some ⟨none, none, some ⟨1⟩, .red, 0, none⟩, some ⟨some ⟨0⟩, some ⟨2⟩, none, .red, 1, none⟩,
    some ⟨some ⟨1⟩, none, none, .red, 2, none⟩], [], some ⟨0⟩⟩

/-- The tree keeps no colour rule. The cursor falls off the left end with its second move. -/
theorem stepping_after_crooked : crookedArena.Threads [⟨0⟩, ⟨2⟩, ⟨1⟩] ∧
    ∃ m x, (after throng ∅).map? 0 = some m ∧ m.items[1]? = some x ∧
      Step.walk m (Step.trip [.left, .left, .right]) ⟨some x.node⟩ =
        .ok [.flag true, .flag false, .flag false, .flag false, .entry none, .position none] := by
  have stands : crookedArena.Stands crooked := ⟨by simp [Arena.Hangs, crooked]; decide, rfl⟩
  have there : ((after throng ∅).map? 0).isSome := by decide +kernel
  have listed : ((after throng ∅).map? 0).map Map.items = some
      [⟨⟨3⟩, 3, ⟨1, 10⟩⟩, ⟨⟨1⟩, 1, ⟨2, 20⟩⟩, ⟨⟨4⟩, 4, ⟨3, 30⟩⟩, ⟨⟨0⟩, 0, ⟨5, 50⟩⟩,
        ⟨⟨5⟩, 5, ⟨7, 70⟩⟩, ⟨⟨2⟩, 2, ⟨8, 80⟩⟩, ⟨⟨6⟩, 6, ⟨9, 90⟩⟩] := by decide +kernel
  obtain ⟨m, hm⟩ := Option.isSome_iff_exists.mp there
  rw [hm] at listed
  have items := Option.some.inj listed
  have second : m.items[1]? = some ⟨⟨1⟩, 1, ⟨2, 20⟩⟩ := by rw [items]; rfl
  obtain ⟨trees, cursors⟩ := @stepping_after Nat Nat _
  have walked := (cursors throng 0 m hm 1 _ second [.left, .left, .right]).1
  rw [items] at walked
  exact ⟨(trees crookedArena crooked stands (by decide)).1, m, _, hm, second, walked⟩

end Store
end OrderedMap
