import OrderedMap.Proofs.Map.Landing
import OrderedMap.Proofs.Store.Searching

/-!
The lookup of a tag and the descent for its placement agree, on trees with any colours and with tags
in any order, and under comparators that contradict themselves. They go down the same way and ask
the same questions, and so do all operations on one tag; all of them act at the node where the way
ends.
-/
namespace OrderedMap

variable {κ ν : Type}

/-- The nodes that a search visits lead down from the root. -/
theorem Arena.Hangs.descends_visited {a : Arena κ ν} {p : Option NodeId} {t : Tree κ ν}
    (h : a.Hangs p t) (order : Cell κ ν → Ordering) :
    a.Descends ((t.visited order).map (·.id)) ∧
      ((t.visited order).map (·.id)).head? = t.root? := by
  have below {p : Option NodeId} {l r : Tree κ ν} {k : Color} {c : Cell κ ν} {ns : List NodeId}
      (hc : a.Hangs p (.node l k c r)) (s : Side) (hns : a.Descends ns)
      (hh : ns.head? = ((Tree.node l k c r).child s).root?) : a.Descends (c.id :: ns) := by
    refine List.isChain_cons.mpr ⟨fun n hn => ⟨s, ?_⟩, hns⟩
    rw [child_of_get? s hc.1, ← hn, hh]
    cases s <;> rfl
  induction t generalizing p with
  | nil => exact ⟨List.isChain_nil, rfl⟩
  | node l k c r ihl ihr =>
    obtain ⟨chainl, headl⟩ := ihl h.2.1
    obtain ⟨chainr, headr⟩ := ihr h.2.2
    refine ⟨?_, rfl⟩
    rw [Tree.visited, List.map_cons]
    cases order c with
    | eq => exact List.isChain_singleton _
    | lt => exact below h .left chainl headl
    | gt => exact below h .right chainr headr

namespace Map

variable {m : Map κ ν} {t : Tree κ ν} {tag : κ}

/-- Both searches of a map for a tag and what they return, with the nodes that they pass and the
comparisons that they make. -/
structure Searches (m : Map κ ν) (tag : κ) (found : Option NodeId)
    (near : Option (NodeId × Ordering)) (ns : List NodeId) (calls : List (Call κ)) : Prop where
  lookup : ∀ clock j, locate tag ⟨m, clock, j⟩ = .ok found ⟨m, clock, j.addCalls calls⟩
  descent : ∀ clock j, nearest tag ⟨m, clock, j⟩ = .ok near ⟨m, clock, j.addCalls calls⟩
  found_iff : ∀ n, found = some n ↔ near = some (n, .eq)
  near_iff : near = none ↔ m.arena.root = none
  /-- Where the tag is missing a new node could be hung. -/
  vacant : ∀ n o side, near = some (n, o) → Side.ofOrdering? o = some side →
    m.arena.child side n = .ok none
  descends : m.arena.Descends ns
  top : ns.head? = m.arena.root
  bottom : ns.getLast? = near.map (·.1)
  /-- The tag is compared with those of the nodes, in this order. -/
  asked : ∃ ts, ns.mapM m.arena.tag = .ok ts ∧ calls = m.policy.comparator.callsWith tag ts

theorem afterSearch_eq (m : Map κ ν) (tag : κ) (t : Tree κ ν) (clock : Nat) (j : Journal κ ν) :
    afterSearch ⟨m, clock, j⟩ tag t = ⟨m, clock, j.addCalls (m.policy.comparator.callsWith tag
      (Cell.tags (t.visited (m.order tag))))⟩ := by
  rw [afterSearch, Journal.callAll_eq]
  rfl

theorem searches_of_stands (h : m.arena.Stands t) (hfill : t.Filled) (tag : κ) :
    m.Searches tag (m.found? tag) (landing (m.order tag) (t.seek (m.order tag) []))
      ((t.visited (m.order tag)).map (·.id))
      (m.policy.comparator.callsWith tag (Cell.tags (t.visited (m.order tag)))) where
  lookup clock j := by
    obtain ⟨r, w, he, rfl, rfl⟩ := yields_locate (w := ⟨m, clock, j⟩) (s := tag) h hfill
    rw [he, found?_of_stands h hfill, afterSearch_eq]
  descent clock j := by
    obtain ⟨r, w, he, rfl, rfl⟩ := yields_nearest (w := ⟨m, clock, j⟩) (s := tag) h hfill
    rw [he, afterSearch_eq]
  found_iff n := by
    rw [found?_of_stands h hfill]
    exact t.root?_seek_iff n
  near_iff := h.landing_eq_none_iff
  vacant n o side hl hs := h.vacant hl hs
  descends := (h.links.descends_visited _).1
  top := (h.links.descends_visited _).2.trans h.root.symm
  bottom := by
    rw [Tree.landing_seek, List.getLast?_map]
    cases (t.visited (m.order tag)).getLast? <;> rfl
  asked := ⟨_, h.tags_eq hfill (Tree.visited_subset ..), rfl⟩

/-- The action makes exactly the given comparisons, whatever it ends with. -/
def Asks {α : Type} (calls : List (Call κ)) (w : Workspace κ ν) (x : MapM κ ν α) : Prop :=
  Ends x w fun _ w' => w'.journal.calls = w.journal.calls ++ calls.toArray

theorem leads_asks (calls : List (Call κ)) (w : Workspace κ ν) : Leads (Asks calls w) Quiet := by
  intro α β x f hx hf
  refine Ends.bind hx ?_ ?_
  · intro a w₁ h₁
    refine (hf a w₁).mono ?_
    intro _ w₂ h₂
    exact h₂.trans h₁
  · intro _ w₁ h₁
    exact h₁

theorem Searches.asks {found : Option NodeId} {near : Option (NodeId × Ordering)}
    {ns : List NodeId} {calls : List (Call κ)} (h : m.Searches tag found near ns calls)
    {op : Op κ ν} (hop : op.tag? = some tag) (clock : Nat) (j : Journal κ ν) :
    Asks calls ⟨m, clock, j⟩ op.perform := by
  refine perform_searching (R := Asks calls ⟨m, clock, j⟩) (leads_asks _ _) ?_ ?_ hop
  · rw [Asks, Ends, h.lookup]
    rfl
  · rw [Asks, Ends, h.descent]
    rfl

/-- What a map amounts to, read off its nodes. -/
def roll (m : Map κ ν) : Roll κ ν := ⟨m.id, m.policy, m.items⟩

theorem Shows.roll_eq {r : Roll κ ν} (h : m.Shows r) : m.roll = r := by
  rw [roll, h.items_eq, h.id, h.policy]

/-- An operation on one tag depends on the lookup of that tag alone, and answers. -/
theorem perform?_of_tag {op : Op κ ν} (hop : op.tag? = some tag) (hi : ∀ v, op ≠ .insert tag v)
    (seek : κ → Option NodeId) (r : Roll κ ν) : ∃ reply r',
      r.perform? seek op = some (.ok reply, r') ∧
      r.perform? (fun _ => seek tag) op = some (.ok reply, r') := by
  match op, hop with
  | .insert t v, rfl => exact absurd rfl (hi v)
  | .get t, rfl => exact ⟨_, _, rfl, rfl⟩
  | .getEntry t, rfl => exact ⟨_, _, rfl, rfl⟩
  | .contains t, rfl => exact ⟨_, _, rfl, rfl⟩
  | .overwrite t v, rfl => exact ⟨_, _, rfl, rfl⟩
  | .position t, rfl => exact ⟨_, _, rfl, rfl⟩
  | .erase t, rfl => exact ⟨_, _, rfl, rfl⟩
  | .removeValue t, rfl => exact ⟨_, _, rfl, rfl⟩
  | .remove t, rfl => exact ⟨_, _, rfl, rfl⟩
  | .walk (.find t) steps, rfl => exact ⟨_, _, rfl, rfl⟩
  | .revise (.find t) steps, rfl => exact ⟨_, _, rfl, rfl⟩

/-- All operations on a tag act at one node, or all miss it. -/
structure ActsAt (m : Map κ ν) (tag : κ) (found : Option NodeId) : Prop where
  equal : ∀ n, found = some n → ∃ x ∈ m.items, x.node = n ∧ m.compare tag x.entry.tag = .eq
  /-- Operations that store no new entry do what the roll says of a tag that is at this node. -/
  perform : ∀ op : Op κ ν, op.tag? = some tag → (∀ v, op ≠ .insert tag v) → ∀ clock j,
    ∃ reply r w, m.roll.perform? (fun _ => found) op = some (.ok reply, r) ∧
      op.perform ⟨m, clock, j⟩ = .ok reply w ∧ w.map.roll = r
  overwrites : ∀ n, found = some n → ∀ v clock j, ∃ w, insert tag v ⟨m, clock, j⟩ = .ok false w ∧
    w.map.items = Item.rewriteAt n (fun _ => ⟨tag, v⟩) m.items
  adds : found = none → ∀ v clock j, ∃ w ys zs, insert tag v ⟨m, clock, j⟩ = .ok true w ∧
    m.items = ys ++ zs ∧ w.map.items = ys ++ ⟨m.arena.nextId, clock, ⟨tag, v⟩⟩ :: zs

theorem Shows.actsAt {r : Roll κ ν} (h : m.Shows r) (tag : κ) : m.ActsAt tag (m.found? tag) where
  equal n hn := by
    obtain ⟨x, hx, hxn, ho⟩ := h.of_found hn
    exact ⟨x, h.items_eq ▸ hx, hxn, h.compare ▸ ho⟩
  perform op hop hi clock j := by
    obtain ⟨reply, r', hp, hc⟩ := perform?_of_tag hop hi m.found? m.roll
    have shows : m.Shows m.roll := h.roll_eq.symm ▸ h
    have done := ends_perform (w := ⟨m, clock, j⟩) shows hp
    refine ⟨reply, r', ?_⟩
    unfold Ends at done
    split at done
    · rename_i a w he
      obtain ⟨ha, disposes⟩ := done
      cases ha
      exact ⟨w, hc, he, disposes.shows.roll_eq⟩
    · cases done.1
  overwrites n hn v clock j := by
    obtain ⟨new, w, he, rfl, becomes⟩ :=
      yields_insert_found (w := ⟨m, clock, j⟩) (v := v) h.lists hn
    obtain ⟨t, ht⟩ := becomes.lists
    exact ⟨w, he, by rw [ht.items_eq, h.items_eq]⟩
  adds hn v clock j := by
    obtain ⟨new, w, he, rfl, ys, zs, hx, -, -, becomes⟩ :=
      yields_insert_new (w := ⟨m, clock, j⟩) (v := v) h.lists hn
    obtain ⟨t, ht⟩ := becomes.lists
    exact ⟨w, ys, zs, he, h.items_eq.trans hx, ht.items_eq⟩

end Map

namespace Store

variable [EntrySize κ ν]

/-- Whatever tree stands in a map and whatever its comparator, both searches for a tag ask the same
questions on the same way down and tell the same node, or the same missing one, and every operation
on the tag asks just these questions. In the maps that a run leaves all of them act at that node. -/
theorem searches_agree :
    (∀ (m : Map κ ν) (t : Tree κ ν), m.arena.Stands t → t.Filled → ∀ tag : κ, ∃ near ns calls,
      m.Searches tag (m.found? tag) near ns calls ∧
      ∀ op : Map.Op κ ν, op.tag? = some tag → ∀ clock j,
        Map.Asks calls ⟨m, clock, j⟩ op.perform) ∧
    ∀ (ops : List (Op κ ν)) (k : Nat) (m : Map κ ν), (after ops ∅).map? k = some m →
      (∃ t, m.arena.Stands t ∧ t.Filled) ∧ ∀ tag, m.ActsAt tag (m.found? tag) := by
  refine ⟨fun m t h hfill tag => ?_, fun ops k m hm => ?_⟩
  · have searches := Map.searches_of_stands h hfill tag
    exact ⟨_, _, _, searches, fun op hop clock j => searches.asks hop clock j⟩
  · obtain ⟨r, hr, -, -⟩ := sound_after ops k m hm
    obtain ⟨t, ht⟩ := hr.lists
    exact ⟨⟨t, ht.bears.stands, ht.filled⟩, hr.actsAt⟩

/-- A tree of two red nodes. Its comparator takes the tag 9 for equal to all tags, and any other one
for greater. -/
def skewed : Tree Nat Nat :=
  .node (.node .nil .red ⟨⟨1⟩, 1, some ⟨9, 90⟩⟩ .nil) .red ⟨⟨0⟩, 0, some ⟨1, 10⟩⟩ .nil

def skewedMap : Map Nat Nat :=
  ⟨⟨0⟩, ⟨#[some ⟨none, some ⟨1⟩, none, .red, 0, some ⟨1, 10⟩⟩,
    some ⟨some ⟨0⟩, none, none, .red, 1, some ⟨9, 90⟩⟩], [], some ⟨0⟩⟩, 2,
    .ofComparison fun _ t => if t = 9 then .eq else .lt⟩

/-- In the second map every tag is less than the others, and the tag 1 has come to lie to the right
of the root. So all operations miss it. -/
theorem searches_agree_skewed :
    (skewedMap.arena.Stands skewed ∧ skewed.Filled ∧ ∃ ns,
      skewedMap.Searches 5 (some ⟨1⟩) (some (⟨1⟩, .eq)) ns [⟨true, 5, 1⟩, ⟨true, 5, 9⟩]) ∧
    ∃ m, (after (entered (.ofComparison fun a b => if a = b then .eq else .lt) 3) ∅).map? 0 =
      some m ∧ m.ActsAt 1 none := by
  have stands : skewedMap.arena.Stands skewed := ⟨⟨rfl, ⟨rfl, trivial, trivial⟩, trivial⟩, rfl⟩
  have filled : skewed.Filled := by
    simp [Tree.Filled, skewed, Tree.cells]
  have there : ((after (entered (.ofComparison fun a b => if a = b then .eq else .lt) 3) ∅).map?
      0).isSome := by decide +kernel
  have missed : ((after (entered (.ofComparison fun a b => if a = b then .eq else .lt) 3) ∅).map?
      0).bind (·.found? 1) = none := by decide +kernel
  refine ⟨⟨stands, filled, ?_⟩, ?_⟩
  · obtain ⟨near, ns, calls, searches, -⟩ := searches_agree.1 skewedMap skewed stands filled 5
    have found : skewedMap.found? 5 = some ⟨1⟩ := by decide +kernel
    rw [found] at searches
    have near_eq : near = some (⟨1⟩, .eq) := (searches.found_iff ⟨1⟩).mp rfl
    have asked : Map.locate 5 ⟨skewedMap, 0, ∅⟩ = .ok (some ⟨1⟩)
        ⟨skewedMap, 0, Journal.addCalls ∅ [⟨true, 5, 1⟩, ⟨true, 5, 9⟩]⟩ := rfl
    injection (searches.lookup 0 ∅).symm.trans asked with _ after_eq
    have calls_eq := congrArg (·.journal.calls.toList) after_eq
    simp only [Journal.addCalls, Array.toList_append] at calls_eq
    rw [List.append_cancel_left calls_eq, near_eq] at searches
    exact ⟨ns, searches⟩
  · obtain ⟨m, hm⟩ := Option.isSome_iff_exists.mp there
    rw [hm] at missed
    have acts := (searches_agree.2 _ 0 m hm).2 1
    rw [show m.found? 1 = none from missed] at acts
    exact ⟨m, hm, acts⟩

end Store
end OrderedMap
