import OrderedMap.Proofs.Store.Tracking

/-!
Positions through runs. A position goes on to resolve to the node it was taken from, with the entry
there, until that entry leaves its map. Whenever it resolves at all, the node is the one it was
taken from, which has stayed in its slot ever since.
-/
namespace OrderedMap

variable {κ ν : Type}

namespace Roll

variable {r : Roll κ ν} {x : Item κ ν}

theorem resolve_position (h : r.nodes.Nodup) (hx : x ∈ r.items) :
    r.resolve (r.position x) = .ok x := by
  rw [resolve, if_neg (show ¬ (r.position x).map ≠ r.id from not_not.mpr rfl)]
  cases hf : r.items.find? fun y =>
      y.node = (r.position x).node ∧ y.stamp = (r.position x).stamp with
  | none => simpa [position] using List.find?_eq_none.mp hf x hx
  | some y =>
    have hy := List.find?_some hf
    simp only [Bool.decide_and, Bool.and_eq_true, decide_eq_true_eq] at hy
    rw [List.inj_on_of_nodup_map h (List.mem_of_find?_eq_some hf) hx hy.1]

end Roll

namespace Map

variable {m : Map κ ν} {n : NodeId} {p : Position} {e : Entry κ ν}

/-- A position taken at a node with an entry names an item. -/
theorem has_of_positionAt (hp : m.positionAt n = .ok p) (he : m.arena.entry n = .ok e) :
    p = ⟨m.id, n, p.stamp⟩ ∧ m.Has ⟨n, p.stamp, e⟩ := by
  cases hn : m.arena.node n with
  | error f =>
    rw [positionAt, hn] at hp
    cases hp
  | ok y =>
    rw [positionAt, hn] at hp
    cases hp
    rw [Arena.entry, hn] at he
    refine ⟨rfl, y, Arena.get?_eq_some_iff.mpr hn, rfl, ?_⟩
    cases hy : y.entry with
    | none =>
      simp only [bind, Except.bind, hy] at he
      cases he
    | some e' =>
      simp only [bind, Except.bind, hy] at he
      cases he
      rfl

end Map

namespace Store

variable {s : Store κ ν} {j k : Nat} {m : Map κ ν} {x y : Item κ ν}

theorem stamped_empty : (∅ : Store κ ν).Stamped := by
  refine ⟨fun k m hm => ?_, fun j k x y hx => ?_⟩
  · rw [map?_empty] at hm
    cases hm
  · obtain ⟨m, hm, -⟩ := hx
    rw [map?_empty] at hm
    cases hm

/-- A position resolves in a map if the map has the item that it names. -/
theorem Stamped.nodeAt_iff (h : s.Stamped) (hm : s.map? k = some m) {p : Position} {n : NodeId} :
    m.nodeAt p = .ok n ↔ p.map = ⟨k⟩ ∧ n = p.node ∧ ∃ e, s.Has k ⟨p.node, p.stamp, e⟩ := by
  obtain ⟨r, hr, hid, -⟩ := h.shows k m hm
  obtain ⟨t, hl⟩ := hr.lists
  rw [hl.nodeAt_eq_ok_iff, hr.id, hid]
  simp only [has_iff hm hr]
  constructor
  · rintro ⟨hp, hn, ⟨n', st, e⟩, hx, rfl, rfl⟩
    exact ⟨hp, hn, e, hx⟩
  · rintro ⟨hp, hn, e, hx⟩
    exact ⟨hp, hn, _, hx, rfl, rfl⟩

/-- Every occupied slot of a map is that of an item. -/
theorem Stamped.has_of_get? (h : s.Stamped) (hm : s.map? k = some m) {n : NodeId} {y : Node κ ν}
    (hy : m.arena.get? n = some y) : ∃ e, s.Has k ⟨n, y.stamp, e⟩ := by
  obtain ⟨r, hr, -⟩ := h.shows k m hm
  obtain ⟨t, hl⟩ := hr.lists
  obtain ⟨x, -, rfl, hs, he⟩ := hl.exists_item hy
  exact ⟨x.entry, m, hm, y, hy, rfl, he⟩

/-- The position of an item resolves to its node. -/
theorem Stamped.resolves (h : s.Stamped) (hx : s.Has k x) : ∃ m, s.map? k = some m ∧
    m.nodeAt ⟨⟨k⟩, x.node, x.stamp⟩ = .ok x.node ∧ m.arena.entry x.node = .ok x.entry := by
  obtain ⟨m, hm, y, hy, hs, he⟩ := hx
  exact ⟨m, hm, (h.nodeAt_iff hm).mpr ⟨rfl, rfl, x.entry, m, hm, y, hy, hs, he⟩,
    Arena.entry_of_get? hy he⟩

/-- No two occupied slots bear the same stamp. -/
theorem Stamped.slot_unique (h : s.Stamped) {m m' : Map κ ν} {a b : NodeId} {x y : Node κ ν}
    (hm : s.map? j = some m) (hm' : s.map? k = some m') (hx : m.arena.get? a = some x)
    (hy : m'.arena.get? b = some y) (e : x.stamp = y.stamp) : j = k ∧ a = b := by
  obtain ⟨e₁, h₁⟩ := h.has_of_get? hm hx
  obtain ⟨e₂, h₂⟩ := h.has_of_get? hm' hy
  obtain ⟨rfl, heq⟩ := h.eq h₁ h₂ e
  exact ⟨rfl, congrArg (·.node) heq⟩

/-- What a position names that was taken at a node with an entry. -/
theorem Stamped.has_of_positionAt (h : s.Stamped) (hm : s.map? k = some m) {n : NodeId}
    {e : Entry κ ν} {p : Position} (hp : m.positionAt n = .ok p) (he : m.arena.entry n = .ok e) :
    p = ⟨⟨k⟩, n, p.stamp⟩ ∧ s.Has k ⟨n, p.stamp, e⟩ := by
  obtain ⟨r, hr, hid, -⟩ := h.shows k m hm
  obtain ⟨hpos, hx⟩ := Map.has_of_positionAt hp he
  rw [hr.id, hid] at hpos
  exact ⟨hpos, m, hm, hx⟩

variable [EntrySize κ ν]

theorem Stamped.after (h : s.Stamped) (ops : List (Op κ ν)) : (after ops s).Stamped :=
  after_keeps (fun _ op h => (h.step op).1) ops h

theorem Stamped.clock_le (h : s.Stamped) (ops : List (Op κ ν)) :
    s.clock ≤ (Store.after ops s).clock := by
  induction ops generalizing s with
  | nil => exact Nat.le_refl _
  | cons op ops ih => exact Nat.le_trans (h.step op).2.clock (ih (h.step op).1)

/-- An item is there after a run, with the entry that is its fate. -/
theorem Stamped.has_after (h : s.Stamped) (hx : s.Has k x) {ops : List (Op κ ν)} {e : Entry κ ν}
    (hf : fate ops s k x.node x.entry = some e) :
    (Store.after ops s).Has k { x with entry := e } := by
  induction ops generalizing s x with
  | nil =>
    cases hf
    exact hx
  | cons op ops ih =>
    obtain ⟨e', hop, hrest⟩ := Option.bind_eq_some_iff.mp hf
    obtain ⟨h', hfol⟩ := h.step op
    exact ih h' (x := { x with entry := e' }) (hfol.kept k x hx e' hop) hrest

/-- A node with an old stamp has been in its slot since the stamp was drawn. -/
theorem Stamped.has_before (h : s.Stamped) {ops : List (Op κ ν)}
    (hy : (Store.after ops s).Has j y) (hc : y.stamp < s.clock) :
    ∃ i x, s.Has i x ∧ x.node = y.node ∧ x.stamp = y.stamp := by
  induction ops generalizing s with
  | nil => exact ⟨j, y, hy, rfl, rfl⟩
  | cons op ops ih =>
    obtain ⟨h', hfol⟩ := h.step op
    obtain ⟨i, z, hz, hn, hs⟩ := ih h' hy (Nat.lt_of_lt_of_le hc hfol.clock)
    rcases hfol.origin i z hz with hcl | ⟨x, hx, hxn, hxs⟩ | ⟨i', -, -, hz⟩
    · omega
    · exact ⟨i, x, hx, hxn.trans hn, hxs.trans hs⟩
    · exact ⟨i', z, hz, hn, hs⟩

/-- A reading cursor at the position of an item shows its entry and hands out the position. -/
theorem Stamped.walk_position (h : s.Stamped) (hx : s.Has k x) :
    (s.step (.on k (.walk (.position ⟨⟨k⟩, x.node, x.stamp⟩) [.entry, .position]))).1.result =
      .ok (.many [.entry (some x.entry), .position (some ⟨⟨k⟩, x.node, x.stamp⟩)]) := by
  obtain ⟨m, hm, hmx⟩ := hx
  obtain ⟨r, hr, hid, -⟩ := h.shows k m hm
  have hmem := hr.has_iff.mp hmx
  have hpos : (⟨⟨k⟩, x.node, x.stamp⟩ : Position) = r.position x := by rw [Roll.position, hid]
  have hp : r.perform? m.found? (.walk (.position (r.position x)) [.entry, .position]) =
      some (.ok (.many [.entry (some x.entry), .position (some (r.position x))]), r) := by
    simp only [Roll.perform?, Roll.cursor, Roll.resolve_position hr.nodup hmem, Except.map,
      Roll.walk, Roll.step, hr.at?_of_mem hmem, Option.map_some]
  obtain ⟨res, w, ⟨rfl, -⟩, he⟩ := step_on hm (Map.ends_perform (w := ⟨m, s.clock, ∅⟩) hr hp)
  rw [hpos, he]

/-- The node of a position that resolves after a run has been in its slot all the time. -/
theorem Stamped.slot_before (h : s.Stamped) {ops : List (Op κ ν)} {p : Position} {n : NodeId}
    (hm : (Store.after ops s).map? j = some m) (hn : m.nodeAt p = .ok n)
    (hc : p.stamp < s.clock) : n = p.node ∧ ∃ i m₁ y, s.map? i = some m₁ ∧
      m₁.arena.get? p.node = some y ∧ y.stamp = p.stamp := by
  obtain ⟨-, rfl, e, hx⟩ := ((h.after ops).nodeAt_iff hm).mp hn
  obtain ⟨i, z, ⟨m₁, hm₁, y, hy, hys, -⟩, hzn, hzs⟩ := h.has_before hx hc
  have hn : z.node = p.node := hzn
  exact ⟨rfl, i, m₁, y, hm₁, hn ▸ hy, hys.trans hzs⟩

/-- Take a position at a node with an entry, in any map and after any run, and then let any run
follow. As long as the entry has not left the map, the position resolves to the node, and a cursor
there shows what has become of the entry. Whenever the position resolves, it is to the same node,
and some map has held that node in its slot at every moment since. At all times no two nodes bear
the same stamp. -/
theorem position_follows_entry (before ops : List (Op κ ν)) {k : Nat} {m : Map κ ν} {n : NodeId}
    {e : Entry κ ν} {p : Position} (hm : (after before ∅).map? k = some m)
    (hp : m.positionAt n = .ok p) (he : m.arena.entry n = .ok e) :
    (∀ e', fate ops (after before ∅) k n e = some e' →
      (∃ m', (after ops (after before ∅)).map? k = some m' ∧ m'.nodeAt p = .ok n ∧
        m'.arena.entry n = .ok e') ∧
      ((after ops (after before ∅)).step
        (.on k (.walk (.position p) [.entry, .position]))).1.result =
          .ok (.many [.entry (some e'), .position (some p)])) ∧
    (∀ j m' n', (after ops (after before ∅)).map? j = some m' → m'.nodeAt p = .ok n' →
      n' = n ∧ ∀ ops₁ ops₂, ops = ops₁ ++ ops₂ → ∃ i m₁ y,
        (after ops₁ (after before ∅)).map? i = some m₁ ∧ m₁.arena.get? n = some y ∧
          y.stamp = p.stamp) ∧
    (∀ i j mi mj a b x y, (after ops (after before ∅)).map? i = some mi →
      (after ops (after before ∅)).map? j = some mj → mi.arena.get? a = some x →
      mj.arena.get? b = some y → x.stamp = y.stamp → i = j ∧ a = b) := by
  have hs : (after before ∅ : Store κ ν).Stamped := stamped_empty.after before
  generalize after before ∅ = s at *
  have hs' := hs.after ops
  obtain ⟨hpos, hx⟩ := hs.has_of_positionAt hm hp he
  have hn : p.node = n := congrArg (·.node) hpos
  refine ⟨fun e' hf => ?_, fun j m' n' hm' hn' => ?_, fun i j mi mj a b x y hmi hmj hx hy =>
    hs'.slot_unique hmi hmj hx hy⟩
  · have hx' := hs.has_after hx hf
    have hwalk := hs'.walk_position hx'
    rw [hpos]
    exact ⟨hs'.resolves hx', hwalk⟩
  · refine ⟨((hs'.nodeAt_iff hm').mp hn').2.1.trans hn, ?_⟩
    rintro ops₁ ops₂ rfl
    rw [after_append] at hm'
    rw [← hn]
    exact ((hs.after ops₁).slot_before hm' hn'
      (Nat.lt_of_lt_of_le (hs.drawn hx) (hs.clock_le ops₁))).2

/-- A map of seven entries. -/
def crowd : List (Op Nat Nat) :=
  [.create .natural [(5, 50), (2, 20), (8, 80), (1, 10), (3, 30), (7, 70), (9, 90)]]

/-- The entry of tag 2, which has two children, goes, and its place in the tree is taken by that of
tag 3. New entries follow, one of them in the slot that was freed. -/
def commotion : List (Op Nat Nat) :=
  [.on 0 (.erase 2), .on 0 (.insert 3 31), .on 0 (.insert 4 40), .on 0 (.overwrite 3 32)]

theorem position_follows_entry_in_commotion : ∃ m, (after crowd ∅).map? 0 = some m ∧
    m.positionAt ⟨4⟩ = .ok ⟨⟨0⟩, ⟨4⟩, 4⟩ ∧ m.arena.entry ⟨4⟩ = .ok ⟨3, 30⟩ ∧
    fate commotion (after crowd ∅) 0 ⟨4⟩ ⟨3, 30⟩ = some ⟨3, 32⟩ ∧
    (∃ m', (after commotion (after crowd ∅)).map? 0 = some m' ∧
      m'.nodeAt ⟨⟨0⟩, ⟨4⟩, 4⟩ = .ok ⟨4⟩ ∧ m'.arena.entry ⟨4⟩ = .ok ⟨3, 32⟩) ∧
    ((after commotion (after crowd ∅)).step
      (.on 0 (.walk (.position ⟨⟨0⟩, ⟨4⟩, 4⟩) [.entry, .position]))).1.result =
        .ok (.many [.entry (some ⟨3, 32⟩), .position (some ⟨⟨0⟩, ⟨4⟩, 4⟩)]) := by
  have there : ((after crowd ∅).map? 0).isSome := by decide +kernel
  have position : ((after crowd ∅).map? 0).map (·.positionAt ⟨4⟩) =
    some (.ok ⟨⟨0⟩, ⟨4⟩, 4⟩) := by decide +kernel
  have entry : ((after crowd ∅).map? 0).map (·.arena.entry ⟨4⟩) = some (.ok ⟨3, 30⟩) := by
    decide +kernel
  have stays : fate commotion (after crowd ∅) 0 ⟨4⟩ ⟨3, 30⟩ = some ⟨3, 32⟩ := by decide +kernel
  obtain ⟨m, hm⟩ := Option.isSome_iff_exists.mp there
  rw [hm] at position entry
  have hp := Option.some.inj position
  have he := Option.some.inj entry
  exact ⟨m, hm, hp, he, stays, (position_follows_entry crowd commotion hm hp he).1 _ stays⟩

end Store
end OrderedMap
