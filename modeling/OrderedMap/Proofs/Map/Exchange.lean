import OrderedMap.Proofs.Arena.Pivot
import OrderedMap.Proofs.Map.Setting

/-!
Two nodes trade places. They may be anywhere in the tree, and one may hang on the other: the
placeholder through which they go keeps their links apart. Where they had hung, and whatever hung on
them, is told by exchanging their numbers in all links.
-/
namespace OrderedMap

variable {κ ν : Type} {t : Tree κ ν} {n m : NodeId}

namespace Arena

variable {a a' : Arena κ ν} {x y z : Label κ ν}

/-- Two nodes have traded places in a tree of otherwise the same nodes in the same places. Each node
has what had belonged to it, and the links of the node whose place it has taken, in which the two
numbers are exchanged. -/
structure Trades (t : Tree κ ν) (n m : NodeId) (a a' : Arena κ ν) : Prop where
  stands : ∃ x ∈ t.labels, ∃ y ∈ t.labels, x.2.id = n ∧ y.2.id = m ∧
    a'.Stands (t.relabel (Label.trade x y))
  slots : ∀ i ∈ t.ids, ∃ z z', a.get? i = some z ∧ a.get? (Equiv.swap n m i) = some z' ∧
    a'.get? (Equiv.swap n m i) = some { z' with
      parent := z.parent.map (Equiv.swap n m)
      left := z.left.map (Equiv.swap n m)
      right := z.right.map (Equiv.swap n m) }
  others : AgreeOff a a' t.ids
  root : a'.root = a.root.map (Equiv.swap n m)
  moved : a'.root ≠ a.root ↔ a.root = some n ∨ a.root = some m
  occupied : ∀ i, (a'.get? i).isSome = (a.get? i).isSome
  queues : a'.Queues
  free : a'.free = a.nextId.index :: a.free.tail
  size : a'.slots.size = a.nextSize

/-- The links of a node are those of the place that it stands at. -/
theorem Plants.get?_label {us : List (Tree κ ν)} (h : a.Plants t us) (hz : z ∈ t.labels) :
    ∃ p l r, t = Path.plug p (.node l z.1 z.2 r) ∧
      a.get? z.2.id = some (z.2.node p.above? z.1 .left l.root? r.root?) := by
  obtain ⟨p, l, r, rfl⟩ := Path.exists_plug_label h.nodup hz
  exact ⟨p, l, r, rfl, h.hangs.get?_join (s := .left)⟩

theorem Plants.slot_traded (h : a.Plants t) (hx : x ∈ t.labels) (hy : y ∈ t.labels)
    (h' : a'.Plants (t.relabel (Label.trade x y))) {i : NodeId} (hi : i ∈ t.ids) :
    ∃ z z', a.get? i = some z ∧ a.get? (Equiv.swap x.2.id y.2.id i) = some z' ∧
      a'.get? (Equiv.swap x.2.id y.2.id i) = some { z' with
        parent := z.parent.map (Equiv.swap x.2.id y.2.id)
        left := z.left.map (Equiv.swap x.2.id y.2.id)
        right := z.right.map (Equiv.swap x.2.id y.2.id) } := by
  obtain ⟨z, hz, rfl⟩ := Tree.exists_label hi
  obtain ⟨p, l, r, e, here⟩ := h.get?_label hz
  have taken : Label.trade x y z ∈ t.labels := by
    unfold Label.trade
    split_ifs <;> assumption
  obtain ⟨q, l', r', -, before⟩ := h.get?_label taken
  rw [e, Path.relabel_plug] at h'
  have after := h'.hangs.get?_join (s := .left)
  rw [Path.above?_relabel_trade, Tree.root?_relabel_trade, Tree.root?_relabel_trade] at after
  rw [← Label.id_trade]
  exact ⟨_, _, here, before, after⟩

/-- A trade of two numbers moves the root if it is one of them. -/
theorem map_swap_ne_iff (hne : n ≠ m) (r : Option NodeId) :
    r.map (Equiv.swap n m) ≠ r ↔ r = some n ∨ r = some m := by
  cases r with
  | none => simp
  | some i =>
    rw [Option.map_some, ne_eq, Option.some_inj, Option.some_inj, Option.some_inj, ← ne_eq,
      Equiv.swap_apply_ne_self_iff]
    exact and_iff_right hne

theorem Plants.yields_trade (h : a.Plants t) (hq : a.Queues) (hn : n ∈ t.ids) (hm : m ∈ t.ids)
    (hne : n ≠ m) (stamp : Nat) : Yields (exchange n m stamp) a fun _ a' =>
      Trades t n m a a' ∧ ∀ stamp, Yields (exchange n m stamp) a' fun _ b =>
        (∀ i, b.get? i = a.get? i) ∧ b.root = a.root := by
  obtain ⟨x, hx, rfl⟩ := Tree.exists_label hn
  obtain ⟨y, hy, rfl⟩ := Tree.exists_label hm
  apply (h.yields_exchange hq hx hy hne stamp).mono
  rintro - a' ⟨h', hq', off, free, size⟩
  have root : a'.root = a.root.map (Equiv.swap x.2.id y.2.id) := by
    rw [h'.root, h.root, Tree.root?_relabel_trade]
  refine ⟨⟨⟨x, hx, y, hy, rfl, rfl, h'.stands⟩, fun i => h.slot_traded hx hy h', off, root, ?_,
    fun i => ?_, hq', free, size⟩, fun stamp => ?_⟩
  · rw [root]
    exact map_swap_ne_iff hne a.root
  · by_cases hi : i ∈ t.ids
    · rw [h.hangs.occupied i hi, h'.hangs.occupied i ((Tree.mem_ids_relabel_trade hx hy).mpr hi)]
    · rw [off i hi]
  · have hx' : x ∈ (t.relabel (Label.trade x y)).labels := by
      rw [Tree.labels_relabel]
      exact List.mem_map.mpr ⟨y, hy, Label.trade_right hne⟩
    have hy' : y ∈ (t.relabel (Label.trade x y)).labels := by
      rw [Tree.labels_relabel]
      exact List.mem_map.mpr ⟨x, hx, Label.trade_left x y⟩
    apply (h'.yields_exchange hq' hx' hy' hne stamp).mono
    rintro - b ⟨hb, -, off', -⟩
    rw [Tree.relabel_trade_trade h.nodup hx hy hne] at hb
    have same : AgreeOff a b t.ids :=
      off.trans (off'.mono fun i hi => (Tree.mem_ids_relabel_trade hx hy).mp hi)
    exact ⟨h.get?_eq hb same, hb.root.trans h.root.symm⟩

end Arena

namespace Map

variable {w : Workspace κ ν}

/-- Any two nodes of a tree that hangs together can trade places, if the vacant slots wait on the
stack: neighbours, siblings and distant nodes alike, the root too. Exactly one stamp is drawn. A
second exchange of the two gives every node its links again. -/
theorem exchange_trades (h : w.map.arena.Stands t) (hnd : t.ids.Nodup) (hq : w.map.arena.Queues)
    (hn : n ∈ t.ids) (hm : m ∈ t.ids) (hne : n ≠ m) : ∃ w', exchange n m w = .ok () w' ∧
      w' = (w.withArena w'.map.arena).withClock (w.clock + 1) ∧
      w.map.arena.Trades t n m w'.map.arena ∧
      ∃ w'', exchange n m w' = .ok () w'' ∧
        (∀ i, w''.map.arena.get? i = w.map.arena.get? i) ∧
        w''.map.arena.root = w.map.arena.root := by
  have traded : Yields (exchange n m) w fun _ w' =>
      w' = (w.withArena w'.map.arena).withClock (w.clock + 1) ∧
        w.map.arena.Trades t n m w'.map.arena ∧
        ∀ stamp, Yields (Arena.exchange n m stamp) w'.map.arena fun _ b =>
          (∀ i, b.get? i = w.map.arena.get? i) ∧ b.root = w.map.arena.root :=
    yields_exchange.mpr (((h.plants hnd).yields_trade hq hn hm hne _).mono fun _ _ hd => ⟨rfl, hd⟩)
  obtain ⟨⟨⟩, w', there, eq, trades, again⟩ := traded
  have restored : Yields (exchange n m) w' fun _ w'' =>
      (∀ i, w''.map.arena.get? i = w.map.arena.get? i) ∧
        w''.map.arena.root = w.map.arena.root := yields_exchange.mpr (again w'.clock)
  obtain ⟨⟨⟩, w'', back, same⟩ := restored
  exact ⟨w', there, eq, trades, w'', back, same⟩

/-- The root trades places with its child. The placeholder takes a new slot, which is vacant after
the exchange. -/
theorem exchange_trades_leaning : ∃ w' : Workspace Nat Nat,
    exchange ⟨1⟩ ⟨2⟩ ⟨⟨⟨0⟩, .leaningArena, 4, .natural⟩, 4, ∅⟩ = .ok () w' ∧
      w'.map.arena.get? ⟨1⟩ = some ⟨some ⟨2⟩, none, some ⟨3⟩, .red, 3, some ⟨4, 40⟩⟩ ∧
      w'.map.arena.root = some ⟨2⟩ ∧ w'.map.arena.free = [4] ∧ w'.clock = 5 := by
  let w : Workspace Nat Nat := ⟨⟨⟨0⟩, .leaningArena, 4, .natural⟩, 4, ∅⟩
  have queues : w.map.arena.Queues := by
    have occupied : ∀ i < 4, Arena.leaningArena.get? ⟨i⟩ ≠ none := by decide
    exact ⟨List.nodup_nil, fun i => ⟨nofun, fun ⟨hi, hv⟩ => absurd hv (occupied i hi)⟩⟩
  obtain ⟨w', there, eq, trades, -⟩ := exchange_trades (w := w)
    Arena.stands_leaning (by decide) queues (n := ⟨1⟩) (m := ⟨2⟩) (by decide) (by decide)
    (by decide)
  obtain ⟨z, z', hz, hz', slot⟩ := trades.slots ⟨2⟩ (by decide)
  cases Option.some.inj hz
  cases Option.some.inj hz'
  exact ⟨w', there, slot, trades.root, trades.free, by rw [eq]; rfl⟩

end Map
end OrderedMap
