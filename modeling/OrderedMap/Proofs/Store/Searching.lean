import OrderedMap.Proofs.Map.Checking
import OrderedMap.Proofs.Map.Comparing
import OrderedMap.Proofs.Store.Rebalancing

/-!
How far down a search can go. The height that the self check returns bounds the number of entries on
both sides, the length of every way down from the root, and so the comparisons of a search, whatever
the comparator and however the map came about. A map that any run leaves under a total preorder
passes the check.
-/
namespace OrderedMap

variable {κ ν : Type}

namespace Arena

variable {a : Arena κ ν} {t : Tree κ ν} {n : NodeId} {ns : List NodeId}

/-- Each of the nodes is a child of the one before it. -/
def Descends (a : Arena κ ν) (ns : List NodeId) : Prop :=
  ns.IsChain fun n c => ∃ s, a.child s n = .ok (some c)

/-- Below the root of a tree no way down leaves the tree. -/
theorem Hangs.length_le_depth {q : Option NodeId} (h : a.Hangs q t) (hd : a.Descends ns)
    (hh : ns.head? = t.root?) : ns.length ≤ t.depth := by
  induction t generalizing q ns with
  | nil =>
    rw [List.head?_eq_none_iff.mp hh]
    exact Nat.le_refl 0
  | node l k c r ihl ihr =>
    obtain ⟨hc, hl, hr⟩ := h
    obtain ⟨rest, rfl⟩ := List.head?_eq_some_iff.mp hh
    rw [List.length_cons, Tree.depth]
    cases rest with
    | nil => exact Nat.succ_le_succ (Nat.zero_le _)
    | cons m rest =>
      obtain ⟨⟨s, hm⟩, below⟩ := List.isChain_cons_cons.mp hd
      rw [child_of_get? s hc] at hm
      have next : _ = some m := Except.ok.inj hm
      cases s with
      | left =>
        have := ihl hl below next.symm
        omega
      | right =>
        have := ihr hr below next.symm
        omega

end Arena

namespace Map

variable {m : Map κ ν} {r : Roll κ ν} {b : Nat}

/-- The map is balanced for a black height, in which the missing children below count as one. -/
structure Logarithmic (m : Map κ ν) (b : Nat) : Prop where
  /-- There are as many nodes at least as if all were black. -/
  least : 2 ^ (b - 1) ≤ m.count + 1
  /-- There are as many nodes at most as if the colours alternated everywhere. -/
  greatest : m.count + 1 ≤ 4 ^ (b - 1)
  shallow : ∀ ns, m.arena.Descends ns → ns.head? = m.arena.root → ns.length ≤ 2 * (b - 1)
  searches : ∀ op : Op κ ν, op.tag?.isSome → ∀ clock j,
    Spends op.perform ⟨m, clock, j⟩ (2 * (b - 1))
  height : 2 * (b - 1) ≤ 2 * Nat.log2 (m.count + 1)

theorem logarithmic_of_audit {w w' : Workspace κ ν} (he : audit w = .ok (.ok b) w') (hb : 0 < b) :
    w.map.Logarithmic b := by
  obtain ⟨t, stands, hfill, hr, hcount⟩ := stands_of_audit he hb
  have depth := hr.depth_le
  refine ⟨hcount ▸ hr.le_size, hcount ▸ hr.size_le, ?_, ?_, ?_⟩
  · intro ns hd hh
    exact Nat.le_trans (stands.links.length_le_depth hd (hh.trans stands.root)) depth
  · intro op hop clock j
    refine (spends_perform (w := ⟨w.map, clock, j⟩) stands hfill hop).mono ?_
    intro _ w₁ hw
    exact Nat.le_trans hw (Nat.add_le_add_left depth _)
  · rw [hcount]
    exact Nat.mul_le_mul_left 2 hr.le_log

/-- A map that is not empty passes the check under a total preorder. -/
theorem Shows.audit_ok (h : m.Shows r) (hs : r.Sorted) (hn : 0 < m.count)
    (ho : Std.TransCmp m.compare) :
    ∃ b, 0 < b ∧ ∀ clock j, ∃ w, audit ⟨m, clock, j⟩ = .ok (.ok b) w := by
  obtain ⟨t, ht⟩ := h.lists
  obtain ⟨b, hr⟩ := ht.redBlack
  have rises : Rises m.compare m.items := by
    rw [h.compare] at ho ⊢
    rw [ht.items_eq]
    exact firstDisorder_eq_none_iff.mp (Item.firstDisorder_eq_none (hs ho))
  have verdict_eq : m.verdict b m.items = .ok b :=
    verdict_eq_ok.mpr ⟨rises, ht.items_eq ▸ ht.count, rfl⟩
  refine ⟨b, hr.balanced.pos, fun clock j => ?_⟩
  rw [← verdict_eq]
  exact (ht.measures hr hn).audit clock j

end Map

namespace Store

variable [EntrySize κ ν]

/-- A map on which the self check returns a height, whatever its comparator, has entries and ways
down as that height demands, and every operation on one tag makes at most twice as many comparisons
as the logarithm of the number of entries and one. After every run this is so of all maps that are
not empty and whose comparators are total preorders. -/
theorem logarithmic_search :
    (∀ (m : Map κ ν) (clock : Nat) (j : Journal κ ν) (b : Nat) (w : Workspace κ ν),
      Map.audit ⟨m, clock, j⟩ = .ok (.ok b) w → 0 < b → m.Logarithmic b) ∧
    ∀ (ops : List (Op κ ν)) (k : Nat) (m : Map κ ν), (after ops ∅).map? k = some m →
      0 < m.count → Std.TransCmp m.compare →
      ∃ b, 0 < b ∧ m.Logarithmic b ∧ ∀ clock j, ∃ w, Map.audit ⟨m, clock, j⟩ = .ok (.ok b) w := by
  refine ⟨fun m clock j b w he hb => Map.logarithmic_of_audit he hb, ?_⟩
  intro ops k m hm hn ho
  obtain ⟨r, hr, -, hs⟩ := sound_after ops k m hm
  obtain ⟨b, hb, audited⟩ := hr.audit_ok hs hn ho
  obtain ⟨w, he⟩ := audited 0 ∅
  exact ⟨b, hb, Map.logarithmic_of_audit he hb, audited⟩

/-- A map in which so many tags are stored one after the other. -/
def entered (policy : Policy Nat) (n : Nat) : List (Op Nat Nat) :=
  [.create policy ((List.range n).map fun i => (i + 1, 0))]

/-- The bound is reached in both maps. In the first one every tag is less than every other one; the
order of the second one is that of the numbers. -/
theorem logarithmic_search_entered :
    (∃ m, (after (entered (.ofComparison fun _ _ => .lt) 14) ∅).map? 0 = some m ∧
      m.Logarithmic 4 ∧ (actOn m 14 (Map.Op.get 0).perform).1.journal.calls.size = 6) ∧
    ∃ m, (after (entered .natural 2) ∅).map? 0 = some m ∧
      (∃ b, 0 < b ∧ m.Logarithmic b ∧ ∀ clock j, ∃ w, Map.audit ⟨m, clock, j⟩ = .ok (.ok b) w) ∧
      (actOn m 2 (Map.Op.get 3).perform).1.journal.calls.size = 2 := by
  have unordered : ((after (entered (.ofComparison fun _ _ => .lt) 14) ∅).map? 0).map (fun m =>
      ((actOn m 14 Map.audit).1.result, (actOn m 14 (Map.Op.get 0).perform).1.journal.calls.size)) =
      some (.ok (.ok 4), 6) := by decide +kernel
  have ordered : ((after (entered .natural 2) ∅).map? 0).map (fun m =>
      (m.count, (actOn m 2 (Map.Op.get 3).perform).1.journal.calls.size)) = some (2, 2) := by
    decide +kernel
  obtain ⟨m, hm, hu⟩ := Option.map_eq_some_iff.mp unordered
  obtain ⟨n, hn, ho⟩ := Option.map_eq_some_iff.mp ordered
  obtain ⟨audited, six⟩ := Prod.mk.inj hu
  obtain ⟨two, compared⟩ := Prod.mk.inj ho
  have policy_eq : ((after (entered .natural 2) ∅).map? 0).map (·.policy) = some .natural := by rfl
  rw [hn] at policy_eq
  have natural : n.policy = .natural := Option.some.inj policy_eq
  have preorder : Std.TransCmp n.compare := by
    rw [Map.compare, natural]
    exact inferInstanceAs (Std.TransCmp fun a b : Nat => Ord.compare a b)
  refine ⟨⟨m, hm, ?_, six⟩, n, hn, ?_, compared⟩
  · cases he : Map.audit ⟨m, 14, ∅⟩ with
    | error f w =>
      simp only [actOn, he] at audited
      cases audited
    | ok r w =>
      simp only [actOn, he] at audited
      cases audited
      exact logarithmic_search.1 m 14 ∅ 4 w he (by decide)
  · exact logarithmic_search.2 (entered .natural 2) 0 n hn (by omega) preorder

end Store
end OrderedMap
