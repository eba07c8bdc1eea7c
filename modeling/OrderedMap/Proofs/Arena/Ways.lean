import OrderedMap.Proofs.Arena.Ascent
import OrderedMap.Proofs.Tree.RedBlack

/-!
Ways up and down by links, and the black nodes on them. Below a balanced tree's link every way down
to a missing child crosses as many black nodes as the height tells.
-/
namespace OrderedMap
namespace Arena

variable {κ ν : Type} {a : Arena κ ν} {x : Node κ ν} {n : NodeId} {ns : List NodeId}

/-- The number of black nodes among the given ones. -/
def blacksAmong (a : Arena κ ν) (ns : List NodeId) : Nat :=
  ns.countP fun n => a.color n matches .ok .black

theorem blacksAmong_cons (hx : a.get? n = some x) (ns : List NodeId) :
    a.blacksAmong (n :: ns) = a.blacksAmong ns + if x.color = .black then 1 else 0 := by
  rw [blacksAmong, List.countP_cons, color_of_get? hx]
  cases x.color <;> rfl

theorem Encloses.blacksAmong_eq {p : Path κ ν} {c : Option NodeId} (h : a.Encloses p c) :
    a.blacksAmong (p.map (·.cell.id)) = p.blacks := by
  induction p generalizing c with
  | nil => rfl
  | cons f up ih =>
    obtain ⟨hf, -, hup⟩ := h
    rw [List.map_cons, blacksAmong_cons hf, ih hup, Cell.color_node]
    simp only [Path.blacks, List.countP_cons, decide_eq_true_eq]

/-- From a link a way leads down through the given nodes to a missing child. -/
inductive Sinks (a : Arena κ ν) : Option NodeId → List NodeId → Prop
  | missing : Sinks a none []
  | node {n : NodeId} {x : Node κ ν} {ns : List NodeId} (s : Side) (there : a.get? n = some x)
      (below : Sinks a (x.child s) ns) : Sinks a (some n) (n :: ns)

/-- Ways lead down from a link to missing children, and all of them cross the same number of black
nodes, which is the given height when the missing child counts as one. -/
structure Deep (a : Arena κ ν) (link : Option NodeId) (h : Nat) : Prop where
  ends : ∃ ns, a.Sinks link ns
  level : ∀ ns, a.Sinks link ns → a.blacksAmong ns + 1 = h

theorem Hangs.sinks {q : Option NodeId} {t : Tree κ ν} (ht : a.Hangs q t) :
    ∃ ns, a.Sinks t.root? ns := by
  induction t generalizing q with
  | nil => exact ⟨[], .missing⟩
  | node l k c r ihl ihr =>
    obtain ⟨hc, hl, -⟩ := ht
    obtain ⟨ns, hns⟩ := ihl hl
    exact ⟨c.id :: ns, .node .left hc hns⟩

theorem Hangs.deep {q : Option NodeId} {t : Tree κ ν} {h : Nat} (ht : a.Hangs q t)
    (hb : t.Balanced h) : a.Deep t.root? h := by
  refine ⟨ht.sinks, fun ns hns => ?_⟩
  induction hb generalizing q ns with
  | nil =>
    cases hns
    rfl
  | red left right _ _ ihl ihr =>
    obtain ⟨hc, hl, hr⟩ := ht
    cases hns with
    | node s there below =>
      obtain rfl := Option.some.inj (hc.symm.trans there)
      rw [blacksAmong_cons hc]
      cases s with
      | left => exact ihl hl _ below
      | right => exact ihr hr _ below
  | black left right ihl ihr =>
    obtain ⟨hc, hl, hr⟩ := ht
    cases hns with
    | node s there below =>
      obtain rfl := Option.some.inj (hc.symm.trans there)
      rw [blacksAmong_cons hc]
      cases s with
      | left => exact congrArg (· + 1) (ihl hl _ below)
      | right => exact congrArg (· + 1) (ihr hr _ below)

end Arena
end OrderedMap
