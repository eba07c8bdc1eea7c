import OrderedMap.Proofs.Roll.Basic
import OrderedMap.Store

/-!
A shelf of rolls, one for each map of a store. The operations on it are those of sorted lists, with
no tree and no arena. All that a list does not tell is which node, and which stamp drawn meanwhile,
a new entry gets.
-/
namespace OrderedMap
namespace Roll

variable {κ ν : Type}

/-- The node of the item with an equal tag. -/
def finder (r : Roll κ ν) (t : κ) : Option NodeId := (r.find? t).map (·.node)

/-- Store an entry: either it is written over the one with an equal tag, both tag and value, or it
is added at the place of its tag. True if it is new. -/
inductive Inserts (r : Roll κ ν) (t : κ) (v : ν) (low high : Nat) : Bool → Roll κ ν → Prop
  | written {x : Item κ ν} (found : r.find? t = some x) (time : low ≤ high) :
      Inserts r t v low high false (r.rewrite (some x.node) fun _ => ⟨t, v⟩)
  | added {n : NodeId} {stamp : Nat} (absent : r.find? t = none) (node : n ∉ r.nodes)
      (old : low ≤ stamp) (drawn : stamp < high) :
      Inserts r t v low high true (r.add ⟨n, stamp, ⟨t, v⟩⟩)

/-- Store entries one after the other. -/
inductive InsertsAll : List (κ × ν) → Roll κ ν → Nat → Roll κ ν → Nat → Prop
  | nil {r : Roll κ ν} {clock : Nat} : InsertsAll [] r clock r clock
  | cons {t : κ} {v : ν} {rest : List (κ × ν)} {r r₁ r' : Roll κ ν} {low mid high : Nat}
      {new : Bool} (first : r.Inserts t v low mid new r₁)
      (others : InsertsAll rest r₁ mid r' high) :
      InsertsAll ((t, v) :: rest) r low r' high

/-- The result of an operation on a sorted roll, and the roll after it. -/
inductive Performs (r : Roll κ ν) (low : Nat) : Map.Op κ ν → Except Fault (Reply κ ν) → Roll κ ν →
    Nat → Prop
  | insert {t : κ} {v : ν} {new : Bool} {r' : Roll κ ν} {high : Nat}
      (stored : r.Inserts t v low high new r') :
      Performs r low (.insert t v) (.ok (.flag new)) r' high
  | insertMany {entries : List (κ × ν)} {r' : Roll κ ν} {high : Nat}
      (stored : InsertsAll entries r low r' high) :
      Performs r low (.insertMany entries) (.ok .done) r' high
  | audit {height : Nat} : Performs r low .audit (.ok (.audited (.ok height))) r low
  | other {op : Map.Op κ ν} {out : Except Fault (Reply κ ν)} {r' : Roll κ ν} {high : Nat}
      (done : r.perform? r.finder op = some (out, r')) (time : low ≤ high) :
      Performs r low op out r' high

end Roll

/-- The rolls of several maps, and the next stamp. -/
structure Shelf (κ ν : Type) where
  rolls : List (Option (Roll κ ν))
  clock : Nat

namespace Shelf

variable {κ ν : Type}

/-- The roll of a number, unless it is gone. -/
def roll? (σ : Shelf κ ν) (k : Nat) : Option (Roll κ ν) := σ.rolls[k]?.join

def put (σ : Shelf κ ν) (k : Nat) (r : Option (Roll κ ν)) (clock : Nat) : Shelf κ ν :=
  ⟨σ.rolls.set k r, clock⟩

/-- The result of an operation on the maps of a shelf, and the shelf after it. -/
inductive Steps (σ : Shelf κ ν) : Store.Op κ ν → Except Fault (Reply κ ν) → Shelf κ ν → Prop
  | create {policy : Policy κ} {entries : List (κ × ν)} {r : Roll κ ν} {high : Nat}
      (stored : Roll.InsertsAll entries ⟨⟨σ.rolls.length⟩, policy, []⟩ σ.clock r high) :
      Steps σ (.create policy entries) (.ok (.number σ.rolls.length)) ⟨σ.rolls ++ [some r], high⟩
  | on {k : Nat} {op : Map.Op κ ν} {r r' : Roll κ ν} {out : Except Fault (Reply κ ν)} {high : Nat}
      (there : σ.roll? k = some r) (done : r.Performs σ.clock op out r' high) :
      Steps σ (.on k op) out (σ.put k (some r') high)
  /-- The whole list and the policy move; what the target had as a policy goes to the source. -/
  | transfer {j k : Nat} {r u : Roll κ ν} (target : σ.roll? j = some r)
      (source : σ.roll? k = some u) (ne : j ≠ k) (empty : r.items = []) :
      Steps σ (.transfer j k) (.ok .done)
        ((σ.put j (some ⟨r.id, u.policy, u.items⟩) σ.clock).put k (some ⟨u.id, r.policy, []⟩)
          σ.clock)
  | transferFull {j k : Nat} {r u : Roll κ ν} (target : σ.roll? j = some r)
      (source : σ.roll? k = some u) (ne : j ≠ k) (full : r.items ≠ []) :
      Steps σ (.transfer j k) (.error .movesIntoNonEmpty) σ
  | discard {k : Nat} {r : Roll κ ν} (there : σ.roll? k = some r) :
      Steps σ (.discard k) (.ok .done) (σ.put k none σ.clock)
  | consume {k : Nat} {r : Roll κ ν} {pulls : List Pull} (there : σ.roll? k = some r) :
      Steps σ (.consume k pulls) (.ok (.many (View.entries.pulls pulls r.entries)))
        (σ.put k none σ.clock)
  | onMissing {k : Nat} {op : Map.Op κ ν} (gone : σ.roll? k = none) :
      Steps σ (.on k op) (.ok .noMap) σ
  | transferMissing {j k : Nat} (gone : j = k ∨ σ.roll? j = none ∨ σ.roll? k = none) :
      Steps σ (.transfer j k) (.ok .noMap) σ
  | discardMissing {k : Nat} (gone : σ.roll? k = none) : Steps σ (.discard k) (.ok .noMap) σ
  | consumeMissing {k : Nat} {pulls : List Pull} (gone : σ.roll? k = none) :
      Steps σ (.consume k pulls) (.ok .noMap) σ

inductive Runs : List (Store.Op κ ν) → Shelf κ ν → List (Except Fault (Reply κ ν)) → Shelf κ ν →
    Prop
  | nil {σ : Shelf κ ν} : Runs [] σ [] σ
  | cons {op : Store.Op κ ν} {rest : List (Store.Op κ ν)} {σ σ₁ σ' : Shelf κ ν}
      {out : Except Fault (Reply κ ν)} {outs : List (Except Fault (Reply κ ν))}
      (first : σ.Steps op out σ₁) (others : Runs rest σ₁ outs σ') :
      Runs (op :: rest) σ (out :: outs) σ'

theorem roll?_put {σ : Shelf κ ν} {k : Nat} (x : Option (Roll κ ν)) (clock : Nat)
    (h : k < σ.rolls.length) (j : Nat) :
    (σ.put k x clock).roll? j = if j = k then x else σ.roll? j := by
  unfold roll? put
  rw [List.getElem?_set]
  by_cases hj : k = j
  · subst hj
    simp [h]
  · rw [if_neg hj, if_neg (Ne.symm hj)]

theorem roll?_append (σ : Shelf κ ν) (r : Roll κ ν) (clock j : Nat) :
    roll? ⟨σ.rolls ++ [some r], clock⟩ j = if j = σ.rolls.length then some r else σ.roll? j := by
  unfold roll?
  rw [List.getElem?_append]
  split
  · rename_i hj
    rw [if_neg (Nat.ne_of_lt hj)]
  · rename_i hj
    split
    · rename_i he
      simp [he]
    · have hlen : σ.rolls.length < j := by omega
      rw [List.getElem?_eq_none (by simp; omega), List.getElem?_eq_none (by omega)]

end Shelf
end OrderedMap
