import OrderedMap.Proofs.Arena.PostWalk

/-!
Emptying an arena. A teardown takes every subtree apart from its leaves on: what has been detached
stays behind as single nodes without entry until all slots are dropped. A harvest leaves the tree
standing and takes the entries out of it in order.
-/
namespace OrderedMap

namespace Teardown

open Arena

variable {κ ν α : Type} {a : Arena κ ν} {handed : Array (Entry κ ν)} {p : Path κ ν}
  {k : Color} {c : Cell κ ν} {l r : Tree κ ν} {ts : List (Tree κ ν)} {fuel : Nat}

theorem yields_edit {e : EditM κ ν α} {post : α → Teardown κ ν → Prop} :
    Yields (edit e) ⟨a, handed⟩ post ↔ Yields e a fun x a' => post x ⟨a', handed⟩ :=
  yields_lift (f := (⟨·, handed⟩ : Arena κ ν → Teardown κ ν)) (by
    rw [edit]
    cases e a <;> rfl)

theorem yields_get {w : Teardown κ ν} {post : Teardown κ ν → Teardown κ ν → Prop} :
    Yields (get : TeardownM κ ν _) w post ↔ post w w := yields_of_eq rfl

/-- The entries of cells, in their order. -/
def entries (cs : List (Cell κ ν)) : Array (Entry κ ν) := (cs.filterMap (·.entry)).toArray

@[simp] theorem entries_nil : entries ([] : List (Cell κ ν)) = #[] := rfl

theorem entries_append (cs ds : List (Cell κ ν)) : entries (cs ++ ds) = entries cs ++ entries ds :=
  by simp [entries]

/-- While there is a child the step goes down to it. -/
theorem yields_step_down (h : a.Grove (p.plug (.node l k c r) :: ts)) {n : NodeId}
    (hn : l.root? = some n ∨ l = .nil ∧ r.root? = some n)
    {post : Option NodeId → Teardown κ ν → Prop} :
    Yields (step c.id) ⟨a, handed⟩ post ↔ post (some n) ⟨a, handed⟩ := by
  have hc : a.get? c.id = _ := h.head_hangs.get?_join (s := .left)
  unfold step
  rw [yields_bind, yields_edit, yields_inspect (node_of_get? hc)]
  rcases hn with hl | ⟨rfl, hr⟩
  · simp only [Cell.node, hl, yields_pure]
  · simp only [Cell.node, Tree.root?_nil, hr, yields_pure]

/-- Detach a node from its parent, if it has one. -/
def unhang (n : NodeId) : Option NodeId → TeardownM κ ν Unit
  | none => pure ()
  | some p => do
    let onLeft := decide ((← edit (Arena.inspect (·.child .left p))) = some n)
    let _ ← edit (Arena.detach (if onLeft then .left else .right) p)

/-- Hand out an entry, if there is one. -/
def handAny : Option (Entry κ ν) → TeardownM κ ν Unit
  | none => pure ()
  | some e => hand e

theorem step_eq (n : NodeId) : (step n : TeardownM κ ν (Option NodeId)) = (do
    let x ← edit (Arena.inspect (·.node n))
    match x.left, x.right with
    | some l, _ => pure (some l)
    | none, some r => pure (some r)
    | none, none =>
      unhang n x.parent
      let e ← edit (Arena.hollow n)
      handAny e
      return x.parent) := by
  unfold step
  refine bind_congr fun x => ?_
  cases x.left with
  | some l => rfl
  | none =>
    cases x.right with
    | some r => rfl
    | none =>
      cases x.parent with
      | none =>
        refine bind_congr fun e => ?_
        cases e <;> rfl
      | some p =>
        simp only [unhang, bind_assoc, pure_bind]
        refine bind_congr fun _ => bind_congr fun _ => bind_congr fun e => ?_
        cases e <;> rfl

theorem yields_unhang {t : Tree κ ν} {n : NodeId} (h : a.Grove (p.plug t :: ts))
    (hn : t.root? = some n) : Yields (unhang n p.above?) ⟨a, handed⟩ fun _ w =>
      w.arena.Grove (p.plug .nil :: t :: ts) ∧ Keeps a w.arena ∧ w.handed = handed := by
  cases p with
  | nil => exact yields_pure.mpr ⟨h.nil_cons, .refl a, rfl⟩
  | cons f up =>
    obtain ⟨r, hr, hs⟩ := h.child_above hn .left
    have side : (if decide (r = some n) then Side.left else Side.right) = f.side := by
      cases hf : f.side <;> simp [hs, hf]
    simp only [unhang, Path.above?_cons]
    rw [yields_bind, yields_edit, yields_inspect hr, yields_bind, yields_edit, side]
    apply (Grove.yields_detach (p := up) h).mono
    rintro - a' ⟨-, hf, hk, -, -⟩
    exact yields_pure.mpr ⟨hf, hk, rfl⟩

/-- A leaf is detached and its entry handed out. -/
theorem yields_step_leaf (h : a.Grove (p.plug (leaf k c) :: ts)) :
    Yields (step c.id) ⟨a, handed⟩ fun up w => up = p.above? ∧
      w.arena.Grove (p.plug .nil :: leaf k { c with entry := none } :: ts) ∧
        Keeps a w.arena ∧ w.handed = handed ++ entries [c] := by
  obtain ⟨hc, -, -⟩ := (hangs_plug.mp h.head_hangs).2
  rw [step_eq, yields_bind, yields_edit, yields_inspect (node_of_get? hc)]
  simp only [Cell.node, Tree.root?_nil]
  rw [yields_bind]
  apply (yields_unhang h rfl).mono
  rintro - ⟨a₁, handed⟩ ⟨h₁, k₁, rfl⟩
  rw [yields_bind, yields_edit]
  apply (Grove.yields_hollow (p := []) (h₁.perm (.swap ..))).mono
  rintro - a₂ ⟨rfl, h₂, k₂, -⟩
  rw [yields_bind]
  have done := h₂.perm (List.Perm.swap ..)
  cases he : c.entry with
  | none => exact yields_pure.mpr (yields_pure.mpr ⟨rfl, done, k₁.trans k₂, by simp [entries, he]⟩)
  | some e =>
    refine .of_eq rfl (yields_pure.mpr ⟨rfl, done, k₁.trans k₂, ?_⟩)
    simp [entries, he]

/-- A subtree is taken apart within two steps for every node but one: down to it and up again. -/
theorem yields_steps {t : Tree κ ν} {n : NodeId} {post : Unit → Teardown κ ν → Prop}
    (h : a.Grove (p.plug t :: ts)) (hn : t.root? = some n)
    (next : ∀ a' us, a'.Grove (p.plug .nil :: us) → Keeps a a' →
      Yields (steps fuel p.above?) ⟨a', handed ++ entries t.post⟩ post) :
    Yields (steps (2 * t.cells.length - 1 + fuel) (some n)) ⟨a, handed⟩ post := by
  induction t generalizing p n a handed ts fuel with
  | nil => cases hn
  | node l k c r ihl ihr =>
    cases hn
    -- Without children the node is a leaf.
    have bare : ∀ {a handed ts fuel}, a.Grove (p.plug (leaf k c) :: ts) →
        (∀ a' us, a'.Grove (p.plug .nil :: us) → Keeps a a' →
          Yields (steps fuel p.above?) ⟨a', handed ++ entries [c]⟩ post) →
        Yields (steps (fuel + 1) (some c.id)) ⟨a, handed⟩ post := by
      intro a handed ts fuel h next
      rw [steps, yields_bind]
      apply (yields_step_leaf h).mono
      rintro - ⟨a', handed'⟩ ⟨rfl, hf, hk, rfl⟩
      exact next a' _ hf hk
    -- Once the left subtree is gone, the right one is taken apart, and then the node.
    have right : ∀ {a handed ts fuel}, a.Grove (p.plug (.node .nil k c r) :: ts) →
        (∀ a' us, a'.Grove (p.plug .nil :: us) → Keeps a a' →
          Yields (steps fuel p.above?) ⟨a', handed ++ entries (r.post ++ [c])⟩ post) →
        Yields (steps (2 * r.cells.length + 1 + fuel) (some c.id)) ⟨a, handed⟩ post := by
      intro a handed ts fuel h next
      cases hr : r.root? with
      | none =>
        obtain rfl := Tree.root?_eq_none_iff.mp hr
        rw [Nat.add_comm]
        exact bare h next
      | some m =>
        have hpos : 0 < r.cells.length := by
          refine List.length_pos_iff.mpr fun e => ?_
          rw [Tree.cells_eq_nil_iff.mp e] at hr
          cases hr
        have hf : 2 * r.cells.length + 1 + fuel = (2 * r.cells.length - 1 + (fuel + 1)) + 1 := by
          omega
        rw [hf, steps, yields_bind, yields_step_down h (.inr ⟨rfl, hr⟩)]
        refine ihr (p := ⟨.right, k, c, .nil⟩ :: p) h hr fun a₁ us h₁ k₁ => ?_
        refine bare h₁ fun a₂ vs h₂ k₂ => ?_
        rw [Array.append_assoc, ← entries_append]
        exact next a₂ vs h₂ (k₁.trans k₂)
    simp only [Tree.cells, List.length_append, List.length_cons]
    cases hl : l.root? with
    | none =>
      obtain rfl := Tree.root?_eq_none_iff.mp hl
      have hf : 2 * ((Tree.nil : Tree κ ν).cells.length + (r.cells.length + 1)) - 1 + fuel =
          2 * r.cells.length + 1 + fuel := by simp; omega
      rw [hf]
      exact right h next
    | some m =>
      have hpos : 0 < l.cells.length := by
        refine List.length_pos_iff.mpr fun e => ?_
        rw [Tree.cells_eq_nil_iff.mp e] at hl
        cases hl
      have hf : 2 * (l.cells.length + (r.cells.length + 1)) - 1 + fuel =
          (2 * l.cells.length - 1 + (2 * r.cells.length + 1 + fuel)) + 1 := by omega
      rw [hf, steps, yields_bind, yields_step_down h (.inl hl)]
      refine ihl (p := ⟨.left, k, c, r⟩ :: p) h hl fun a₁ us h₁ k₁ => ?_
      refine right h₁ fun a₂ vs h₂ k₂ => ?_
      rw [Array.append_assoc, ← entries_append, ← List.append_assoc]
      exact next a₂ vs h₂ (k₁.trans k₂)

end Teardown

namespace Arena

variable {κ ν : Type} {a : Arena κ ν} {t : Tree κ ν}

/-- A teardown hands out every entry, children before parents, and leaves no slots, whatever else
than the tree the arena held. -/
theorem teardown_eq (h : a.Stands t) (hnd : t.ids.Nodup) :
    a.teardown = .ok () ⟨∅, Teardown.entries t.post⟩ := by
  have run : Yields Teardown.run ⟨a, #[]⟩ fun _ w => w = ⟨∅, Teardown.entries t.post⟩ := by
    have grove : a.Grove [t] := ⟨by simpa using h.links, by simpa using hnd⟩
    unfold Teardown.run
    rw [yields_bind, Teardown.yields_get, yields_bind, h.root]
    cases hn : t.root? with
    | none =>
      obtain rfl := Tree.root?_eq_none_iff.mp hn
      exact yields_pure.mpr (.of_eq rfl rfl)
    | some n =>
      obtain ⟨fuel, hf⟩ : ∃ fuel, a.rounds = 2 * t.cells.length - 1 + fuel := by
        refine Nat.exists_eq_add_of_le ?_
        have hle : t.ids.length ≤ a.slots.size := length_le_size hnd h.links.occupied
        rw [Tree.ids, List.length_map] at hle
        calc 2 * t.cells.length - 1 ≤ 1 * (3 * a.slots.size + 2) := by omega
          _ ≤ a.rounds := Nat.mul_le_mul_right _ (Nat.le_add_left ..)
      rw [hf]
      refine Teardown.yields_steps (p := []) grove hn fun a' us h' _ => ?_
      cases fuel <;> exact yields_pure.mpr (.of_eq rfl (by simp [EmptyCollection.emptyCollection]))
  obtain ⟨⟨⟩, w, hw, rfl⟩ := run
  exact hw

/-- The entries of the given nodes are gone, and their links and everything else in the slots is as
it was. -/
def Hollows (a a' : Arena κ ν) (ns : List NodeId) : Prop :=
  ∀ n, a'.get? n = (a.get? n).map fun x => if n ∈ ns then x.withEntry none else x

theorem hollows_nil (a : Arena κ ν) : a.Hollows a [] := fun n => by simp

theorem Hollows.cons {a' : Arena κ ν} {n : NodeId} {x : Node κ ν} {ns : List NodeId}
    (h : (a.put n (some (x.withEntry none))).Hollows a' ns) (hx : a.get? n = some x) :
    a.Hollows a' (n :: ns) := by
  intro m
  rw [h m]
  by_cases hm : m = n
  · subst hm
    rw [get?_put_self _ (lt_size_of_get? hx), hx]
    by_cases hmem : m ∈ ns
    · simp [hmem, Node.withEntry]
    · simp [hmem]
  · rw [get?_put_of_ne _ hm]
    simp [hm]

theorem yields_hollow_put {n : NodeId} {x : Node κ ν} (hx : a.get? n = some x) :
    Yields (hollow n) a fun e a' => e = x.entry ∧ a' = a.put n (some (x.withEntry none)) := by
  unfold hollow
  rw [yields_bind, yields_inspect (node_of_get? hx), yields_bind, yields_alter hx]
  exact yields_pure.mpr ⟨rfl, rfl⟩

/-- A harvest that has passed the cells before goes on with those that are left. It hollows them out
and steps along links that it leaves as they are. -/
theorem yields_harvestFrom {xs ys : List (Cell κ ν)} {fuel : Nat} (h : a.Bears t)
    (ht : t.cells = xs ++ ys) (hf : ys.length ≤ fuel) :
    Yields (harvestFrom fuel (ys.head?.map (·.id))) a fun es a' =>
      es = ys.filterMap (·.entry) ∧ a.Hollows a' (ys.map (·.id)) := by
  induction ys generalizing a t xs fuel with
  | nil => cases fuel <;> exact yields_pure.mpr ⟨rfl, hollows_nil a⟩
  | cons c ys ih =>
    cases fuel with
    | zero => cases hf
    | succ fuel =>
    have hnext := neighbour_eq (s := .right) h ht
    obtain ⟨x, hx, -, -⟩ := h.hangs.get?_of_mem (c := c) (by simp [ht])
    obtain ⟨p, k, r, l, rfl, rfl, rfl⟩ := Path.exists_split .right ht
    simp only [List.head?_cons, Option.map_some]
    rw [harvestFrom, yields_bind, yields_inspect hnext, yields_bind]
    apply ((yields_hollow h.forest).and (yields_hollow_put hx)).mono
    rintro - a' ⟨⟨rfl, h', -, hr⟩, -, ha'⟩
    -- the tree of the hollow node has the same links, so the walk goes on in it
    have hb : a'.Bears (p.plug (.join .right r k { c with entry := none } l)) :=
      ⟨h', by rw [hr, h.root]; exact Path.root?_plug_congr p rfl⟩
    rw [yields_bind]
    have hcells := Path.toward_plug .right p (.join .right r k { c with entry := none } l)
    rw [Tree.toward_join] at hcells
    have hleft : (p.plug (.join .right r k { c with entry := none } l)).cells =
        ((p.beyond Side.right.opposite).reverse ++ l.cells ++ [{ c with entry := none }]) ++
          (r.cells ++ p.beyond .right) := by
      simpa [Tree.toward] using hcells
    apply (ih hb hleft (by simpa using hf)).mono
    rintro es a'' ⟨rfl, hollows⟩
    rw [ha'] at hollows
    exact yields_pure.mpr ⟨by cases he : c.entry <;> simp [he], hollows.cons hx⟩

/-- A harvest of no more entries than there are slots hands back all entries in order and leaves no
slots. -/
theorem yields_harvest [EntrySize κ ν] {n : Nat} (h : a.Bears t) (hn : n ≤ a.slots.size) :
    Yields (harvest n) a fun es a' => es = t.cells.filterMap (·.entry) ∧ a' = ∅ := by
  have room : a.hasRoom n = true := by simp [hasRoom, hn]
  have hlen : t.cells.length ≤ a.reach := Nat.le_of_lt h.length_lt_reach
  have hfirst : a.outermost .left = .ok (t.cells.head?.map (·.id)) := by
    rw [outermost_eq h.stands]
    simp [Tree.toward]
  unfold harvest
  rw [yields_bind, yields_of_eq (x := get) (s := a) rfl]
  simp only [room, Bool.not_true, Bool.false_eq_true, if_false]
  rw [yields_bind, yields_inspect hfirst, yields_bind]
  apply (yields_harvestFrom h (List.nil_append _).symm hlen).mono
  rintro es a' ⟨rfl, -⟩
  exact .of_eq rfl ⟨rfl, rfl⟩

end Arena
end OrderedMap
