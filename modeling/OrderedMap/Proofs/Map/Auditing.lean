import Mathlib.Data.List.Chain
import OrderedMap.Map.Audit
import OrderedMap.Proofs.Map.Actions

/-!
What the self check says where a red-black tree of items hangs from the root: that an item is out of
order, or that the items are not as many as are counted, and otherwise the black height of the
root. A node may be in two places of the tree, as long as the items before one that is out of order
are on different nodes.
-/
namespace OrderedMap

namespace Arena

variable {κ ν : Type} {a : Arena κ ν} {p : Path κ ν} {t : Tree κ ν} {n : NodeId} {fuel h : Nat}

/-- The search below one side of a node. -/
def heightBelow (a : Arena κ ν) (fuel : Nat) (n : NodeId) (x : Node κ ν) (side : Side) :
    ExceptT Violation (Except Fault) Nat := do
  match x.child side with
  | none => pure 1
  | some c =>
    if (← a.parent c) ≠ some n then
      throw (.brokenParentLink c)
    if x.color = .red ∧ (← a.color c) = .red then
      throw (.redChildOfRed n)
    blackHeightFrom a fuel c

theorem blackHeightFrom_succ (a : Arena κ ν) (fuel : Nat) (n : NodeId) :
    blackHeightFrom a (fuel + 1) n = (do
      let x ← a.node n
      if x.entry.isNone then
        throw (.missingEntry n)
      let l ← heightBelow a fuel n x .left
      let r ← heightBelow a fuel n x .right
      if l ≠ r then
        throw (.unevenBlackHeight n l r)
      return if x.color = .black then l + 1 else l) := by
  rw [blackHeightFrom]
  rfl

theorem lift_ok_bind {α β : Type} {q : Except Fault α} {x : α} (hq : q = .ok x)
    (f : α → ExceptT Violation (Except Fault) β) : (liftM q >>= f) = f x := by
  rw [hq]
  rfl

theorem heightBelow_eq {f : Frame κ ν} {x : Node κ ν} (hb : a.Hangs none (Path.plug (f :: p) t))
    (hx : x.child f.side = t.root?) (hk : x.color = f.color) (ht : t.Balanced h)
    (hred : f.color = .red → t.color = .black)
    (below : ∀ m, t.root? = some m → blackHeightFrom a fuel m = pure h) :
    heightBelow a fuel f.cell.id x f.side = pure h := by
  unfold heightBelow
  rw [hx]
  cases hn : t.root? with
  | none =>
    obtain rfl := Tree.root?_eq_none_iff.mp hn
    cases ht
    rfl
  | some m =>
    have apart : ¬ (f.color = .red ∧ t.color = .red) := by
      rintro ⟨hf, hr⟩
      rw [hred hf] at hr
      cases hr
    simp only
    rw [lift_ok_bind (hb.parent hn), Path.above?_cons, if_neg (by simp),
      lift_ok_bind (hb.color hn), hk, if_neg apart]
    exact below m hn

/-- The search for violations finds none in a balanced tree and returns its height. -/
theorem blackHeightFrom_eq (hb : a.Hangs none (p.plug t)) (hn : t.root? = some n)
    (hfill : t.Filled) (ht : t.Balanced h) (hf : a.slots.size < fuel + p.length) :
    blackHeightFrom a fuel n = (pure h : ExceptT Violation (Except Fault) Nat) := by
  induction fuel generalizing p t n h with
  | zero =>
    have := hb.path_lt hn
    omega
  | succ fuel ih =>
    cases t with
    | nil => cases hn
    | node l k c r =>
    cases hn
    obtain ⟨hl, hc, hr⟩ := Tree.filled_node.mp hfill
    have hx : a.get? c.id = _ := Hangs.get?_join (s := .left) hb
    have hentry : (c.node p.above? k .left l.root? r.root?).entry.isNone = false := by
      simpa using hc
    have hfuel (f : Frame κ ν) : a.slots.size < fuel + (f :: p).length := by
      rw [List.length_cons]
      omega
    have left {j : Nat} (hub : l.Balanced j) (hred : k = .red → l.color = .black) :
        heightBelow a fuel c.id (c.node p.above? k .left l.root? r.root?) .left = pure j :=
      heightBelow_eq (f := ⟨.left, k, c, r⟩) hb rfl rfl hub hred fun _ hm =>
        ih (p := ⟨.left, k, c, r⟩ :: p) hb hm hl hub (hfuel _)
    have right {j : Nat} (hub : r.Balanced j) (hred : k = .red → r.color = .black) :
        heightBelow a fuel c.id (c.node p.above? k .left l.root? r.root?) .right = pure j :=
      heightBelow_eq (f := ⟨.right, k, c, l⟩) hb rfl rfl hub hred fun _ hm =>
        ih (p := ⟨.right, k, c, l⟩ :: p) hb hm hr hub (hfuel _)
    rw [blackHeightFrom_succ, lift_ok_bind (node_of_get? hx)]
    simp only [hentry, Bool.false_eq_true, if_false]
    cases ht with
    | red hbl hbr bl br =>
      rw [left hbl fun _ => bl, right hbr fun _ => br]
      simp
    | black hbl hbr =>
      rw [left hbl nofun, right hbr nofun]
      simp

theorem auditShape_eq (hb : a.Stands t) (hn : t.root? = some n) (hfill : t.Filled)
    (ht : t.RedBlack h) : (a.auditShape n).run = .ok (.ok h) := by
  have hheight := blackHeightFrom_eq (p := []) hb.links hn hfill ht.balanced
    (a.size_lt_reach_add _)
  unfold auditShape blackHeight
  rw [lift_ok_bind (Hangs.parent (p := []) hb.links hn), Path.above?_nil,
    lift_ok_bind (Hangs.color (p := []) hb.links hn), ht.color, hheight]
  rfl

end Arena

namespace Map

variable {κ ν : Type} {m : Map κ ν} {w : Workspace κ ν} {t : Tree κ ν}
  {xs ys zs : List (Item κ ν)} {x y : Item κ ν} {order : κ → κ → Ordering} {H : Nat}

/-- The first item that is not greater than the one before it. -/
def firstDisorder (order : κ → κ → Ordering) : List (Item κ ν) → Option (Item κ ν)
  | x :: y :: rest =>
    if order x.entry.tag y.entry.tag = .lt then firstDisorder order (y :: rest) else some y
  | _ => none

/-- Each item is less than the next one. -/
def Rises (order : κ → κ → Ordering) (xs : List (Item κ ν)) : Prop :=
  xs.IsChain fun x y => order x.entry.tag y.entry.tag = .lt

theorem firstDisorder_eq_none_iff : firstDisorder order xs = none ↔ Rises order xs := by
  induction xs with
  | nil => simp [firstDisorder, Rises]
  | cons x xs ih =>
    cases xs with
    | nil => simp [firstDisorder, Rises]
    | cons y ys =>
      rw [firstDisorder, Rises, List.isChain_cons_cons, ← Rises, ← ih]
      split <;> simp_all

theorem Rises.concat (h : Rises order (ys ++ [x]))
    (hlt : order x.entry.tag y.entry.tag = .lt) : Rises order (ys ++ [x] ++ [y]) := by
  refine h.append (List.isChain_singleton y) ?_
  simpa using hlt

/-- Each item is compared with the next one, up to the first that is not greater. -/
def callAdjacent (comparator : Comparator κ) : List (Item κ ν) → Journal κ ν → Journal κ ν
  | x :: y :: rest, j =>
    if comparator.compare x.entry.tag y.entry.tag = .lt then
      callAdjacent comparator (y :: rest) (j.call comparator x.entry.tag y.entry.tag)
    else
      j.call comparator x.entry.tag y.entry.tag
  | _, j => j

/-- The setting after a walk over items. -/
def afterWalk (w : Workspace κ ν) (xs : List (Item κ ν)) : Workspace κ ν :=
  w.withJournal (callAdjacent w.map.policy.comparator xs w.journal)

theorem reads_afterWalk (xs : List (Item κ ν)) : Reads w (afterWalk w xs) := by
  refine ⟨rfl, rfl, ?_⟩
  change (callAdjacent w.map.policy.comparator xs w.journal).released = w.journal.released
  generalize w.journal = j
  induction xs generalizing j with
  | nil => rfl
  | cons x xs ih =>
    cases xs with
    | nil => rfl
    | cons y ys =>
      rw [callAdjacent]
      split
      · exact ih _
      · rfl

/-- The walk of the check, from an item on to which the items rise. -/
theorem yields_disorderFrom {fuel : Nat} (h : w.map.Presents t xs)
    (fresh : ∀ us vs, xs = us ++ vs → Rises w.map.compare us → (us.map (·.node)).Nodup)
    (hx : xs = ys ++ x :: zs) (hrises : Rises w.map.compare (ys ++ [x]))
    (hf : w.map.arena.slots.size < fuel + ys.length) :
    Yields (disorderFrom fuel x.node) w fun r w' =>
      r = (firstDisorder w.map.compare (x :: zs)).map (·.node) ∧ w' = afterWalk w (x :: zs) := by
  have hsplit : xs = (ys ++ [x]) ++ zs := by rw [hx, List.append_cons]
  have hnd := fresh _ _ hsplit hrises
  induction fuel generalizing w ys x zs with
  | zero =>
    have := h.length_le hsplit hnd
    rw [List.length_append, List.length_singleton] at this
    omega
  | succ fuel ih =>
    rw [disorderFrom, yields_bind, yields_look (h.successor hx hnd)]
    cases zs with
    | nil => exact yields_pure.mpr ⟨rfl, rfl⟩
    | cons y zs =>
      simp only [List.head?_cons, Option.map_some]
      rw [yields_bind, yields_look (h.tag (x := x) (by simp [hx])), yields_bind,
        yields_look (h.tag (x := y) (by simp [hx])), yields_bind, yields_compareTags]
      by_cases ho : w.map.compare x.entry.tag y.entry.tag = .lt
      · rw [if_pos (show w.map.policy.comparator.compare _ _ = .lt from ho)]
        have h₁ : (w.withJournal (w.journal.call w.map.policy.comparator x.entry.tag
          y.entry.tag)).map.Presents t xs := h
        have hrises₁ := hrises.concat ho
        have hsplit₁ : xs = (ys ++ [x] ++ [y]) ++ zs := by simp [hx]
        have hfuel : w.map.arena.slots.size < fuel + (ys ++ [x]).length := by simp; omega
        apply (ih h₁ fresh hsplit hrises₁ hfuel hsplit₁ (fresh _ _ hsplit₁ hrises₁)).mono
        rintro r - ⟨rfl, rfl⟩
        refine ⟨by simp [firstDisorder, ho], ?_⟩
        rw [afterWalk, afterWalk, callAdjacent,
          if_pos (show w.map.policy.comparator.compare _ _ = .lt from ho)]
        rfl
      · rw [if_neg (show ¬ w.map.policy.comparator.compare _ _ = .lt from ho)]
        refine yields_pure.mpr ⟨by simp [firstDisorder, ho], ?_⟩
        rw [afterWalk, callAdjacent,
          if_neg (show ¬ w.map.policy.comparator.compare _ _ = .lt from ho)]

/-- The verdict on a map whose tree has no violation in itself. -/
def verdict (m : Map κ ν) (height : Nat) (xs : List (Item κ ν)) : Except Violation Nat :=
  match firstDisorder m.compare xs with
  | some x => .error (.outOfOrder x.node)
  | none => if xs.length = m.count then .ok height else .error (.countMismatch m.count xs.length)

section Early

variable {post : Except Violation Nat → Workspace κ ν → Prop}

theorem yields_audit_rootless (hn : w.map.arena.root = none) : Yields audit w post ↔
    post (if w.map.count = 0 then .ok 0 else .error (.countMismatch w.map.count 0)) w := by
  unfold audit
  rw [yields_bind, yields_of_eq (x := survey pure) (s := w) rfl, hn]
  exact yields_pure

theorem yields_audit_misshapen {n : NodeId} {v : Violation} (hn : w.map.arena.root = some n)
    (hs : (w.map.arena.auditShape n).run = .ok (.error v)) :
    Yields audit w post ↔ post (.error v) w := by
  unfold audit
  rw [yields_bind, yields_of_eq (x := survey pure) (s := w) rfl, hn]
  simp only
  rw [yields_bind, yields_look hs]
  exact yields_pure

end Early

/-- The self check of a map from whose root a red-black tree hangs. -/
theorem yields_audit_presents (h : w.map.Presents t xs) (hne : t ≠ .nil) (hr : t.RedBlack H)
    (fresh : ∀ us vs, xs = us ++ vs → Rises w.map.compare us → (us.map (·.node)).Nodup) :
    Yields audit w fun r w' => r = w.map.verdict H xs ∧ w' = afterWalk w xs := by
  obtain ⟨n, hn⟩ := Option.ne_none_iff_exists'.mp (mt Tree.root?_eq_none_iff.mp hne)
  obtain ⟨x, zs, rfl⟩ : ∃ x zs, xs = x :: zs := by
    refine List.exists_cons_of_ne_nil ?_
    rintro rfl
    exact hne (Tree.cells_eq_nil_iff.mp h.cells)
  have hfirst : w.map.arena.extreme .left n = .ok x.node := by
    refine Arena.extreme_eq (p := []) (c := x.cell) h.stands.links ?_ hn
    rw [Tree.toward, List.getLast?_reverse, h.cells]
    rfl
  have hshape := Arena.auditShape_eq h.stands hn h.filled hr
  unfold audit
  rw [yields_bind, yields_of_eq (x := survey pure) (s := w) rfl, h.stands.root, hn]
  simp only
  rw [yields_bind, yields_look hshape]
  simp only
  rw [yields_bind, yields_look hfirst, yields_bind]
  apply (yields_disorderFrom h fresh (List.nil_append _).symm (List.isChain_singleton x)
    (w.map.arena.size_lt_reach_add _)).mono
  rintro r - ⟨rfl, rfl⟩
  unfold verdict
  cases hd : firstDisorder w.map.compare (x :: zs) with
  | some y => exact yields_pure.mpr ⟨rfl, rfl⟩
  | none =>
    have hnd := fresh _ [] (List.append_nil _).symm (firstDisorder_eq_none_iff.mp hd)
    rw [← h.ids] at hnd
    have hpost : (afterWalk w (x :: zs)).map.arena.postOrder = .ok (t.post.map (·.id)) :=
      Arena.postOrder_eq h.stands hnd
    have hcount : (t.post.map (·.id)).length = (x :: zs).length := by
      rw [List.length_map, t.post_perm.length_eq, h.cells, List.length_map]
    simp only [Option.map_none]
    rw [yields_bind, yields_look hpost, hcount]
    exact yields_pure.mpr ⟨rfl, rfl⟩

/-- The self check of a map that lists items finds them out of order, or nothing. -/
theorem yields_audit (h : w.map.Lists xs) : Yields audit w fun r w' =>
    Reads w w' ∧ match firstDisorder w.map.compare xs with
      | none => ∃ height, r = .ok height
      | some x => r = .error (.outOfOrder x.node) := by
  obtain ⟨t, h⟩ := h
  by_cases hne : t = .nil
  · obtain rfl := hne
    obtain rfl : xs = [] := by simpa using h.cells
    exact (yields_audit_rootless h.bears.root).mpr ⟨⟨rfl, rfl, rfl⟩, 0, if_pos h.count⟩
  · obtain ⟨H, hr⟩ := h.redBlack
    have fresh : ∀ us vs, xs = us ++ vs → Rises w.map.compare us → (us.map (·.node)).Nodup := by
      rintro us vs rfl -
      exact (List.nodup_append.mp (List.map_append ▸ h.nodup)).1
    apply (yields_audit_presents h.presents hne hr fresh).mono
    rintro r - ⟨rfl, rfl⟩
    refine ⟨reads_afterWalk xs, ?_⟩
    unfold verdict
    cases firstDisorder w.map.compare xs with
    | some x => rfl
    | none => exact ⟨H, if_pos h.count.symm⟩

end Map
end OrderedMap
