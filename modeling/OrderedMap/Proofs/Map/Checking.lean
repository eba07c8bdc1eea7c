import OrderedMap.Proofs.Map.WellFormed

/-!
The self check of any map, damaged or not. As long as the root and the links to children name
occupied slots, the check ends without a fault, whatever circles and shared nodes there are: it
goes down only to nodes that point back, so it never meets a node twice on the way up from where it
is. It passes exactly the empty maps and those whose nodes form a red-black tree in order. Where it
returns a height, a red-black tree of that height stands even if the comparator is no order at all.
-/
namespace OrderedMap

section Searches

variable {α β : Type} {q : ExceptT Violation (Except Fault) α} {post : α → Prop}

/-- The search ends without a fault, and its result meets the condition if it finds no
violation. -/
def Warrants (q : ExceptT Violation (Except Fault) α) (post : α → Prop) : Prop :=
  ∃ r, q.run = .ok r ∧ ∀ x, r = .ok x → post x

theorem warrants_throw (v : Violation) :
    Warrants (throw v : ExceptT Violation (Except Fault) α) post := ⟨.error v, rfl, nofun⟩

theorem warrants_pure {x : α} (h : post x) :
    Warrants (pure x : ExceptT Violation (Except Fault) α) post :=
  ⟨.ok x, rfl, fun _ e => Except.ok.inj e ▸ h⟩

theorem Warrants.bind {f : α → ExceptT Violation (Except Fault) β} {next : β → Prop}
    (h : Warrants q post) (hf : ∀ x, post x → Warrants (f x) next) : Warrants (q >>= f) next := by
  obtain ⟨r, hr, hp⟩ := h
  cases r with
  | error v => exact ⟨.error v, by rw [ExceptT.run_bind, hr]; rfl, nofun⟩
  | ok x =>
    obtain ⟨r', hr', hn⟩ := hf x (hp x rfl)
    exact ⟨r', by rw [ExceptT.run_bind, hr]; exact hr', hn⟩

/-- If the search finds no violation, its result meets the condition. Whether it ends is left
open. -/
def Vouches (q : ExceptT Violation (Except Fault) α) (post : α → Prop) : Prop :=
  ∀ x, q.run = .ok (.ok x) → post x

theorem vouches_throw (v : Violation) :
    Vouches (throw v : ExceptT Violation (Except Fault) α) post := nofun

theorem vouches_pure {x : α} (h : post x) :
    Vouches (pure x : ExceptT Violation (Except Fault) α) post :=
  fun _ e => Except.ok.inj (Except.ok.inj e) ▸ h

theorem Vouches.mono {post' : α → Prop} (h : Vouches q post) (hp : ∀ x, post x → post' x) :
    Vouches q post' := fun x e => hp x (h x e)

theorem Vouches.bind {f : α → ExceptT Violation (Except Fault) β} {next : β → Prop}
    (h : Vouches q post) (hf : ∀ x, post x → Vouches (f x) next) : Vouches (q >>= f) next := by
  intro y hy
  rw [ExceptT.run_bind] at hy
  cases hq : q.run with
  | error e =>
    rw [hq] at hy
    cases hy
  | ok r =>
    rw [hq] at hy
    cases r with
    | error v => cases hy
    | ok x => exact hf x (h x hq) y hy

/-- What was read is there. -/
theorem vouches_read {r : Except Fault β} {f : β → ExceptT Violation (Except Fault) α}
    (hf : ∀ x, r = .ok x → Vouches (f x) post) : Vouches (liftM r >>= f) post := by
  cases r with
  | error e => exact nofun
  | ok x => exact hf x rfl

theorem Warrants.of_vouches (h : Warrants q fun _ => True) (hv : Vouches q post) :
    Warrants q post := by
  obtain ⟨r, hr, -⟩ := h
  exact ⟨r, hr, fun x e => hv x (e ▸ hr)⟩

end Searches

namespace Arena

variable {κ ν : Type} {a : Arena κ ν} {t : Tree κ ν} {n : NodeId} {up : List NodeId}
  {x : Node κ ν} {fuel : Nat}

/-- The root and every link to a child name occupied slots. -/
structure Sturdy (a : Arena κ ν) : Prop where
  root : ∀ n ∈ a.root, (a.get? n).isSome
  child : ∀ n x s, a.get? n = some x → ∀ m ∈ x.child s, (a.get? m).isSome

/-- A balanced tree with entries everywhere hangs below the given parent, at the given link. -/
structure Carries (a : Arena κ ν) (parent link : Option NodeId) (t : Tree κ ν) (h : Nat) :
    Prop where
  root : t.root? = link
  links : a.Hangs parent t
  filled : t.Filled
  balanced : t.Balanced h

theorem Carries.color {q : Option NodeId} {h : Nat} (ht : a.Carries q (some n) t h) :
    a.color n = .ok t.color := by
  cases t with
  | nil => cases ht.root
  | node l k c r =>
    obtain rfl : c.id = n := Option.some.inj ht.root
    rw [color_of_get? ht.links.1, Cell.color_node, Tree.color]

theorem heightBelow_vouches (ih : ∀ m, a.parent m = .ok (some n) →
      Vouches (blackHeightFrom a fuel m) fun h => ∃ t, a.Carries (some n) (some m) t h)
    (s : Side) : Vouches (heightBelow a fuel n x s) fun h =>
      ∃ t, a.Carries (some n) (x.child s) t h ∧ (x.color = .red → t.color = .black) := by
  unfold heightBelow
  cases hc : x.child s with
  | none => exact vouches_pure ⟨.nil, ⟨rfl, hangs_nil _, nofun, .nil⟩, fun _ => rfl⟩
  | some m =>
    refine vouches_read fun q hq => ?_
    by_cases hp : q = some n
    · rw [if_neg (not_not_intro hp)]
      refine vouches_read fun k hk => ?_
      by_cases hred : x.color = .red ∧ k = .red
      · rw [if_pos hred]
        exact vouches_throw _
      · rw [if_neg hred]
        refine (ih m (hp ▸ hq)).mono ?_
        rintro h ⟨t, ht⟩
        have color_eq : t.color = k := Except.ok.inj (ht.color.symm.trans hk)
        exact ⟨t, ht, fun hx => Color.eq_black fun ht => hred ⟨hx, color_eq ▸ ht⟩⟩
    · rw [if_pos hp]
      exact vouches_throw _

/-- Where the search finds no violation, a balanced tree hangs. -/
theorem blackHeightFrom_vouches {q : Option NodeId} (hp : a.parent n = .ok q) :
    Vouches (blackHeightFrom a fuel n) fun h => ∃ t, a.Carries q (some n) t h := by
  induction fuel generalizing n q with
  | zero => exact nofun
  | succ fuel ih =>
    have below (x : Node κ ν) :=
      heightBelow_vouches (n := n) (x := x) fun m (hm : a.parent m = .ok (some n)) => ih hm
    rw [blackHeightFrom_succ]
    refine vouches_read fun x hnode => ?_
    have hx := get?_eq_some_iff.mpr hnode
    obtain rfl : x.parent = q := Except.ok.inj ((parent_of_get? hx).symm.trans hp)
    cases he : x.entry with
    | none => exact vouches_throw _
    | some e =>
      refine (below x .left).bind ?_
      rintro i ⟨l, hl, bl⟩
      refine (below x .right).bind ?_
      rintro j ⟨r, hr, br⟩
      by_cases hij : i = j
      · subst hij
        rw [if_neg (not_not_intro rfl)]
        have links : a.get? n = some
            (Cell.node ⟨n, x.stamp, x.entry⟩ x.parent x.color .left l.root? r.root?) := by
          rw [hx, hl.root, hr.root]
          rfl
        have filled : (Tree.node l x.color ⟨n, x.stamp, x.entry⟩ r).Filled :=
          Tree.filled_node.mpr ⟨hl.filled, by rw [he]; rfl, hr.filled⟩
        refine vouches_pure ⟨.node l x.color ⟨n, x.stamp, x.entry⟩ r, rfl,
          ⟨links, hl.links, hr.links⟩, filled, ?_⟩
        cases hk : x.color with
        | red => exact .red hl.balanced hr.balanced (bl hk) (br hk)
        | black => exact .black hl.balanced hr.balanced
      · rw [if_pos hij]
        exact vouches_throw _

theorem auditShape_vouches (hn : a.root = some n) : Vouches (a.auditShape n) fun h =>
    ∃ t, a.Stands t ∧ t ≠ .nil ∧ t.Filled ∧ t.RedBlack h := by
  unfold auditShape blackHeight
  refine vouches_read fun q hq => ?_
  cases q with
  | some p => exact vouches_throw _
  | none =>
    simp only [Option.isSome_none, Bool.false_eq_true, if_false]
    refine vouches_read fun k hk => ?_
    by_cases hred : k = .red
    · rw [if_pos hred]
      exact vouches_throw _
    · rw [if_neg hred]
      refine (blackHeightFrom_vouches hq).mono ?_
      rintro h ⟨t, ht⟩
      have hne : t ≠ .nil := by
        rintro rfl
        cases ht.root
      have color_eq : t.color = k := Except.ok.inj (ht.color.symm.trans hk)
      exact ⟨t, ⟨ht.links, hn.trans ht.root.symm⟩, hne, ht.filled,
        color_eq.trans (Color.eq_black hred), ht.balanced⟩

theorem heightBelow_ends (hs : a.Sturdy) (hx : a.get? n = some x) (hup : a.Ascends (n :: up))
    (ih : ∀ m, a.Ascends (m :: n :: up) → Warrants (blackHeightFrom a fuel m) fun _ => True)
    (s : Side) : Warrants (heightBelow a fuel n x s) fun _ => True := by
  unfold heightBelow
  cases hc : x.child s with
  | none => exact warrants_pure trivial
  | some m =>
    obtain ⟨y, hy⟩ := Option.isSome_iff_exists.mp (hs.child n x s hx m hc)
    simp only
    rw [lift_ok_bind (parent_of_get? hy)]
    by_cases hp : y.parent = some n
    · rw [if_neg (not_not_intro hp), lift_ok_bind (color_of_get? hy)]
      split
      · exact warrants_throw _
      · exact ih m ⟨⟨y, hy, hp⟩, hup⟩
    · rw [if_pos hp]
      exact warrants_throw _

/-- The search goes down only to nodes from which the way up leads back, so it ends. -/
theorem blackHeightFrom_ends (hs : a.Sturdy) (hup : a.Ascends (n :: up))
    (hf : a.slots.size < fuel + up.length) :
    Warrants (blackHeightFrom a fuel n) fun _ => True := by
  induction fuel generalizing n up with
  | zero =>
    have := hup.length_le
    rw [List.length_cons] at this
    omega
  | succ fuel ih =>
    obtain ⟨⟨x, hx, -⟩, -⟩ := id hup
    have hfuel : a.slots.size < fuel + (n :: up).length := by
      rw [List.length_cons]
      omega
    have below := heightBelow_ends hs hx hup fun m hm => ih hm hfuel
    rw [blackHeightFrom_succ, lift_ok_bind (node_of_get? hx)]
    cases he : x.entry with
    | none => exact warrants_throw _
    | some e =>
      refine (below .left).bind fun i _ => (below .right).bind fun j _ => ?_
      by_cases hij : i = j
      · rw [if_neg (not_not_intro hij)]
        exact warrants_pure trivial
      · rw [if_pos hij]
        exact warrants_throw _

theorem auditShape_warrants (hs : a.Sturdy) (hn : a.root = some n) :
    Warrants (a.auditShape n) fun h =>
      ∃ t, a.Stands t ∧ t ≠ .nil ∧ t.Filled ∧ t.RedBlack h := by
  refine Warrants.of_vouches ?_ (auditShape_vouches hn)
  obtain ⟨x, hx⟩ := Option.isSome_iff_exists.mp (hs.root n hn)
  unfold auditShape blackHeight
  rw [lift_ok_bind (parent_of_get? hx)]
  cases hp : x.parent with
  | some q => exact warrants_throw _
  | none =>
    simp only
    rw [lift_ok_bind (color_of_get? hx)]
    by_cases hred : x.color = .red
    · rw [if_pos hred]
      exact warrants_throw _
    · rw [if_neg hred]
      have alone : a.Ascends [n] := ⟨⟨x, hx, hp⟩, trivial⟩
      exact blackHeightFrom_ends hs alone (a.size_lt_reach_add _)

end Arena

/-- A tree with entries everywhere is one of items. -/
theorem Tree.Filled.exists_items {κ ν : Type} {t : Tree κ ν} (h : t.Filled) :
    ∃ xs : List (Item κ ν), t.cells = xs.map Item.cell := by
  unfold Filled at h
  generalize t.cells = cs at h ⊢
  induction cs with
  | nil => exact ⟨[], rfl⟩
  | cons c cs ih =>
    obtain ⟨hc, hcs⟩ := List.forall_mem_cons.mp h
    obtain ⟨e, he⟩ := Option.isSome_iff_exists.mp hc
    obtain ⟨xs, rfl⟩ := ih hcs
    refine ⟨⟨c.id, c.stamp, e⟩ :: xs, ?_⟩
    rw [List.map_cons, Item.cell, ← he]

namespace Map

variable {κ ν : Type} {m : Map κ ν} {t : Tree κ ν} {xs : List (Item κ ν)} {h H : Nat}

/-- The nodes reached from the root form a tree that keeps every rule and has the given height. -/
structure Passes (m : Map κ ν) (t : Tree κ ν) (h : Nat) : Prop where
  there : t ≠ .nil
  root : m.arena.root = t.root?
  /-- Every node of the tree is in its slot, linked to its children there and to its parent, and
  the root to none. -/
  links : m.arena.Hangs none t
  reached : ∀ n, m.arena.Reached n ↔ n ∈ t.ids
  /-- No node is reached twice. -/
  distinct : t.ids.Nodup
  filled : t.Filled
  rootBlack : t.color = .black
  redApart : t.RedApart
  level : t.Level h
  /-- Every tag is less than all later ones. -/
  ordered : t.cells.Pairwise fun c d =>
    ∀ e ∈ c.entry, ∀ f ∈ d.entry, m.compare e.tag f.tag = .lt
  count : m.count = t.cells.length

theorem Passes.redBlack (h : m.Passes t H) : t.RedBlack H :=
  ⟨h.rootBlack, Tree.balanced_iff.mpr ⟨h.redApart, h.level⟩⟩

theorem verdict_eq_ok : m.verdict H xs = .ok h ↔
    Rises m.compare xs ∧ m.count = xs.length ∧ H = h := by
  rw [verdict, ← firstDisorder_eq_none_iff]
  cases firstDisorder m.compare xs with
  | some x => simp
  | none =>
    by_cases hc : xs.length = m.count
    · simp [hc]
    · simp [hc, Ne.symm hc]

section Preorder

variable [Std.TransCmp m.compare]

/-- Items that increase are on different nodes, since a node holds one tag. -/
theorem Presents.fresh (h : m.Presents t xs) (us vs : List (Item κ ν)) (hx : xs = us ++ vs)
    (hrises : Rises m.compare us) : (us.map (·.node)).Nodup := by
  refine List.pairwise_map.mpr ((Item.increasing_of_rises hrises).imp_of_mem ?_)
  intro x y hxu hyu hlt e
  obtain ⟨z, hz, -, hzx⟩ := h.get? (x := x) (by simp [hx, hxu])
  obtain ⟨z', hz', -, hzy⟩ := h.get? (x := y) (by simp [hx, hyu])
  rw [e, hz'] at hz
  cases hz
  have hentry : y.entry = x.entry := Option.some.inj (hzy.symm.trans hzx)
  have heq : m.compare x.entry.tag x.entry.tag = .eq := Std.ReflCmp.compare_self
  rw [hentry, heq] at hlt
  cases hlt

theorem Presents.passes_iff (h : m.Presents t xs) (hne : t ≠ .nil) :
    m.Passes t H ↔ t.RedBlack H ∧ m.verdict H xs = .ok H := by
  have hordered : t.cells.Pairwise (fun c d =>
      ∀ e ∈ c.entry, ∀ f ∈ d.entry, m.compare e.tag f.tag = .lt) ↔
      Item.Increasing m.compare xs := by
    rw [h.cells, List.pairwise_map]
    simp [Item.cell, Item.Increasing]
  have hcount : t.cells.length = xs.length := by rw [h.cells, List.length_map]
  rw [verdict_eq_ok, ← hcount]
  constructor
  · intro hp
    exact ⟨hp.redBlack, (hordered.mp hp.ordered).isChain, hp.count, rfl⟩
  · rintro ⟨hr, hrises, hc, -⟩
    obtain ⟨apart, level⟩ := Tree.balanced_iff.mp hr.balanced
    have distinct : t.ids.Nodup := by
      rw [h.ids]
      exact h.fresh xs [] (List.append_nil _).symm hrises
    exact ⟨hne, h.stands.root, h.stands.links, fun _ => h.stands.links.reached_iff h.stands.root,
      distinct, h.filled, hr.color, apart, level,
      hordered.mpr (Item.increasing_of_rises hrises), hc⟩

theorem verdict_ok_iff (hp : m.Presents t xs) (hne : t ≠ .nil) (hr : t.RedBlack H) :
    m.verdict H xs = .ok h ↔ ∃ u, m.Passes u h := by
  constructor
  · intro e
    obtain ⟨-, -, rfl⟩ := verdict_eq_ok.mp e
    exact ⟨t, (hp.passes_iff hne).mpr ⟨hr, e⟩⟩
  · rintro ⟨u, hu⟩
    obtain rfl : u = t := hu.links.unique hp.stands.links (hu.root.symm.trans hp.stands.root)
    obtain ⟨hru, e⟩ := (hp.passes_iff hne).mp hu
    rwa [hr.balanced.height_unique hru.balanced]

end Preorder

/-- The self check of any map whose links to children lead to nodes ends without a fault. Under a
total preorder it returns a height exactly if the map is empty, with height zero, or the nodes
reached from the root form a tree that keeps every rule, of that height. -/
theorem audit_ok_iff {w : Workspace κ ν} (hs : w.map.arena.Sturdy) [Std.TransCmp w.map.compare] :
    Yields audit w fun r w' => Reads w w' ∧ ∀ h, r = .ok h ↔
      (w.map.arena.root = none ∧ w.map.count = 0 ∧ h = 0) ∨ ∃ t, w.map.Passes t h := by
  cases hn : w.map.arena.root with
  | none =>
    have hnot (h : Nat) : ¬ ∃ t, w.map.Passes t h := by
      rintro ⟨t, ht⟩
      exact ht.there (Tree.root?_eq_none_iff.mp (ht.root.symm.trans hn))
    refine (yields_audit_rootless hn).mpr ⟨⟨rfl, rfl, rfl⟩, fun h => ?_⟩
    by_cases hc : w.map.count = 0
    · simp [hc, hnot, eq_comm]
    · simp [hc, hnot]
  | some n =>
    have hroot : some n ≠ none := nofun
    simp only [hroot, false_and, false_or]
    obtain ⟨r, hr, hwarrant⟩ := Arena.auditShape_warrants hs hn
    cases r with
    | error v =>
      refine (yields_audit_misshapen hn hr).mpr ⟨⟨rfl, rfl, rfl⟩, fun h => ⟨nofun, ?_⟩⟩
      rintro ⟨t, ht⟩
      have hok := Arena.auditShape_eq ⟨ht.links, ht.root⟩ (ht.root.symm.trans hn) ht.filled
        ht.redBlack
      rw [hr] at hok
      cases hok
    | ok H =>
      obtain ⟨t, stands, hne, hfill, hrb⟩ := hwarrant H rfl
      obtain ⟨xs, hxs⟩ := hfill.exists_items
      have hp : w.map.Presents t xs := ⟨stands, hxs⟩
      apply (yields_audit_presents hp hne hrb hp.fresh).mono
      rintro r - ⟨rfl, rfl⟩
      exact ⟨reads_afterWalk xs, fun h => verdict_ok_iff hp hne hrb⟩

/-- Where the walk of the check finds nothing out of order, the steps to the right come to an
end. -/
theorem follows_of_disorderFrom {w w' : Workspace κ ν} {n : NodeId} {fuel : Nat}
    (hd : disorderFrom fuel n w = .ok none w') : w'.map = w.map ∧
      ∃ rest, Arena.Follows (w.map.arena.neighbour .right) (n :: rest) := by
  induction fuel generalizing w n with
  | zero => cases hd
  | succ fuel ih =>
    rw [disorderFrom] at hd
    obtain ⟨next, hstep, hd⟩ := look_bind_eq_ok.mp hd
    cases next with
    | none =>
      cases hd
      exact ⟨rfl, [], hstep, trivial⟩
    | some m =>
      obtain ⟨first, -, hd⟩ := look_bind_eq_ok.mp hd
      obtain ⟨second, -, hd⟩ := look_bind_eq_ok.mp hd
      obtain ⟨order, w₁, horder, hd⟩ := bind_eq_ok.mp hd
      cases horder
      split at hd
      · obtain ⟨hmap, rest, hrest⟩ := ih hd
        exact ⟨hmap, m :: rest, hstep, hrest⟩
      · cases hd

/-- Where the check returns a height, a red-black tree of that height stands, with as many nodes as
are counted. -/
theorem stands_of_audit {w w' : Workspace κ ν} (he : audit w = .ok (.ok h) w') (hpos : 0 < h) :
    ∃ t, w.map.arena.Stands t ∧ t.Filled ∧ t.RedBlack h ∧ w.map.count = t.cells.length := by
  unfold audit at he
  rw [bind_of_eq (x := survey pure) (s := w) (t := w) rfl] at he
  cases hn : w.map.arena.root with
  | none =>
    simp only [hn] at he
    obtain rfl : h = 0 := by
      by_cases hc : w.map.count = 0
      · rw [if_pos hc] at he
        cases he
        rfl
      · rw [if_neg hc] at he
        cases he
    omega
  | some n =>
    simp only [hn] at he
    obtain ⟨shape, hshape, he⟩ := look_bind_eq_ok.mp he
    cases shape with
    | error v => cases he
    | ok H =>
      obtain ⟨t, stands, hne, hfill, hr⟩ := Arena.auditShape_vouches hn H hshape
      obtain ⟨first, hfirst, he⟩ := look_bind_eq_ok.mp he
      obtain ⟨out, w₁, hwalk, he⟩ := bind_eq_ok.mp he
      cases out with
      | some m => cases he
      | none =>
        obtain ⟨hmap, rest, hrest⟩ := follows_of_disorderFrom hwalk
        obtain ⟨c, cs, hcells⟩ := List.exists_cons_of_ne_nil (mt Tree.cells_eq_nil_iff.mp hne)
        have hleast : (t.toward .left).getLast? = some c := by
          rw [Tree.toward, List.getLast?_reverse, hcells, List.head?_cons]
        have hc := Arena.extreme_eq (p := []) stands.links hleast (stands.root.symm.trans hn)
        have head_eq : (first :: rest).head? = t.ids.head? := by
          rw [Except.ok.inj (hfirst.symm.trans hc), Tree.ids, hcells]
          rfl
        have hnd : t.ids.Nodup := by
          rw [← stands.links.ids_eq_of_follows hrest head_eq]
          exact hrest.nodup
        obtain ⟨post, hpost, he⟩ := look_bind_eq_ok.mp he
        rw [hmap, Arena.postOrder_eq stands hnd] at hpost
        cases hpost
        rw [List.length_map, t.post_perm.length_eq] at he
        by_cases hcount : t.cells.length = w.map.count
        · rw [if_pos hcount] at he
          cases he
          exact ⟨t, stands, hfill, hr, hcount.symm⟩
        · rw [if_neg hcount] at he
          cases he

/-- A black root with a red node on its left and a link to the right. -/
def hung (right : NodeId) : Workspace Nat Nat :=
  ⟨⟨⟨0⟩, ⟨#[some ⟨none, some ⟨1⟩, some right, .black, 0, some ⟨2, 0⟩⟩,
    some ⟨some ⟨0⟩, none, none, .red, 1, some ⟨1, 0⟩⟩,
    some ⟨some ⟨0⟩, none, none, .red, 2, some ⟨3, 0⟩⟩], [], some ⟨0⟩⟩, 3, .natural⟩, 3, ∅⟩

theorem hung_sturdy {right : NodeId} (h : right.index < 3) : (hung right).map.arena.Sturdy := by
  have there : ∀ m : NodeId, m.index < 3 → ((hung right).map.arena.get? m).isSome := by
    rintro ⟨_ | _ | _ | i⟩ hi
    · rfl
    · rfl
    · rfl
    · exact absurd hi (Nat.not_lt.mpr (Nat.le_add_left 3 i))
  refine ⟨?_, ?_⟩
  · rintro - ⟨⟩
    rfl
  · intro n x s hx m hm
    refine there m ?_
    have hn : n.index < 3 := Arena.lt_size_of_get? hx
    obtain ⟨_ | _ | _ | i⟩ := n
    · cases hx
      cases s <;> cases hm <;> simp [h]
    · cases hx
      cases s <;> cases hm
    · cases hx
      cases s <;> cases hm
    · exact absurd hn (Nat.not_lt.mpr (Nat.le_add_left 3 i))

/-- The check passes a proper tree, and not one node hung on both sides of another. -/
theorem audit_ok_iff_hung :
    ((hung ⟨2⟩).map.arena.Sturdy ∧ ∃ t, (hung ⟨2⟩).map.Passes t 2) ∧
      (hung ⟨1⟩).map.arena.Sturdy ∧ ∀ t h, ¬ (hung ⟨1⟩).map.Passes t h := by
  have order (n : NodeId) : Std.TransCmp (hung n).map.compare :=
    inferInstanceAs (Std.TransCmp fun a b : Nat => Ord.compare a b)
  have proper : (hung ⟨2⟩).map.arena.Sturdy := hung_sturdy (by decide)
  have shared : (hung ⟨1⟩).map.arena.Sturdy := hung_sturdy (by decide)
  refine ⟨⟨proper, ?_⟩, shared, fun t h ht => ?_⟩
  · obtain ⟨r, w, he, -, hr⟩ := audit_ok_iff proper
    have hok : r = .ok 2 := by
      cases he
      rfl
    rcases (hr 2).mp hok with ⟨-, hc, -⟩ | ht
    · cases hc
    · exact ht
  · obtain ⟨r, w, he, -, hr⟩ := audit_ok_iff shared
    have hok : r = .ok h := (hr h).mpr (.inr ⟨t, ht⟩)
    cases hok
    cases he

/-- Where a tag is less than itself, the walk through a node hung on both sides goes round. -/
example : Ends audit ⟨{ (hung ⟨1⟩).map with policy := .ofComparison fun _ _ => .lt }, 3, ∅⟩
    fun r _ => r = .error .endless := by rfl

end Map
end OrderedMap
