import OrderedMap.Proofs.Arena.Ways
import OrderedMap.Proofs.Map.Checking

/-!
What the self check convicts a map of. Of any map, damaged in whatever ways, the violation that the
check returns is there: the node that it names breaks the rule, and the numbers that it tells are
true. Once an item is found out of order, or the count is found wrong, all that is checked before is
in order.
-/
namespace OrderedMap

section Searches

variable {α β : Type} {q : ExceptT Violation (Except Fault) α} {bad : Violation → Prop}

/-- If the search finds a violation, the violation meets the condition. -/
def Blames (q : ExceptT Violation (Except Fault) α) (bad : Violation → Prop) : Prop :=
  ∀ v, q.run = .ok (.error v) → bad v

theorem blames_throw {v : Violation} (h : bad v) :
    Blames (throw v : ExceptT Violation (Except Fault) α) bad :=
  fun _ e => Except.error.inj (Except.ok.inj e) ▸ h

theorem blames_pure {x : α} : Blames (pure x : ExceptT Violation (Except Fault) α) bad := nofun

theorem Blames.bind {post : α → Prop} {f : α → ExceptT Violation (Except Fault) β}
    (h : Blames q bad) (hq : Vouches q post) (hf : ∀ x, post x → Blames (f x) bad) :
    Blames (q >>= f) bad := by
  intro v hv
  rw [ExceptT.run_bind] at hv
  cases hr : q.run with
  | error e =>
    rw [hr] at hv
    cases hv
  | ok r =>
    rw [hr] at hv
    cases r with
    | error u =>
      cases hv
      exact h _ hr
    | ok x => exact hf x (hq x hr) v hv

/-- What was read is there. -/
theorem blames_read {r : Except Fault β} {f : β → ExceptT Violation (Except Fault) α}
    (hf : ∀ x, r = .ok x → Blames (f x) bad) : Blames (liftM r >>= f) bad := by
  cases r with
  | error e => exact nofun
  | ok x => exact hf x rfl

end Searches

namespace Arena

variable {κ ν : Type} {a : Arena κ ν} {t : Tree κ ν} {n : NodeId} {x : Node κ ν} {fuel : Nat}

/-- What a violation tells of the links, entries, colours and heights is so. -/
def Breaks (a : Arena κ ν) : Violation → Prop
  | .rootHasParent => ∃ n p, a.root = some n ∧ a.parent n = .ok (some p)
  | .redRoot => ∃ n, a.root = some n ∧ a.color n = .ok .red
  | .brokenParentLink c => ∃ n s q, a.Reached n ∧ a.child s n = .ok (some c) ∧
      a.parent c = .ok q ∧ q ≠ some n
  | .redChildOfRed n => a.Reached n ∧ a.color n = .ok .red ∧
      ∃ s c, a.child s n = .ok (some c) ∧ a.color c = .ok .red
  | .missingEntry n => a.Reached n ∧ ∃ x, a.get? n = some x ∧ x.entry = none
  | .unevenBlackHeight n l r => a.Reached n ∧ l ≠ r ∧
      ∃ x, a.get? n = some x ∧ a.Deep x.left l ∧ a.Deep x.right r
  | .outOfOrder _ | .countMismatch _ _ => False

theorem Carries.deep {q link : Option NodeId} {h : Nat} (ht : a.Carries q link t h) :
    a.Deep link h := ht.root ▸ ht.links.deep ht.balanced

theorem heightBelow_blames (hn : a.Reached n) (hx : a.get? n = some x)
    (ih : ∀ m, a.Reached m → Blames (blackHeightFrom a fuel m) a.Breaks) (s : Side) :
    Blames (heightBelow a fuel n x s) a.Breaks := by
  unfold heightBelow
  cases hc : x.child s with
  | none => exact blames_pure
  | some m =>
    have link : a.child s n = .ok (some m) := by rw [child_of_get? s hx, hc]
    refine blames_read fun q hq => ?_
    by_cases hp : q = some n
    · rw [if_neg (not_not_intro hp)]
      refine blames_read fun k hk => ?_
      by_cases hred : x.color = .red ∧ k = .red
      · rw [if_pos hred]
        obtain ⟨hxr, rfl⟩ := hred
        exact blames_throw ⟨hn, by rw [color_of_get? hx, hxr], s, m, link, hk⟩
      · rw [if_neg hred]
        exact ih m (.child s hn hx hc)
    · rw [if_pos hp]
      exact blames_throw ⟨n, s, q, hn, link, hq, hp⟩

/-- The search goes down from a node that is reached. The heights that it compares were measured on
trees, since no violation was found below. -/
theorem blackHeightFrom_blames (hn : a.Reached n) : Blames (blackHeightFrom a fuel n) a.Breaks := by
  induction fuel generalizing n with
  | zero => exact nofun
  | succ fuel ih =>
    rw [blackHeightFrom_succ]
    refine blames_read fun x hnode => ?_
    have hx := get?_eq_some_iff.mpr hnode
    have blamed := heightBelow_blames hn hx fun _ => ih
    cases he : x.entry with
    | none => exact blames_throw ⟨hn, x, hx, he⟩
    | some e =>
      refine (blamed .left).bind (heightBelow_vouches (fun _ => blackHeightFrom_vouches) .left) ?_
      rintro i ⟨l, hl, -⟩
      refine (blamed .right).bind (heightBelow_vouches (fun _ => blackHeightFrom_vouches) .right) ?_
      rintro j ⟨r, hr, -⟩
      by_cases hij : i = j
      · rw [if_neg (not_not_intro hij)]
        exact blames_pure
      · rw [if_pos hij]
        exact blames_throw ⟨hn, hij, x, hx, hl.deep, hr.deep⟩

theorem auditShape_blames (hn : a.root = some n) : Blames (a.auditShape n) a.Breaks := by
  unfold auditShape blackHeight
  refine blames_read fun q hq => ?_
  cases q with
  | some p => exact blames_throw ⟨n, p, hn, hq⟩
  | none =>
    simp only [Option.isSome_none, Bool.false_eq_true, if_false]
    refine blames_read fun k hk => ?_
    by_cases hred : k = .red
    · rw [if_pos hred]
      exact blames_throw ⟨n, hn, hred ▸ hk⟩
    · rw [if_neg hred]
      exact blackHeightFrom_blames (.root hn)

/-- The nodes reached from the root form a tree that keeps all rules on links, entries, colours and
heights. One of them may be in two places. -/
structure Shaped (a : Arena κ ν) (t : Tree κ ν) : Prop where
  stands : a.Stands t
  reached : ∀ n, a.Reached n ↔ n ∈ t.ids
  filled : t.Filled
  rootBlack : t.color = .black
  redApart : t.RedApart
  level : ∃ h, t.Level h

theorem Stands.shaped (h : a.Stands t) (hfill : t.Filled) {H : Nat} (hr : t.RedBlack H) :
    a.Shaped t := by
  obtain ⟨apart, level⟩ := Tree.balanced_iff.mp hr.balanced
  exact ⟨h, fun _ => h.links.reached_iff h.root, hfill, hr.color, apart, H, level⟩

end Arena

namespace Map

variable {κ ν : Type} {m : Map κ ν} {t : Tree κ ν} {xs : List (Item κ ν)} {H : Nat}
  {v : Violation}

/-- What a violation tells is so. A node is out of order only in a tree that keeps all other rules,
right behind a node of which the tag is not less; and the number of nodes is wrong only if all is
in order, so that the map would pass if as many were counted as there are. -/
def Breaks (m : Map κ ν) : Violation → Prop
  | .outOfOrder n => ∃ t, m.arena.Shaped t ∧ ∃ us c d vs e f, t.cells = us ++ c :: d :: vs ∧
      d.id = n ∧ m.arena.neighbour .right c.id = .ok (some n) ∧ c.entry = some e ∧
      d.entry = some f ∧ m.compare e.tag f.tag ≠ .lt
  | .countMismatch tracked counted => tracked = m.count ∧ tracked ≠ counted ∧
      (∃ ns : List NodeId, ns.Nodup ∧ (∀ n, n ∈ ns ↔ m.arena.Reached n) ∧ counted = ns.length) ∧
      (m.arena.root = none ∨ ∃ t h, Passes { m with count := counted } t h)
  | v => m.arena.Breaks v

theorem Breaks.of_shape (h : m.arena.Breaks v) : m.Breaks v := by
  cases v <;> first | exact h | exact h.elim

/-- Without a root no node is reached, so none ought to be tracked. -/
theorem breaks_rootless (hn : m.arena.root = none) (hc : m.count ≠ 0) :
    m.Breaks (.countMismatch m.count 0) := by
  have empty : m.arena.Stands .nil := ⟨Arena.hangs_nil none, hn⟩
  have reached (n : NodeId) : n ∈ [] ↔ m.arena.Reached n :=
    (empty.links.reached_iff empty.root).symm
  exact ⟨rfl, hc, ⟨[], List.nodup_nil, reached, rfl⟩, .inl hn⟩

theorem exists_firstDisorder {order : κ → κ → Ordering} {y : Item κ ν}
    (h : firstDisorder order xs = some y) : ∃ us x vs, xs = us ++ x :: y :: vs ∧
      Rises order (us ++ [x]) ∧ order x.entry.tag y.entry.tag ≠ .lt := by
  induction xs with
  | nil => cases h
  | cons x xs ih =>
    cases xs with
    | nil => cases h
    | cons z zs =>
      rw [firstDisorder] at h
      by_cases ho : order x.entry.tag z.entry.tag = .lt
      · rw [if_pos ho] at h
        obtain ⟨us, x', vs, hsplit, hrises, hnot⟩ := ih h
        have first : (us ++ [x']).head? = some z := by
          cases us <;> exact congrArg some (List.cons.inj hsplit).1.symm
        refine ⟨x :: us, x', vs, by rw [hsplit, List.cons_append], ?_, hnot⟩
        refine List.isChain_cons.mpr ⟨fun y hy => ?_, hrises⟩
        obtain rfl : z = y := Option.some.inj (first.symm.trans hy)
        exact ho
      · rw [if_neg ho] at h
        cases h
        exact ⟨[], x, zs, rfl, List.isChain_singleton x, ho⟩

section Preorder

variable [Std.TransCmp m.compare]

theorem Presents.breaks (h : m.Presents t xs) (hne : t ≠ .nil) (hr : t.RedBlack H)
    (hv : m.verdict H xs = .error v) : m.Breaks v := by
  unfold verdict at hv
  cases hd : firstDisorder m.compare xs with
  | some y =>
    rw [hd] at hv
    cases hv
    obtain ⟨us, x, vs, rfl, hrises, hnot⟩ := exists_firstDisorder hd
    have fresh := h.fresh (us ++ [x]) (y :: vs) (by simp) hrises
    exact ⟨t, h.stands.shaped h.filled hr, us.map Item.cell, x.cell, y.cell, vs.map Item.cell,
      x.entry, y.entry, by rw [h.cells]; simp, rfl, h.successor rfl fresh, rfl, rfl, hnot⟩
  | none =>
    rw [hd] at hv
    have hrises := firstDisorder_eq_none_iff.mp hd
    by_cases hc : xs.length = m.count
    · rw [if_pos hc] at hv
      cases hv
    · rw [if_neg hc] at hv
      cases hv
      have hnd : t.ids.Nodup := by
        rw [h.ids]
        exact h.fresh xs [] (List.append_nil _).symm hrises
      -- with the number put right the tree breaks no rule
      have recounted : Presents { m with count := xs.length } t xs := ⟨h.stands, h.cells⟩
      have : Std.TransCmp (Map.compare { m with count := xs.length }) :=
        inferInstanceAs (Std.TransCmp m.compare)
      have passes : Passes { m with count := xs.length } t H :=
        (recounted.passes_iff hne).mpr ⟨hr, verdict_eq_ok.mpr ⟨hrises, rfl, rfl⟩⟩
      refine ⟨rfl, fun e => hc e.symm, ⟨t.ids, hnd, ?_, ?_⟩, .inr ⟨t, H, passes⟩⟩
      · exact fun n => (passes.reached n).symm
      · rw [h.ids, List.length_map]

end Preorder

/-- Under a total preorder, the violation that the self check of any map returns is there, as long
as the root and the links to children name occupied slots. -/
theorem audit_breaks {w : Workspace κ ν} (hs : w.map.arena.Sturdy) [Std.TransCmp w.map.compare] :
    Yields audit w fun r w' => Reads w w' ∧ ∀ v, r = .error v → w.map.Breaks v := by
  cases hn : w.map.arena.root with
  | none =>
    refine (yields_audit_rootless hn).mpr ⟨⟨rfl, rfl, rfl⟩, fun v hv => ?_⟩
    by_cases hc : w.map.count = 0
    · rw [if_pos hc] at hv
      cases hv
    · rw [if_neg hc] at hv
      cases hv
      exact breaks_rootless hn hc
  | some n =>
    obtain ⟨r, hr, hwarrant⟩ := Arena.auditShape_warrants hs hn
    cases r with
    | error v =>
      refine (yields_audit_misshapen hn hr).mpr ⟨⟨rfl, rfl, rfl⟩, fun u hu => ?_⟩
      obtain rfl : v = u := Except.error.inj hu
      exact .of_shape (Arena.auditShape_blames hn v hr)
    | ok H =>
      obtain ⟨t, stands, hne, hfill, hrb⟩ := hwarrant H rfl
      obtain ⟨xs, hxs⟩ := hfill.exists_items
      have hp : w.map.Presents t xs := ⟨stands, hxs⟩
      apply (yields_audit_presents hp hne hrb hp.fresh).mono
      rintro r - ⟨rfl, rfl⟩
      exact ⟨reads_afterWalk xs, fun v hv => hp.breaks hne hrb hv⟩

/-- A node hung on both sides of another comes up once more behind a greater tag, and where five
nodes are tracked there are three. -/
theorem audit_breaks_hung : ((hung ⟨1⟩).map.arena.Sturdy ∧
      Ends audit (hung ⟨1⟩) (fun r _ => r = .ok (.error (.outOfOrder ⟨1⟩))) ∧
      (hung ⟨1⟩).map.Breaks (.outOfOrder ⟨1⟩)) ∧
    (hung ⟨2⟩).map.arena.Sturdy ∧ Map.Breaks { (hung ⟨2⟩).map with count := 5 }
      (.countMismatch 5 3) := by
  have shared : (hung ⟨1⟩).map.arena.Sturdy := hung_sturdy (by decide)
  have proper : (hung ⟨2⟩).map.arena.Sturdy := hung_sturdy (by decide)
  have order (n : NodeId) : Std.TransCmp (hung n).map.compare :=
    inferInstanceAs (Std.TransCmp fun a b : Nat => Ord.compare a b)
  refine ⟨⟨shared, rfl, ?_⟩, proper, ?_⟩
  · obtain ⟨r, w, he, -, hr⟩ := audit_breaks shared
    refine hr _ ?_
    cases he
    rfl
  · have : Std.TransCmp (Map.compare { (hung ⟨2⟩).map with count := 5 }) := order ⟨2⟩
    obtain ⟨r, w, he, -, hr⟩ :=
      audit_breaks (w := { hung ⟨2⟩ with map := { (hung ⟨2⟩).map with count := 5 } }) proper
    refine hr _ ?_
    cases he
    rfl

end Map
end OrderedMap
