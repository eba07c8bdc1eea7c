import OrderedMap.Arena.Rotation
import OrderedMap.Proofs.Arena.Bears
import OrderedMap.Proofs.Tree.Relabel

/-!
Rotations and exchanges of nodes, as edits of the tree that an arena bears. A rotation is made of
detaching and attaching; a transplant hands over what hangs below a node and then what it hangs on.
-/
namespace OrderedMap
namespace Arena

variable {κ ν α : Type} {a : Arena κ ν} {p : Path κ ν} {s : Side} {ts : List (Tree κ ν)}

theorem Grove.third {t u v : Tree κ ν} (h : a.Grove (t :: u :: v :: ts)) :
    a.Grove (v :: t :: u :: ts) :=
  h.perm (List.perm_middle : ([t, u] ++ v :: ts).Perm (v :: ([t, u] ++ ts)))

/-- Hang a subtree that was detached, if there was one, below a node. -/
def hangBack (side : Side) (p : NodeId) (c : Option NodeId) : EditM κ ν Unit :=
  match c with
  | none => pure ()
  | some c => attach side p c

theorem yields_hangBack {t u : Tree κ ν} {k : Color} {c : Cell κ ν}
    (h : a.Grove (p.plug (.join s .nil k c u) :: t :: ts)) :
    Yields (hangBack s c.id t.root?) a fun _ a' =>
      a'.Grove (p.plug (.join s t k c u) :: ts) ∧ Keeps a a' ∧ a'.root = a.root ∧
      AgreeOff a a' (c.id :: t.root?.toList) := by
  cases hn : t.root? with
  | none =>
    obtain rfl := Tree.root?_eq_none_iff.mp hn
    exact yields_pure.mpr ⟨(h.perm (.swap ..)).tail, .refl a, rfl,
      (AgreeOff.refl a).mono (List.nil_subset _)⟩
  | some n => exact h.yields_attach hn

theorem rotate_eq (side : Side) (n : NodeId) : (rotate side n : EditM κ ν Unit) = (do
    match ← detach side.opposite n with
    | none => throw (.noPivot side n)
    | some pivot =>
      let inner ← detach side pivot
      redirect n (some pivot)
      hangBack side.opposite n inner
      attach side pivot n) := by
  unfold rotate hangBack
  refine bind_congr fun pivot => ?_
  cases pivot with
  | none => rfl
  | some m =>
    refine bind_congr fun inner => bind_congr fun _ => ?_
    cases inner <;> simp

theorem handOver_eq (side : Side) (source target : NodeId) :
    (handOver side source target : EditM κ ν Unit) =
      detach side source >>= hangBack side target := by
  unfold handOver hangBack
  refine bind_congr fun c => ?_
  cases c <;> rfl

/-- Besides the two nodes that trade places, only the subtree that is handed from one to the other and
the parent have to do with it. -/
theorem Plants.yields_rotate {t u v : Tree κ ν} {k k' : Color} {n m : Cell κ ν}
    (h : a.Plants (p.plug (.join s t k n (.join s u k' m v))) ts) :
    Yields (rotate s n.id) a fun _ a' =>
      a'.Plants (p.plug (.join s (.join s t k n u) k' m v)) ts ∧ Keeps a a' ∧
      AgreeOff a a' (n.id :: m.id :: (u.root?.toList ++ p.above?.toList)) := by
  have hf := h.grove
  rw [← Tree.join_opposite] at hf
  rw [rotate_eq, yields_bind]
  apply hf.yields_detach.mono
  rintro - a₁ ⟨rfl, h₁, k₁, r₁, o₁⟩
  simp only [Tree.root?_join] at o₁ ⊢
  rw [yields_bind]
  apply (Grove.yields_detach (p := []) (h₁.perm (.swap ..))).mono
  rintro - a₂ ⟨rfl, h₂, k₂, r₂, o₂⟩
  rw [yields_bind]
  have hw : (some m.id : Option NodeId) = (Tree.join s .nil k' m v).root? := by simp
  rw [hw]
  refine (h₂.third.yields_redirect (by simp) ?_).mono ?_
  · rw [r₂, r₁, h.root]
    exact Path.root?_plug_congr p (by simp)
  rintro - a₃ ⟨h₃, k₃, r₃, o₃⟩
  rw [Path.plug_nil, ← hw] at o₃
  rw [yields_bind]
  apply (yields_hangBack (p := []) h₃.third.third).mono
  rintro - a₄ ⟨h₄, k₄, r₄, o₄⟩
  apply ((h₄.perm (.swap ..)).yields_attach (by simp)).mono
  rintro - a₅ ⟨h₅, k₅, r₅, o₅⟩
  rw [Path.plug_nil, Tree.join_opposite] at h₅
  refine ⟨⟨h₅, ?_⟩, (((k₁.trans k₂).trans k₃).trans k₄).trans k₅, ?_⟩
  · rw [r₅, r₄, r₃]
    exact Path.root?_plug_congr p (by simp)
  · refine ((((o₁.mono ?_).trans (o₂.mono ?_)).trans (o₃.mono ?_)).trans (o₄.mono ?_)).trans
      (o₅.mono ?_) <;> intro x <;> simp <;> tauto

/-- All of these are in the tree. -/
theorem turned_subset_ids (p : Path κ ν) (s : Side) (t u v : Tree κ ν) (k k' : Color)
    (n m : Cell κ ν) : n.id :: m.id :: (u.root?.toList ++ p.above?.toList) ⊆
      (p.plug (.join s t k n (.join s u k' m v))).ids := by
  intro i hi
  have below : i ∈ u.root? → i ∈ u.ids := Tree.root?_mem_ids
  have above : i ∈ p.above? → i ∈ p.ids := Path.above?_mem_ids
  rw [(p.ids_plug_perm _).mem_iff, List.mem_append, (Tree.ids_join_perm ..).mem_iff,
    List.mem_cons, List.mem_append, (Tree.ids_join_perm ..).mem_iff]
  simp only [List.mem_cons, List.mem_append, Option.mem_toList] at hi ⊢
  grind

theorem yields_handOver {t u v : Tree κ ν} {k k' : Color} {c d : Cell κ ν}
    (h : a.Grove (p.plug (.join s t k c u) :: .join s .nil k' d v :: ts)) :
    Yields (handOver s c.id d.id) a fun _ a' =>
      a'.Grove (p.plug (.join s .nil k c u) :: .join s t k' d v :: ts) ∧ Keeps a a' ∧
        a'.root = a.root ∧ AgreeOff a a' (c.id :: d.id :: t.root?.toList) := by
  rw [handOver_eq, yields_bind]
  apply h.yields_detach.mono
  rintro - a₁ ⟨rfl, h₁, k₁, r₁, o₁⟩
  apply (yields_hangBack (p := []) (h₁.third.perm ((List.Perm.swap ..).cons _))).mono
  rintro - a₂ ⟨h₂, k₂, r₂, o₂⟩
  refine ⟨h₂.perm (.swap ..), k₁.trans k₂, r₂.trans r₁, (o₁.mono ?_).trans (o₂.mono ?_)⟩ <;>
    intro x <;> simp <;> tauto

/-- A node without links takes the place of another one, which is left without links. -/
theorem yields_transplant {l r : Tree κ ν} {k k' : Color} {c d : Cell κ ν}
    (h : a.Grove (p.plug (.node l k c r) :: leaf k' d :: ts))
    (hr : a.root = (p.plug (.node l k c r)).root?) : Yields (transplant c.id d.id) a fun _ a' =>
      a'.Grove (p.plug (.node l k' d r) :: leaf k c :: ts) ∧ Keeps a a' ∧
        a'.root = (p.plug (.node l k' d r)).root? ∧
        AgreeOff a a' (d.id :: (p.plug (.node l k c r)).ids) := by
  obtain ⟨hd, -, -⟩ := h.tail_hangs _ (List.mem_cons_self ..)
  unfold transplant
  rw [yields_bind, yields_inspect (isUnlinked_of_get? hd)]
  simp only [Node.isUnlinked, Cell.node, Tree.root?_nil, Option.isNone_none, Bool.and_self, if_true]
  rw [yields_bind]
  apply (yields_handOver (s := .left) (v := .nil) h).mono
  rintro - a₁ ⟨h₁, k₁, r₁, o₁⟩
  rw [yields_bind]
  apply (yields_handOver (s := .right) (u := .nil) (v := l) h₁).mono
  rintro - a₂ ⟨h₂, k₂, r₂, o₂⟩
  refine (Grove.yields_redirect (t := leaf k c) (w := .node l k' d r) h₂ rfl ?_).mono ?_
  · rw [r₂, r₁, hr]
    exact Path.root?_plug_congr p rfl
  · rintro - a₃ ⟨h₃, k₃, r₃, o₃⟩
    have member (m : NodeId) : m ∈ (p.plug (.node l k c r)).ids ↔
        m ∈ p.ids ∨ m ∈ l.ids ∨ m = c.id ∨ m ∈ r.ids := by
      rw [(p.ids_plug_perm _).mem_iff]
      simp
    have here := (member c.id).mpr (.inr (.inr (.inl rfl)))
    have below : ∀ t : Tree κ ν, t = l ∨ t = r →
        ∀ m ∈ t.root?, m ∈ (p.plug (.node l k c r)).ids := by
      rintro t (rfl | rfl) m hm
      · exact (member m).mpr (.inr (.inl (Tree.root?_mem_ids hm)))
      · exact (member m).mpr (.inr (.inr (.inr (Tree.root?_mem_ids hm))))
    have above : ∀ m ∈ p.above?, m ∈ (p.plug (.node l k c r)).ids :=
      fun m hm => (member m).mpr (.inl (Path.above?_mem_ids hm))
    refine ⟨h₃, (k₁.trans k₂).trans k₃, r₃,
      ((o₁.mono ?_).trans (o₂.mono ?_)).trans (o₃.mono ?_)⟩ <;> intro m hm <;>
      simp only [Tree.root?_node, List.mem_cons, List.mem_append, Option.mem_toList] at hm ⊢ <;>
      grind

theorem Plants.yields_transplant {t : Tree κ ν} {x y : Label κ ν}
    (h : a.Plants t (leaf y.1 y.2 :: ts)) (hx : x ∈ t.labels) :
    Yields (transplant x.2.id y.2.id) a fun _ a' =>
      a'.Plants (t.relabel (Label.replace x.2.id y)) (leaf x.1 x.2 :: ts) ∧ Keeps a a' ∧
        AgreeOff a a' (y.2.id :: t.ids) := by
  obtain ⟨p, l, r, rfl⟩ := Path.exists_plug_label h.nodup hx
  apply (Arena.yields_transplant h.grove h.root).mono
  rintro - a' ⟨h', hk, hr, off⟩
  rw [Path.relabel_replace h.nodup]
  exact ⟨⟨h', hr⟩, hk, off⟩

/-- Two nodes of a tree trade places. Each takes its colour along. -/
theorem Plants.yields_exchange {t : Tree κ ν} {x y : Label κ ν} (h : a.Plants t ts)
    (hq : a.Queues) (hx : x ∈ t.labels) (hy : y ∈ t.labels) (hne : x.2.id ≠ y.2.id)
    (stamp : Nat) : Yields (exchange x.2.id y.2.id stamp) a fun _ a' =>
      a'.Plants (t.relabel (Label.trade x y)) ts ∧ a'.Queues ∧ AgreeOff a a' t.ids ∧
        a'.free = a.nextId.index :: a.free.tail ∧ a'.slots.size = a.nextSize := by
  let w : Label κ ν := (.black, ⟨a.nextId, stamp, none⟩)
  have fresh : ∀ z ∈ t.labels, w.2.id ≠ z.2.id := by
    intro z hz e
    have hm := Tree.mem_ids_of_label hz
    rw [← e] at hm
    exact h.grove.nextId_notMem hq (List.mem_append_left _ hm)
  unfold exchange
  rw [yields_bind]
  apply (h.grove.yields_allocate hq none .black stamp).mono
  rintro - a₁ ⟨rfl, g₁, q₁, o₁, r₁, f₁, s₁⟩
  have h₁ : a₁.Plants t (leaf w.1 w.2 :: ts) := ⟨g₁.perm (.swap ..), r₁.trans h.root⟩
  rw [yields_bind]
  apply (h₁.yields_transplant hx).mono
  rintro - a₂ ⟨h₂, k₂, o₂⟩
  have hy₂ : y ∈ (t.relabel (Label.replace x.2.id w)).labels := by
    rw [Tree.labels_relabel]
    exact List.mem_map.mpr ⟨y, hy, Label.replace_of_ne hne.symm w⟩
  have hw₂ : w ∈ (t.relabel (Label.replace x.2.id w)).labels := by
    rw [Tree.labels_relabel]
    exact List.mem_map.mpr ⟨x, hx, Label.replace_self x w⟩
  rw [yields_bind]
  apply (h₂.yields_transplant hy₂).mono
  rintro - a₃ ⟨h₃, k₃, o₃⟩
  have hw₃ : w ∈ ((t.relabel (Label.replace x.2.id w)).relabel (Label.replace y.2.id x)).labels := by
    rw [Tree.labels_relabel]
    exact List.mem_map.mpr ⟨w, hw₂, Label.replace_of_ne (fresh y hy) x⟩
  rw [yields_bind]
  apply (h₃.yields_transplant hw₃).mono
  rintro - a₄ ⟨h₄, k₄, o₄⟩
  have traded : ((t.relabel (Label.replace x.2.id w)).relabel (Label.replace y.2.id x)).relabel
      (Label.replace w.2.id y) = t.relabel (Label.trade x y) := by
    rw [Tree.relabel_relabel, Tree.relabel_relabel]
    exact Tree.relabel_congr fun z hz =>
      Label.replace_replace_replace (fresh x hx) (fresh y hy) (fresh z hz)
  rw [traded] at h₄
  rw [yields_bind]
  have hk := (k₂.trans k₃).trans k₄
  apply ((h₄.grove.perm (.swap ..)).yields_vacate (q₁.of_keeps hk)).mono
  rintro - a₅ ⟨-, h₅, q₅, gone, o₅, r₅, f₅, s₅⟩
  refine yields_pure.mpr ⟨⟨h₅, r₅.trans h₄.root⟩, q₅, fun n hn => ?_, by rw [f₅, hk.free, f₁],
    by rw [s₅, hk.size, s₁]⟩
  -- Of the other slots only that of the placeholder was touched, and it is vacant again.
  by_cases e : n = a.nextId
  · rw [e, hq.get?_nextId]
    exact gone
  · have mem₂ : n ∉ (t.relabel (Label.replace x.2.id w)).ids := fun hm =>
      (Tree.mem_ids_relabel_replace hm).elim e hn
    have mem₃ : n ∉ ((t.relabel (Label.replace x.2.id w)).relabel
        (Label.replace y.2.id x)).ids := fun hm =>
      (Tree.mem_ids_relabel_replace hm).elim (fun e => hn (e ▸ Tree.mem_ids_of_label hx)) mem₂
    have hx' : n ≠ x.2.id := fun e => hn (e ▸ Tree.mem_ids_of_label hx)
    have hy' : n ≠ y.2.id := fun e => hn (e ▸ Tree.mem_ids_of_label hy)
    rw [o₅ n (by simpa using e), o₄ n (by simp [mem₃, hy']), o₃ n (by simp [mem₂, hx']),
      o₂ n (by simp [hn, w, e]), o₁ n (by simpa using e)]

/-- A node trades places with one below its left side. -/
theorem yields_exchange {q : Path κ ν} {u v r : Tree κ ν} {k k' : Color} {c d : Cell κ ν}
    (stamp : Nat) (h : a.Bears (p.plug (.node (q.plug (.node u k' d v)) k c r)) ts) :
    Yields (exchange c.id d.id stamp) a fun _ a' =>
      a'.Bears (p.plug (.node (q.plug (.node u k c v)) k' d r)) ts ∧
        a'.free = a.nextId.index :: a.free.tail ∧
        a'.slots.size = a.nextSize := by
  have below : (k', d) ∈ (q.plug (.node u k' d v)).labels :=
    q.label_mem_plug (by simp [Tree.labels])
  have hx : (k, c) ∈ (p.plug (.node (q.plug (.node u k' d v)) k c r)).labels :=
    p.label_mem_plug (by simp [Tree.labels])
  have hy : (k', d) ∈ (p.plug (.node (q.plug (.node u k' d v)) k c r)).labels :=
    p.label_mem_plug (List.mem_append_left _ below)
  have hne : c.id ≠ d.id := by
    have hnd := h.nodup
    have := Tree.mem_ids_of_label below
    rw [(p.ids_plug_perm _).nodup_iff, Tree.ids_node] at hnd
    simp only [List.nodup_append, List.nodup_cons, List.mem_append, List.mem_cons] at hnd
    grind
  have traded := Path.relabel_trade (x := (k, c)) (y := (k', d)) h.nodup
  have ids (n : NodeId) := Tree.mem_ids_relabel_trade (n := n) hx hy
  rw [traded] at ids
  apply (h.plants.yields_exchange h.forest.queues hx hy hne stamp).mono
  rintro - a' ⟨h', hq, off, hrest⟩
  rw [traded] at h'
  exact ⟨h.replant h' hq off fun n hn => (ids n).mpr hn, hrest⟩

/-- A node trades colours with one that it hangs below on the left side. -/
theorem Plants.yields_exchangeColors {q : Path κ ν} {u v r : Tree κ ν} {k k' : Color}
    {c d : Cell κ ν} (h : a.Plants (p.plug (.node (q.plug (.node u k c v)) k' d r)) ts) :
    Yields (exchangeColors c.id d.id) a fun _ a' =>
      a'.Plants (p.plug (.node (q.plug (.node u k' c v)) k d r)) ts ∧ Keeps a a' := by
  have split : ∀ (k : Color) (t : Tree κ ν),
      p.plug (.node (q.plug t) k d r) = Path.plug (q ++ ⟨.left, k, d, r⟩ :: p) t :=
    fun k t => by rw [Path.plug_append]; rfl
  have hd := h.color rfl
  rw [split] at h
  have hc := h.color rfl
  unfold exchangeColors
  rw [yields_bind, yields_inspect hc, yields_bind, yields_inspect hd, yields_bind]
  apply (h.yields_paint rfl _).mono
  rintro - a₁ ⟨h₁, k₁, -⟩
  rw [← split] at h₁
  apply (h₁.yields_paint rfl _).mono
  rintro - a₂ ⟨h₂, k₂, -⟩
  exact ⟨h₂, k₁.trans k₂⟩

end Arena
end OrderedMap
