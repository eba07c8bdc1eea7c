import OrderedMap.Proofs.Yields
import OrderedMap.Proofs.Tree.Basic

/-!
Trees in an arena. A tree hangs in an arena if every node has exactly the links that the tree gives
it; a path encloses a hole if the same is true above the hole. Trees that share no slot form a grove.
During an edit the occupied slots form a forest, of which one tree may hang from the root.
-/
namespace OrderedMap

theorem NodeId.index_injective : Function.Injective NodeId.index :=
  fun m n e => by cases m; cases n; cases e; rfl

namespace Cell

variable {κ ν : Type}

/-- The node of a cell, with the child on the given side first. -/
def node (c : Cell κ ν) (parent : Option NodeId) (k : Color) (s : Side)
    (near far : Option NodeId) : Node κ ν :=
  match s with
  | .left => ⟨parent, near, far, k, c.stamp, c.entry⟩
  | .right => ⟨parent, far, near, k, c.stamp, c.entry⟩

section Node

variable (c : Cell κ ν) (p : Option NodeId) (k : Color) (s : Side) (near far : Option NodeId)

@[simp] theorem parent_node : (c.node p k s near far).parent = p := by cases s <;> rfl

@[simp] theorem color_node : (c.node p k s near far).color = k := by cases s <;> rfl

@[simp] theorem stamp_node : (c.node p k s near far).stamp = c.stamp := by cases s <;> rfl

@[simp] theorem entry_node : (c.node p k s near far).entry = c.entry := by cases s <;> rfl

@[simp] theorem child_node : (c.node p k s near far).child s = near := by cases s <;> rfl

@[simp] theorem child_opposite_node : (c.node p k s near far).child s.opposite = far := by
  cases s <;> rfl

@[simp] theorem withChild_node (n : Option NodeId) :
    (c.node p k s near far).withChild s n = c.node p k s n far := by cases s <;> rfl

@[simp] theorem withChild_opposite_node (n : Option NodeId) :
    (c.node p k s near far).withChild s.opposite n = c.node p k s near n := by cases s <;> rfl

@[simp] theorem withParent_node (q : Option NodeId) :
    (c.node p k s near far).withParent q = c.node q k s near far := by cases s <;> rfl

@[simp] theorem withColor_node (k' : Color) :
    (c.node p k s near far).withColor k' = c.node p k' s near far := by cases s <;> rfl

@[simp] theorem withEntry_node (e : Option (Entry κ ν)) :
    (c.node p k s near far).withEntry e = { c with entry := e }.node p k s near far := by
  cases s <;> rfl

end Node
end Cell

namespace Arena

variable {κ ν : Type} {a a' : Arena κ ν}

/-- The arena holds the nodes of a tree whose root has the given parent. -/
def Hangs (a : Arena κ ν) : Option NodeId → Tree κ ν → Prop
  | _, .nil => True
  | p, .node l k c r =>
    a.get? c.id = some (c.node p k .left l.root? r.root?) ∧
      a.Hangs (some c.id) l ∧ a.Hangs (some c.id) r

/-- The arena holds the nodes of a path, at whose end the given node hangs. -/
def Encloses (a : Arena κ ν) : Path κ ν → Option NodeId → Prop
  | [], _ => True
  | f :: up, h =>
    a.get? f.cell.id = some (f.cell.node (Path.above? up) f.color f.side h f.other.root?) ∧
      a.Hangs (some f.cell.id) f.other ∧ a.Encloses up (some f.cell.id)

@[simp] theorem hangs_nil (p : Option NodeId) : a.Hangs p .nil := trivial

theorem hangs_join {p : Option NodeId} {s : Side} {t : Tree κ ν} {k : Color} {c : Cell κ ν}
    {u : Tree κ ν} : a.Hangs p (.join s t k c u) ↔
      a.get? c.id = some (c.node p k s t.root? u.root?) ∧
        a.Hangs (some c.id) t ∧ a.Hangs (some c.id) u := by
  cases s with
  | left => exact .rfl
  | right => exact and_congr .rfl and_comm

theorem hangs_plug {p : Path κ ν} {t : Tree κ ν} :
    a.Hangs none (p.plug t) ↔ a.Encloses p t.root? ∧ a.Hangs p.above? t := by
  induction p generalizing t with
  | nil => exact (and_iff_right trivial).symm
  | cons f up ih =>
    rw [Path.plug_cons, ih, hangs_join, Tree.root?_join, Encloses, Path.above?_cons]
    tauto

namespace Hangs

variable {p : Path κ ν} {t u : Tree κ ν} {n : NodeId}

theorem get?_join {s : Side} {k : Color} {c : Cell κ ν}
    (h : a.Hangs none (p.plug (.join s t k c u))) :
    a.get? c.id = some (c.node p.above? k s t.root? u.root?) :=
  (hangs_join.mp (hangs_plug.mp h).2).1

/-- The links of a node can be read off the tree and the path to the node. -/
theorem get? (h : a.Hangs none (p.plug t)) (hn : t.root? = some n) :
    ∃ x, a.get? n = some x ∧ x.parent = p.above? ∧ x.color = t.color ∧
      ∀ s, x.child s = (t.child s).root? := by
  cases t with
  | nil => cases hn
  | node l k c r =>
    cases hn
    refine ⟨_, h.get?_join (s := .left), Cell.parent_node .., Cell.color_node .., ?_⟩
    intro s
    cases s <;> rfl

theorem parent (h : a.Hangs none (p.plug t)) (hn : t.root? = some n) :
    a.parent n = .ok p.above? := by
  obtain ⟨x, hx, hp, -, -⟩ := h.get? hn
  rw [parent_of_get? hx, hp]

theorem color (h : a.Hangs none (p.plug t)) (hn : t.root? = some n) : a.color n = .ok t.color := by
  obtain ⟨x, hx, -, hc, -⟩ := h.get? hn
  rw [color_of_get? hx, hc]

theorem child (h : a.Hangs none (p.plug t)) (hn : t.root? = some n) (s : Side) :
    a.child s n = .ok (t.child s).root? := by
  obtain ⟨x, hx, -, -, hs⟩ := h.get? hn
  rw [child_of_get? s hx, hs]

/-- Of the two links of a parent exactly one names the node, unless both name the same. -/
theorem child_above {f : Frame κ ν} {up : Path κ ν} (h : a.Hangs none (Path.plug (f :: up) t))
    (hn : t.root? = some n) (hne : f.other.root? ≠ some n) (s : Side) :
    ∃ r, a.child s f.cell.id = .ok r ∧ (r = some n ↔ f.side = s) := by
  have hf : (Tree.join f.side t f.color f.cell f.other).root? = some f.cell.id :=
    Tree.root?_join ..
  refine ⟨_, Hangs.child (p := up) h hf s, ?_⟩
  rcases Side.eq_or_eq_opposite f.side s with rfl | rfl
  · simp [hn]
  · simp [hne, (Side.opposite_ne f.side).symm]

end Hangs

theorem Hangs.congr {p : Option NodeId} {t : Tree κ ν} (h : a.Hangs p t)
    (same : ∀ n ∈ t.ids, a'.get? n = a.get? n) : a'.Hangs p t := by
  induction t generalizing p with
  | nil => trivial
  | node l k c r ihl ihr =>
    obtain ⟨hc, hl, hr⟩ := h
    simp only [Tree.ids_node, List.mem_append, List.mem_cons] at same
    exact ⟨(same _ (.inr (.inl rfl))).trans hc, ihl hl fun n hn => same n (.inl hn),
      ihr hr fun n hn => same n (.inr (.inr hn))⟩

theorem Encloses.congr {p : Path κ ν} {h : Option NodeId} (he : a.Encloses p h)
    (same : ∀ n ∈ p.ids, a'.get? n = a.get? n) : a'.Encloses p h := by
  induction p generalizing h with
  | nil => trivial
  | cons f up ih =>
    obtain ⟨hc, ho, hu⟩ := he
    simp only [Path.ids_cons, List.mem_cons, List.mem_append] at same
    exact ⟨(same _ (.inl rfl)).trans hc, ho.congr fun n hn => same n (.inr (.inl hn)),
      ih hu fun n hn => same n (.inr (.inr hn))⟩

/-- Two arenas that hold a tree hold the same nodes for it. -/
theorem Hangs.get?_eq {p : Option NodeId} {t : Tree κ ν} (h : a.Hangs p t) (h' : a'.Hangs p t)
    {n : NodeId} (hn : n ∈ t.ids) : a'.get? n = a.get? n := by
  induction t generalizing p with
  | nil => simp at hn
  | node l k c r ihl ihr =>
    obtain ⟨hc, hl, hr⟩ := h
    obtain ⟨hc', hl', hr'⟩ := h'
    rw [Tree.ids_node, List.mem_append, List.mem_cons] at hn
    rcases hn with hn | rfl | hn
    · exact ihl hl hl' hn
    · rw [hc, hc']
    · exact ihr hr hr' hn

theorem Hangs.get?_of_mem {p : Option NodeId} {t : Tree κ ν} (h : a.Hangs p t) {c : Cell κ ν}
    (hc : c ∈ t.cells) : ∃ x, a.get? c.id = some x ∧ x.stamp = c.stamp ∧ x.entry = c.entry := by
  induction t generalizing p with
  | nil => cases hc
  | node l k d r ihl ihr =>
    obtain ⟨hd, hl, hr⟩ := h
    rcases List.mem_append.mp hc with hc | hc
    · exact ihl hl hc
    rcases List.mem_cons.mp hc with rfl | hc
    · exact ⟨_, hd, rfl, rfl⟩
    · exact ihr hr hc

theorem Hangs.occupied {p : Option NodeId} {t : Tree κ ν} (h : a.Hangs p t) :
    ∀ n ∈ t.ids, (a.get? n).isSome := by
  intro n hn
  obtain ⟨c, hc, rfl⟩ := List.mem_map.mp hn
  obtain ⟨x, hx, -⟩ := h.get?_of_mem hc
  rw [hx]
  rfl

theorem get?_eq_none_of_size_le {n : NodeId} (h : a.slots.size ≤ n.index) : a.get? n = none := by
  simp [get?, Array.getElem?_eq_none h]

theorem lt_size_of_get? {n : NodeId} {x : Node κ ν} (h : a.get? n = some x) :
    n.index < a.slots.size := by
  by_contra hn
  rw [get?_eq_none_of_size_le (by omega)] at h
  cases h

/-- An arena is told by its nodes, its size, its free slots and its root. -/
theorem ext_get? (nodes : ∀ n, a'.get? n = a.get? n) (size : a'.slots.size = a.slots.size)
    (free : a'.free = a.free) (root : a'.root = a.root) : a' = a := by
  have slots : a'.slots = a.slots := by
    refine Array.ext size fun i hi hi' => ?_
    simpa [get?, hi, hi'] using nodes ⟨i⟩
  cases a'
  cases a
  cases slots
  cases free
  cases root
  rfl

theorem put_get? {n : NodeId} {x : Node κ ν} (h : a.get? n = some x) :
    a.put n (some x) = a := by
  have hn := node_eq_ok_iff.mp (get?_eq_some_iff.mp h)
  have hs : a.slots.setIfInBounds n.index (some x) = a.slots := by
    refine Array.ext_getElem? fun i => ?_
    by_cases hi : n.index = i
    · subst hi
      rw [hn, Array.getElem?_setIfInBounds_self_of_lt (lt_size_of_get? h)]
    · rw [Array.getElem?_setIfInBounds_ne hi]
  rw [put, hs]

/-- An edit of nodes that are there: the same slots are occupied and the same are vacant. -/
structure Keeps (a a' : Arena κ ν) : Prop where
  size : a'.slots.size = a.slots.size
  free : a'.free = a.free
  occupied : ∀ n, (a'.get? n).isSome = (a.get? n).isSome

namespace Keeps

theorem refl (a : Arena κ ν) : Keeps a a := ⟨rfl, rfl, fun _ => rfl⟩

theorem trans {b : Arena κ ν} (h : Keeps a a') (h' : Keeps a' b) : Keeps a b :=
  ⟨h'.size.trans h.size, h'.free.trans h.free, fun n => (h'.occupied n).trans (h.occupied n)⟩

theorem put {n : NodeId} {x : Node κ ν} (y : Node κ ν) (h : a.get? n = some x) :
    Keeps a (a.put n (some y)) := by
  refine ⟨size_put _ _ _, rfl, fun m => ?_⟩
  by_cases hm : m = n
  · rw [hm, get?_put_self _ (lt_size_of_get? h), h]
    rfl
  · rw [get?_put_of_ne _ hm]

theorem setRoot (n : Option NodeId) : Keeps a { a with root := n } := ⟨rfl, rfl, fun _ => rfl⟩

end Keeps

/-- The vacant slots wait on the stack, each once. -/
structure Queues (a : Arena κ ν) : Prop where
  nodup : a.free.Nodup
  mem_iff : ∀ i, i ∈ a.free ↔ i < a.slots.size ∧ a.get? ⟨i⟩ = none

theorem Queues.of_keeps (h : a.Queues) (hk : Keeps a a') : a'.Queues where
  nodup := by rw [hk.free]; exact h.nodup
  mem_iff i := by
    rw [hk.free, hk.size, h.mem_iff, ← Option.not_isSome_iff_eq_none, ← hk.occupied,
      Option.not_isSome_iff_eq_none]

/-- The trees have no parent, and no slot belongs to two of them. Of all other slots nothing is
said. -/
structure Grove (a : Arena κ ν) (ts : List (Tree κ ν)) : Prop where
  hangs : ∀ t ∈ ts, a.Hangs none t
  distinct : (ts.flatMap Tree.ids).Nodup

namespace Grove

variable {ts us : List (Tree κ ν)} {t : Tree κ ν}

theorem perm (h : a.Grove ts) (hp : ts.Perm us) : a.Grove us where
  hangs t ht := h.hangs t (hp.mem_iff.mpr ht)
  distinct := (hp.flatMap_right _).nodup_iff.mp h.distinct

theorem head_hangs (h : a.Grove (t :: ts)) : a.Hangs none t :=
  h.hangs t (List.mem_cons_self ..)

theorem tail_hangs (h : a.Grove (t :: ts)) : ∀ w ∈ ts, a.Hangs none w :=
  fun w hw => h.hangs w (List.mem_cons_of_mem _ hw)

theorem head_nodup (h : a.Grove (t :: ts)) : t.ids.Nodup :=
  (List.nodup_append.mp (List.flatMap_cons ▸ h.distinct)).1

theorem tail (h : a.Grove (t :: ts)) : a.Grove ts where
  hangs := h.tail_hangs
  distinct := (List.nodup_append.mp (List.flatMap_cons ▸ h.distinct)).2.1

theorem get?_of_mem (h : a.Grove ts) {n : NodeId} (hn : n ∈ ts.flatMap Tree.ids) :
    (a.get? n).isSome := by
  obtain ⟨t, ht, hn⟩ := List.mem_flatMap.mp hn
  exact (h.hangs t ht).occupied n hn

theorem nil_cons (h : a.Grove ts) : a.Grove (.nil :: ts) where
  hangs t ht := by
    rcases List.mem_cons.mp ht with rfl | ht
    · exact hangs_nil none
    · exact h.hangs t ht
  distinct := by simpa using h.distinct

end Grove

/-- The occupied slots hold trees without parent, no slot belongs to two of them, and the vacant
slots wait on the stack, each once. -/
structure Forest (a : Arena κ ν) (ts : List (Tree κ ν)) : Prop where
  hangs : ∀ t ∈ ts, a.Hangs none t
  distinct : (ts.flatMap Tree.ids).Nodup
  occupied : ∀ n, (a.get? n).isSome → n ∈ ts.flatMap Tree.ids
  free_nodup : a.free.Nodup
  mem_free : ∀ i, i ∈ a.free ↔ i < a.slots.size ∧ a.get? ⟨i⟩ = none

namespace Forest

variable {ts us : List (Tree κ ν)}

theorem grove (h : a.Forest ts) : a.Grove ts := ⟨h.hangs, h.distinct⟩

theorem queues (h : a.Forest ts) : a.Queues := ⟨h.free_nodup, h.mem_free⟩

theorem perm (h : a.Forest ts) (hp : ts.Perm us) : a.Forest us where
  hangs t ht := h.hangs t (hp.mem_iff.mpr ht)
  distinct := (hp.flatMap_right _).nodup_iff.mp h.distinct
  occupied n hn := (hp.flatMap_right _).mem_iff.mp (h.occupied n hn)
  free_nodup := h.free_nodup
  mem_free := h.mem_free

/-- After an edit of nodes that are there only the links of the trees have to be looked at. -/
theorem rebuild (h : a.Forest ts) (hk : Keeps a a') (hang : ∀ t ∈ us, a'.Hangs none t)
    (hp : (us.flatMap Tree.ids).Perm (ts.flatMap Tree.ids)) : a'.Forest us where
  hangs := hang
  distinct := hp.nodup_iff.mpr h.distinct
  occupied n hn := hp.mem_iff.mpr (h.occupied n (by rwa [← hk.occupied]))
  free_nodup := (h.queues.of_keeps hk).nodup
  mem_free := (h.queues.of_keeps hk).mem_iff

theorem head_hangs {t : Tree κ ν} (h : a.Forest (t :: ts)) : a.Hangs none t := h.grove.head_hangs

theorem tail_hangs {t : Tree κ ν} (h : a.Forest (t :: ts)) : ∀ w ∈ ts, a.Hangs none w :=
  h.grove.tail_hangs

theorem head_nodup {t : Tree κ ν} (h : a.Forest (t :: ts)) : t.ids.Nodup := h.grove.head_nodup

theorem nil_cons : a.Forest (.nil :: ts) ↔ a.Forest ts := by
  constructor
  · intro h
    exact h.rebuild (.refl a) (fun t ht => h.hangs t (by simp [ht])) (by simp)
  · intro h
    exact h.rebuild (.refl a) h.grove.nil_cons.hangs (by simp)

theorem with_root (h : a.Forest ts) (n : Option NodeId) : Forest { a with root := n } ts :=
  h.rebuild (.setRoot n) (fun t ht => (h.hangs t ht).congr fun _ _ => rfl) (.refl _)

theorem get?_of_mem (h : a.Forest ts) {n : NodeId} (hn : n ∈ ts.flatMap Tree.ids) :
    (a.get? n).isSome := h.grove.get?_of_mem hn

theorem get?_of_notMem (h : a.Forest ts) {n : NodeId} (hn : n ∉ ts.flatMap Tree.ids) :
    a.get? n = none :=
  Option.not_isSome_iff_eq_none.mp fun hs => hn (h.occupied n hs)

/-- Every slot belongs to a tree or waits on the stack, and not both. -/
theorem slots_perm (h : a.Forest ts) :
    ((ts.flatMap Tree.ids).map NodeId.index ++ a.free).Perm (List.range a.slots.size) := by
  have disjoint : ((ts.flatMap Tree.ids).map NodeId.index).Disjoint a.free := by
    intro i hi hf
    obtain ⟨n, hn, rfl⟩ := List.mem_map.mp hi
    have hs := h.get?_of_mem hn
    rw [((h.mem_free _).mp hf).2] at hs
    cases hs
  refine (List.perm_ext_iff_of_nodup ?_ List.nodup_range).mpr fun i => ?_
  · exact List.Nodup.append (h.distinct.map NodeId.index_injective) h.free_nodup disjoint
  rw [List.mem_append, List.mem_range]
  constructor
  · rintro (hi | hi)
    · obtain ⟨n, hn, rfl⟩ := List.mem_map.mp hi
      obtain ⟨x, hx⟩ := Option.isSome_iff_exists.mp (h.get?_of_mem hn)
      exact lt_size_of_get? hx
    · exact ((h.mem_free i).mp hi).1
  · intro hi
    cases hx : a.get? ⟨i⟩ with
    | none => exact .inr ((h.mem_free i).mpr ⟨hi, hx⟩)
    | some x => exact .inl (List.mem_map.mpr ⟨⟨i⟩, h.occupied _ (by rw [hx]; rfl), rfl⟩)

theorem size_slots (h : a.Forest ts) :
    a.slots.size = (ts.flatMap Tree.ids).length + a.free.length := by
  simpa using h.slots_perm.length_eq.symm

end Forest
end Arena
end OrderedMap
