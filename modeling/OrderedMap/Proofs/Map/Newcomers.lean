import OrderedMap.Proofs.Map.Tandem

/-!
New nodes of two maps side by side. Their slots and stamps need not correspond in the guise so far,
which is extended to them; what was known before keeps its look. Of the stamps it is only their
order that counts: both clocks draw them in the same order.
-/
namespace OrderedMap

namespace Guise

variable {g g₁ g₂ : Guise} {S S₁ S₂ : Set Nat} {ns ns₁ : List NodeId}
  {clock clock' clock₁ clock₁' : Nat}

/-- The known stamps lie in the past of both clocks, in the same order. -/
structure Orders (g : Guise) (S : Set Nat) (clock clock' : Nat) : Prop where
  past : ∀ s ∈ S, s < clock
  past_right : ∀ s ∈ S, g.stamp s < clock'
  mono : StrictMonoOn g.stamp S

theorem Orders.later (h : g.Orders S clock clock') (hc : clock ≤ clock₁)
    (hc' : clock' ≤ clock₁') : g.Orders S clock₁ clock₁' :=
  ⟨fun s hs => (h.past s hs).trans_le hc, fun s hs => (h.past_right s hs).trans_le hc', h.mono⟩

/-- The stamps that the clocks show are drawn. -/
theorem Orders.draw {n n' : NodeId} (h : g.Orders S clock clock') :
    (g.extend n n' clock clock').Orders (insert clock S) (clock + 1) (clock' + 1) := by
  have new : (g.extend n n' clock clock').stamp clock = clock' := stamp_extend ..
  have old {s : Nat} (hs : s ∈ S) : (g.extend n n' clock clock').stamp s = g.stamp s :=
    Function.update_of_ne (h.past s hs).ne ..
  refine ⟨?_, ?_, ?_⟩
  · rintro s (rfl | hs)
    · exact Nat.lt_succ_self _
    · exact Nat.lt_succ_of_lt (h.past s hs)
  · rintro s (rfl | hs)
    · rw [new]
      exact Nat.lt_succ_self _
    · rw [old hs]
      exact Nat.lt_succ_of_lt (h.past_right s hs)
  · rintro a (rfl | ha) b (rfl | hb) hlt
    · exact absurd hlt (Nat.lt_irrefl _)
    · exact absurd hlt (h.past b hb).le.not_gt
    · rw [new, old ha]
      exact h.past_right a ha
    · rw [old ha, old hb]
      exact h.mono ha hb hlt

/-- A guise has been extended to nodes and stamps that are new. -/
structure Grows (g : Guise) (ns : List NodeId) (S : Set Nat) (clock clock' : Nat) (g₁ : Guise)
    (S₁ : Set Nat) : Prop extends Agrees g g₁ ns S where
  subset : S ⊆ S₁
  fresh : ∀ s ∈ S₁, s ∈ S ∨ clock ≤ s ∧ clock' ≤ g₁.stamp s

theorem Grows.refl (g : Guise) (ns : List NodeId) (S : Set Nat) (clock clock' : Nat) :
    g.Grows ns S clock clock' g S :=
  ⟨⟨rfl, rfl, rfl, fun _ h => h, fun _ _ => rfl, fun _ _ => rfl⟩, subset_rfl, fun _ hs => .inl hs⟩

theorem Grows.trans (h : g.Grows ns S clock clock' g₁ S₁)
    (h' : g₁.Grows ns₁ S₁ clock₁ clock₁' g₂ S₂) (hns : ns ⊆ ns₁) (hc : clock ≤ clock₁)
    (hc' : clock' ≤ clock₁') : g.Grows ns S clock clock' g₂ S₂ where
  mirrored := h'.mirrored.trans h.mirrored
  level := h'.level.trans h.level
  map := h'.map.trans h.map
  flat hl hg := h'.flat (h.level.trans hl) (h.flat hl hg)
  node n hn := (h'.node n (hns hn)).trans (h.node n hn)
  stamp s hs := (h'.stamp (h.subset hs)).trans (h.stamp hs)
  subset := h.subset.trans h'.subset
  fresh s hs := by
    rcases h'.fresh s hs with hs | ⟨hlow, hlow'⟩
    · rcases h.fresh s hs with hs₀ | ⟨hlow, hlow'⟩
      · exact .inl hs₀
      · exact .inr ⟨hlow, by rwa [h'.stamp hs]⟩
    · exact .inr ⟨hc.trans hlow, hc'.trans hlow'⟩

end Guise

/-- The records of a journal name none but the given nodes. -/
def Journal.Names {κ ν : Type} (j : Journal κ ν) (ns : List NodeId) : Prop :=
  ∀ r ∈ j.records, ∀ n ∈ r.nodes, n ∈ ns

theorem Path.settle_names {κ ν : Type} (p : Path κ ν) (t : Tree κ ν) :
    ∀ r ∈ (settle p t).records, ∀ n ∈ r.nodes, n ∈ p.ids := by
  fun_induction settle p t with
  | case1 t => simp
  | case2 f t hf => simp
  | case3 f t hf => simp
  | case4 f h up t hf hh ih =>
    intro r hr n hn
    rcases List.mem_cons.mp hr with rfl | hr
    · obtain rfl := List.mem_singleton.mp hn
      simp
    · have := ih r hr n hn
      simp [this]
  | case5 f h up t hf hh =>
    intro r hr n hn
    dsimp only at hr
    unfold straightenRecords at hr
    split at hr <;> simp only [List.mem_cons, List.not_mem_nil, or_false] at hr
    · subst hr
      obtain rfl := List.mem_singleton.mp hn
      simp
    · rcases hr with rfl | rfl <;> obtain rfl := List.mem_singleton.mp hn <;> simp
  | case6 f h up t hf => simp

namespace Map

variable {κ ν : Type} {g g₁ : Guise} {S S₁ : Set Nat} {t : Tree κ ν} {xs : List (Item κ ν)}
  {w w' : Workspace κ ν} {p q : Position} {tag : κ}

/-- The nodes of a map in order. -/
def nodes (m : Map κ ν) : List NodeId := m.items.map (·.node)

theorem Holds.nodes_eq {m : Map κ ν} (h : m.Holds t xs) : m.nodes = t.ids := by
  rw [nodes, h.items_eq, h.presents.ids]

theorem Holds.nextId_notMem {m : Map κ ν} (h : m.Holds t xs) : m.arena.nextId ∉ m.nodes := by
  have := h.bears.forest.grove.nextId_notMem h.bears.forest.queues
  rwa [List.flatMap_singleton, ← h.nodes_eq] at this

theorem Twins.nodes_right (h : Twins g t xs w w') : w'.map.nodes.Perm (w.map.nodes.map g.node) := by
  rw [h.holds_right.nodes_eq, h.holds.nodes_eq]
  exact t.ids_recast_perm g

/-- A guise may look otherwise at what neither map knows of. -/
theorem Twins.agree (h : Twins g t xs w w') (ha : g.Agrees g₁ w.map.nodes S)
    (hs : ∀ x ∈ w.map.items, x.stamp ∈ S) (hj : w.journal.Names w.map.nodes) :
    Twins g₁ t xs w w' := by
  have tree : t.recast g₁ = t.recast g := by
    refine Tree.recast_congr ha fun c hc => ?_
    have hid := List.mem_map_of_mem (f := Cell.id) hc
    rw [h.holds.cells] at hc
    obtain ⟨x, hx, rfl⟩ := List.mem_map.mp hc
    exact ⟨h.holds.nodes_eq ▸ hid, hs x (h.holds.items_eq ▸ hx)⟩
  have journal : w.journal.recast g₁ = w.journal.recast g := by
    have records : w.journal.records.map (Record.recast g₁) =
        w.journal.records.map (Record.recast g) :=
      Array.map_congr_left fun r hr => ha.record (hj r hr)
    rw [Journal.recast, records]
    rfl
  have policy : g₁.policy w.map.policy = g.policy w.map.policy := by
    rw [Guise.policy, ha.mirrored]
    rfl
  refine ⟨h.holds, tree ▸ h.bears, ha.map ▸ h.id, policy ▸ h.policy, h.count, journal ▸ h.journal,
    ha.mirrored ▸ h.clock, fun hl => ?_⟩
  rw [ha.level] at hl
  exact ⟨ha.flat hl (h.level hl).1, (h.level hl).2⟩

/-- Two maps are alike, with the stamps of their items among those that are known. -/
structure Peers (g : Guise) (S : Set Nat) (w w' : Workspace κ ν) : Prop where
  alike : Alike g w w'
  orders : g.Orders S w.clock w'.clock
  stamps : ∀ x ∈ w.map.items, x.stamp ∈ S

/-- An insertion names nodes of the tree that it leaves. -/
theorem yields_insert_names (h : w.map.Holds t xs) (hj : w.journal.Names w.map.nodes) (tag : κ)
    (v : ν) : Yields (insert tag v) w fun _ w₁ =>
      w.map.nodes ⊆ w₁.map.nodes ∧ w₁.journal.Names w₁.map.nodes := by
  have hlists := (yields_insert_grows ⟨t, h⟩ tag v).mono fun _ _ hg => hg.lists
  rcases hq : t.seek (w.map.order tag) [] with ⟨q, u⟩
  have hplug := Tree.eq_plug_of_seek hq
  have grown {w₁ : Workspace κ ν} {t₁ : Tree κ ν} {js : List Record}
      (hl : ∃ ys, w₁.map.Lists ys) (hb : w₁.map.arena.Bears t₁) (ht : t.ids ⊆ t₁.ids)
      (hr : w₁.journal.records = w.journal.records ++ js.toArray)
      (hn : ∀ r ∈ js, ∀ n ∈ r.nodes, n ∈ q.ids) :
      w.map.nodes ⊆ w₁.map.nodes ∧ w₁.journal.Names w₁.map.nodes := by
    obtain ⟨ys, hl⟩ := hl
    rw [(Holds.of_bears hl hb).nodes_eq, h.nodes_eq]
    refine ⟨ht, fun r hmem n hrn => ht ?_⟩
    rw [hr, Array.mem_append] at hmem
    rcases hmem with hmem | hmem
    · exact h.nodes_eq ▸ hj r hmem n hrn
    · rw [hplug, (Path.ids_plug_perm q u).mem_iff]
      exact List.mem_append_left _ (hn r (List.mem_toArray.mp hmem) n hrn)
  cases u with
  | nil =>
    refine ((yields_insert_hung (v := v) h.bears h.filled hq).and hlists).mono ?_
    rintro - w₁ ⟨⟨-, hw⟩, hl⟩
    generalize Arena.leaf .red _ = leaf at hw
    refine grown hl hw.bears ?_ ?_ (Path.settle_names q leaf)
    · rw [Tree.ids, Tree.ids, Path.cells_settle, ← Tree.ids, ← Tree.ids, hplug]
      intro n hn
      rw [(Path.ids_plug_perm ..).mem_iff] at hn ⊢
      exact List.mem_append_left _ (by simpa using hn)
    · rw [hw.eq]
      exact congrArg (· ++ _) (Journal.records_callAll ..)
  | node l k c r =>
    have hc : c ∈ t.cells := by
      rw [hplug, Path.cells_plug]
      simp [Tree.cells]
    obtain ⟨e, he⟩ := Option.isSome_iff_exists.mp (h.filled c hc)
    refine ((yields_insert_over (s := .left) (v := v) h.bears h.filled hq he).and hlists).mono ?_
    rintro - w₁ ⟨⟨-, hw⟩, hl⟩
    refine @grown _ _ [] hl hw.bears ?_ ?_ (by simp)
    · rw [hplug]
      intro n hn
      rw [(Path.ids_plug_perm ..).mem_iff] at hn ⊢
      simpa [Tree.join] using hn
    · rw [hw.eq, Array.append_empty]
      exact (Journal.records_release ..).trans (Journal.records_callAll ..)

/-- What an insertion into two maps side by side leaves, with the guise extended if need be. -/
structure Joined (g : Guise) (S : Set Nat) (w w' w₁ w₁' : Workspace κ ν) (g₁ : Guise)
    (S₁ : Set Nat) : Prop where
  grows : g.Grows w.map.nodes S w.clock w'.clock g₁ S₁
  peers : Peers g₁ S₁ w₁ w₁'
  nodes : w.map.nodes ⊆ w₁.map.nodes
  names : w₁.journal.Names w₁.map.nodes
  clock : w.clock ≤ w₁.clock
  clock_right : w'.clock ≤ w₁'.clock

theorem both_insert_joined (h : Peers g S w w') (hj : w.journal.Names w.map.nodes) (tag : κ)
    (v : ν) : Both (insert tag v) (insert tag v) w w' fun new new' w₁ w₁' => new' = new ∧
      ∃ g₁ S₁, Joined g S w w' w₁ w₁' g₁ S₁ := by
  obtain ⟨⟨t, xs, ht⟩, ho, hs⟩ := h
  have names := yields_insert_names ht.holds hj tag v
  have items {w₁ : Workspace κ ν} {ys : List (Item κ ν)} {rs : List (Released κ ν)}
      (hb : Becomes w w₁ ys rs) : w₁.map.items = ys := by
    obtain ⟨t₁, h₁⟩ := hb.lists
    exact h₁.items_eq
  rw [ht.holds.items_eq] at hs
  rcases hq : t.seek (w.map.order tag) [] with ⟨q, u⟩
  have hfound := ht.holds.found?_eq (s := tag)
  have hfound' := ht.found?_eq tag
  rw [hq] at hfound
  rw [hfound] at hfound'
  cases u with
  | nil =>
    let g₁ := g.extend w.map.arena.nextId w'.map.arena.nextId w.clock w'.clock
    have agrees : g.Agrees g₁ w.map.nodes S := by
      refine Guise.agrees_extend g ht.holds.nextId_notMem ?_ ?_ ?_
      · rw [← ht.nodes_right.mem_iff]
        exact ht.holds_right.nextId_notMem
      · exact fun hm => Nat.lt_irrefl _ (ho.past _ hm)
      · intro hl _
        obtain ⟨-, hsize, hfree⟩ := ht.level hl
        rw [Arena.nextId, Arena.nextId, hsize, hfree]
    have h₁ := ht.agree agrees (ht.holds.items_eq.symm ▸ hs) hj
    refine (((both_insert_hung h₁ hq (Guise.node_extend g) (Guise.stamp_extend g) v).and_left
      (yields_insert_new ⟨t, ht.holds⟩ hfound)).and_left names).mono ?_
    rintro - - w₁ w₁' ⟨⟨⟨⟨rfl, rfl, hc, hc'⟩, halike⟩, -, ys, zs, rfl, -, -, hb⟩, hnodes, hnames⟩
    refine ⟨rfl, g₁, Insert.insert w.clock S, ⟨agrees, Set.subset_insert .., ?_⟩,
      ⟨halike, ?_, ?_⟩, hnodes, hnames, hc ▸ Nat.le_succ _, hc' ▸ Nat.le_succ _⟩
    · rintro s (rfl | hmem)
      · exact .inr ⟨Nat.le_refl _, (Guise.stamp_extend g).ge⟩
      · exact .inl hmem
    · rw [hc, hc']
      exact ho.draw
    · rw [items hb]
      intro x hx
      rcases List.mem_append.mp hx with hx | hx
      · exact .inr (hs x (List.mem_append_left _ hx))
      · rcases List.mem_cons.mp hx with rfl | hx
        · exact .inl rfl
        · exact .inr (hs x (List.mem_append_right _ hx))
  | node l k c r =>
    refine ((((both_insert_over ht hq v).and_left
      (yields_insert_found ⟨t, ht.holds⟩ hfound)).and_left names).and_right
      (yields_insert_found ⟨_, ht.holds_right⟩ hfound')).mono ?_
    rintro - - w₁ w₁' ⟨⟨⟨⟨⟨rfl, rfl⟩, halike⟩, -, hb⟩, hnodes, hnames⟩, -, hb'⟩
    refine ⟨rfl, g, S, .refl .., ⟨halike, ho.later hb.clock hb'.clock, ?_⟩, hnodes, hnames,
      hb.clock, hb'.clock⟩
    rw [items hb]
    intro x hx
    obtain ⟨y, hy, rfl⟩ := List.mem_map.mp hx
    split <;> exact hs y hy

/-- Every entry stored extends the guise by one node at most. -/
theorem both_insertMany_joined (h : Peers g S w w') (hj : w.journal.Names w.map.nodes)
    (es : List (κ × ν)) : Both (insertMany es) (insertMany es) w w' fun _ _ w₁ w₁' =>
      ∃ g₁ S₁, Joined g S w w' w₁ w₁' g₁ S₁ := by
  induction es generalizing g S w w' with
  | nil =>
    exact both_pure.mpr ⟨g, S, .refl .., h, List.Subset.refl _, hj, Nat.le_refl _, Nat.le_refl _⟩
  | cons e rest ih =>
    rw [insertMany]
    refine (both_insert_joined h hj e.1 e.2).bind ?_
    rintro - - w₁ w₁' ⟨-, g₁, S₁, h₁⟩
    refine (ih h₁.peers h₁.names).mono ?_
    rintro - - w₂ w₂' ⟨g₂, S₂, h₂⟩
    exact ⟨g₂, S₂, h₁.grows.trans h₂.grows h₁.nodes h₁.clock h₁.clock_right, h₂.peers,
      List.Subset.trans h₁.nodes h₂.nodes, h₂.names, h₁.clock.trans h₂.clock,
      h₁.clock_right.trans h₂.clock_right⟩

/-- An operation that stores nothing brings no stamps into the map. -/
theorem ends_perform_stamps {r : Roll κ ν} {op : Op κ ν} (h : w.map.Shows r)
    (hop : op.stores = false) : Ends op.perform w fun _ w₁ =>
      w.clock ≤ w₁.clock ∧ ∀ x ∈ w₁.map.items, ∃ y ∈ w.map.items, y.stamp = x.stamp := by
  refine ends_perform_elim h ?_ ?_ ?_ ?_
  · intro out r₁ w₁ hp hl
    refine ⟨hl.clock, fun x hx => ?_⟩
    rw [hl.shows.items_eq] at hx
    obtain ⟨y, hy, hk⟩ :=
      List.mem_map.mp ((Roll.Thins.perform hp).keys.subset (List.mem_map_of_mem hx))
    exact ⟨y, h.items_eq ▸ hy, congrArg (·.2.1) hk⟩
  · rintro tag v rfl
    cases hop
  · rintro es rfl
    cases hop
  · rintro rfl
    refine (yields_audit h.lists).mono fun _ w₁ ha => ?_
    rw [ha.1.map, ha.1.clock]
    exact ⟨Nat.le_refl _, fun x hx => ⟨x, hx, rfl⟩⟩

@[simp] theorem Op.stores_moveTo (op : Op κ ν) : (op.moveTo p).stores = op.stores := by
  cases op <;> rfl

/-- Every operation answers alike on both maps, up to what is new, and leaves them alike. -/
theorem both_perform (h : Peers g S w w') (up : g.mirrored = false)
    (hj : w.journal.Names w.map.nodes) (op : Op κ ν)
    (hp : op.position?.isSome → w'.map.nodeAt q = (w.map.nodeAt p).map g.node ∧
      w.map.nodeAt p ≠ .error .foreign) :
    Both (op.moveTo p).perform (op.moveTo q).perform w w' fun a a' w₁ w₁' =>
      ∃ g₁ S₁, g.Grows w.map.nodes S w.clock w'.clock g₁ S₁ ∧ a' = a.recast g₁ ∧
        Peers g₁ S₁ w₁ w₁' := by
  cases hop : op.stores with
  | false =>
    obtain ⟨⟨t, xs, ht⟩, ho, hs⟩ := h
    have left : Ends (op.moveTo p).perform w _ := ends_perform_stamps ht.shows (by simpa using hop)
    have right : Ends (op.moveTo q).perform w' _ :=
      ends_perform_stamps (ht.shows_right up) (by simpa using hop)
    refine ((both_perform_of_not_stores ht up hop hp).and_ends left right).mono ?_
    rintro a - w₁ w₁' ⟨⟨rfl, halike⟩, ⟨hc, hstamps⟩, hc', -⟩
    refine ⟨g, S, .refl .., rfl, halike, ho.later hc hc', fun x hx => ?_⟩
    obtain ⟨y, hy, e⟩ := hstamps x hx
    exact e ▸ hs y hy
  | true =>
    cases op with
    | insert tag v =>
      refine (both_insert_joined h hj tag v).bind ?_
      rintro - new w₁ w₁' ⟨rfl, g₁, S₁, h₁⟩
      exact both_pure.mpr ⟨g₁, S₁, h₁.grows, rfl, h₁.peers⟩
    | insertMany es =>
      refine (both_insertMany_joined h hj es).bind ?_
      rintro - - w₁ w₁' ⟨g₁, S₁, h₁⟩
      exact both_pure.mpr ⟨g₁, S₁, h₁.grows, rfl, h₁.peers⟩
    | _ => cases hop

end Map
end OrderedMap
