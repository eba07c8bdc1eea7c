import OrderedMap.Proofs.Store.Positions

/-!
Positions that have died. When an entry leaves its map, the position of it is dead: the map refuses
it as stale, every other map as foreign, and nothing changes. It stays dead in every run but for one
thing: if the arena that holds the node is moved back into the map, the position is alive again.
-/
namespace OrderedMap
namespace Store

variable {κ ν : Type} {s : Store κ ν} {k : Nat} {m : Map κ ν} {p : Position} {op : Op κ ν}

/-- Why a map of a number refuses a dead position. -/
def refusal (p : Position) (k : Nat) : PositionError := if p.map = ⟨k⟩ then .stale else .foreign

/-- No map resolves the position. -/
def Dead (s : Store κ ν) (p : Position) : Prop :=
  ∀ k m, s.map? k = some m → m.nodeAt p = .error (refusal p k)

theorem nodeAt_error {m : Map κ ν} {e : PositionError} (h : m.nodeAt p = .error e) :
    e = if p.map = m.id then .stale else .foreign := by
  unfold Map.nodeAt at h
  by_cases hp : p.map = m.id
  · rw [if_neg (not_not.mpr hp)] at h
    rw [if_pos hp]
    split at h
    · exact (Except.error.inj h).symm
    · split at h
      · cases h
      · exact (Except.error.inj h).symm
  · rw [if_pos hp] at h
    rw [if_neg hp]
    exact (Except.error.inj h).symm

/-- A position is dead if its map does not have the item that it names. -/
theorem Stamped.dead_iff (h : s.Stamped) :
    s.Dead p ↔ ∀ e, ¬ s.Has p.map.number ⟨p.node, p.stamp, e⟩ := by
  constructor
  · intro hd e hx
    obtain ⟨m, hm, hn, -⟩ := h.resolves hx
    rw [hd _ m hm] at hn
    cases hn
  · intro hx k m hm
    obtain ⟨r, hr, hid, -⟩ := h.shows k m hm
    cases hn : m.nodeAt p with
    | ok n =>
      obtain ⟨hp, -, e, hhas⟩ := (h.nodeAt_iff hm).mp hn
      exact absurd hhas (by rw [← show p.map.number = k by rw [hp]]; exact hx e)
    | error e => rw [nodeAt_error hn, hr.id, hid, refusal]

/-- No map has an item with the stamp of the position. -/
def Lost (s : Store κ ν) (p : Position) : Prop := ∀ j x, s.Has j x → x.stamp ≠ p.stamp

theorem Stamped.dead_of_lost (h : s.Stamped) (hl : s.Lost p) : s.Dead p :=
  h.dead_iff.mpr fun _ hx => hl _ _ hx rfl

variable [EntrySize κ ν]

/-- No cursor starts at the position and nothing is erased there, in any map, and nothing
changes. -/
def Refuses (s : Store κ ν) (p : Position) : Prop := ∀ k m, s.map? k = some m →
  (∀ steps, s.step (.on k (.walk (.position p) steps)) = (⟨.ok (.refused (refusal p k)), ∅⟩, s)) ∧
  (∀ steps, s.step (.on k (.revise (.position p) steps)) = (⟨.ok (.refused (refusal p k)), ∅⟩, s)) ∧
  s.step (.on k (.erasePosition p)) = (⟨.ok (.refused (refusal p k)), ∅⟩, s) ∧
  s.step (.on k (.eraseOwnPosition p)) =
    (⟨if p.map = ⟨k⟩ then .ok (.flag false) else .error .erasesForeign, ∅⟩, s)

/-- The operation moves the node of the position into the map that the position was taken from. -/
def Revives (s : Store κ ν) (op : Op κ ν) (p : Position) : Prop :=
  ∃ source, op = .transfer p.map.number source ∧ s.canMove p.map.number source ∧
    ∃ e, s.Has source ⟨p.node, p.stamp, e⟩

/-- The position is dead at every moment of a run. -/
def RefusedThrough (s : Store κ ν) (ops : List (Op κ ν)) (p : Position) : Prop :=
  ∀ ops₁ ops₂, ops = ops₁ ++ ops₂ → (after ops₁ s).Dead p ∧ (after ops₁ s).Refuses p

/-- Some operation of a run revives the position. -/
def RevivedIn (s : Store κ ν) (ops : List (Op κ ν)) (p : Position) : Prop :=
  ∃ ops₁ op ops₂, ops = ops₁ ++ op :: ops₂ ∧ (after ops₁ s).Revives op p

/-- An operation that leaves the workspace as it was leaves the store as it was. -/
theorem step_on_still {f : Map.Op κ ν} {res : Except Fault (Reply κ ν)} (hm : s.map? k = some m)
    (h : Ends f.perform ⟨m, s.clock, ∅⟩ fun r w => r = res ∧ w = ⟨m, s.clock, ∅⟩) :
    s.step (.on k f) = (⟨res, ∅⟩, s) := by
  obtain ⟨r, w, ⟨rfl, rfl⟩, he⟩ := step_on hm h
  rw [he]
  exact congrArg (Prod.mk _) (setMap_self hm)

/-- An operation at a position that does not resolve leaves the store as it was. -/
theorem step_denied {f : Map.Op κ ν} {e : PositionError} (hm : s.map? k = some m)
    (hp : f.position? = some p) (hn : m.nodeAt p = .error e) :
    s.step (.on k f) = (⟨f.denial e, ∅⟩, s) := step_on_still hm (Map.ends_denied hp hn)

theorem Dead.refuses (h : s.Dead p) : s.Refuses p := by
  intro k m hm
  have hn := h k m hm
  refine ⟨fun steps => step_denied hm rfl hn, fun steps => step_denied hm rfl hn,
    step_denied hm rfl hn, ?_⟩
  rw [step_denied hm rfl hn, refusal]
  split <;> rfl

/-- The position of an entry that leaves its map is dead. -/
theorem Stamped.dead_of_gone (h : s.Stamped) {x : Item κ ν} (hx : s.Has k x)
    (hf : op.fate s k x.node x.entry = none) :
    (s.step op).2.Dead ⟨⟨k⟩, x.node, x.stamp⟩ := by
  obtain ⟨h', hfol⟩ := h.step op
  exact h'.dead_iff.mpr fun e hy => (hfol.gone k x hx hf k _ hy rfl).2.1 rfl

/-- Through one operation a position stays dead, unless the operation revives it. -/
theorem Stamped.dead_step_iff (h : s.Stamped) (hc : p.stamp < s.clock) (hd : s.Dead p)
    (op : Op κ ν) : (s.step op).2.Dead p ↔ ¬ s.Revives op p := by
  obtain ⟨h', hfol⟩ := h.step op
  rw [h'.dead_iff]
  constructor
  · rintro hx ⟨source, rfl, hmove, e, hy⟩
    obtain ⟨a, b, hm⟩ := canMove_iff.mp hmove
    refine hx e ?_
    rw [step_transfer hm]
    exact (h.has_moved hm _).mpr hy
  · intro hr e hy
    rcases hfol.origin _ _ hy with hcl | ⟨⟨n, st, e'⟩, hx, rfl, rfl⟩ | ⟨source, hop, hmove, hx⟩
    · exact absurd hc (Nat.not_lt.mpr hcl)
    · exact h.dead_iff.mp hd e' hx
    · exact hr ⟨source, hop, hmove, e, hx⟩

/-- Through a run a position stays dead as long as no operation revives it. -/
theorem Stamped.refusedThrough_iff (h : s.Stamped) (hc : p.stamp < s.clock) (hd : s.Dead p)
    (ops : List (Op κ ν)) : s.RefusedThrough ops p ↔ ¬ s.RevivedIn ops p := by
  constructor
  · rintro hall ⟨ops₁, op, ops₂, rfl, hr⟩
    have before := (hall ops₁ (op :: ops₂) rfl).1
    have after := (hall (ops₁ ++ [op]) ops₂ (by simp)).1
    rw [after_append] at after
    have hc' := Nat.lt_of_lt_of_le hc (h.clock_le ops₁)
    exact ((h.after ops₁).dead_step_iff hc' before op).mp after hr
  · intro hr ops₁ ops₂ hops
    induction ops₁ generalizing s ops with
    | nil => exact ⟨hd, hd.refuses⟩
    | cons op ops₁ ih =>
      obtain ⟨h', hfol⟩ := h.step op
      have hd' := (h.dead_step_iff hc hd op).mpr fun hrev => hr ⟨[], op, ops₁ ++ ops₂, hops, hrev⟩
      refine ih h' (Nat.lt_of_lt_of_le hc hfol.clock) hd' (ops₁ ++ ops₂) ?_ rfl
      rintro ⟨us, o, vs, huv, hrev⟩
      exact hr ⟨op :: us, o, vs, by rw [hops, List.cons_append, List.cons_append, huv], hrev⟩

/-- A lost position is lost for good. -/
theorem Stamped.lost_after (h : s.Stamped) (hc : p.stamp < s.clock) (hl : s.Lost p)
    (ops : List (Op κ ν)) : (Store.after ops s).Lost p := by
  intro j y hy e
  obtain ⟨i, x, hx, -, hs⟩ := h.has_before hy (e ▸ hc)
  exact hl i x hx (hs.trans e)

/-- A lost position is refused at every moment of every run. -/
theorem Stamped.refusedThrough_of_lost (h : s.Stamped) (hc : p.stamp < s.clock) (hl : s.Lost p)
    (ops : List (Op κ ν)) : s.RefusedThrough ops p := by
  intro ops₁ ops₂ _
  have hd := (h.after ops₁).dead_of_lost (h.lost_after hc hl ops₁)
  exact ⟨hd, hd.refuses⟩

/-- The position of an entry that leaves its map otherwise than by a move is lost. -/
theorem Stamped.lost_of_gone (h : s.Stamped) {x : Item κ ν} (hx : s.Has k x)
    (hf : op.fate s k x.node x.entry = none) (hop : ∀ j, op ≠ .transfer j k) :
    (s.step op).2.Lost ⟨⟨k⟩, x.node, x.stamp⟩ := by
  intro j y hy e
  exact hop j ((h.step op).2.gone k x hx hf j y hy e).1

/-- Take a position at a node with an entry, in any map and after any run, and let a run follow
until an operation removes the entry from the map. From then on every map refuses the position, at
every moment of every further run, unless the run moves the node back into the map: exactly then the
position is alive again. It is dead for good if the entry left otherwise than by a move. -/
theorem position_dead_until_moved_back (before ops : List (Op κ ν)) (op : Op κ ν)
    (later : List (Op κ ν)) {k : Nat} {m : Map κ ν} {n : NodeId} {e e' : Entry κ ν} {p : Position}
    (hm : (after before ∅).map? k = some m) (hp : m.positionAt n = .ok p)
    (he : m.arena.entry n = .ok e) (hf : fate ops (after before ∅) k n e = some e')
    (hgone : op.fate (after ops (after before ∅)) k n e' = none) :
    ((after (ops ++ [op]) (after before ∅)).RefusedThrough later p ↔
      ¬ (after (ops ++ [op]) (after before ∅)).RevivedIn later p) ∧
    ((∀ j, op ≠ .transfer j k) →
      (after (ops ++ [op]) (after before ∅)).RefusedThrough later p) := by
  have hs : (after before ∅ : Store κ ν).Stamped := stamped_empty.after before
  generalize after before ∅ = s at *
  obtain ⟨hpos, hx⟩ := hs.has_of_positionAt hm hp he
  have hx' := hs.has_after hx hf
  have hs₁ := hs.after ops
  have hdead : ((after ops s).step op).2.Dead p := by
    rw [hpos]
    exact hs₁.dead_of_gone hx' hgone
  have hc : p.stamp < ((after ops s).step op).2.clock :=
    Nat.lt_of_lt_of_le (hs₁.drawn hx') (hs₁.step op).2.clock
  rw [after_append]
  refine ⟨(hs₁.step op).1.refusedThrough_iff hc hdead later, fun hop => ?_⟩
  have hlost : ((after ops s).step op).2.Lost p := by
    rw [hpos]
    exact hs₁.lost_of_gone hx' hgone hop
  exact (hs₁.step op).1.refusedThrough_of_lost hc hlost later

/-- Two maps, the first of which holds one entry. -/
def lender : List (Op Nat Nat) := [.create .natural [(1, 10)], .create .natural []]

/-- Neither a slot that is used again nor a move there and back revives an erased entry. -/
theorem erased_position_dead_for_good : ∃ m, (after lender ∅).map? 0 = some m ∧
    m.positionAt ⟨0⟩ = .ok ⟨⟨0⟩, ⟨0⟩, 0⟩ ∧ m.arena.entry ⟨0⟩ = .ok ⟨1, 10⟩ ∧
    fate [.on 0 (.insert 2 20)] (after lender ∅) 0 ⟨0⟩ ⟨1, 10⟩ = some ⟨1, 10⟩ ∧
    Op.fate (.on 0 (.erase 1)) (after [.on 0 (.insert 2 20)] (after lender ∅)) 0 ⟨0⟩ ⟨1, 10⟩ =
      none ∧
    (after [.on 0 (.insert 2 20), .on 0 (.erase 1)] (after lender ∅)).RefusedThrough
      [.on 0 (.insert 3 30), .transfer 1 0, .transfer 0 1] ⟨⟨0⟩, ⟨0⟩, 0⟩ := by
  have there : ((after lender ∅).map? 0).isSome := by decide +kernel
  have position : ((after lender ∅).map? 0).map (·.positionAt ⟨0⟩) =
    some (.ok ⟨⟨0⟩, ⟨0⟩, 0⟩) := by decide +kernel
  have entry : ((after lender ∅).map? 0).map (·.arena.entry ⟨0⟩) = some (.ok ⟨1, 10⟩) := by
    decide +kernel
  have stays : fate [.on 0 (.insert 2 20)] (after lender ∅) 0 ⟨0⟩ ⟨1, 10⟩ = some ⟨1, 10⟩ := by
    decide +kernel
  have goes : Op.fate (.on 0 (.erase 1)) (after [.on 0 (.insert 2 20)] (after lender ∅)) 0 ⟨0⟩
    ⟨1, 10⟩ = none := by decide +kernel
  obtain ⟨m, hm⟩ := Option.isSome_iff_exists.mp there
  rw [hm] at position entry
  have hp := Option.some.inj position
  have he := Option.some.inj entry
  exact ⟨m, hm, hp, he, stays, goes,
    (position_dead_until_moved_back lender _ _ _ hm hp he stays goes).2 nofun⟩

/-- An entry that is moved away and back is found again at the position that had died. -/
theorem moved_position_alive_again :
    Op.fate (.transfer 1 0) (after lender ∅) 0 ⟨0⟩ ⟨1, 10⟩ = none ∧
    ((after [.transfer 1 0] (after lender ∅)).map? 0).map (·.nodeAt ⟨⟨0⟩, ⟨0⟩, 0⟩) =
      some (.error .stale) ∧
    ((after [.transfer 1 0, .transfer 0 1] (after lender ∅)).map? 0).map
      (·.nodeAt ⟨⟨0⟩, ⟨0⟩, 0⟩) = some (.ok ⟨0⟩) ∧
    ¬ (after [.transfer 1 0] (after lender ∅)).RefusedThrough [.transfer 0 1] ⟨⟨0⟩, ⟨0⟩, 0⟩ := by
  have alive : ((after [.transfer 1 0, .transfer 0 1] (after lender ∅)).map? 0).map
    (·.nodeAt ⟨⟨0⟩, ⟨0⟩, 0⟩) = some (.ok ⟨0⟩) := by decide +kernel
  refine ⟨by decide +kernel, by decide +kernel, alive, fun hall => ?_⟩
  obtain ⟨m, hm, hn⟩ := Option.map_eq_some_iff.mp alive
  rw [(hall [.transfer 0 1] [] rfl).1 0 m hm] at hn
  cases hn

end Store
end OrderedMap
