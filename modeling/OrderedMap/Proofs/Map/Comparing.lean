import OrderedMap.Proofs.Map.Composing
import OrderedMap.Proofs.Map.Removal
import OrderedMap.Proofs.Map.Search
import OrderedMap.Proofs.Tree.Size

/-!
How many comparisons an operation on one tag makes. Only its search compares, once for each node on
the way down. All the work on nodes that is done afterwards, the repairs included, makes no
comparison, even where it ends in a fault.
-/
namespace OrderedMap

/-- No more than one comparison is noted for each cell. -/
theorem Journal.size_calls_callAll_le {κ ν : Type} (comparator : Comparator κ) (t : κ)
    (cs : List (Cell κ ν)) (j : Journal κ ν) :
    (j.callAll comparator t cs).calls.size ≤ j.calls.size + cs.length := by
  refine Nat.le_trans ?_ (Nat.add_le_add_left (List.length_filterMap_le (·.entry) cs) _)
  unfold callAll
  induction cs.filterMap (·.entry) generalizing j with
  | nil => exact Nat.le_refl _
  | cons e es ih =>
    rw [List.foldl_cons]
    refine Nat.le_trans (ih _) ?_
    rw [call, Array.size_push, List.length_cons]
    omega

namespace Map

variable {κ ν α β : Type}

/-- The action makes no comparison, in whatever state the map is and whatever it ends with. -/
def Quiet (x : MapM κ ν α) : Prop :=
  ∀ w, Ends x w fun _ w' => w'.journal.calls = w.journal.calls

section Quiet

variable {x y : MapM κ ν α} {f : α → MapM κ ν β}

theorem quiet_pure {a : α} : Quiet (pure a : MapM κ ν α) := fun _ => rfl

theorem quiet_throw {e : Fault} : Quiet (throw e : MapM κ ν α) := fun _ => rfl

theorem Quiet.bind (hx : Quiet x) (hf : ∀ a, Quiet (f a)) : Quiet (x >>= f) := by
  intro w
  refine (hx w).bind ?_ ?_
  · intro a w₁ h₁
    refine (hf a w₁).mono ?_
    intro _ w₂ h₂
    exact h₂.trans h₁
  · intro _ w₁ h₁
    exact h₁

theorem Quiet.ite {c : Prop} [Decidable c] (hx : Quiet x) (hy : Quiet y) :
    Quiet (if c then x else y) := by
  split
  · exact hx
  · exact hy

theorem quiet_survey {q : Map κ ν → Except Fault α} : Quiet (survey q) := by
  intro w
  unfold Ends survey
  cases q w.map <;> rfl

theorem quiet_look {q : Arena κ ν → Except Fault α} : Quiet (look q) := quiet_survey

theorem quiet_edit {e : EditM κ ν α} : Quiet (edit e) := by
  intro w
  obtain ⟨⟨id, a, count, policy⟩, clock, j⟩ := w
  unfold Ends edit
  cases he : e a <;> simp only [he]

theorem quiet_note {f : Journal κ ν → Journal κ ν} (hf : ∀ j, (f j).calls = j.calls) :
    Quiet (note f) := fun w => hf w.journal

theorem quiet_record {r : Record} : Quiet (record r : MapM κ ν Unit) := quiet_note fun _ => rfl

theorem quiet_setCount {n : Nat} : Quiet (setCount n : MapM κ ν Unit) := fun _ => rfl

theorem quiet_drawStamp : Quiet (drawStamp : MapM κ ν Nat) := fun _ => rfl

theorem Quiet.attempt (hx : Quiet x) : Quiet (attempt x) := by
  intro w
  have h := hx w
  unfold Ends Map.attempt at *
  cases hw : x w with
  | ok a w' =>
    rw [hw] at h
    exact h
  | error e w' =>
    rw [hw] at h
    exact h

end Quiet

section Primitives

variable {n : NodeId} {k : Color} {s : Side}

theorem quiet_allocate {e : Option (Entry κ ν)} : Quiet (allocate e k) :=
  quiet_drawStamp.bind fun _ => quiet_edit

theorem quiet_paint : Quiet (paint n k : MapM κ ν Unit) := quiet_edit

theorem quiet_rotate : Quiet (rotate s n : MapM κ ν Unit) :=
  quiet_edit.bind fun _ => quiet_note fun _ => rfl

theorem quiet_releaseTag {t : κ} : Quiet (releaseTag t : MapM κ ν Unit) := by
  refine quiet_survey.bind fun p => quiet_note fun j => ?_
  unfold Journal.releaseTag
  cases p.tagHook <;> rfl

theorem quiet_releaseValue {v : ν} : Quiet (releaseValue v : MapM κ ν Unit) := by
  refine quiet_survey.bind fun p => quiet_note fun j => ?_
  unfold Journal.releaseValue
  cases p.valueHook <;> rfl

end Primitives

section Repairs

variable {n parent grand sibling : NodeId} {side : Side} {near far : Option NodeId} {fuel : Nat}

theorem quiet_settleByRotation :
    Quiet (settleByRotation n parent grand side : MapM κ ν Unit) := by
  have outer (inner : Bool) : Quiet (do
      record (.outerRotation grand)
      rotate side.opposite grand
      paint (if inner then n else parent) .black
      paint grand .red : MapM κ ν Unit) :=
    quiet_record.bind fun _ => quiet_rotate.bind fun _ => quiet_paint.bind fun _ => quiet_paint
  unfold settleByRotation
  refine quiet_look.bind fun c => ?_
  refine Quiet.ite ?_ (outer _)
  exact quiet_record.bind fun _ => quiet_rotate.bind fun _ => outer _

theorem quiet_settleFrom : Quiet (settleFrom fuel n : MapM κ ν Unit) := by
  induction fuel generalizing n with
  | zero => exact quiet_throw
  | succ fuel ih =>
    rw [settleFrom]
    refine quiet_look.bind fun p => ?_
    cases p with
    | none => exact quiet_paint
    | some parent =>
      refine quiet_look.bind fun k => Quiet.ite ?_ quiet_pure
      refine quiet_look.bind fun grand => quiet_look.bind fun side => ?_
      cases grand with
      | none => exact quiet_paint
      | some grand =>
        cases side with
        | none => exact quiet_paint
        | some side =>
          refine quiet_look.bind fun u => ?_
          cases u with
          | none => exact quiet_settleByRotation
          | some uncle =>
            refine quiet_look.bind fun k => Quiet.ite ?_ quiet_settleByRotation
            exact quiet_record.bind fun _ => quiet_paint.bind fun _ => quiet_paint.bind fun _ =>
              quiet_paint.bind fun _ => ih

theorem quiet_settle : Quiet (settle n : MapM κ ν Unit) :=
  quiet_look.bind fun _ => quiet_settleFrom

/-- The rotation that ends the repair. -/
theorem quiet_raise : Quiet (do
    record (.terminalRotation parent)
    paint sibling (← look (·.color parent))
    paint parent .black
    if let some f ← look (·.child side.opposite sibling) then
      paint f .black
    rotate side parent : MapM κ ν Unit) := by
  refine quiet_record.bind fun _ => quiet_look.bind fun _ => quiet_paint.bind fun _ =>
    quiet_paint.bind fun _ => quiet_look.bind fun f => ?_
  cases f with
  | none => exact quiet_rotate
  | some f => exact quiet_paint.bind fun _ => quiet_rotate

theorem quiet_refillByRotation :
    Quiet (refillByRotation parent sibling side near far : MapM κ ν Unit) := by
  refine quiet_look.bind fun red => Quiet.ite quiet_raise ?_
  cases near with
  | none => exact quiet_raise
  | some n =>
    exact quiet_record.bind fun _ => quiet_paint.bind fun _ => quiet_paint.bind fun _ =>
      quiet_rotate.bind fun _ => quiet_raise

theorem quiet_blackSibling? : Quiet (blackSibling? parent side : MapM κ ν (Option NodeId)) := by
  unfold blackSibling?
  refine quiet_look.bind fun c => ?_
  cases c with
  | none => exact quiet_pure
  | some sibling =>
    refine quiet_look.bind fun k => Quiet.ite ?_ quiet_pure
    exact quiet_record.bind fun _ => quiet_paint.bind fun _ => quiet_paint.bind fun _ =>
      quiet_rotate.bind fun _ => quiet_look

theorem quiet_passOn {again : NodeId → Side → MapM κ ν Unit} (ha : ∀ n s, Quiet (again n s)) :
    Quiet (passOn again parent sibling) := by
  refine quiet_paint.bind fun _ => quiet_look.bind fun k => ?_
  refine Quiet.ite (quiet_record.bind fun _ => quiet_paint) ?_
  refine quiet_look.bind fun grand => quiet_look.bind fun above => ?_
  cases grand with
  | none => exact quiet_pure
  | some grand =>
    cases above with
    | none => exact quiet_pure
    | some above => exact quiet_record.bind fun _ => ha grand above

theorem quiet_refillBlack {again : NodeId → Side → MapM κ ν Unit} (ha : ∀ n s, Quiet (again n s)) :
    Quiet (refillBlack again parent side sibling) := by
  have split (near far : Option NodeId) (red : Bool) : Quiet (
      if red then
        refillByRotation parent sibling side near far
      else
        passOn again parent sibling) := quiet_refillByRotation.ite (quiet_passOn ha)
  refine quiet_look.bind fun near => quiet_look.bind fun far => quiet_look.bind fun red => ?_
  exact Quiet.ite (split near far true) (quiet_look.bind fun red => split near far red)

theorem quiet_refillFrom : Quiet (refillFrom fuel parent side : MapM κ ν Unit) := by
  induction fuel generalizing parent side with
  | zero => exact quiet_throw
  | succ fuel ih =>
    rw [refillFrom_succ]
    refine quiet_blackSibling?.bind fun sibling => ?_
    cases sibling with
    | none => exact quiet_pure
    | some sibling => exact quiet_refillBlack fun _ _ => ih

theorem quiet_refill : Quiet (refill parent side : MapM κ ν Unit) :=
  quiet_look.bind fun _ => quiet_refillFrom

theorem quiet_lower : Quiet (lower n : MapM κ ν Unit) := by
  refine quiet_look.bind fun l => quiet_look.bind fun r => ?_
  cases l with
  | none => exact quiet_pure
  | some l =>
    cases r with
    | none => exact quiet_pure
    | some r =>
      exact quiet_look.bind fun pred =>
        (quiet_drawStamp.bind fun _ => quiet_edit).bind fun _ => quiet_edit

/-- What ends the extraction. -/
theorem quiet_free : Quiet (do
    match ← edit (Arena.vacate n) with
    | some e => pure e
    | none => throw (.removedNoEntry n) : MapM κ ν (Entry κ ν)) := by
  refine quiet_edit.bind fun e => ?_
  cases e with
  | none => exact quiet_throw
  | some e => exact quiet_pure

theorem quiet_extract : Quiet (extract n : MapM κ ν (Entry κ ν)) := by
  refine quiet_lower.bind fun _ => quiet_look.bind fun _ => quiet_edit.bind fun c =>
    quiet_look.bind fun parent => quiet_look.bind fun above => quiet_edit.bind fun _ =>
      quiet_look.bind fun k => ?_
  refine Quiet.ite (quiet_look.bind fun red => Quiet.ite ?_ ?_) quiet_free
  · cases c with
    | none => exact quiet_free
    | some c => exact quiet_paint.bind fun _ => quiet_free
  · cases parent with
    | none => exact quiet_free
    | some p =>
      cases above with
      | none => exact quiet_free
      | some s => exact quiet_refill.bind fun _ => quiet_free

end Repairs

theorem quiet_takeOut {n : NodeId} : Quiet (takeOut n : MapM κ ν (Entry κ ν)) := by
  refine quiet_extract.bind fun e => quiet_survey.bind fun count => ?_
  cases count with
  | zero => exact quiet_throw
  | succ k => exact quiet_setCount.bind fun _ => quiet_pure

/-- At a node that is known there is nothing to compare. -/
theorem composes_quiet : Composes (@Quiet κ ν) where
  pure _ := quiet_pure
  throw _ := quiet_throw
  bind := Quiet.bind
  attempt := Quiet.attempt
  survey _ := quiet_survey
  releaseTag _ := quiet_releaseTag
  releaseValue _ := quiet_releaseValue
  overwriteAt _ _ := quiet_edit.bind fun _ => quiet_pure
  takeOut _ := quiet_takeOut

/-- After its search an operation on one tag makes no comparison, so that it has what the searches
have and silent actions keep. -/
theorem perform_searching {R : ∀ {α : Type}, MapM κ ν α → Prop} (hl : Leads R Quiet) {s : κ}
    (locate : R (locate s)) (nearest : R (nearest s)) {op : Op κ ν} (hop : op.tag? = some s) :
    R op.perform := by
  by_cases hi : ∃ v, op = .insert s v
  · obtain ⟨v, rfl⟩ := hi
    have place : R (place s v) := by
      refine hl nearest fun spot => ?_
      cases spot with
      | none =>
        exact quiet_allocate.bind fun _ => quiet_edit.bind fun _ => quiet_settle.bind fun _ =>
          quiet_pure
      | some spot =>
        simp only
        cases Side.ofOrdering? spot.2 with
        | none =>
          exact quiet_edit.bind fun _ => quiet_releaseTag.bind fun _ =>
            quiet_releaseValue.bind fun _ => quiet_pure
        | some side =>
          exact quiet_allocate.bind fun _ => quiet_edit.bind fun _ => quiet_settle.bind fun _ =>
            quiet_pure
    have insert : R (insert s v) := by
      refine hl place fun r => ?_
      exact Quiet.ite (quiet_survey.bind fun _ => quiet_setCount.bind fun _ => quiet_pure)
        quiet_pure
    exact hl insert fun _ => quiet_pure
  · exact composes_quiet.perform_tag hl locate hop fun v e => hi ⟨v, e⟩

/-- The action makes at most so many comparisons, whatever it ends with. -/
def Spends (x : MapM κ ν α) (w : Workspace κ ν) (k : Nat) : Prop :=
  Ends x w fun _ w' => w'.journal.calls.size ≤ w.journal.calls.size + k

theorem Spends.bind {x : MapM κ ν α} {f : α → MapM κ ν β} {w : Workspace κ ν} {k : Nat}
    (hx : Spends x w k) (hf : ∀ a, Quiet (f a)) : Spends (x >>= f) w k := by
  refine Ends.bind hx ?_ ?_
  · intro a w₁ h₁
    refine (hf a w₁).mono ?_
    intro _ w₂ h₂
    rw [h₂]
    exact h₁
  · intro _ w₁ h₁
    exact h₁

section Searching

variable {w : Workspace κ ν} {t : Tree κ ν} {s : κ}

theorem size_calls_afterSearch_le :
    (afterSearch w s t).journal.calls.size ≤ w.journal.calls.size + t.depth :=
  Nat.le_trans (Journal.size_calls_callAll_le ..)
    (Nat.add_le_add_left (Tree.length_visited_le _ t) _)

theorem spends_locate (h : w.map.arena.Stands t) (hfill : t.Filled) :
    Spends (locate s) w t.depth := by
  refine (yields_locate h hfill).ends ?_
  rintro r - ⟨-, rfl⟩
  exact size_calls_afterSearch_le

theorem spends_nearest (h : w.map.arena.Stands t) (hfill : t.Filled) :
    Spends (nearest s) w t.depth := by
  refine (yields_nearest h hfill).ends ?_
  rintro r - ⟨-, rfl⟩
  exact size_calls_afterSearch_le

end Searching

/-- An operation on one tag makes no more comparisons than there are nodes on the longest way
down. -/
theorem spends_perform {w : Workspace κ ν} {t : Tree κ ν} {op : Op κ ν}
    (h : w.map.arena.Stands t) (hfill : t.Filled) (hop : op.tag?.isSome) :
    Spends op.perform w t.depth := by
  obtain ⟨s, hs⟩ := Option.isSome_iff_exists.mp hop
  exact perform_searching (R := fun x => Spends x w t.depth) Spends.bind (spends_locate h hfill)
    (spends_nearest h hfill) hs

end Map
end OrderedMap
