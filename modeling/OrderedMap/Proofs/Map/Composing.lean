import OrderedMap.Map.Operation

/-!
Properties of actions that pass on to what is composed of them. Apart from insertions, clearing and
the check, every operation is composed of surveys, of writing over and taking out at a node, of
releases, and of the search for a tag, which comes first.
-/
namespace OrderedMap
namespace Map

variable {κ ν : Type}

/-- Whatever is composed of actions with the property has it, and so have surveys, releases, and
writing over and taking out at a node that is given. -/
structure Composes (P : ∀ {α : Type}, MapM κ ν α → Prop) : Prop where
  pure {α : Type} (a : α) : P (Pure.pure a)
  throw {α : Type} (e : Fault) : P (throw e : MapM κ ν α)
  bind {α β : Type} {x : MapM κ ν α} {f : α → MapM κ ν β} : P x → (∀ a, P (f a)) → P (x >>= f)
  attempt {α : Type} {x : MapM κ ν α} : P x → P (attempt x)
  survey {α : Type} (q : Map κ ν → Except Fault α) : P (survey q)
  releaseTag (t : κ) : P (releaseTag t)
  releaseValue (v : ν) : P (releaseValue v)
  overwriteAt (n : NodeId) (v : ν) : P (overwriteAt n v)
  takeOut (n : NodeId) : P (takeOut n)

/-- The first property is kept by actions that are followed by actions with the second one. -/
def Leads (R P : ∀ {α : Type}, MapM κ ν α → Prop) : Prop :=
  ∀ {α β : Type} {x : MapM κ ν α} {f : α → MapM κ ν β}, R x → (∀ a, P (f a)) → R (x >>= f)

/-- The tag that an operation looks for. -/
def Op.tag? : Op κ ν → Option κ
  | .insert t _ | .get t | .getEntry t | .contains t | .overwrite t _ | .position t => some t
  | .erase t | .removeValue t | .remove t => some t
  | .walk (.find t) _ | .revise (.find t) _ => some t
  | _ => none

namespace Composes

variable {P R : ∀ {α : Type}, MapM κ ν α → Prop}

theorem look {α : Type} (h : Composes P) (q : Arena κ ν → Except Fault α) : P (look q) :=
  h.survey _

theorem release (h : Composes P) (e : Entry κ ν) : P (release e) :=
  h.bind (h.releaseTag _) fun _ => h.releaseValue _

theorem dispose (h : Composes P) (n : NodeId) : P (dispose n : MapM κ ν Unit) :=
  h.bind (h.takeOut n) h.release

theorem erasePosition (h : Composes P) (p : Position) : P (erasePosition p : MapM κ ν _) := by
  refine h.bind (h.survey _) fun m => ?_
  cases m.nodeAt p with
  | error e => exact h.pure _
  | ok n => exact h.bind (h.dispose n) fun _ => h.pure _

theorem eraseOwnPosition (h : Composes P) (p : Position) :
    P (eraseOwnPosition p : MapM κ ν Bool) := by
  refine h.bind (h.erasePosition p) fun res => ?_
  cases res with
  | ok _ => exact h.pure true
  | error e =>
    cases e with
    | stale => exact h.pure false
    | foreign => exact h.throw _

theorem outermost? (h : Composes P) (side : Side) : P (outermost? side : MapM κ ν _) := by
  refine h.bind (h.look _) fun n => ?_
  cases n with
  | none => exact h.pure none
  | some n => exact h.bind (h.look _) fun e => h.pure (some e)

/-! Steps of a cursor. -/

variable {c : Cursor}

theorem assign (h : Composes P) (v : ν) : P (assign c v : MapM κ ν Unit) := by
  unfold Map.assign
  cases c.rest with
  | none => exact h.throw _
  | some n => exact h.bind (h.overwriteAt n v) h.releaseValue

theorem overwriteUnder? (h : Composes P) (v : ν) : P (overwriteUnder? c v : MapM κ ν _) := by
  unfold Map.overwriteUnder?
  cases c.rest with
  | none => exact h.pure none
  | some n => exact h.bind (h.overwriteAt n v) fun old => h.pure (some old)

theorem eraseUnder (h : Composes P) : P (eraseUnder c : MapM κ ν _) := by
  unfold Map.eraseUnder
  cases c.rest with
  | none => exact h.pure _
  | some n => exact h.bind (h.look _) fun next => h.bind (h.dispose n) fun _ => h.pure _

theorem revision (h : Composes P) (s : Revision ν) : P (s.perform c : MapM κ ν _) := by
  cases s with
  | look step =>
    rw [Revision.perform]
    exact h.survey _
  | set v =>
    refine h.bind (h.attempt (h.assign v)) fun res => ?_
    cases res with
    | ok _ => exact h.pure _
    | error f => exact h.pure _
  | write v => exact h.bind (h.overwriteUnder? v) fun old => h.pure _
  | erase => exact h.bind h.eraseUnder fun res => h.pure _
  | view steps => exact h.bind (h.survey _) fun as => h.pure _

theorem revisions (h : Composes P) (steps : List (Revision ν)) :
    P (Revision.walk steps c : MapM κ ν _) := by
  induction steps generalizing c with
  | nil => exact h.pure []
  | cons s rest ih => exact h.bind (h.revision s) fun res => h.bind ih fun as => h.pure _

/-! What comes first in an operation, and what follows. -/

theorem walk (h : Composes P) (hl : Leads R P) {start : Start κ} (hc : R (cursor start))
    (steps : List Step) : R (walk start steps : MapM κ ν _) := by
  refine hl hc fun c => ?_
  cases c with
  | error e => exact h.pure _
  | ok c => exact h.bind (h.survey _) fun as => h.pure _

theorem revise (h : Composes P) (hl : Leads R P) {start : Start κ} (hc : R (cursor start))
    (steps : List (Revision ν)) : R (revise start steps : MapM κ ν _) := by
  refine hl hc fun c => ?_
  cases c with
  | error e => exact h.pure _
  | ok c => exact h.bind (h.revisions steps) fun as => h.pure _

/-- What is done at the node found, or because there is none. -/
theorem located {α : Type} (hl : Leads R P) {s : κ} (hs : R (locate s)) {missing : MapM κ ν α}
    {found : NodeId → MapM κ ν α} (hm : P missing) (hf : ∀ n, P (found n)) :
    R (do
      match ← locate s with
      | none => missing
      | some n => found n) := by
  refine hl hs fun n => ?_
  cases n with
  | none => exact hm
  | some n => exact hf n

/-- All that an operation on one tag does besides looking for it is composed. -/
theorem perform_tag (h : Composes P) (hl : Leads R P) {op : Op κ ν} {s : κ} (hs : R (locate s))
    (hop : op.tag? = some s) (hi : ∀ v, op ≠ .insert s v) : R op.perform := by
  have getEntry : R (entryOf? s) :=
    located hl hs (h.pure none) fun _ => h.bind (h.look _) fun _ => h.pure _
  have remove : R (remove? s) :=
    located hl hs (h.pure none) fun n => h.bind (h.takeOut n) fun _ => h.pure _
  have cursor : R (cursor (.find s)) := hl hs fun _ => h.pure _
  match op, hop with
  | .insert t v, rfl => exact absurd rfl (hi v)
  | .get t, rfl => exact hl (hl getEntry fun _ => h.pure _) fun _ => h.pure _
  | .getEntry t, rfl => exact hl getEntry fun _ => h.pure _
  | .contains t, rfl => exact hl (hl hs fun _ => h.pure _) fun _ => h.pure _
  | .overwrite t v, rfl =>
    refine hl (located hl hs (h.pure none) fun n => ?_) fun _ => h.pure _
    exact h.bind (h.overwriteAt n v) fun _ => h.pure _
  | .position t, rfl => exact hl (hl hs fun _ => h.survey _) fun _ => h.pure _
  | .erase t, rfl =>
    refine hl (located hl hs (h.pure false) fun n => ?_) fun _ => h.pure _
    exact h.bind (h.dispose n) fun _ => h.pure _
  | .removeValue t, rfl =>
    refine hl (hl remove fun e => ?_) fun _ => h.pure _
    cases e with
    | none => exact h.pure none
    | some e => exact h.bind (h.releaseTag e.tag) fun _ => h.pure _
  | .remove t, rfl => exact hl remove fun _ => h.pure _
  | .walk (.find t) steps, rfl => exact h.walk hl cursor steps
  | .revise (.find t) steps, rfl => exact h.revise hl cursor steps

theorem cursor (h : Composes P) (hs : ∀ s, P (locate s)) (start : Start κ) :
    P (cursor start : MapM κ ν _) := by
  cases start with
  | front => exact h.bind (h.look _) fun n => h.pure _
  | back => exact h.bind (h.look _) fun n => h.pure _
  | find t => exact h.bind (hs t) fun n => h.pure _
  | position p => exact h.bind (h.survey _) fun m => h.pure _

/-- All operations are composed that store no new entries. -/
theorem perform (h : Composes P) (hs : ∀ s, P (locate s)) (clear : P (clear : MapM κ ν Unit))
    (audit : P (audit : MapM κ ν _)) (op : Op κ ν) (hi : ∀ t v, op ≠ .insert t v)
    (hm : ∀ es, op ≠ .insertMany es) : P op.perform := by
  cases ht : op.tag? with
  | some t => exact h.perform_tag h.bind (hs t) ht (hi t)
  | none =>
    match op, ht with
    | .size, _ => exact h.bind (h.survey _) fun _ => h.pure _
    | .isEmpty, _ => exact h.bind (h.survey _) fun _ => h.pure _
    | .insertMany es, _ => exact absurd rfl (hm es)
    | .outermost side, _ => exact h.bind (h.outermost? side) fun _ => h.pure _
    | .eraseOwnPosition p, _ => exact h.bind (h.eraseOwnPosition p) fun _ => h.pure _
    | .erasePosition p, _ =>
      refine h.bind (h.erasePosition p) fun res => ?_
      cases res with
      | ok _ => exact h.pure _
      | error e => exact h.pure _
    | .clear, _ => exact h.bind clear fun _ => h.pure _
    | .audit, _ => exact h.bind audit fun _ => h.pure _
    | .iterate v pulls, _ => exact h.survey _
    | .walk start steps, _ => exact h.walk h.bind (h.cursor hs start) steps
    | .revise start steps, _ => exact h.revise h.bind (h.cursor hs start) steps

end Composes
end Map
end OrderedMap
