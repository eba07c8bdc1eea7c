import OrderedMap.Arena.Edit

/-!
What an action that may end in a fault is sure to achieve. An action yields a condition if it ends
without a fault, with a result and a state that meet the condition. Reading never changes the state
and succeeds where the nodes asked for are there.
-/
namespace OrderedMap

section Actions

variable {ε σ α β : Type}

/-- The action ends without a fault, and what it ends with meets the condition. -/
def Yields (x : EStateM ε σ α) (s : σ) (post : α → σ → Prop) : Prop :=
  ∃ r t, x s = .ok r t ∧ post r t

namespace Yields

variable {x : EStateM ε σ α} {s : σ} {post post' : α → σ → Prop}

theorem of_eq {r : α} {t : σ} (h : x s = .ok r t) (hp : post r t) : Yields x s post :=
  ⟨r, t, h, hp⟩

theorem mono (h : Yields x s post) (hp : ∀ r t, post r t → post' r t) : Yields x s post' := by
  obtain ⟨r, t, hx, hr⟩ := h
  exact ⟨r, t, hx, hp r t hr⟩

theorem bind {f : α → EStateM ε σ β} {next : β → σ → Prop} (h : Yields x s post)
    (hf : ∀ r t, post r t → Yields (f r) t next) : Yields (x >>= f) s next := by
  obtain ⟨r, t, hx, hr⟩ := h
  obtain ⟨r', t', hf, hr'⟩ := hf r t hr
  refine ⟨r', t', ?_, hr'⟩
  simp only [Bind.bind, EStateM.bind, hx, hf]

/-- What is done with a result may be exchanged for something that does the same with it. -/
theorem bind_congr {f g : α → EStateM ε σ β} (h : Yields x s post)
    (hf : ∀ r t, post r t → f r t = g r t) : (x >>= f) s = (x >>= g) s := by
  obtain ⟨r, t, hx, hr⟩ := h
  simp only [Bind.bind, EStateM.bind, hx]
  exact hf r t hr

end Yields

theorem yields_of_eq {x : EStateM ε σ α} {s t : σ} {r : α} {post : α → σ → Prop}
    (h : x s = .ok r t) : Yields x s post ↔ post r t := by
  constructor
  · rintro ⟨r', t', h', hp⟩
    rw [h] at h'
    cases h'
    exact hp
  · exact .of_eq h

@[simp] theorem yields_pure {a : α} {s : σ} {post : α → σ → Prop} :
    Yields (pure a : EStateM ε σ α) s post ↔ post a s := yields_of_eq rfl

theorem bind_of_eq {x : EStateM ε σ α} {f : α → EStateM ε σ β} {s t : σ} {r : α}
    (h : x s = .ok r t) : (x >>= f) s = f r t := by
  simp only [Bind.bind, EStateM.bind, h]

theorem bind_eq_ok {x : EStateM ε σ α} {f : α → EStateM ε σ β} {s t : σ} {r : β} :
    (x >>= f) s = .ok r t ↔ ∃ a u, x s = .ok a u ∧ f a u = .ok r t := by
  constructor
  · intro h
    simp only [Bind.bind, EStateM.bind] at h
    split at h
    · rename_i a u hx
      exact ⟨a, u, hx, h⟩
    · cases h
  · rintro ⟨a, u, hx, h⟩
    rwa [bind_of_eq hx]

theorem bind_congr_left {x y : EStateM ε σ α} {f : α → EStateM ε σ β} {s : σ} (h : x s = y s) :
    (x >>= f) s = (y >>= f) s := by
  simp only [Bind.bind, EStateM.bind, h]

/-- What the action ends with, a result or a fault, meets the condition. -/
def Ends (x : EStateM ε σ α) (s : σ) (post : Except ε α → σ → Prop) : Prop :=
  match x s with
  | .ok r t => post (.ok r) t
  | .error e t => post (.error e) t

theorem Yields.ends {x : EStateM ε σ α} {s : σ} {post : α → σ → Prop}
    {q : Except ε α → σ → Prop} (h : Yields x s post) (hp : ∀ r t, post r t → q (.ok r) t) :
    Ends x s q := by
  obtain ⟨r, t, hx, hr⟩ := h
  rw [Ends, hx]
  exact hp r t hr

theorem Yields.bind_ends {x : EStateM ε σ α} {s : σ} {post : α → σ → Prop} {f : α → EStateM ε σ β}
    {q : Except ε β → σ → Prop} (h : Yields x s post)
    (hf : ∀ r t, post r t → Ends (f r) t q) : Ends (x >>= f) s q := by
  obtain ⟨r, t, hx, hr⟩ := h
  have he := hf r t hr
  unfold Ends at he ⊢
  simp only [Bind.bind, EStateM.bind, hx]
  exact he

theorem Ends.bind {x : EStateM ε σ α} {s : σ} {post : Except ε α → σ → Prop} {f : α → EStateM ε σ β}
    {q : Except ε β → σ → Prop} (h : Ends x s post)
    (ok : ∀ r t, post (.ok r) t → Ends (f r) t q)
    (error : ∀ e t, post (.error e) t → q (.error e) t) : Ends (x >>= f) s q := by
  unfold Ends at h
  cases hx : x s with
  | ok r t =>
    rw [hx] at h
    have he := ok r t h
    unfold Ends at he ⊢
    simp only [Bind.bind, EStateM.bind, hx]
    exact he
  | error e t =>
    rw [hx] at h
    unfold Ends
    simp only [Bind.bind, EStateM.bind, hx]
    exact error e t h

theorem Ends.mono {x : EStateM ε σ α} {s : σ} {post q : Except ε α → σ → Prop}
    (h : Ends x s post) (hp : ∀ r t, post r t → q r t) : Ends x s q := by
  unfold Ends at h ⊢
  split <;> rename_i hx <;> rw [hx] at h <;> exact hp _ _ h

theorem Ends.bind_pure {x : EStateM ε σ α} {s : σ} {post : Except ε α → σ → Prop}
    {q : Except ε β → σ → Prop} {f : α → β} (h : Ends x s post)
    (hp : ∀ r t, post r t → q (r.map f) t) : Ends (x >>= fun a => pure (f a)) s q := by
  unfold Ends at h ⊢
  simp only [Bind.bind, EStateM.bind]
  cases hx : x s with
  | ok r t =>
    rw [hx] at h
    exact hp _ _ h
  | error e t =>
    rw [hx] at h
    exact hp _ _ h

/-- An action whose result is only put another way. -/
theorem Yields.ends_with {x : EStateM ε σ α} {s : σ} {f : α → β} {q : Except ε β → σ → Prop}
    (h : Yields x s fun a t => q (.ok (f a)) t) : Ends (x >>= fun a => pure (f a)) s q := by
  refine h.bind_ends ?_
  intro a t ha
  exact ha

/-- What follows a choice belongs to each of its branches. -/
theorem ite_bind {m : Type → Type} [Monad m] {α β : Type} (c : Prop) [Decidable c] (x y : m α)
    (f : α → m β) : (if c then x else y) >>= f = if c then x >>= f else y >>= f := by
  split <;> rfl

theorem yields_bind {x : EStateM ε σ α} {f : α → EStateM ε σ β} {s : σ} {post : β → σ → Prop} :
    Yields (x >>= f) s post ↔ Yields x s fun r t => Yields (f r) t post := by
  constructor
  · rintro ⟨r, t, h, hp⟩
    obtain ⟨a, u, hx, hf⟩ := bind_eq_ok.mp h
    exact ⟨a, u, hx, r, t, hf, hp⟩
  · exact fun h => h.bind fun _ _ hf => hf

theorem Yields.and {x : EStateM ε σ α} {s : σ} {post post' : α → σ → Prop} (h : Yields x s post)
    (h' : Yields x s post') : Yields x s fun r t => post r t ∧ post' r t := by
  obtain ⟨r, t, hx, hr⟩ := h
  exact .of_eq hx ⟨hr, (yields_of_eq hx).mp h'⟩

/-- Two actions side by side: both end without a fault, and what they end with meets the
condition. -/
def Both (x : EStateM ε σ α) (y : EStateM ε σ β) (s t : σ) (post : α → β → σ → σ → Prop) : Prop :=
  Yields x s fun a s' => Yields y t fun b t' => post a b s' t'

namespace Both

variable {γ δ : Type} {x : EStateM ε σ α} {y : EStateM ε σ β} {s t : σ}
  {post : α → β → σ → σ → Prop}

theorem intro {p : α → σ → Prop} {q : β → σ → Prop} (hx : Yields x s p) (hy : Yields y t q)
    (h : ∀ a b s' t', p a s' → q b t' → post a b s' t') : Both x y s t post :=
  hx.mono fun a s' ha => hy.mono fun b t' hb => h a b s' t' ha hb

theorem mono {post' : α → β → σ → σ → Prop} (h : Both x y s t post)
    (hp : ∀ a b s' t', post a b s' t' → post' a b s' t') : Both x y s t post' :=
  Yields.mono h fun a s' ha => ha.mono fun b t' hb => hp a b s' t' hb

/-- What one of the actions achieves on its own. -/
theorem and_left {p : α → σ → Prop} (h : Both x y s t post) (hx : Yields x s p) :
    Both x y s t fun a b s' t' => post a b s' t' ∧ p a s' :=
  (h.and hx).mono fun _ _ ⟨hb, hp⟩ => hb.mono fun _ _ hq => ⟨hq, hp⟩

theorem and_ends {p : Except ε α → σ → Prop} {q : Except ε β → σ → Prop}
    (h : Both x y s t post) (hx : Ends x s p) (hy : Ends y t q) :
    Both x y s t fun a b s' t' => post a b s' t' ∧ p (.ok a) s' ∧ q (.ok b) t' := by
  obtain ⟨a, s', ha, b, t', hb, hp⟩ := h
  rw [Ends, ha] at hx
  rw [Ends, hb] at hy
  exact ⟨a, s', ha, b, t', hb, hp, hx, hy⟩

theorem and_right {q : β → σ → Prop} (h : Both x y s t post) (hy : Yields y t q) :
    Both x y s t fun a b s' t' => post a b s' t' ∧ q b t' :=
  Yields.mono h fun _ _ hb => hb.and hy

theorem bind {f : α → EStateM ε σ γ} {g : β → EStateM ε σ δ} {next : γ → δ → σ → σ → Prop}
    (h : Both x y s t post) (hf : ∀ a b s' t', post a b s' t' → Both (f a) (g b) s' t' next) :
    Both (x >>= f) (y >>= g) s t next := by
  obtain ⟨a, s', hx, b, t', hy, hp⟩ := h
  obtain ⟨c, s₁, hc, d, t₁, hd, hn⟩ := hf a b s' t' hp
  exact ⟨c, s₁, bind_eq_ok.mpr ⟨a, s', hx, hc⟩, d, t₁, bind_eq_ok.mpr ⟨b, t', hy, hd⟩, hn⟩

end Both

theorem both_bind_of_eq {γ δ : Type} {x : EStateM ε σ α} {y : EStateM ε σ β}
    {f : α → EStateM ε σ γ} {g : β → EStateM ε σ δ} {s s' t t' : σ} {a : α} {b : β}
    {post : γ → δ → σ → σ → Prop} (hx : x s = .ok a s') (hy : y t = .ok b t') :
    Both (x >>= f) (y >>= g) s t post ↔ Both (f a) (g b) s' t' post := by
  simp only [Both, Yields, bind_of_eq hx, bind_of_eq hy]

@[simp] theorem both_pure {a : α} {b : β} {s t : σ} {post : α → β → σ → σ → Prop} :
    Both (pure a : EStateM ε σ α) (pure b : EStateM ε σ β) s t post ↔ post a b s t :=
  yields_pure.trans yields_pure

/-- An action on a part of the state. -/
theorem yields_lift {τ : Type} {x : EStateM ε σ α} {y : EStateM ε τ α} {s : σ} {t : τ} {f : σ → τ}
    {post : α → τ → Prop} (h : y t = match x s with
      | .ok r s => .ok r (f s)
      | .error e s => .error e (f s)) :
    Yields y t post ↔ Yields x s fun r s => post r (f s) := by
  unfold Yields
  rw [h]
  cases hx : x s with
  | ok r u => simp [and_assoc]
  | error e u => simp

end Actions

namespace Arena

variable {κ ν α : Type}

theorem yields_inspect {q : Arena κ ν → Except Fault α} {a : Arena κ ν} {x : α}
    {post : α → Arena κ ν → Prop} (h : q a = .ok x) : Yields (inspect q) a post ↔ post x a :=
  yields_of_eq (by simp only [inspect, h])

theorem yields_alter {n : NodeId} {f : Node κ ν → Node κ ν} {a : Arena κ ν} {x : Node κ ν}
    {post : Unit → Arena κ ν → Prop} (h : a.get? n = some x) :
    Yields (alter n f) a post ↔ post () (a.put n (some (f x))) :=
  yields_of_eq (by simp only [alter, get?_eq_some_iff.mp h])

theorem yields_setRoot {n : Option NodeId} {a : Arena κ ν} {post : Unit → Arena κ ν → Prop} :
    Yields (setRoot n) a post ↔ post () { a with root := n } := yields_of_eq rfl

section Reading

variable {a : Arena κ ν} {n : NodeId} {x : Node κ ν}

theorem node_of_get? (h : a.get? n = some x) : a.node n = .ok x := get?_eq_some_iff.mp h

theorem node_of_vacant (h : a.get? n = none) : ∃ f, a.node n = .error f := by
  cases hn : a.node n with
  | error f => exact ⟨f, rfl⟩
  | ok x =>
    rw [get?_eq_some_iff.mpr hn] at h
    cases h

theorem parent_of_get? (h : a.get? n = some x) : a.parent n = .ok x.parent := by
  rw [parent, node_of_get? h]
  rfl

theorem child_of_get? (s : Side) (h : a.get? n = some x) : a.child s n = .ok (x.child s) := by
  rw [child, node_of_get? h]
  rfl

theorem color_of_get? (h : a.get? n = some x) : a.color n = .ok x.color := by
  rw [color, node_of_get? h]
  rfl

theorem isUnlinked_of_get? (h : a.get? n = some x) : a.isUnlinked n = .ok x.isUnlinked := by
  rw [isUnlinked, node_of_get? h]
  rfl

theorem isRed_of_get? (h : a.get? n = some x) : a.isRed (some n) = .ok (decide (x.color = .red)) :=
  by
  rw [isRed, color_of_get? h]
  rfl

theorem entry_of_get? {e : Entry κ ν} (h : a.get? n = some x) (he : x.entry = some e) :
    a.entry n = .ok e := by
  rw [entry, node_of_get? h]
  simp only [bind, Except.bind, he]
  rfl

theorem tag_of_get? {e : Entry κ ν} (h : a.get? n = some x) (he : x.entry = some e) :
    a.tag n = .ok e.tag := by
  rw [tag, entry_of_get? h he]
  rfl

theorem hangingSide_of_root (h : a.get? n = some x) (hp : x.parent = none) :
    a.hangingSide n = .ok none := by
  rw [hangingSide, parent_of_get? h]
  simp only [bind, Except.bind, hp]
  rfl

theorem hangingSide_of_child {p : NodeId} {y : Node κ ν} (h : a.get? n = some x)
    (hp : x.parent = some p) (hy : a.get? p = some y) :
    a.hangingSide n = .ok (some (if y.left = some n then .left else .right)) := by
  rw [hangingSide, parent_of_get? h]
  simp only [bind, Except.bind, hp, child_of_get? .left hy]
  rfl

end Reading
end Arena
end OrderedMap
