import LineBasic.Proofs.Expression.Run

/-! A change of the state that a computation does not notice, together with what holds before and after
it. With no change at all this is a triple: a precondition, a condition on each result, and one on the
states in which it fails. -/

namespace LineBasic

/-- From the state `s` on, `x` leads to a result that fits `Q`, or fails in a state that fits `E`; and on
the changed state `y` does what `x` does here. -/
def CommutesAt {σ α : Type} (T : σ → σ) (s : σ) (x y : ExceptT Condition (StateM σ) α)
    (Q : α → σ → Prop) (E : σ → Prop) : Prop :=
  y (T s) = ((x s).1, T (x s).2) ∧
    match (x s).1 with
    | .ok a => Q a (x s).2
    | .error _ => E (x s).2

/-- Where `P` holds, it is the same to change the state by `T` before `x` or after it. -/
def Commutes {σ α : Type} (T : σ → σ) (P : σ → Prop) (x : ExceptT Condition (StateM σ) α)
    (Q : α → σ → Prop) (E : σ → Prop) : Prop :=
  ∀ s, P s → CommutesAt T s x x Q E

/-- A computation that keeps `P`, whatever it comes to. -/
abbrev Steady {σ α : Type} (T : σ → σ) (P : σ → Prop) (x : ExceptT Condition (StateM σ) α) : Prop :=
  Commutes T P x (fun _ => P) P

section

variable {σ α β : Type} {T : σ → σ} {P E : σ → Prop} {x y : ExceptT Condition (StateM σ) α}
  {f g : α → ExceptT Condition (StateM σ) β} {Q : α → σ → Prop} {R : β → σ → Prop} {s s' t : σ}

namespace CommutesAt

/-- What is read is a part of the state that may be changed by `T`. -/
theorem get {f : σ → ExceptT Condition (StateM σ) β} (h : CommutesAt T s (f s) (f (T s)) R E) :
    CommutesAt T s (get >>= f) (get >>= f) R E := h

theorem lift {r r' : Except Condition α} (hr : r' = r) (hE : E s)
    (h : ∀ a, r = .ok a → CommutesAt T s (f a) (g a) R E) :
    CommutesAt T s (liftM r >>= f) (liftM r' >>= g) R E := by
  subst hr
  cases r' with
  | ok a => exact h a rfl
  | error e => exact ⟨rfl, hE⟩

theorem set (ht : t = T s') {k l : ExceptT Condition (StateM σ) β} (h : CommutesAt T s' k l R E) :
    CommutesAt T s (set s' >>= fun _ => k) (set t >>= fun _ => l) R E := by
  subst ht
  exact h

theorem modify {change change' : σ → σ} (ht : change' (T s) = T (change s))
    {k l : ExceptT Condition (StateM σ) β} (h : CommutesAt T (change s) k l R E) :
    CommutesAt T s (modify change >>= fun _ => k) (modify change' >>= fun _ => l) R E :=
  set (s := s) ht h

theorem bind (hx : CommutesAt T s x y Q E) (hf : ∀ a s', Q a s' → CommutesAt T s' (f a) (g a) R E) :
    CommutesAt T s (x >>= f) (y >>= g) R E := by
  unfold CommutesAt at hx ⊢
  cases hr : x s with
  | mk r s' =>
    rw [hr] at hx
    cases r with
    | error e =>
      rw [bind_of_error hr, bind_of_error hx.1]
      exact ⟨rfl, hx.2⟩
    | ok a =>
      rw [bind_of_ok hr, bind_of_ok hx.1]
      exact hf a s' hx.2

theorem ok {a : α} (h : CommutesAt T s x y Q E) (hx : x s = (.ok a, s')) :
    y (T s) = (.ok a, T s') ∧ Q a s' := by
  unfold CommutesAt at h
  rw [hx] at h
  exact h

theorem error {e : Condition} (h : CommutesAt T s x y Q E) (hx : x s = (.error e, s')) :
    y (T s) = (.error e, T s') ∧ E s' := by
  unfold CommutesAt at h
  rw [hx] at h
  exact h

/-- What holds in both cases holds in the end. -/
theorem snd (h : CommutesAt T s x y (fun _ => P) P) : P (x s).2 := by
  obtain ⟨-, hpost⟩ := h
  split at hpost <;> exact hpost

theorem mono {Q' : α → σ → Prop} {E' : σ → Prop} (h : CommutesAt T s x y Q E)
    (hQ : ∀ a s, Q a s → Q' a s) (hE : ∀ s, E s → E' s) : CommutesAt T s x y Q' E' := by
  obtain ⟨hT, hpost⟩ := h
  refine ⟨hT, ?_⟩
  split at hpost
  · exact hQ _ _ hpost
  · exact hE _ hpost

end CommutesAt

namespace Commutes

theorem pure {a : α} (h : ∀ s, P s → Q a s) : Commutes T P (pure a) Q E := fun s hs => ⟨rfl, h s hs⟩

theorem throw (e : Condition) (h : ∀ s, P s → E s) :
    Commutes T P (throw e : ExceptT Condition (StateM σ) α) Q E :=
  fun s hs => ⟨rfl, h s hs⟩

theorem bind (hx : Commutes T P x Q E) (hf : ∀ a, Commutes T (Q a) (f a) R E) :
    Commutes T P (x >>= f) R E :=
  fun s hs => (hx s hs).bind fun a s' h => hf a s' h

theorem modify {P' : σ → Prop} {change : σ → σ} (hT : ∀ s, P s → change (T s) = T (change s))
    (hP : ∀ s, P s → P' (change s)) :
    Commutes T P (modify change : ExceptT Condition (StateM σ) PUnit) (fun _ => P') E :=
  fun s hs => ⟨congrArg (Prod.mk _) (hT s hs), hP s hs⟩

theorem mono {P' E' : σ → Prop} {Q' : α → σ → Prop} (h : Commutes T P x Q E) (hP : ∀ s, P' s → P s)
    (hQ : ∀ a s, Q a s → Q' a s) (hE : ∀ s, E s → E' s) : Commutes T P' x Q' E' :=
  fun s hs => (h s (hP s hs)).mono hQ hE

end Commutes

namespace Steady

theorem pure (a : α) : Steady T P (pure a) := Commutes.pure fun _ hs => hs

theorem throw (e : Condition) : Steady T P (throw e : ExceptT Condition (StateM σ) α) :=
  Commutes.throw e fun _ hs => hs

theorem lift (r : Except Condition α) : Steady T P (liftM r : ExceptT Condition (StateM σ) α) := by
  intro s hs
  cases r with
  | ok a => exact ⟨rfl, hs⟩
  | error e => exact ⟨rfl, hs⟩

theorem modify {change : σ → σ} (hT : ∀ s, change (T s) = T (change s)) (hP : ∀ s, P s → P (change s)) :
    Steady T P (modify change : ExceptT Condition (StateM σ) PUnit) :=
  Commutes.modify (fun s _ => hT s) hP

theorem bind (hx : Steady T P x) (hf : ∀ a, Steady T P (f a)) : Steady T P (x >>= f) :=
  Commutes.bind hx hf

/-- What is steady may stand before anything else. -/
theorem before (hx : Steady T P x) (hf : ∀ a, Commutes T P (f a) R P) : Commutes T P (x >>= f) R P :=
  Commutes.bind hx hf

/-- What is kept is kept also by a failure. -/
theorem snd (h : Steady T P x) (hs : P s) : P (x s).2 := (h s hs).snd

/-- What is known of every result may be used as well. -/
theorem result (h : Steady T P x) (hQ : ∀ s a s', x s = (.ok a, s') → Q a s') :
    Commutes T P x (fun a s => P s ∧ Q a s) P := by
  intro s hs
  obtain ⟨hT, hpost⟩ := h s hs
  refine ⟨hT, ?_⟩
  cases hx : x s with
  | mk r s' =>
    rw [hx] at hpost
    cases r with
    | ok a => exact ⟨hpost, hQ s a s' hx⟩
    | error e => exact hpost

/-- Items with separators between them. -/
theorem separated {separator : ExceptT Condition (StateM σ) Bool} (hsep : Steady T P separator)
    (hitem : Steady T P x) (n : Nat) : Steady T P (separated separator x n) := by
  induction n with
  | zero => exact hitem.bind fun a => pure _
  | succ n ih =>
    refine hitem.bind fun a => hsep.bind fun more => ?_
    cases more with
    | true => exact ih.bind fun as => pure _
    | false => exact pure _

end Steady

end

end LineBasic
