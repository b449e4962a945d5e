/-!
# Outcomes: a value, an error, a panic

What a call of fallible code ends in (`Outcome`): it returns a value or an
error, or it panics. `bind` runs the rest of a computation on a value and
passes errors and panics on; `bind_eq_ok` takes a computation that returned
apart into its steps, and `Safe.bind` shows step by step that a computation
does not panic. A method on `&mut self` is an `Action`: it leaves a state also
when it fails.
-/

namespace LG

/-- The outcome of a call that may return a value, return an error, or
panic. -/
inductive Outcome (ε α : Type) where
  | ok (a : α)
  | err (e : ε)
  | panic
  deriving DecidableEq, Repr

namespace Outcome

variable {ε ε' α β : Type}

/-- The rest of a computation, on a value. -/
def bind (x : Outcome ε α) (f : α → Outcome ε β) : Outcome ε β :=
  match x with
  | ok a => f a
  | err e => err e
  | panic => panic

instance : Monad (Outcome ε) where
  pure := ok
  bind := bind

/-- `map`. -/
def map (f : α → β) : Outcome ε α → Outcome ε β
  | ok a => ok (f a)
  | err e => err e
  | panic => panic

/-- A `Result`, where nothing panics. -/
def ofExcept : Except ε α → Outcome ε α
  | .ok a => ok a
  | .error e => err e

/-- `map_err`. -/
def mapErr (f : ε → ε') : Outcome ε α → Outcome ε' α
  | ok a => ok a
  | err e => err (f e)
  | panic => panic

/-- `expect`: `none` panics. -/
def expect : Option α → Outcome ε α
  | some a => ok a
  | none => panic

/-- `is_ok`. -/
def isOk : Outcome ε α → Bool
  | ok _ => true
  | _ => false

theorem isOk_iff {x : Outcome ε α} : x.isOk = true ↔ ∃ a, x = ok a := by
  cases x <;> simp [isOk]

theorem err_ne_ok (e : ε) (a : α) : err e ≠ ok a := by
  intro h
  cases h

theorem panic_ne_ok (a : α) : (panic : Outcome ε α) ≠ ok a := by
  intro h
  cases h

@[simp] theorem pure_eq (a : α) : (pure a : Outcome ε α) = ok a := rfl

@[simp] theorem bind_ok (a : α) (f : α → Outcome ε β) : (ok a >>= f) = f a := rfl

@[simp] theorem bind_err (e : ε) (f : α → Outcome ε β) : (err e >>= f) = err e := rfl

@[simp] theorem bind_panic (f : α → Outcome ε β) : (panic >>= f) = panic := rfl

theorem bind_pure (x : Outcome ε α) : (x >>= pure) = x := by
  cases x with
  | ok a => rfl
  | err e => rfl
  | panic => rfl

instance : LawfulMonad (Outcome ε) :=
  LawfulMonad.mk' (Outcome ε) (fun x => bind_pure x) (fun _ _ => rfl)
    (fun x _ _ => by cases x <;> rfl)

/-- A computation that returned, step by step. -/
theorem bind_eq_ok {x : Outcome ε α} {f : α → Outcome ε β} {b : β} :
    (x >>= f) = ok b ↔ ∃ a, x = ok a ∧ f a = ok b := by
  cases x with
  | ok a => simp
  | err e => simp
  | panic => simp

@[simp] theorem map_ok (f : α → β) (a : α) : (ok a : Outcome ε α).map f = ok (f a) := rfl

@[simp] theorem map_err (f : α → β) (e : ε) : (err e : Outcome ε α).map f = err e := rfl

@[simp] theorem map_panic (f : α → β) : (panic : Outcome ε α).map f = panic := rfl

theorem map_eq_panic {f : α → β} {x : Outcome ε α} : x.map f = panic ↔ x = panic := by
  cases x <;> simp

theorem map_id (x : Outcome ε α) : x.map (fun a => a) = x := by
  cases x <;> rfl

theorem map_map {γ : Type} (g : β → γ) (f : α → β) (x : Outcome ε α) :
    (x.map f).map g = x.map fun a => g (f a) := by
  cases x <;> rfl

@[simp] theorem ofExcept_ok (a : α) : (ofExcept (.ok a) : Outcome ε α) = ok a := rfl

@[simp] theorem ofExcept_error (e : ε) : (ofExcept (.error e) : Outcome ε α) = err e := rfl

/-- Where the value is dropped, an error is that of the outcome. -/
theorem bind_pure_eq_err {x : Outcome ε α} {b : β} {e : ε}
    (h : (x >>= fun _ => pure b) = (err e : Outcome ε β)) : x = err e := by
  cases x with
  | ok a => cases h
  | err e' =>
    cases h
    rfl
  | panic => cases h

theorem ofExcept_eq_ok {x : Except ε α} {a : α} : ofExcept x = ok a ↔ x = .ok a := by
  cases x <;> simp

theorem mapErr_eq_ok {x : Outcome ε α} {f : ε → ε'} {a : α} : mapErr f x = ok a ↔ x = ok a := by
  cases x <;> simp [mapErr]

@[simp] theorem expect_some (a : α) : (expect (some a) : Outcome ε α) = ok a := rfl

theorem expect_eq_ok {x : Option α} {a : α} : (expect x : Outcome ε α) = ok a ↔ x = some a := by
  cases x <;> simp [expect]

/-- No panic, and what is returned satisfies `P`. -/
def Safe (P : α → Prop) : Outcome ε α → Prop
  | ok a => P a
  | err _ => True
  | panic => False

theorem Safe.ne_panic {P : α → Prop} {x : Outcome ε α} (h : x.Safe P) : x ≠ panic := by
  rintro rfl
  exact h

theorem safe_of_ne_panic {x : Outcome ε α} (h : x ≠ panic) : x.Safe fun _ => True := by
  cases x with
  | ok a => trivial
  | err e => trivial
  | panic => exact h rfl

theorem Safe.imp {P Q : α → Prop} {x : Outcome ε α} (h : x.Safe P) (hPQ : ∀ a, P a → Q a) :
    x.Safe Q := by
  cases x with
  | ok a => exact hPQ a h
  | err e => trivial
  | panic => exact h

theorem Safe.bind {P : α → Prop} {Q : β → Prop} {x : Outcome ε α} {f : α → Outcome ε β}
    (h : x.Safe P) (hf : ∀ a, P a → (f a).Safe Q) : (x >>= f).Safe Q := by
  cases x with
  | ok a => exact hf a h
  | err e => trivial
  | panic => exact h

theorem safe_expect {x : Option α} (h : x.isSome = true) :
    (expect x : Outcome ε α).Safe fun _ => True := by
  cases x with
  | none => cases h
  | some a => trivial

theorem safe_ofExcept (x : Except ε α) : (ofExcept x).Safe fun _ => True := by
  cases x with
  | ok a => trivial
  | error e => trivial

end Outcome

/-- A method that updates a state and may fail: the updates made before a
failure stay. -/
def Action (σ ε α : Type) := σ → Outcome ε α × σ

namespace Action

variable {σ ε α β : Type}

instance : Monad (Action σ ε) where
  pure a s := (.ok a, s)
  bind x f s :=
    match x s with
    | (.ok a, s) => f a s
    | (.err e, s) => (.err e, s)
    | (.panic, s) => (.panic, s)

/-- The state. -/
def get : Action σ ε σ := fun s => (.ok s, s)

/-- Updates the state. -/
def modify (f : σ → σ) : Action σ ε Unit := fun s => (.ok (), f s)

/-- A step that leaves the state alone. -/
def lift (x : Outcome ε α) : Action σ ε α := fun s => (x, s)

/-- `return Err(e)`. -/
def fail (e : ε) : Action σ ε α := lift (.err e)

theorem modify_apply (f : σ → σ) (s : σ) : (modify f : Action σ ε Unit) s = (.ok (), f s) := rfl

theorem bind_apply (x : Action σ ε α) (f : α → Action σ ε β) (s : σ) :
    (x >>= f) s = match x s with
      | (.ok a, s) => f a s
      | (.err e, s) => (.err e, s)
      | (.panic, s) => (.panic, s) := rfl

/-- The state that an action left when it returned. -/
theorem returned {x : Outcome ε α × σ} {a : α} (h : x.1 = .ok a) : ∃ s, x = (.ok a, s) :=
  ⟨x.2, Prod.ext h rfl⟩

/-- An action that returned, step by step. -/
theorem bind_eq_ok {x : Action σ ε α} {f : α → Action σ ε β} {s s' : σ} {b : β} :
    (x >>= f) s = (.ok b, s') ↔ ∃ a t, x s = (.ok a, t) ∧ f a t = (.ok b, s') := by
  rw [bind_apply]
  rcases x s with ⟨a | e | _, t⟩
  · constructor
    · exact fun h => ⟨a, t, rfl, h⟩
    · intro ⟨_, _, h, hf⟩
      cases h
      exact hf
  · simp
  · simp

theorem bind_of_ok {x : Action σ ε α} {f : α → Action σ ε β} {s t : σ} {a : α}
    (h : x s = (.ok a, t)) : (x >>= f) s = f a t := by
  rw [bind_apply, h]

/-- Where the first step ends an action, the rest does not matter. -/
theorem bind_of_ne_ok {x : Action σ ε α} {f g : α → Action σ ε β} {s : σ}
    (h : ∀ a t, x s ≠ (.ok a, t)) : (x >>= f) s = (x >>= g) s := by
  rw [bind_apply, bind_apply]
  rcases hx : x s with ⟨a | e | _, t⟩
  · exact absurd hx (h a t)
  · rfl
  · rfl

/-- An action panics in its first step or in the rest. -/
theorem bind_panic_iff {x : Action σ ε α} {f : α → Action σ ε β} {s : σ} :
    ((x >>= f) s).1 = .panic ↔
      (x s).1 = .panic ∨ ∃ a t, x s = (.ok a, t) ∧ (f a t).1 = .panic := by
  rw [bind_apply]
  rcases x s with ⟨a | e | _, t⟩
  · refine ⟨fun h => .inr ⟨a, t, rfl, h⟩, ?_⟩
    rintro (h | ⟨_, _, h, hf⟩)
    · cases h
    · cases h
      exact hf
  · simp
  · simp

/-- What an action leaves: where its first step ended it, or where the rest
did. -/
theorem bind_leaves {x : Action σ ε α} {f : α → Action σ ε β} {s : σ} {P : σ → Prop}
    (hf : ∀ a t, x s = (.ok a, t) → P (f a t).2) (hx : (∀ a, (x s).1 ≠ .ok a) → P (x s).2) :
    P ((x >>= f) s).2 := by
  rw [bind_apply]
  rcases hxs : x s with ⟨a | e | _, t⟩
  · exact hf a t hxs
  · rw [hxs] at hx
    exact hx (by simp)
  · rw [hxs] at hx
    exact hx (by simp)

theorem get_bind (f : σ → Action σ ε β) (s : σ) : (get >>= f) s = f s s := rfl

theorem modify_bind (g : σ → σ) (f : Unit → Action σ ε β) (s : σ) :
    (modify g >>= f) s = f () (g s) := rfl

/-- A check that passed. -/
theorem guard_eq_ok {p : Prop} [Decidable p] {e : ε} {s s' : σ} :
    (if p then fail e else pure () : Action σ ε Unit) s = (.ok (), s') ↔ ¬ p ∧ s' = s := by
  by_cases h : p
  · rw [if_pos h]
    exact iff_of_false (by simp [fail, lift]) fun hn => hn.1 h
  · rw [if_neg h]
    exact ⟨fun heq => ⟨h, (Prod.mk.inj heq).2.symm⟩, fun heq => by rw [heq.2]; rfl⟩

theorem lift_ok_bind (a : α) (f : α → Action σ ε β) (s : σ) : (lift (.ok a) >>= f) s = f a s := rfl

/-- A lifted step leaves the state for the rest, or as it ends the action. -/
theorem lift_bind_leaves {x : Outcome ε α} {f : α → Action σ ε β} {s : σ} {P : σ → Prop}
    (hf : ∀ a, x = .ok a → P (f a s).2) (hs : P s) : P ((lift x >>= f) s).2 := by
  apply bind_leaves
  · intro a t hx
    cases hx
    exact hf a rfl
  · exact fun _ => hs

theorem lift_bind_eq_ok {x : Outcome ε α} {f : α → Action σ ε β} {s s' : σ} {b : β} :
    (lift x >>= f) s = (.ok b, s') ↔ ∃ a, x = .ok a ∧ f a s = (.ok b, s') := by
  rw [bind_eq_ok]
  constructor
  · intro ⟨a, t, hx, hf⟩
    cases hx
    exact ⟨a, rfl, hf⟩
  · rintro ⟨a, rfl, hf⟩
    exact ⟨a, s, rfl, hf⟩

end Action

end LG
