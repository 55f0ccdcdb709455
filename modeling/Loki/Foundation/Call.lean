import Mathlib.Logic.Basic

/-!
# Calls that mutate an object and may fail

A method `fn f(&mut self, ..) -> Result<T, E>` is a state-passing computation whose state
survives an error: what was written before an early return stays written.  A panic ends the
call as well, and is kept apart from the errors the method declares.

`Call.Ensures` is the postcondition of one call from one state, over all its outcomes.  Longer
methods are verified by `Ensures.bind`, with the specification of each method they call as the
intermediate assertion.
-/

namespace Loki.Foundation

open ExceptT (mk run)

inductive Fault (ε : Type) where
  | error (e : ε)
  | panic (message : String)
  deriving DecidableEq, Repr

/-- The result of a function that fails with a text, or panics. -/
abbrev Outcome (α : Type) := Except (Fault String) α

/-- A method on an object of type `σ` with error type `ε`. -/
abbrev Call (σ ε : Type) := ExceptT (Fault ε) (StateM σ)

/-- `ensure!(condition, e)`. -/
def ensure {ε : Type} (condition : Prop) [Decidable condition] (e : ε) : Except ε Unit :=
  if condition then .ok () else .error e

@[simp] theorem ensure_eq_ok {ε} {condition : Prop} [Decidable condition] {e : ε}
    {u} : ensure condition e = .ok u ↔ condition := by
  unfold ensure
  split <;> simp_all

theorem ensure_of {ε} {condition : Prop} [Decidable condition] (e : ε)
    (h : condition) : ensure condition e = .ok () :=
  ensure_eq_ok.mpr h

/-- `expect` and `ok_or`: the error to use when there is no value. -/
def okOr {ε α : Type} (x : Option α) (e : ε) : Except ε α :=
  match x with
  | some a => .ok a
  | none => .error e

@[simp] theorem okOr_eq_ok {ε α} {x : Option α} {e : ε} {a} : okOr x e = .ok a ↔ x = some a := by
  cases x <;> simp [okOr]

/-- `map_err`. -/
def mapErr {ε ε' α : Type} (f : ε → ε') : Except ε α → Except ε' α
  | .ok a => .ok a
  | .error e => .error (f e)

@[simp] theorem mapErr_eq_ok {ε ε' α} {f : ε → ε'} {x : Except ε α} {a} :
    mapErr f x = .ok a ↔ x = .ok a := by
  cases x <;> simp [mapErr]

@[simp] theorem bind_eq_ok {ε α β} {x : Except ε α} {f : α → Except ε β} {b} :
    (x >>= f) = .ok b ↔ ∃ a, x = .ok a ∧ f a = .ok b := by
  cases x with
  | error | ok => simp [bind, Except.bind]

@[simp] theorem pure_eq_ok {ε α} {a b : α} : (pure a : Except ε α) = .ok b ↔ a = b := by
  simp [pure, Except.pure]

namespace Call

variable {σ τ ε α β : Type}

def exec (x : Call σ ε α) (s : σ) : Except (Fault ε) α × σ := StateT.run (run x) s

def lift (x : Except (Fault ε) α) : Call σ ε α := mk (pure x)

def fail (e : ε) : Call σ ε α := lift (.error (.error e))

def check (x : Except ε α) : Call σ ε α := lift (mapErr Fault.error x)

def gets (f : σ → α) : Call σ ε α := mk fun s => (.ok (f s), s)

def modify (f : σ → σ) : Call σ ε Unit := mk fun s => (.ok (), f s)

/-- Run a method of a component: `self.component.method(..)`. -/
def onPart (get : σ → τ) (set : σ → τ → σ) (x : Call τ ε α) : Call σ ε α :=
  mk fun s => ((x.exec (get s)).1, set s (x.exec (get s)).2)

def attempt (x : Call σ ε α) : Call σ ε (Except (Fault ε) α) :=
  mk fun s => (.ok (x.exec s).1, (x.exec s).2)

@[simp] theorem exec_pure (a : α) (s : σ) : (pure a : Call σ ε α).exec s = (.ok a, s) := rfl

@[simp] theorem exec_lift (x : Except (Fault ε) α) (s : σ) :
    (lift x : Call σ ε α).exec s = (x, s) := rfl

@[simp] theorem exec_fail (e : ε) (s : σ) :
    (fail e : Call σ ε α).exec s = (.error (.error e), s) := rfl

@[simp] theorem exec_check (x : Except ε α) (s : σ) :
    (check x : Call σ ε α).exec s = (mapErr Fault.error x, s) := rfl

@[simp] theorem exec_gets (f : σ → α) (s : σ) : (gets f : Call σ ε α).exec s = (.ok (f s), s) := rfl

@[simp] theorem exec_modify (f : σ → σ) (s : σ) :
    (modify f : Call σ ε Unit).exec s = (.ok (), f s) := rfl

@[simp] theorem exec_onPart (get : σ → τ) (set : σ → τ → σ) (x : Call τ ε α) (s : σ) :
    (onPart get set x : Call σ ε α).exec s = ((x.exec (get s)).1, set s (x.exec (get s)).2) := rfl

variable (x : Call σ ε α)

@[simp] theorem exec_attempt (s : σ) :
    x.attempt.exec s = (.ok (x.exec s).1, (x.exec s).2) := rfl

theorem exec_bind (f : α → Call σ ε β) (s : σ) :
    (x >>= f).exec s =
      match x.exec s with
      | (.ok a, t) => (f a).exec t
      | (.error e, t) => (.error e, t) := by
  unfold exec
  simp only [ExceptT.run_bind, StateT.run_bind]
  rcases h : StateT.run (run x) s with ⟨r, t⟩
  cases r <;> rfl

/-- Every outcome of the call from `s`, its result and the state it leaves, satisfies `post`. -/
def Ensures (s : σ) (post : Except (Fault ε) α → σ → Prop) : Prop :=
  post (x.exec s).1 (x.exec s).2

variable {s : σ} {x : Call σ ε α} {f : α → Call σ ε β}
  {mid : Except (Fault ε) α → σ → Prop} {post : Except (Fault ε) β → σ → Prop}

theorem Ensures.mono {post post'} (h : x.Ensures s post)
    (hpost : ∀ r t, post r t → post' r t) : x.Ensures s post' :=
  hpost _ _ h

theorem Ensures.bind (hx : x.Ensures s mid) (hok : ∀ a t, mid (.ok a) t → (f a).Ensures t post)
    (herr : ∀ e t, mid (.error e) t → post (.error e) t) : (x >>= f).Ensures s post := by
  unfold Ensures at hx ⊢
  rw [exec_bind]
  rcases h : x.exec s with ⟨r, t⟩
  rw [h] at hx
  cases r with
  | ok a => exact hok a t hx
  | error e => exact herr e t hx

theorem ensures_pure {post} {a : α} (h : post (.ok a) s) : (pure a : Call σ ε α).Ensures s post := h

/-- A check followed by the rest of the method. -/
theorem ensures_check_bind {x} (hok : ∀ a, x = .ok a → (f a).Ensures s post)
    (herr : ∀ e, x = .error e → post (.error (.error e)) s) :
    (check x >>= f : Call σ ε β).Ensures s post := by
  have hmid : (check x : Call σ ε α).Ensures s
      (fun r t => r = mapErr Fault.error x ∧ t = s) := ⟨rfl, rfl⟩
  refine hmid.bind ?_ ?_
  · rintro a t ⟨ha, rfl⟩
    exact hok a (mapErr_eq_ok.mp ha.symm)
  · rintro e t ⟨he, rfl⟩
    cases x with
    | ok => simp [mapErr] at he
    | error e' =>
      simp only [mapErr, Except.error.injEq] at he
      exact he ▸ herr e' rfl

theorem ensures_gets_bind {g} (h : (f (g s)).Ensures s post) :
    (gets g >>= f : Call σ ε β).Ensures s post := by
  unfold Ensures at h ⊢
  exact h

end Call

end Loki.Foundation
