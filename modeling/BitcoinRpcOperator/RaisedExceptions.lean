import Mathlib.Logic.Basic

/-!
# Computations that return or raise

What an `Except` computation returns and what it raises, step by step. `RaisesOnly H`
bounds the exceptions; it is the dual of a postcondition, and each rule is an equivalence, so
that the rules compute when a computation keeps to `H`.
-/

namespace BitcoinRpcOperator.RaisedExceptions

variable {ε ε' α β : Type} {H : ε → Prop}

theorem bind_eq_ok {x : Except ε α} {f : α → Except ε β} {b : β} :
    x >>= f = .ok b ↔ ∃ a, x = .ok a ∧ f a = .ok b := by
  cases x with
  | error e => exact ⟨nofun, fun ⟨a, h, _⟩ => nomatch h⟩
  | ok a => exact ⟨fun h => ⟨a, rfl, h⟩, fun ⟨a', h, h'⟩ => Except.ok.inj h ▸ h'⟩

theorem mapError_eq_ok {x : Except ε' α} {g : ε' → ε} {a : α} :
    x.mapError g = .ok a ↔ x = .ok a := by
  cases x with
  | error e => exact iff_of_false nofun nofun
  | ok b => exact ⟨fun h => congrArg _ (Except.ok.inj h), fun h => congrArg _ (Except.ok.inj h)⟩

/-- Whatever `x` raises satisfies `H`. -/
def RaisesOnly (H : ε → Prop) (x : Except ε α) : Prop := ∀ e, x = .error e → H e

@[simp] theorem raisesOnly_ok (a : α) : RaisesOnly H (.ok a : Except ε α) := nofun

@[simp] theorem raisesOnly_pure (a : α) : RaisesOnly H (pure a : Except ε α) := nofun

@[simp] theorem raisesOnly_error (e : ε) : RaisesOnly H (.error e : Except ε α) ↔ H e :=
  ⟨fun h => h e rfl, fun h _ he => Except.error.inj he ▸ h⟩

theorem raisesOnly_bind {x : Except ε α} {f : α → Except ε β} :
    RaisesOnly H (x >>= f) ↔ RaisesOnly H x ∧ ∀ a, x = .ok a → RaisesOnly H (f a) := by
  cases x with
  | error e =>
    change RaisesOnly H (.error e) ↔ _
    rw [raisesOnly_error, raisesOnly_error]
    exact (and_iff_left nofun).symm
  | ok a =>
    constructor
    · exact fun h => ⟨nofun, fun a' ha' => Except.ok.inj ha' ▸ h⟩
    · exact fun h => h.2 a rfl

theorem raisesOnly_map {x : Except ε α} {g : α → β} :
    RaisesOnly H (x >>= fun a => pure (g a)) ↔ RaisesOnly H x := by
  rw [raisesOnly_bind]
  exact and_iff_left fun _ _ => raisesOnly_pure _

theorem raisesOnly_mapError {x : Except ε' α} {g : ε' → ε} :
    RaisesOnly H (x.mapError g) ↔ ∀ e, x = .error e → H (g e) := by
  cases x with
  | error e =>
    change RaisesOnly H (.error (g e)) ↔ _
    rw [raisesOnly_error]
    exact ⟨fun h _ he => Except.error.inj he ▸ h, fun h => h e rfl⟩
  | ok a => exact iff_of_true (raisesOnly_ok a) nofun

end BitcoinRpcOperator.RaisedExceptions
