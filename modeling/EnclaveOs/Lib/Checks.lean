import Mathlib.Tactic

/-!
# Sequences of checks

A sequence of checks passes when every one of them does.
-/

namespace EnclaveOs.Lib

variable {ε ε' α β : Type}

def demand (p : Prop) [Decidable p] (e : ε) : Except ε Unit := if p then .ok () else .error e

def ok_or (o : Option α) (e : ε) : Except ε α := o.elim (.error e) .ok

/-- On `usize`. -/
def checked_add (x y : Nat) : Option Nat := if x + y < 2 ^ 64 then some (x + y) else none

theorem checked_add_some {x y : Nat} (h : x + y < 2 ^ 64) : checked_add x y = some (x + y) := if_pos h

variable {e : ε} {a : α} {x : Except ε α}

@[simp] theorem demand_ok {p : Prop} [Decidable p] {u : Unit} : demand p e = .ok u ↔ p := by
  unfold demand
  split <;> simp_all

@[simp] theorem ok_or_ok {o : Option α} : ok_or o e = .ok a ↔ o = some a := by
  cases o <;> simp [ok_or]

theorem except_bind_ok {f : α → Except ε β} {b : β} : (x >>= f) = .ok b ↔ ∃ a, x = .ok a ∧ f a = .ok b := by
  cases x <;> simp [bind, Except.bind]

theorem except_bind_error {f : α → Except ε β} :
    (x >>= f) = .error e ↔ x = .error e ∨ ∃ a, x = .ok a ∧ f a = .error e := by
  cases x <;> simp [bind, Except.bind]

@[simp] theorem except_mapError_ok {f : ε → ε'} : x.mapError f = .ok a ↔ x = .ok a := by
  cases x <;> simp [Except.mapError]

@[simp] theorem except_pure_ok {b : α} : (pure a : Except ε α) = .ok b ↔ a = b := by
  simp [pure, Except.pure]

end EnclaveOs.Lib
