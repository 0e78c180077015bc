import Mathlib

/-!
# Programs that take one shared step at a time

A program stops, panics, or takes one step of a signature and goes on with the answer.
-/

namespace EnclaveOs.Lib

inductive Prog (Op : Type) (Ans : Op → Type) (α : Type) where
  | ret (a : α)
  | fail
  | step (o : Op) (k : Ans o → Prog Op Ans α)

namespace Prog

variable {Op : Type} {Ans : Op → Type} {α β γ : Type}

def bind : Prog Op Ans α → (α → Prog Op Ans β) → Prog Op Ans β
  | ret a, f => f a
  | fail, _ => fail
  | step o k, f => step o fun a => (k a).bind f

instance : Monad (Prog Op Ans) where
  pure := ret
  bind := bind

def perform (o : Op) : Prog Op Ans (Ans o) := step o ret

@[simp] theorem pure_eq (a : α) : (pure a : Prog Op Ans α) = ret a := rfl

@[simp] theorem ret_bind (a : α) (f : α → Prog Op Ans β) : (ret a : Prog Op Ans α) >>= f = f a := rfl

@[simp] theorem step_bind (o : Op) (k : Ans o → Prog Op Ans α) (f : α → Prog Op Ans β) :
    step o k >>= f = step o fun a => k a >>= f := rfl

@[simp] theorem bind_ret (x : Prog Op Ans α) : (x >>= fun a => ret a) = x := by
  induction x with
  | ret a | fail => rfl
  | step o k ih =>
    simp only [step_bind]
    congr 1
    funext a
    exact ih a

theorem bind_assoc (x : Prog Op Ans α) (f : α → Prog Op Ans β) (g : β → Prog Op Ans γ) :
    x >>= f >>= g = x >>= fun a => f a >>= g := by
  induction x with
  | ret a | fail => rfl
  | step o k ih =>
    simp only [step_bind]
    congr 1
    funext a
    exact ih a

/-! ## Against any answers -/

/-- With any admitted answers: steps in `ok` only, no panic, a result in `post`. -/
def Safe (admits : (o : Op) → Ans o → Prop) (ok : Op → Prop) (post : α → Prop) : Prog Op Ans α → Prop
  | ret a => post a
  | fail => False
  | step o k => ok o ∧ ∀ a, admits o a → Safe admits ok post (k a)

section Safe

variable {admits : (o : Op) → Ans o → Prop} {ok : Op → Prop} {post : α → Prop} {post' : β → Prop}

@[simp] theorem safe_ret (a : α) : Safe admits ok post (ret a : Prog Op Ans α) ↔ post a := Iff.rfl

@[simp] theorem safe_step (o : Op) (k : Ans o → Prog Op Ans α) :
    Safe admits ok post (step o k) ↔ ok o ∧ ∀ a, admits o a → Safe admits ok post (k a) := Iff.rfl

theorem Safe.bind {x : Prog Op Ans α} {f : α → Prog Op Ans β} (h : Safe admits ok post x)
    (hf : ∀ a, post a → Safe admits ok post' (f a)) : Safe admits ok post' (x >>= f) := by
  induction x with
  | ret a => exact hf a h
  | fail => exact h.elim
  | step o k ih => exact ⟨h.1, fun a ha => ih a (h.2 a ha)⟩

end Safe

/-- With some answers the program takes the steps `os` and stops with `r`. -/
inductive Runs : Prog Op Ans α → List Op → α → Prop
  | ret (a : α) : Runs (ret a) [] a
  | step {o : Op} {k : Ans o → Prog Op Ans α} {os : List Op} {r : α} (a : Ans o) (h : Runs (k a) os r) :
      Runs (step o k) (o :: os) r

theorem Runs.bind_inv {x : Prog Op Ans α} {f : α → Prog Op Ans β} {os : List Op} {r : β}
    (h : Runs (x >>= f) os r) : ∃ a os1 os2, os = os1 ++ os2 ∧ Runs x os1 a ∧ Runs (f a) os2 r := by
  induction x generalizing os with
  | ret a => exact ⟨a, [], os, rfl, .ret a, h⟩
  | fail => cases h
  | step o k ih =>
    cases h with
    | step b h =>
      obtain ⟨a, os1, os2, rfl, h1, h2⟩ := ih b h
      exact ⟨a, o :: os1, os2, rfl, .step b h1, h2⟩

end Prog

end EnclaveOs.Lib
