import Mathlib

/-!
# Calls on an object with state

A failed call leaves a state behind too.
-/

namespace EnclaveOs.Lib

abbrev Method (σ ε α : Type) : Type := ExceptT ε (StateM σ) α

namespace Method

variable {σ ε α β : Type}

def exec (m : Method σ ε α) (s : σ) : Except ε α × σ := (ExceptT.run m).run s

@[simp] theorem exec_pure (a : α) (s : σ) : (pure a : Method σ ε α).exec s = (.ok a, s) := rfl

@[simp] theorem exec_throw (e : ε) (s : σ) : (throw e : Method σ ε α).exec s = (.error e, s) := rfl

def of (f : σ → Except ε α × σ) : Method σ ε α := f

def state : Method σ ε σ := of fun s => (.ok s, s)

def update (f : σ → σ) : Method σ ε Unit := of fun s => (.ok (), f s)

def ofExcept (r : Except ε α) : Method σ ε α := of fun s => (r, s)

@[simp] theorem exec_of (f : σ → Except ε α × σ) (s : σ) : (of f).exec s = f s := rfl

@[simp] theorem exec_state (s : σ) : (state : Method σ ε σ).exec s = (.ok s, s) := rfl

@[simp] theorem exec_update (f : σ → σ) (s : σ) : (update f : Method σ ε Unit).exec s = (.ok (), f s) := rfl

@[simp] theorem exec_ofExcept (r : Except ε α) (s : σ) : (ofExcept r : Method σ ε α).exec s = (r, s) := rfl

theorem exec_bind (x : Method σ ε α) (f : α → Method σ ε β) (s : σ) :
    (x >>= f).exec s = match x.exec s with
      | (.ok a, s') => (f a).exec s'
      | (.error e, s') => (.error e, s') := by
  simp only [exec, ExceptT.run_bind, StateT.run_bind]
  rcases StateT.run (ExceptT.run x) s with ⟨_ | _, _⟩ <;> rfl

variable {x : Method σ ε α} {f : α → Method σ ε β} {s : σ}

theorem exec_bind_ok {s' : σ} {a : α} (h : x.exec s = (.ok a, s')) : (x >>= f).exec s = (f a).exec s' := by
  rw [exec_bind, h]

theorem exec_bind_error {s' : σ} {e : ε}
    (h : x.exec s = (.error e, s')) : (x >>= f).exec s = (.error e, s') := by
  rw [exec_bind, h]

theorem exec_bind_eq_ok {t : σ} {b : β} : (x >>= f).exec s = (.ok b, t) ↔
      ∃ a s', x.exec s = (.ok a, s') ∧ (f a).exec s' = (.ok b, t) := by
  rw [exec_bind]
  rcases h : x.exec s with ⟨e | a, s'⟩
  · simp
  constructor
  · intro hf; exact ⟨a, s', rfl, hf⟩
  · rintro ⟨_, _, he, hf⟩
    cases he
    exact hf

@[simp] theorem exec_map (g : α → β) (x : Method σ ε α) (s : σ) :
    (g <$> x).exec s = match x.exec s with
      | (.ok a, s') => (.ok (g a), s')
      | (.error e, s') => (.error e, s') := by
  rw [← bind_pure_comp, exec_bind]
  rfl

/-! ## A call that answers within a relation on states -/

/-- From `s` the call gives `r`, and the state it leaves stands in `R` to `s`. -/
def Gives (R : σ → σ → Prop) (m : Method σ ε α) (s : σ) (r : Except ε α) : Prop := ∃ s', m.exec s = (r, s') ∧ R s s'

variable {R : σ → σ → Prop} {m : Method σ ε α} {s : σ}

theorem Gives.fst {r : Except ε α} (h : Gives R m s r) : (m.exec s).1 = r := by
  obtain ⟨s', hs, _⟩ := h
  rw [hs]

theorem Gives.snd {r : Except ε α} (h : Gives R m s r) : R s (m.exec s).2 := by
  obtain ⟨s', hs, hR⟩ := h
  rw [hs]
  exact hR

theorem Gives.pure (hrefl : ∀ s, R s s) (a : α) (s : σ) :
    Gives R (pure a : Method σ ε α) s (.ok a) := ⟨s, rfl, hrefl s⟩

theorem Gives.bind (htrans : ∀ a b c, R a b → R b c → R a c) {x : Method σ ε α}
    {f : α → Method σ ε β} {a : α} {r : Except ε β} (hx : Gives R x s (.ok a))
    (hf : ∀ s', R s s' → Gives R (f a) s' r) : Gives R (x >>= f) s r := by
  obtain ⟨s', hs, hR⟩ := hx
  obtain ⟨s'', hs', hR'⟩ := hf s' hR
  exact ⟨s'', by rw [exec_bind_ok hs, hs'], htrans _ _ _ hR hR'⟩

/-! ## A call that keeps a relation, whatever it answers -/

/-- However the call ends, the state it leaves stands in `R` to the state before. -/
def Keeps (R : σ → σ → Prop) (m : Method σ ε α) : Prop := ∀ s, R s (m.exec s).2

theorem Keeps.of_exec {s s' : σ} {res : Except ε α} (h : Keeps R m) (hx : m.exec s = (res, s')) : R s s' := by
  have hs := h s
  rwa [hx] at hs

theorem Keeps.pure (hrefl : ∀ s, R s s) (a : α) : Keeps R (pure a : Method σ ε α) :=
  fun s => hrefl s

theorem Keeps.throw (hrefl : ∀ s, R s s) (e : ε) : Keeps R (throw e : Method σ ε α) :=
  fun s => hrefl s

theorem Keeps.bind (htrans : ∀ a b c, R a b → R b c → R a c) {x : Method σ ε α}
    {f : α → Method σ ε β} (hx : Keeps R x) (hf : ∀ a, Keeps R (f a)) : Keeps R (x >>= f) := by
  intro s
  have h := hx s
  rw [exec_bind]
  rcases hxs : x.exec s with ⟨e | a, s'⟩
  · rw [hxs] at h; exact h
  · rw [hxs] at h; exact htrans _ _ _ h (hf a s')

end Method

end EnclaveOs.Lib
