import EnclaveOs.Lib.Wp

/-!
# Two calls that run alike

`m'` follows `m` along `lift` if it does to the image of a state what `m` does to the state. -/

namespace EnclaveOs.Lib.Method

variable {σ σ' ε α α' β β' : Type}

/-- From states in `P`. Errors are the same. -/
def Follows (lift : σ → σ') (P : σ → Prop) (g : α → α') (m : Method σ ε α) (m' : Method σ' ε α') : Prop :=
  ∀ s, P s → m'.exec (lift s) = ((m.exec s).1.map g, lift (m.exec s).2) ∧ P (m.exec s).2

variable {lift : σ → σ'} {P : σ → Prop} {g : α → α'} {k : β → β'}

theorem follows_pure (a : α) : Follows lift P g (pure a : Method σ ε α) (pure (g a)) :=
  fun _ h => ⟨rfl, h⟩

theorem follows_throw (e : ε) : Follows lift P g (throw e : Method σ ε α) (throw e) := fun _ h => ⟨rfl, h⟩

theorem Follows.bind {x : Method σ ε α} {x' : Method σ' ε α'} {f : α → Method σ ε β}
    {f' : α' → Method σ' ε β'} (hx : Follows lift P g x x') (hf : ∀ a, Follows lift P k (f a) (f' (g a))) :
    Follows lift P k (x >>= f) (x' >>= f') := by
  intro s hs
  obtain ⟨he, hp⟩ := hx s hs
  rw [exec_bind, exec_bind, he]
  rcases h : x.exec s with ⟨e | a, s'⟩
  · rw [h] at hp
    exact ⟨rfl, hp⟩
  · rw [h] at hp
    exact hf a s' hp

theorem Follows.attempt {m : Method σ ε α} {m' : Method σ' ε α'} (h : Follows lift P g m m') :
    Follows lift P (Except.map g) (attempt m : Method σ ε (Except ε α)) (attempt m') := by
  intro s hs
  obtain ⟨he, hp⟩ := h s hs
  refine ⟨?_, hp⟩
  rw [exec_attempt he]
  rfl

theorem Follows.mapError {m : Method σ ε α} {m' : Method σ' ε α'} (f : ε → ε) (h : Follows lift P g m m') :
    Follows lift P g (mapError f m) (mapError f m') := by
  intro s hs
  obtain ⟨he, hp⟩ := h s hs
  refine ⟨?_, hp⟩
  unfold Method.mapError
  rw [exec_of, exec_of, he]
  rcases m.exec s with ⟨_ | _, _⟩ <;> rfl

/-- The first call answers `a` on both sides. -/
theorem Follows.bind_const {x : Method σ ε α} {x' : Method σ' ε α} {f : α → Method σ ε β}
    {f' : α → Method σ' ε β'} {a : α} (hx : Follows lift P id x x') (ha : ∀ s, P s → (x.exec s).1 = .ok a)
    (hf : Follows lift P k (f a) (f' a)) : Follows lift P k (x >>= f) (x' >>= f') := by
  intro s hs
  obtain ⟨he, hp⟩ := hx s hs
  have hok := ha s hs
  rw [exec_bind, exec_bind, he]
  rcases h : x.exec s with ⟨e | b, s'⟩
  · rw [h] at hok
    cases hok
  · rw [h] at hok hp
    cases hok
    exact hf s' hp

end EnclaveOs.Lib.Method
