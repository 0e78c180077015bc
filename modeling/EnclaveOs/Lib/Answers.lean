import EnclaveOs.Lib.Wp

/-! # Calls that only read -/

namespace EnclaveOs.Lib.Method

variable {σ ε α β γ : Type} {S : Set σ}

/-- From every state of `S` the method answers `a` and ends in `S`. -/
def Answers (S : Set σ) (m : Method σ ε α) (a : Except ε α) : Prop := ∀ s ∈ S, (m.exec s).1 = a ∧ (m.exec s).2 ∈ S

theorem answers_pure (a : α) : Answers S (pure a : Method σ ε α) (.ok a) := fun _ hs => ⟨rfl, hs⟩

theorem answers_throw (e : ε) : Answers S (throw e : Method σ ε α) (.error e) := fun _ hs => ⟨rfl, hs⟩

theorem answers_ofExcept (r : Except ε α) : Answers S (ofExcept r : Method σ ε α) r := fun _ hs => ⟨rfl, hs⟩

variable {x : Method σ ε α} {m : Method σ ε Unit} {P Q : Prop}

theorem Answers.bind {f : α → Method σ ε β} {a : α} {b : Except ε β}
    (hx : Answers S x (.ok a)) (hf : Answers S (f a) b) : Answers S (x >>= f) b := by
  intro s hs
  obtain ⟨hans, hstay⟩ := hx s hs
  rw [exec_bind_ok (Prod.ext hans rfl)]
  exact hf _ hstay

theorem Answers.bind_error {f : α → Method σ ε β} {e : ε} (hx : Answers S x (.error e)) :
    Answers S (x >>= f) (.error e) := by
  intro s hs
  obtain ⟨hans, hstay⟩ := hx s hs
  rw [exec_bind_error (Prod.ext hans rfl)]
  exact ⟨rfl, hstay⟩

theorem Answers.attempt {m : Method σ ε α} {a : Except ε α} (h : Answers S m a) :
    Answers S (Method.attempt m : Method σ ε (Except ε α)) (.ok a) := by
  intro s hs
  exact ⟨congrArg Except.ok (h s hs).1, (h s hs).2⟩

/-- Success from the states of `S` means `P`. -/
def Decides (S : Set σ) (m : Method σ ε Unit) (P : Prop) : Prop := ∃ a, Answers S m a ∧ (a = .ok () ↔ P)

theorem Decides.iff (h : Decides S m P) {s : σ} (hs : s ∈ S) : (m.exec s).1 = .ok () ↔ P := by
  obtain ⟨a, hans, hiff⟩ := h
  rw [(hans s hs).1, hiff]

theorem Decides.congr (h : Decides S m P) (hPQ : P ↔ Q) : Decides S m Q := propext hPQ ▸ h

theorem decides_pure : Decides S (pure () : Method σ ε Unit) True := ⟨_, answers_pure (), by simp⟩

theorem decides_throw (e : ε) : Decides S (throw e : Method σ ε Unit) False := ⟨_, answers_throw e, by simp⟩

theorem decides_ofExcept (r : Except ε Unit) : Decides S (ofExcept r : Method σ ε Unit) (r = .ok ()) :=
  ⟨r, answers_ofExcept r, Iff.rfl⟩

theorem Decides.after {f : α → Method σ ε Unit} {a : α} (hx : Answers S x (.ok a))
    (hf : Decides S (f a) P) : Decides S (x >>= f) P := by
  obtain ⟨b, hans, hiff⟩ := hf
  exact ⟨b, hx.bind hans, hiff⟩

theorem Decides.after_except {f : α → Method σ ε Unit} {a : Except ε α} {P : α → Prop}
    (hx : Answers S x a) (hf : ∀ v, a = .ok v → Decides S (f v) (P v)) :
    Decides S (x >>= f) (∃ v, a = .ok v ∧ P v) := by
  rcases a with e | v
  · exact ⟨_, hx.bind_error, by simp⟩
  · exact (Decides.after hx (hf v rfl)).congr (by simp)

theorem Decides.and {x : Method σ ε Unit} {y : Method σ ε Unit} (hx : Decides S x P)
    (hy : Decides S y Q) : Decides S (x >>= fun _ => y) (P ∧ Q) := by
  obtain ⟨a, hans, hiff⟩ := hx
  refine (Decides.after_except (P := fun _ => Q) hans fun _ _ => hy).congr ?_
  constructor
  · rintro ⟨_, hok, hq⟩
    exact ⟨hiff.mp hok, hq⟩
  · rintro ⟨hp, hq⟩
    exact ⟨(), hiff.mpr hp, hq⟩

theorem decides_forM {l : List γ} {f : γ → Method σ ε Unit} {P : γ → Prop} (h : ∀ c, Decides S (f c) (P c)) :
    Decides S (l.forM f) (∀ c ∈ l, P c) := by
  induction l with
  | nil => exact decides_pure.congr (by simp)
  | cons c l ih => exact ((h c).and ih).congr (by simp)

theorem Decides.or {k : Except ε Unit → Method σ ε Unit} (hm : Decides S m P)
    (hok : k (.ok ()) = pure ()) (herr : ∀ e, Decides S (k (.error e)) Q) :
    Decides S ((Method.attempt m : Method σ ε (Except ε Unit)) >>= k) (P ∨ Q) := by
  obtain ⟨a, hans, hiff⟩ := hm
  rw [← hiff]
  rcases a with e | u
  · exact (Decides.after hans.attempt (herr e)).congr (by simp)
  · exact (Decides.after hans.attempt (hok ▸ decides_pure)).congr (by simp)

end EnclaveOs.Lib.Method
