import EnclaveOs.Lib.Method

/-!
# What a call must find to end as wanted

`wp m Q s`: from `s` the call `m` ends with an answer and a state in `Q`.
-/

namespace EnclaveOs.Lib.Method

variable {σ ε ε' α β : Type}

def attempt (m : Method σ ε α) : Method σ ε' (Except ε α) := of fun s => (.ok (m.exec s).1, (m.exec s).2)

def mapError (f : ε → ε') (m : Method σ ε α) : Method σ ε' α := of fun s => ((m.exec s).1.mapError f, (m.exec s).2)

variable {m : Method σ ε α} {s s' : σ}

theorem exec_attempt {r : Except ε α} (h : m.exec s = (r, s')) :
    (attempt m : Method σ ε' (Except ε α)).exec s = (.ok r, s') := by
  unfold attempt
  rw [exec_of, h]

theorem exec_mapError_ok {f : ε → ε'} {a : α} : (mapError f m).exec s = (.ok a, s') ↔ m.exec s = (.ok a, s') := by
  unfold mapError
  rw [exec_of]
  rcases m.exec s with ⟨_ | _, _⟩ <;> simp [Except.mapError]

theorem exec_mapError_error {f : ε → ε'} {e' : ε'} :
    (mapError f m).exec s = (.error e', s') ↔ ∃ e, m.exec s = (.error e, s') ∧ f e = e' := by
  unfold mapError
  rw [exec_of]
  rcases m.exec s with ⟨_ | _, _⟩ <;> simp [Except.mapError, and_comm]

theorem exec_bind_eq_error {x : Method σ ε α} {f : α → Method σ ε β} {t : σ} {e : ε} :
    (x >>= f).exec s = (.error e, t) ↔
      x.exec s = (.error e, t) ∨ ∃ a s', x.exec s = (.ok a, s') ∧ (f a).exec s' = (.error e, t) := by
  rw [exec_bind]
  rcases x.exec s with ⟨_ | _, _⟩ <;> simp

/-! ## Weakest preconditions -/

def wp (m : Method σ ε α) (Q : Except ε α → σ → Prop) (s : σ) : Prop := Q (m.exec s).1 (m.exec s).2

variable {Q : Except ε α → σ → Prop} {s : σ}

@[simp] theorem wp_pure (a : α) : wp (pure a : Method σ ε α) Q s ↔ Q (.ok a) s := Iff.rfl

@[simp] theorem wp_attempt (m : Method σ ε' α) {Q : Except ε (Except ε' α) → σ → Prop} :
    wp (attempt m : Method σ ε (Except ε' α)) Q s ↔ wp m (fun r => Q (.ok r)) s := Iff.rfl

@[simp] theorem wp_mapError (f : ε' → ε) (m : Method σ ε' α) :
    wp (mapError f m) Q s ↔ wp m (fun r => Q (r.mapError f)) s := Iff.rfl

theorem wp_bind (x : Method σ ε β) (f : β → Method σ ε α) :
    wp (x >>= f) Q s ↔ wp x (fun r s' => match r with | .ok b => wp (f b) Q s' | .error e => Q (.error e) s') s := by
  unfold wp
  rw [exec_bind]
  rcases x.exec s with ⟨_ | _, _⟩ <;> rfl

theorem wp_mono {Q' : Except ε α → σ → Prop} {m : Method σ ε α} (h : wp m Q s) (hq : ∀ r s', Q r s' → Q' r s') :
    wp m Q' s := hq _ _ h

theorem wp.bind {x : Method σ ε β} {f : β → Method σ ε α} {P : Except ε β → σ → Prop} (h : wp x P s)
    (hok : ∀ b s', P (.ok b) s' → wp (f b) Q s') (herr : ∀ e s', P (.error e) s' → Q (.error e) s') :
    wp (x >>= f) Q s := by
  rw [wp_bind]
  refine wp_mono h fun r s' hr => ?_
  rcases r with e | b
  · exact herr e s' hr
  · exact hok b s' hr

theorem wp.bind_exec {x : Method σ ε β} {f : β → Method σ ε α} {P : Except ε β → σ → Prop} (h : wp x P s)
    (hok : ∀ b s', x.exec s = (.ok b, s') → P (.ok b) s' → wp (f b) Q s')
    (herr : ∀ e s', x.exec s = (.error e, s') → P (.error e) s' → Q (.error e) s') : wp (x >>= f) Q s :=
  wp.bind (P := fun r s' => x.exec s = (r, s') ∧ P r s') ⟨rfl, h⟩ (fun b s' hb => hok b s' hb.1 hb.2)
    fun e s' he => herr e s' he.1 he.2

end EnclaveOs.Lib.Method
