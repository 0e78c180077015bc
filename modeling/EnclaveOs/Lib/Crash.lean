import EnclaveOs.Lib.Prog

/-!
# Programs that may stop at any step

When the world has no more answers, the program stops where it is.
-/

namespace EnclaveOs.Lib.Prog

variable {Op : Type} {Ans : Op → Type} {M W α β ε : Type} (respond : (o : Op) → W → M → Ans o × M)

def play : Prog Op Ans α → List W → M → Option α × M
  | .ret a, _, m => (some a, m)
  | .fail, _, m => (none, m)
  | .step _ _, [], m => (none, m)
  | .step o k, w :: ws, m => play (k (respond o w m).1) ws (respond o w m).2

/-- Whatever the world answers, `inv` holds after every operation, and `post` at the end. -/
def Keeps (inv : M → Prop) (post : α → M → Prop) : Prog Op Ans α → M → Prop
  | .ret a, m => post a m
  | .fail, _ => True
  | .step o k, m => ∀ w, inv (respond o w m).2 ∧ Keeps inv post (k (respond o w m).1) (respond o w m).2

variable {respond} {inv : M → Prop} {post : α → M → Prop} {post' : β → M → Prop} {m : M}

theorem Keeps.play {p : Prog Op Ans α} (h : Keeps respond inv post p m) (hm : inv m) (ws : List W) :
    inv (p.play respond ws m).2 ∧ ∀ a, (p.play respond ws m).1 = some a → post a (p.play respond ws m).2 := by
  induction p generalizing ws m with
  | ret a =>
    refine ⟨hm, fun b hb => ?_⟩
    obtain rfl := Option.some.inj hb
    exact h
  | fail => exact ⟨hm, fun _ hb => nomatch hb⟩
  | step o k ih =>
    rcases ws with _ | ⟨w, ws⟩
    · exact ⟨hm, fun _ hb => nomatch hb⟩
    · exact ih _ (h w).2 (h w).1 ws

theorem Keeps.bind {x : Prog Op Ans α} {f : α → Prog Op Ans β} (h : Keeps respond inv post x m)
    (hf : ∀ a m, post a m → Keeps respond inv post' (f a) m) : Keeps respond inv post' (x >>= f) m := by
  induction x generalizing m with
  | ret a => exact hf a m h
  | fail => trivial
  | step o k ih => exact fun w => ⟨(h w).1, ih _ (h w).2⟩

/-! ## Programs that may fail -/

variable (respond) in
/-- As `Keeps`, for a program that may fail. -/
def Tries (inv : M → Prop) (post : α → M → Prop) (x : ExceptT ε (Prog Op Ans) α) (m : M) : Prop :=
  Keeps respond inv (fun r m' => match r with | .ok a => post a m' | .error _ => inv m') x.run m

theorem Tries.bind {x : ExceptT ε (Prog Op Ans) α} {f : α → ExceptT ε (Prog Op Ans) β}
    (h : Tries respond inv post x m) (hf : ∀ a m, post a m → Tries respond inv post' (f a) m) :
    Tries respond inv post' (x >>= f) m := by
  refine Keeps.bind h fun r m' hr => ?_
  rcases r with e | a
  · exact hr
  · exact hf a m' hr

theorem Tries.pure {a : α} (h : post a m) : Tries respond inv post (pure a : ExceptT ε (Prog Op Ans) α) m := h

theorem Tries.throw {e : ε} (h : inv m) : Tries respond inv post (throw e : ExceptT ε (Prog Op Ans) α) m := h

theorem Tries.lift {o : Op} {post : Ans o → M → Prop}
    (h : ∀ w, inv (respond o w m).2 ∧ post (respond o w m).1 (respond o w m).2) :
    Tries respond inv post (ExceptT.lift (perform o) : ExceptT ε (Prog Op Ans) (Ans o)) m := h

theorem Tries.adapt {x : ExceptT ε (Prog Op Ans) α} {f : ε → ε} (h : Tries respond inv post x m) :
    Tries respond inv post (ExceptT.adapt f x) m := by
  refine Keeps.bind h fun r m' hr => ?_
  rcases r with e | a <;> exact hr

end EnclaveOs.Lib.Prog
