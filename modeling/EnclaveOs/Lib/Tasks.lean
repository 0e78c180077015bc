import EnclaveOs.Lib.Prog

/-!
# Any number of calls in progress

A call takes the tokens of its arguments and hands back tokens at its end. It is checked against every memory that
satisfies the invariant with its own tokens and any others.
-/

namespace EnclaveOs.Lib

structure Tasks (Op : Type) (Ans : Op → Type) (M T : Type) where
  mem : M
  hand : Multiset T
  running : List (Prog Op Ans (Multiset T))

/-- One scheduling decision: `W` is what the world chooses in a step. -/
inductive Tasks.Turn (C W : Type) where
  | call (c : C)
  | step (i : Nat) (w : W)
  | done (i : Nat)

namespace Tasks

variable {Op : Type} {Ans : Op → Type} {M T C W α β : Type}

section Run

variable [DecidableEq T] (respond : (o : Op) → W → M → Ans o × M) (needs : C → Multiset T)
  (call : C → Prog Op Ans (Multiset T))

/-- Calls that have ended hand back their tokens. -/
def turn (s : Tasks Op Ans M T) : Turn C W → Tasks Op Ans M T
  | .call c =>
    if needs c ≤ s.hand then { s with hand := s.hand - needs c, running := s.running ++ [call c] } else s
  | .step i w =>
    match s.running[i]? with
    | some (.step o k) =>
      let r := respond o w s.mem
      { s with mem := r.2, running := s.running.set i (k r.1) }
    | _ => s
  | .done i =>
    match s.running[i]? with
    | some (.ret out) => { s with hand := s.hand + out, running := s.running.eraseIdx i }
    | _ => s

def run (s : Tasks Op Ans M T) (sched : List (Turn C W)) : Tasks Op Ans M T := sched.foldl (turn respond needs call) s

end Run

/-! ## A call with its tokens -/

variable (respond : (o : Op) → W → M → Ans o × M) (inv : M → Multiset T → Prop)

/-- With the tokens `r` it keeps the invariant, whatever others own, and ends in `post`. -/
def Does (post : α → Multiset T → Prop) : Prog Op Ans α → Multiset T → Prop
  | .ret a, r => post a r
  | .fail, _ => True
  | .step o k, r => ∀ m w others, inv m (r + others) →
      ∃ r', inv (respond o w m).2 (r' + others) ∧ Does post (k (respond o w m).1) r'

/-- Whatever the others own, the operation turns `r` into something with `post`. -/
def Moves (o : Op) (r : Multiset T) (post : Ans o → Multiset T → Prop) : Prop :=
  ∀ m w others, inv m (r + others) → ∃ r', inv (respond o w m).2 (r' + others) ∧ post (respond o w m).1 r'

variable {respond inv} {post : α → Multiset T → Prop} {post' : β → Multiset T → Prop}

variable {r : Multiset T} {p : Prog Op Ans (Multiset T)} {ps : List (Prog Op Ans (Multiset T))}

theorem Does.bind {x : Prog Op Ans α} {f : α → Prog Op Ans β}
    (h : Does respond inv post x r) (hf : ∀ a r, post a r → Does respond inv post' (f a) r) :
    Does respond inv post' (x >>= f) r := by
  induction x generalizing r with
  | ret a => exact hf a r h
  | fail => exact h
  | step o k ih =>
    intro m w others hi
    obtain ⟨r', hi', hk⟩ := h m w others hi
    exact ⟨r', hi', ih _ hk⟩

theorem Moves.does {o : Op} {post : Ans o → Multiset T → Prop}
    (h : Moves respond inv o r post) : Does respond inv post (Prog.perform o) r := h

/-! ## All calls together -/

/-- What a call returns is what it owns at its end. -/
def Hands (respond : (o : Op) → W → M → Ans o × M) (inv : M → Multiset T → Prop) :
    Prog Op Ans (Multiset T) → Multiset T → Prop :=
  Does respond inv fun out r => out = r

/-- The programs share `R` out among them. -/
def Owns (respond : (o : Op) → W → M → Ans o × M) (inv : M → Multiset T → Prop) :
    List (Prog Op Ans (Multiset T)) → Multiset T → Prop
  | [], R => R = 0
  | p :: ps, R => ∃ r R', R = r + R' ∧ Hands respond inv p r ∧ Owns respond inv ps R'

theorem owns_append {qs : List (Prog Op Ans (Multiset T))} {R : Multiset T} :
    Owns respond inv (ps ++ qs) R ↔
      ∃ R1 R2, R = R1 + R2 ∧ Owns respond inv ps R1 ∧ Owns respond inv qs R2 := by
  induction ps generalizing R with
  | nil =>
    constructor
    · exact fun h => ⟨0, R, (zero_add R).symm, rfl, h⟩
    · rintro ⟨R1, R2, rfl, rfl, h⟩
      rwa [zero_add]
  | cons p ps ih =>
    constructor
    · rintro ⟨r, R', rfl, hp, hps⟩
      obtain ⟨R1, R2, rfl, h1, h2⟩ := ih.mp hps
      exact ⟨r + R1, R2, (add_assoc _ _ _).symm, ⟨r, R1, rfl, hp, h1⟩, h2⟩
    · rintro ⟨_, R2, rfl, ⟨r, R1, rfl, hp, h1⟩, h2⟩
      exact ⟨r, R1 + R2, add_assoc _ _ _, hp, ih.mpr ⟨R1, R2, rfl, h1, h2⟩⟩

theorem owns_split {i : Nat} {R : Multiset T} (hi : ps[i]? = some p) :
    Owns respond inv ps R ↔ ∃ r R', R = r + R' ∧ Hands respond inv p r ∧
      Owns respond inv (ps.eraseIdx i) R' := by
  induction ps generalizing i R with
  | nil => simp at hi
  | cons q ps ih =>
    rcases i with _ | i
    · simp only [List.getElem?_cons_zero, Option.some.injEq] at hi
      subst hi
      rfl
    rw [List.getElem?_cons_succ] at hi
    rw [List.eraseIdx_cons_succ]
    constructor
    · rintro ⟨r, R', rfl, hq, hps⟩
      obtain ⟨r1, R1, rfl, hp, hrest⟩ := (ih hi).mp hps
      exact ⟨r1, r + R1, add_left_comm _ _ _, hp, r, R1, rfl, hq, hrest⟩
    · rintro ⟨r, _, rfl, hp, r1, R1, rfl, hq, hrest⟩
      exact ⟨r1, r + R1, add_left_comm _ _ _, hq, (ih hi).mpr ⟨r, R1, rfl, hp, hrest⟩⟩

theorem getElem?_of_running {i : Nat} {q : Prog Op Ans (Multiset T)}
    (hi : ps[i]? = some p) : (ps.set i q)[i]? = some q ∧ (ps.set i q).eraseIdx i = ps.eraseIdx i := by
  have hlt : i < ps.length := (List.getElem?_eq_some_iff.mp hi).1
  exact ⟨List.getElem?_set_self hlt, List.eraseIdx_set_eq⟩

/-- The invariant holds with all tokens there are. -/
def Good (respond : (o : Op) → W → M → Ans o × M) (inv : M → Multiset T → Prop) (s : Tasks Op Ans M T) : Prop :=
  ∃ R, Owns respond inv s.running R ∧ inv s.mem (s.hand + R)

variable [DecidableEq T] {needs : C → Multiset T} {call : C → Prog Op Ans (Multiset T)}

theorem Good.turn (hcall : ∀ c, Hands respond inv (call c) (needs c))
    {s : Tasks Op Ans M T} (h : Good respond inv s) (t : Turn C W) :
    Good respond inv (s.turn respond needs call t) := by
  obtain ⟨R, hR, hi⟩ := h
  cases t with
  | call c =>
    unfold Tasks.turn
    dsimp only
    split
    · rename_i hle
      have hsplit := tsub_add_cancel_of_le hle
      refine ⟨R + needs c, ?_, ?_⟩
      · exact owns_append.mpr ⟨R, needs c, rfl, hR, needs c, 0, (add_zero _).symm, hcall c, rfl⟩
      · dsimp only
        rwa [add_comm R, ← add_assoc, hsplit]
    · exact ⟨R, hR, hi⟩
  | step i w =>
    unfold Tasks.turn
    dsimp only
    split
    · rename_i o k hp
      obtain ⟨r, R', rfl, hd, hrunning⟩ := (owns_split hp).mp hR
      rw [add_left_comm] at hi
      obtain ⟨r', hi', hk⟩ := hd s.mem w (s.hand + R') hi
      obtain ⟨hget, herase⟩ := getElem?_of_running (q := k (respond o w s.mem).1) hp
      refine ⟨r' + R', (owns_split hget).mpr ⟨r', R', rfl, hk, herase ▸ hrunning⟩, ?_⟩
      dsimp only
      rwa [add_left_comm]
    · exact ⟨R, hR, hi⟩
  | done i =>
    unfold Tasks.turn
    dsimp only
    split
    · rename_i out hp
      obtain ⟨r, R', rfl, hout, hrunning⟩ := (owns_split hp).mp hR
      subst hout
      refine ⟨R', hrunning, ?_⟩
      dsimp only
      rwa [add_assoc]
    · exact ⟨R, hR, hi⟩

theorem Good.run (hcall : ∀ c, Hands respond inv (call c) (needs c))
    {s : Tasks Op Ans M T} (h : Good respond inv s) (sched : List (Turn C W)) :
    Good respond inv (s.run respond needs call sched) := by
  induction sched generalizing s with
  | nil => exact h
  | cons t ts ih => exact ih (h.turn hcall t)

/-! ## A call alone for a while -/

section Steps

variable (respond : (o : Op) → W → M → Ans o × M)

/-- The program runs to `p'` with the answers `ws` of the world. -/
inductive Steps : Prog Op Ans α → M → List W → Prog Op Ans α → M → Prop
  | refl {p : Prog Op Ans α} {m : M} : Steps p m [] p m
  | step {o : Op} {k : Ans o → Prog Op Ans α} {m m' : M} {w : W} {ws : List W} {p' : Prog Op Ans α} :
      Steps (k (respond o w m).1) (respond o w m).2 ws p' m' → Steps (.step o k) m (w :: ws) p' m'

variable {respond}

variable {m m' : M} {ws : List W}

theorem Steps.trans {p p' p'' : Prog Op Ans α} {m'' : M} {ws' : List W}
    (h : Steps respond p m ws p' m') (h' : Steps respond p' m' ws' p'' m'') :
    Steps respond p m (ws ++ ws') p'' m'' := by
  induction h with
  | refl => exact h'
  | step _ ih => exact .step (ih h')

theorem Steps.bind {x x' : Prog Op Ans α} (h : Steps respond x m ws x' m')
    (f : α → Prog Op Ans β) : Steps respond (x >>= f) m ws (x' >>= f) m' := by
  induction h with
  | refl => exact .refl
  | step _ ih => exact .step ih

theorem Steps.ret_bind {x : Prog Op Ans α} {a : α} (h : Steps respond x m ws (.ret a) m')
    {f : α → Prog Op Ans β} {q : Prog Op Ans β} (hq : f a = q) : Steps respond (x >>= f) m ws q m' :=
  hq ▸ h.bind f

theorem run_append (s : Tasks Op Ans M T) (sched sched' : List (Turn C W)) :
    run respond needs call s (sched ++ sched') = run respond needs call (run respond needs call s sched) sched' :=
  List.foldl_append

theorem run_steps {p p' : Prog Op Ans (Multiset T)} (h : Steps respond p m ws p' m')
    {hand : Multiset T} {running : List (Prog Op Ans (Multiset T))} {i : Nat} (hi : running[i]? = some p) :
    run respond needs call ⟨m, hand, running⟩ (ws.map (.step i)) = ⟨m', hand, running.set i p'⟩ := by
  induction h generalizing running with
  | @refl p m =>
    obtain ⟨hlt, rfl⟩ := List.getElem?_eq_some_iff.mp hi
    rw [List.set_getElem_self]
    rfl
  | @step o k m m' w ws p' _ ih =>
    have hturn : turn respond needs call ⟨m, hand, running⟩ (.step i w) =
        ⟨(respond o w m).2, hand, running.set i (k (respond o w m).1)⟩ := by simp [turn, hi]
    have hget := (getElem?_of_running (q := k (respond o w m).1) hi).1
    rw [List.map_cons, run, List.foldl_cons, hturn]
    exact (ih hget).trans (by rw [List.set_set])

end Steps

end Tasks

end EnclaveOs.Lib
