import EnclaveOs.Lib.Bytes
import EnclaveOs.Lib.Checks

/-!
# Readers with a position

A reader is exact for a relation if it reads a value just where one of its forms starts.
-/

namespace EnclaveOs.Lib

variable {ε α β : Type}

abbrev Reader (ε α : Type) := Bytes → Nat → Except ε (α × Nat)

namespace Reader

def andThen (f : Reader ε α) (g : α → Reader ε β) : Reader ε β := fun buf p => do
  let (a, p) ← f buf p
  g a buf p

variable {N : Nat} {f : Reader ε α} {g : α → Reader ε β} {E E' : α → Bytes → Prop} {F : α → β → Bytes → Prop}
  {e : ε}
  {P P' : Nat → Bytes → Prop} {Q : α → Nat → Bytes → Prop}

variable (N) in
def Reads (f : Reader ε α) (E : α → Bytes → Prop) : Prop :=
  ∀ pre r a p, (pre ++ r).length < N →
    (f (pre ++ r) pre.length = .ok (a, p) ↔ ∃ w r', E a w ∧ r = w ++ r' ∧ p = (pre ++ w).length)

variable (N) in
/-- The reader ends with `e` just where `P` says. -/
def Stops (f : Reader ε α) (e : ε) (P : Nat → Bytes → Prop) : Prop :=
  ∀ pre r, (pre ++ r).length < N → (f (pre ++ r) pre.length = .error e ↔ P pre.length r)

theorem Reads.congr (h : Reads N f E) (hE : ∀ a w, E a w ↔ E' a w) : Reads N f E' := by
  intro pre r a p hbuf
  simp only [h pre r a p hbuf, hE]

theorem Stops.congr (h : Stops N f e P) (hP : ∀ n r, P n r ↔ P' n r) : Stops N f e P' := by
  intro pre r hbuf
  rw [h pre r hbuf, hP]

theorem Reads.ok (a : α) : Reads N (fun _ p => .ok (a, p) : Reader ε α) fun b w => b = a ∧ w = [] := by
  intro pre r b p _
  constructor
  · intro h
    cases h
    exact ⟨[], r, ⟨rfl, rfl⟩, rfl, by simp⟩
  · rintro ⟨w, r', ⟨rfl, rfl⟩, rfl, rfl⟩
    simp

theorem Reads.error (e : ε) : Reads N (fun _ _ => .error e : Reader ε α) fun _ _ => False := by
  intro pre r a p _
  simp

def slice (short : ε) (n : Nat) : Reader ε Bytes := fun buf p =>
  if buf.length < p + n then .error short else .ok ((buf.drop p).take n, p + n)

theorem Reads.slice (short : ε) (n : Nat) : Reads N (slice short n) fun b w => w = b ∧ b.length = n := by
  intro pre r b p _
  unfold Reader.slice
  simp only [List.drop_left, List.length_append, Nat.add_lt_add_iff_left]
  by_cases hn : r.length < n
  · rw [if_pos hn]
    constructor
    · intro h
      cases h
    · rintro ⟨w, r', ⟨rfl, rfl⟩, rfl, -⟩
      simp at hn
  · rw [if_neg hn]
    have hlen : (r.take n).length = n := by simp; omega
    constructor
    · intro h
      cases h
      exact ⟨r.take n, r.drop n, ⟨rfl, hlen⟩, (List.take_append_drop n r).symm, by simp [hlen]⟩
    · rintro ⟨w, r', ⟨rfl, rfl⟩, rfl, rfl⟩
      simp

theorem Stops.never (h : ∀ buf p, f buf p ≠ .error e) : Stops N f e fun _ _ => False :=
  fun _ _ _ => iff_false_intro (h _ _)

theorem Reads.andThen (hf : Reads N f E) (hg : ∀ a, Reads N (g a) (F a)) :
    Reads N (f.andThen g) fun b w => ∃ a u v, E a u ∧ F a b v ∧ w = u ++ v := by
  intro pre r b p hbuf
  simp only [Reader.andThen, except_bind_ok, Prod.exists, hf pre r _ _ hbuf]
  constructor
  · rintro ⟨a, q, ⟨u, r', hu, rfl, rfl⟩, h⟩
    rw [← List.append_assoc] at h hbuf
    obtain ⟨v, r'', hv, rfl, rfl⟩ := (hg a _ _ _ _ hbuf).mp h
    exact ⟨u ++ v, r'', ⟨a, u, v, hu, hv, rfl⟩, by simp, by simp⟩
  · rintro ⟨w, r', ⟨a, u, v, hu, hv, rfl⟩, rfl, rfl⟩
    rw [List.append_assoc] at hbuf ⊢
    refine ⟨a, _, ⟨u, _, hu, rfl, rfl⟩, ?_⟩
    rw [← List.append_assoc] at hbuf ⊢
    exact (hg a _ _ _ _ hbuf).mpr ⟨v, r', hv, rfl, by simp⟩

theorem Reads.map (k : α → β) (hf : Reads N f E) :
    Reads N (f.andThen fun a _ p => .ok (k a, p)) fun b w => ∃ a, E a w ∧ b = k a := by
  refine (hf.andThen fun a => Reads.ok (k a)).congr fun b w => ⟨?_, ?_⟩
  · rintro ⟨a, u, _, hu, ⟨rfl, rfl⟩, rfl⟩
    exact ⟨a, by simpa using hu, rfl⟩
  · rintro ⟨a, hw, rfl⟩
    exact ⟨a, w, [], hw, ⟨rfl, rfl⟩, by simp⟩

theorem Stops.andThen (hs : Stops N f e P) (hf : Reads N f E) (hg : ∀ a, Stops N (g a) e (Q a)) :
    Stops N (f.andThen g) e fun n r => P n r ∨ ∃ a w r', E a w ∧ r = w ++ r' ∧ Q a (n + w.length) r' := by
  intro pre r hbuf
  simp only [Reader.andThen, except_bind_error, Prod.exists, hf pre r _ _ hbuf, hs pre r hbuf]
  refine or_congr_right ⟨?_, ?_⟩
  · rintro ⟨a, q, ⟨w, r', hw, rfl, rfl⟩, h⟩
    rw [← List.append_assoc] at h hbuf
    exact ⟨a, w, r', hw, rfl, by simpa using (hg a _ _ hbuf).mp h⟩
  · rintro ⟨a, w, r', hw, rfl, h⟩
    refine ⟨a, _, ⟨w, r', hw, rfl, rfl⟩, ?_⟩
    rw [← List.append_assoc] at hbuf ⊢
    exact (hg a _ _ hbuf).mpr (by simpa using h)

theorem Stops.map (k : α → β) (hs : Stops N f e P) : Stops N (f.andThen fun a _ p => .ok (k a, p)) e P := by
  intro pre r hbuf
  rw [← hs pre r hbuf, Reader.andThen, except_bind_error]
  simp

/-- What is read must pass. -/
def check (f : Reader ε α) (c : α → Bool) (e : ε) (k : α → β) : Reader ε β :=
  f.andThen fun a _ p => if c a then .ok (k a, p) else .error e

theorem Reads.check (hf : Reads N f E) (c : α → Bool) (e : ε) (k : α → β) :
    Reads N (f.check c e k) fun b w => ∃ a, E a w ∧ c a = true ∧ b = k a := by
  intro pre r b p hbuf
  simp only [Reader.check, Reader.andThen, except_bind_ok, Prod.exists, hf pre r _ _ hbuf]
  constructor
  · rintro ⟨a, q, ⟨w, r', hw, rfl, rfl⟩, h⟩
    split at h
    · rename_i hc
      cases h
      exact ⟨w, r', ⟨a, hw, hc, rfl⟩, rfl, rfl⟩
    · cases h
  · rintro ⟨w, r', ⟨a, hw, hc, rfl⟩, rfl, rfl⟩
    exact ⟨a, _, ⟨w, r', hw, rfl, rfl⟩, by rw [if_pos hc]⟩

theorem Stops.check {e' : ε} (hs : Stops N f e P) (c : α → Bool) (hne : e' ≠ e) (k : α → β) :
    Stops N (f.check c e' k) e P := by
  intro pre r hbuf
  rw [← hs pre r hbuf, Reader.check, Reader.andThen, except_bind_error]
  refine or_iff_left ?_
  rintro ⟨⟨a, q⟩, -, h⟩
  dsimp only at h
  split at h
  · cases h
  · exact hne (Except.error.inj h)

/-- After the tag, what is read and where the reader stopped decide. -/
def tagged (tag : UInt8) (short : ε) (f : Reader ε α) (k : Bytes → α → Nat → Except ε β) (buf : Bytes) : Except ε β :=
  if buf.head? ≠ some tag then .error short
  else do
    let (a, p) ← f buf 1
    k buf a p

variable {tag : UInt8} {short : ε} {k : Bytes → α → Nat → Except ε β} {buf : Bytes}

theorem tagged_ok {b : β} (hf : Reads N f E) (hbuf : buf.length < N) : tagged tag short f k buf = .ok b ↔
    ∃ a w r, E a w ∧ buf = tag :: (w ++ r) ∧ k buf a (w.length + 1) = .ok b := by
  unfold tagged
  by_cases htag : buf.head? = some tag
  · obtain ⟨r, rfl⟩ := List.head?_eq_some_iff.mp htag
    have hread := fun a p => hf [tag] r a p hbuf
    rw [if_neg (not_not.mpr htag), except_bind_ok]
    constructor
    · rintro ⟨⟨a, p⟩, ha, hk⟩
      obtain ⟨w, r', hw, rfl, rfl⟩ := (hread a p).mp ha
      exact ⟨a, w, r', hw, rfl, hk⟩
    · rintro ⟨a, w, r', hw, hr, hk⟩
      exact ⟨(a, _), (hread a _).mpr ⟨w, r', hw, (List.cons.inj hr).2, rfl⟩, hk⟩
  · rw [if_pos htag]
    constructor
    · intro h
      cases h
    · rintro ⟨_, _, _, -, rfl, -⟩
      exact absurd rfl htag

theorem tagged_error (hs : Stops N f e P) (hbuf : buf.length < N) (hshort : short ≠ e)
    (hk : ∀ a p, k buf a p ≠ .error e) : tagged tag short f k buf = .error e ↔ ∃ r, buf = tag :: r ∧ P 1 r := by
  unfold tagged
  by_cases htag : buf.head? = some tag
  · obtain ⟨r, rfl⟩ := List.head?_eq_some_iff.mp htag
    have hstop := hs [tag] r hbuf
    rw [if_neg (not_not.mpr htag), except_bind_error]
    constructor
    · rintro (h | ⟨a, -, h⟩)
      · exact ⟨r, rfl, hstop.mp h⟩
      · exact absurd h (hk _ _)
    · rintro ⟨r', hr, h⟩
      cases hr
      exact .inl (hstop.mpr h)
  · rw [if_pos htag]
    constructor
    · intro h
      exact absurd (Except.error.inj h) hshort
    · rintro ⟨r, rfl, -⟩
      exact absurd rfl htag

end Reader

end EnclaveOs.Lib
