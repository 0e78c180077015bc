import EnclaveOs.Lib.Bytes

/-!
# Length-prefixed formats

A reader reads a byte string as a value when it does so whatever follows.
-/

namespace EnclaveOs.Lib.Wire

variable {ε α β : Type}

abbrev Reader (ε α : Type) := StateT Bytes (Except ε) α

def take (short : ε) (n : Nat) : Reader ε Bytes := fun input =>
  if input.length < n then .error short else .ok (input.take n, input.drop n)

def u32 (short : ε) : Reader ε Nat := do
  return ofBe (← take short 4)

def block (short : ε) : Reader ε Bytes := do
  let n ← u32 short
  take short n

def times (p : Reader ε α) : Nat → Reader ε (List α)
  | 0 => pure []
  | n + 1 => do
    let a ← p
    let l ← times p n
    return a :: l

def putU32 (n : Nat) : Bytes := be 4 n

def putBlock (b : Bytes) : Bytes := putU32 b.length ++ b

/-! ## What a reader reads -/

/-- Whatever follows, the reader takes `w` and gives `a`. -/
def Reads (p : Reader ε α) (w : Bytes) (a : α) : Prop := ∀ rest, p (w ++ rest) = .ok (a, rest)

theorem Reads.pure (a : α) : Reads (pure a : Reader ε α) [] a := fun _ => rfl

variable {p : Reader ε α} {w : Bytes} {a : α}

theorem Reads.step {f : α → Reader ε β} {v : Bytes} (hp : Reads p w a) : (p >>= f) (w ++ v) = f a v := by
  show (p (w ++ v)).bind _ = _
  rw [hp]
  rfl

theorem Reads.bind {f : α → Reader ε β} {v : Bytes} {b : β}
    (hp : Reads p w a) (hf : Reads (f a) v b) : Reads (p >>= f) (w ++ v) b := by
  intro rest
  rw [List.append_assoc, hp.step]
  exact hf rest

theorem Reads.map (g : α → β) (hp : Reads p w a) : Reads (g <$> p) w (g a) := by
  rw [map_eq_pure_bind, ← List.append_nil w]
  exact hp.bind (Reads.pure _)

theorem Reads.all (hp : Reads p w a) : p w = .ok (a, []) := by
  simpa using hp []

theorem take_reads (short : ε) (b : Bytes) : Reads (take short b.length) b b := by
  intro rest
  simp [take]

theorem u32_reads (short : ε) {n : Nat} (h : n < 2 ^ 32) : Reads (u32 short) (putU32 n) n := by
  have hfour := take_reads short (putU32 n)
  rw [putU32, length_be] at hfour
  have hn := ofBe_be 4 n (by omega)
  have := hfour.map ofBe
  rwa [hn] at this

theorem block_reads (short : ε) {b : Bytes} (h : b.length < 2 ^ 32) : Reads (block short) (putBlock b) b :=
  (u32_reads short h).bind (take_reads short b)

theorem times_reads {p : Reader ε β} {w : α → Bytes} {f : α → β} {l : List α}
    (h : ∀ a ∈ l, Reads p (w a) (f a)) : Reads (times p l.length) (l.flatMap w) (l.map f) := by
  induction l with
  | nil => exact Reads.pure _
  | cons a l ih =>
    have hl := ih fun b hb => h b (.tail a hb)
    exact (h a (.head _)).bind (hl.map _)

end EnclaveOs.Lib.Wire
