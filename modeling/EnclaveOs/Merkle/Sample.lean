import EnclaveOs.Merkle.History

/-!
# A hashing to compute with

A hashing that shows its inputs. Only the empty tree has a hash that starts with 0.
-/

open EnclaveOs.Lib EnclaveOs.Lib.SparseMerkle

namespace EnclaveOs.Merkle.Sample

def mix (l : Bytes) : Nat := l.foldl (fun a b => (a * 257 + b.toNat + 1) % 2 ^ 248) 7

def sha256 (l : Bytes) : Hash :=
  if l = TAG_PLACEHOLDER then Vector.replicate 32 0 else toVec 32 (1 :: be 31 (mix l))

def hmac (_ : Key) (l : Bytes) : Hash :=
  match l with
  | [] => Vector.replicate 32 0
  | tag :: rest => if tag = 118 then toVec 32 (rest.take 4 ++ rest.drop 32) else toVec 32 rest

scoped instance crypto : Crypto where
  sha256
  hmac
  sealInPlace _ _ _ pt := some (pt ++ List.replicate 16 0)
  openInPlace _ _ _ ct := some (ct.take (ct.length - 16))
  open_seal := by
    intro _ _ _ pt ct h
    obtain rfl := Option.some.inj h
    simp
  length_seal := by
    intro _ _ _ pt ct h
    obtain rfl := Option.some.inj h
    simp

def key : Key := Vector.replicate 32 0

def nonce : Nonce := Vector.replicate 12 0

def entropy : Entropy := ⟨fun _ => some nonce, some nonce⟩

theorem drawn : entropy.Drawn := ⟨fun _ => ⟨nonce, rfl⟩, nonce, rfl⟩

theorem seals : Seals := fun _ _ _ pt => ⟨pt ++ List.replicate 16 0, rfl⟩

/-! ## Nothing hashes to the empty tree -/

theorem length_tags : TAG_LEAF.length = 25 ∧ TAG_INTERNAL.length = 25 ∧ TAG_PLACEHOLDER.length = 29 := by
  decide

theorem sha256_eq (l : Bytes) : Crypto.sha256 l =
    if l = TAG_PLACEHOLDER then Vector.replicate 32 0 else toVec 32 (1 :: be 31 (mix l)) := rfl

theorem sha256_ne {l : Bytes} (h : l.length ≠ 29) : Crypto.sha256 l ≠ placeholder := by
  have hl : l ≠ TAG_PLACEHOLDER := fun he => h (by rw [he]; exact length_tags.2.2)
  have hp : placeholder = Vector.replicate 32 0 := by
    unfold placeholder sha256_parts
    rw [List.flatten_singleton, sha256_eq, if_pos rfl]
  have hs : Crypto.sha256 l = toVec 32 (1 :: be 31 (mix l)) := by rw [sha256_eq, if_neg hl]
  rw [hs, hp]
  intro he
  have h0 := congrArg (fun v : Hash => v.get 0) he
  simp [toVec] at h0

theorem leaf_hash_ne (p vh : Hash) : leaf_hash p vh ≠ placeholder := by
  unfold leaf_hash sha256_parts
  exact sha256_ne (by simp [length_tags.1])

theorem internal_hash_ne (l r : Hash) : internal_hash l r ≠ placeholder := by
  unfold internal_hash sha256_parts
  exact sha256_ne (by simp [length_tags.2.1])

theorem canon_ne {S : Finset (Hash × Hash)} (h : S.Nonempty) : canon bit nodeHashing 256 0 S ≠ placeholder := by
  rcases card_cases S with rfl | ⟨x, rfl⟩ | h2
  · simp at h
  · rw [canon_singleton]
    exact leaf_hash_ne _ _
  · rw [canon_split _ h2]
    exact internal_hash_ne _ _

theorem rootsApart (ck : Key) (U : Set (Hash × Bytes)) : MerkleStore.RootsApart ck U :=
  fun _ h _ _ => canon_ne h

def store : MerkleStore MemBackend :=
  match MerkleStore.create ({} : MemBackend) key key (some nonce) with
  | .ok s => s
  | .error _ => MerkleStore.fresh {} key key placeholder 0

theorem create_store : MerkleStore.create ({} : MemBackend) key key (some nonce) = .ok store := by
  obtain ⟨s, hs⟩ := MerkleStore.create_ok seals ({} : MemBackend) key key nonce
  unfold store
  rw [hs]

end EnclaveOs.Merkle.Sample
