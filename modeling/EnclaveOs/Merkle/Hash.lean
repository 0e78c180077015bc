import EnclaveOs.Lib.Bytes
import EnclaveOs.Lib.SparseMerkle

/-!
# Hashes and encryption (`hash.rs`, `aead.rs`)

`Crypto` is what the store takes from the `ring` crate. What was sealed opens again.
-/

open EnclaveOs.Lib EnclaveOs.Lib.SparseMerkle

namespace EnclaveOs.Merkle

abbrev Hash := Vector UInt8 32
abbrev Key := Vector UInt8 32
abbrev Nonce := Vector UInt8 12

def toVec (n : Nat) (l : Bytes) : Vector UInt8 n := Vector.ofFn fun i => l.getD i 0

theorem toVec_toList_append {n : Nat} (v : Vector UInt8 n) (l : Bytes) : toVec n (v.toList ++ l) = v := by
  apply Vector.ext
  intro i hi
  simp [toVec, List.getElem?_append_left]

theorem toVec_toList {n : Nat} (v : Vector UInt8 n) : toVec n v.toList = v := by
  simpa using toVec_toList_append v []

theorem toList_toVec {n : Nat} (l : Bytes) (h : l.length = n) : (toVec n l).toList = l := by
  apply List.ext_getElem
  · simp [h]
  · intro i hi _
    simp only [Vector.length_toList] at hi
    simp [toVec, List.getElem?_eq_getElem (h ▸ hi)]

class Crypto where
  sha256 : Bytes → Hash
  hmac : Key → Bytes → Hash
  /-- `seal_in_place_append_tag`: key, nonce, associated data, plaintext. -/
  sealInPlace : Key → Nonce → Bytes → Bytes → Option Bytes
  /-- `open_in_place`: key, nonce, associated data, ciphertext and tag. -/
  openInPlace : Key → Nonce → Bytes → Bytes → Option Bytes
  open_seal : ∀ key nonce aad pt ct, sealInPlace key nonce aad pt = some ct → openInPlace key nonce aad ct = some pt
  length_seal : ∀ key nonce aad pt ct, sealInPlace key nonce aad pt = some ct → ct.length = pt.length + 16

def ascii (s : String) : Bytes := s.toList.map fun c => UInt8.ofNat c.toNat

def TAG_LEAF : Bytes := ascii "enclave-os-merkle:leaf:v1"
def TAG_INTERNAL : Bytes := ascii "enclave-os-merkle:node:v1"
def TAG_PLACEHOLDER : Bytes := ascii "ENCLAVE_OS_MERKLE_PLACEHOLDER"

section

variable [Crypto]

def sha256_parts (parts : List Bytes) : Hash := Crypto.sha256 parts.flatten

/-- The hash of any empty subtree, at every height. -/
def placeholder : Hash := sha256_parts [TAG_PLACEHOLDER]

def leaf_hash (path vh : Hash) : Hash := sha256_parts [TAG_LEAF, path.toList, vh.toList]

def internal_hash (left right : Hash) : Hash := sha256_parts [TAG_INTERNAL, left.toList, right.toList]

/-- The three node hashes, as a hashing of entries `(path, vh)`. -/
def nodeHashing : Hashing Hash Hash Hash where
  empty := placeholder
  leaf := leaf_hash
  node := internal_hash

def AEAD_NONCE_SIZE : Nat := 12
def AEAD_TAG_SIZE : Nat := 16

structure AeadCipher where
  key_bytes : Key
  deriving DecidableEq

namespace AeadCipher

def from_key (key_bytes : Key) : AeadCipher := ⟨key_bytes⟩

/-- `nonce || ciphertext || tag`, with the nonce `draw`. -/
def encrypt (c : AeadCipher) (draw : Option Nonce) (plaintext aad : Bytes) : Except String Bytes :=
  match draw with
  | none => .error "RNG failed"
  | some nonce =>
    match Crypto.sealInPlace c.key_bytes nonce aad plaintext with
    | none => .error "Encryption failed"
    | some in_out => .ok (nonce.toList ++ in_out)

def decrypt (c : AeadCipher) (ciphertext aad : Bytes) : Except String Bytes :=
  if ciphertext.length < AEAD_NONCE_SIZE + AEAD_TAG_SIZE then .error "Ciphertext too short"
  else
    match Crypto.openInPlace c.key_bytes (toVec 12 ciphertext) aad (ciphertext.drop AEAD_NONCE_SIZE) with
    | none => .error "Decryption failed"
    | some plaintext => .ok plaintext

theorem decrypt_encrypt (c : AeadCipher) (draw : Option Nonce) (plaintext aad ct : Bytes)
    (h : c.encrypt draw plaintext aad = .ok ct) : c.decrypt ct aad = .ok plaintext := by
  unfold encrypt at h
  split at h
  · simp at h
  rename_i nonce
  split at h
  · simp at h
  rename_i in_out hseal
  simp only [Except.ok.injEq] at h
  subst h
  have hlen := Crypto.length_seal _ _ _ _ _ hseal
  rw [decrypt, if_neg (by simp [AEAD_NONCE_SIZE, AEAD_TAG_SIZE]; omega), toVec_toList_append]
  simp [AEAD_NONCE_SIZE, Crypto.open_seal _ _ _ _ _ hseal]

end AeadCipher

end

end EnclaveOs.Merkle
