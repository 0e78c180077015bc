import EnclaveOs.Merkle.Node

/-! # Inclusion and absence proofs (`proof.rs`) -/

open EnclaveOs.Lib EnclaveOs.Lib.SparseMerkle

namespace EnclaveOs.Merkle

def MAX_DEPTH : Nat := 256

/-- The leaf at the end, if any, and the hashes beside the path, deepest first. -/
structure Proof where
  leaf : Option (Hash × Hash)
  siblings : List Hash
  deriving DecidableEq

inductive Verified where
  | present (vh : Hash)
  | absent
  deriving DecidableEq

def bit (path : Hash) (i : Nat) : Bool := (path.toList.getD (i / 8) 0 &&& (0x80 >>> UInt8.ofNat (i % 8))) != 0

def leading_zeros (x : UInt8) : Nat := x.toBitVec.clz.toNat

def commonPrefixFrom : Nat → Bytes → Bytes → Nat
  | i, a :: as, b :: bs =>
    let x := a ^^^ b
    if x ≠ 0 then i * 8 + leading_zeros x else commonPrefixFrom (i + 1) as bs
  | _, _, _ => MAX_DEPTH

def common_prefix_bits (a b : Hash) : Nat := commonPrefixFrom 0 a.toList b.toList

section

variable [Crypto]

/-- What the fold starts from, and what the proof then says about `path`. -/
def verifyStart (path : Hash) (proof : Proof) : Except MerkleError (Hash × Verified) :=
  match proof.leaf with
  | some (leaf_path, vh) =>
    if leaf_path = path then pure (leaf_hash leaf_path vh, .present vh)
    else if common_prefix_bits leaf_path path < proof.siblings.length then
      throw (.invalid "divergent leaf does not cover the proven path")
    else pure (leaf_hash leaf_path vh, .absent)
  | none => pure (placeholder, .absent)

def verifyFold (path : Hash) (siblings : List Hash) (acc : Hash) : Hash :=
  siblings.zipIdx.foldl (fun acc (sibling, i) =>
    if bit path (siblings.length - 1 - i) then internal_hash sibling acc
    else internal_hash acc sibling) acc

def verify (root path : Hash) (proof : Proof) : Except MerkleError Verified :=
  if proof.siblings.length > MAX_DEPTH then throw (.invalid "proof too deep")
  else do
    let (acc, statement) ← verifyStart path proof
    if verifyFold path proof.siblings acc ≠ root then throw (.invalid "proof does not match root")
    else pure statement

theorem foldl_eq_climb (path : Hash) (siblings : List Hash) (d : Nat) (acc : Hash) :
    siblings.zipIdx.foldl (fun acc (sibling, i) =>
      if bit path (d + siblings.length - 1 - i) then internal_hash sibling acc
      else internal_hash acc sibling) acc =
    climb nodeHashing (bit path) d siblings.reverse acc := by
  induction siblings using List.reverseRecOn generalizing d with
  | nil => rfl
  | append_singleton rest s ih =>
    rw [List.reverse_append, List.reverse_singleton, List.singleton_append, climb, ← ih (d + 1)]
    rw [List.zipIdx_append, List.foldl_append, List.length_append, List.length_singleton]
    simp only [List.zipIdx_cons, List.zipIdx_nil, List.foldl_cons, List.foldl_nil, zero_add, nodeHashing]
    rw [show d + (rest.length + 1) - 1 - rest.length = d by omega,
      show d + (rest.length + 1) - 1 = d + 1 + rest.length - 1 by omega]

theorem verifyFold_eq_climb (path : Hash) (siblings : List Hash) (acc : Hash) :
    verifyFold path siblings acc = climb nodeHashing (bit path) 0 siblings.reverse acc := by
  rw [← foldl_eq_climb, verifyFold, zero_add]

theorem verify_eq_ok {root path : Hash} {proof : Proof} {statement : Verified} :
    verify root path proof = .ok statement ↔
      proof.siblings.length ≤ 256 ∧ ∃ acc, verifyStart path proof = .ok (acc, statement) ∧
        climb nodeHashing (bit path) 0 proof.siblings.reverse acc = root := by
  unfold verify
  simp only [verifyFold_eq_climb, MAX_DEPTH]
  split
  · rename_i h
    simp only [throw, throwThe, MonadExceptOf.throw, reduceCtorEq, false_iff, not_and]
    omega
  rename_i h
  rcases hs : verifyStart path proof with e | ⟨acc, st⟩
  · simp [bind, Except.bind]
  simp only [bind, Except.bind, Except.ok.injEq, Prod.mk.injEq]
  split
  · rename_i hne
    simp only [throw, throwThe, MonadExceptOf.throw, reduceCtorEq, false_iff, not_and]
    rintro - ⟨x, ⟨rfl, -⟩, hx⟩
    exact hne hx
  · rename_i heq
    simp only [pure, Except.pure, Except.ok.injEq]
    constructor
    · intro hst
      exact ⟨by omega, acc, ⟨rfl, hst⟩, not_not.mp heq⟩
    · rintro ⟨-, x, ⟨-, hst⟩, -⟩
      exact hst

end

def u16Le (n : Nat) : Bytes := [UInt8.ofNat n, UInt8.ofNat (n / 256)]

namespace Proof

def encode (proof : Proof) : Bytes :=
  (match proof.leaf with
    | some (path, vh) => [1] ++ path.toList ++ vh.toList
    | none => [0]) ++
  u16Le proof.siblings.length ++ proof.siblings.flatMap Vector.toList

def malformed : MerkleError := .invalid "malformed proof"

def decodeLeaf (data : Bytes) : Except MerkleError (Option (Hash × Hash) × Nat) :=
  if data.head? = some 0 then pure (none, 1)
  else if data.head? = some 1 then
    if data.length < 1 + 2 * 32 then throw malformed
    else pure (some (toVec 32 (data.drop 1), toVec 32 (data.drop (1 + 32))), 1 + 2 * 32)
  else throw malformed

def decodeSiblings (data : Bytes) : Nat → Nat → List Hash
  | 0, _ => []
  | count + 1, off => toVec 32 (data.drop off) :: decodeSiblings data count (off + 32)

def decodeRest (data : Bytes) (leaf : Option (Hash × Hash)) (off : Nat) : Except MerkleError Proof :=
  if data.length < off + 2 then throw malformed
  else
    let count := (data.getD off 0).toNat + 256 * (data.getD (off + 1) 0).toNat
    if count > MAX_DEPTH ∨ data.length ≠ off + 2 + count * 32 then throw malformed
    else pure ⟨leaf, decodeSiblings data count (off + 2)⟩

def decode (data : Bytes) : Except MerkleError Proof := do
  let (leaf, off) ← decodeLeaf data
  decodeRest data leaf off

theorem decodeSiblings_append (pre : Bytes) (siblings : List Hash) :
    decodeSiblings (pre ++ siblings.flatMap Vector.toList) siblings.length pre.length = siblings := by
  induction siblings generalizing pre with
  | nil => rfl
  | cons s rest ih =>
    have hdrop : (pre ++ (s :: rest).flatMap Vector.toList).drop pre.length =
        s.toList ++ rest.flatMap Vector.toList := by simp
    have hsplit : pre ++ (s :: rest).flatMap Vector.toList =
        (pre ++ s.toList) ++ rest.flatMap Vector.toList := by simp
    have hlen : (pre ++ s.toList).length = pre.length + 32 := by simp
    rw [List.length_cons, decodeSiblings, hdrop, toVec_toList_append, hsplit, ← hlen, ih]

theorem decodeRest_append (pre : Bytes) (leaf : Option (Hash × Hash)) (siblings : List Hash)
    (h : siblings.length ≤ 256) :
    decodeRest (pre ++ (u16Le siblings.length ++ siblings.flatMap Vector.toList)) leaf pre.length =
      .ok ⟨leaf, siblings⟩ := by
  have hlen : (siblings.flatMap Vector.toList).length = siblings.length * 32 := by simp [List.length_flatMap]
  have hget : ∀ i, (pre ++ (u16Le siblings.length ++ siblings.flatMap Vector.toList)).getD (pre.length + i) 0 =
      (u16Le siblings.length ++ siblings.flatMap Vector.toList).getD i 0 := by
    intro i
    rw [List.getD_append_right _ _ _ _ (by omega), Nat.add_sub_cancel_left]
  have hcount : ((pre ++ (u16Le siblings.length ++ siblings.flatMap Vector.toList)).getD pre.length 0).toNat +
      256 * ((pre ++ (u16Le siblings.length ++ siblings.flatMap Vector.toList)).getD (pre.length + 1) 0).toNat =
      siblings.length := by
    rw [show pre.length = pre.length + 0 from rfl, hget, add_zero, hget]
    simp [u16Le]
    omega
  unfold decodeRest
  simp only [hcount]
  rw [if_neg (by simp [u16Le]), if_neg (by simp [u16Le, hlen, MAX_DEPTH]; omega)]
  have hsib := decodeSiblings_append (pre ++ u16Le siblings.length) siblings
  rw [List.append_assoc, List.length_append, show (u16Le siblings.length).length = 2 from rfl] at hsib
  rw [hsib]
  rfl

theorem decode_encode (proof : Proof) (h : proof.siblings.length ≤ 256) : decode proof.encode = .ok proof := by
  obtain ⟨leaf, siblings⟩ := proof
  unfold decode encode
  rcases leaf with _ | pv
  · have hrest := decodeRest_append [0] none siblings h
    simp only [List.append_assoc]
    rw [decodeLeaf, if_pos (by simp)]
    exact hrest
  obtain ⟨path, vh⟩ := pv
  have hrest := decodeRest_append ([1] ++ path.toList ++ vh.toList) (some (path, vh)) siblings h
  have hoff : ([1] ++ path.toList ++ vh.toList).length = 1 + 2 * 32 := by simp
  rw [hoff] at hrest
  simp only [List.append_assoc] at hrest ⊢
  rw [decodeLeaf, if_neg (by simp), if_pos (by simp), if_neg (by simp; omega)]
  simp only [List.singleton_append, List.drop_succ_cons, List.drop_zero, toVec_toList_append]
  rw [List.drop_left' (by simp), toVec_toList_append]
  exact hrest

end Proof

end EnclaveOs.Merkle
