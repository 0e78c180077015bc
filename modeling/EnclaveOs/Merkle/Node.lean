import EnclaveOs.Merkle.Backend
import EnclaveOs.Merkle.Hash

/-! # Tree nodes (`node.rs`) -/

open EnclaveOs.Lib

namespace EnclaveOs.Merkle

def NIBBLES : Nat := 64

abbrev Nibble := Fin 16

def nibble (path : Hash) (i : Nat) : Nibble :=
  let byte := path.toList.getD (i / 2) 0
  if i % 2 = 0 then Fin.ofNat 16 (byte >>> 4).toNat else Fin.ofNat 16 (byte &&& 0x0F).toNat

structure NodeKey where
  version : UInt64
  pfx : List Nibble
  deriving DecidableEq

namespace NodeKey

def root (version : UInt64) : NodeKey := ⟨version, []⟩

def packNibbles : List Nibble → Bytes
  | [] => []
  | [hi] => [UInt8.ofNat hi.val <<< 4]
  | hi :: lo :: rest => (UInt8.ofNat hi.val <<< 4 ||| UInt8.ofNat lo.val) :: packNibbles rest

def encode (nk : NodeKey) : Bytes := u64Be nk.version ++ [UInt8.ofNat nk.pfx.length] ++ packNibbles nk.pfx

/-- The derived order: by version, then by place. -/
instance : Ord NodeKey where
  compare a b := (compare a.version b.version).then (compare a.pfx b.pfx)

theorem compare_def (a b : NodeKey) : compare a b = (compare a.version b.version).then (compare a.pfx b.pfx) := rfl

instance : Std.LawfulEqOrd NodeKey where
  compare_self := by
    intro a
    rw [compare_def, Std.ReflOrd.compare_self, Std.ReflOrd.compare_self]
    rfl
  eq_of_compare := by
    intro a b h
    rw [compare_def, Ordering.then_eq_eq] at h
    have hv : a.version = b.version := Std.LawfulEqOrd.eq_of_compare h.1
    have hp : a.pfx = b.pfx := Std.LawfulEqOrd.eq_of_compare h.2
    cases a
    cases b
    simp_all

instance : Std.TransOrd NodeKey :=
  inferInstanceAs (Std.TransCmp (compareLex (compareOn NodeKey.version) (compareOn NodeKey.pfx)))

end NodeKey

structure Child where
  version : UInt64
  hash : Hash
  is_leaf : Bool
  deriving DecidableEq

structure InternalNode where
  children : Nibble → Option Child
  deriving DecidableEq

/-- `value_version` leads to the value record. The hash does not cover it. -/
structure LeafNode where
  path : Hash
  vh : Hash
  value_version : UInt64
  deriving DecidableEq

inductive Node where
  | internal (node : InternalNode)
  | leaf (leaf : LeafNode)
  deriving DecidableEq

def NODE_TAG_INTERNAL : UInt8 := 1
def NODE_TAG_LEAF : UInt8 := 2

def presentSlots (children : Nibble → Option Child) (start width : Nat) : List (Nibble × Child) :=
  ((List.finRange 16).filter fun i => start ≤ i.val ∧ i.val < start + width).filterMap fun i =>
    (children i).map fun c => (i, c)

namespace Node

def is_leaf : Node → Bool
  | .leaf _ => true
  | .internal _ => false

def bitmap (children : Nibble → Option Child) : BitVec 16 := BitVec.ofFnLE fun i => (children i).isSome

def encodeChild (c : Child) : Bytes := u64Be c.version ++ c.hash.toList ++ [if c.is_leaf then 1 else 0]

def encode : Node → Bytes
  | .leaf l => [NODE_TAG_LEAF] ++ l.path.toList ++ l.vh.toList ++ u64Be l.value_version
  | .internal n =>
    let bits := bitmap n.children
    [NODE_TAG_INTERNAL] ++ [UInt8.ofBitVec (bits.setWidth 8), UInt8.ofBitVec ((bits >>> 8).setWidth 8)] ++
      ((List.finRange 16).filterMap n.children).flatMap encodeChild

def corrupt (m : String) : MerkleError := .corrupted ("node decode: " ++ m)

def entry : Nat := 8 + 32 + 1

def decodeChild (data : Bytes) (off : Nat) : Except MerkleError Child := do
  let version := u64OfBe ((data.drop off).take 8)
  let hash := toVec 32 (data.drop (off + 8))
  let flag := data.getD (off + 8 + 32) 0
  let is_leaf ← if flag = 0 then pure false else if flag = 1 then pure true
    else throw (corrupt "bad is_leaf flag")
  pure ⟨version, hash, is_leaf⟩

def decodeChildren (data : Bytes) (bits : BitVec 16) :
    List Nibble → (Nibble → Option Child) → Nat → Except MerkleError (Nibble → Option Child)
  | [], children, _ => pure children
  | i :: rest, children, off =>
    if bits.getLsbD i then do
      let c ← decodeChild data off
      decodeChildren data bits rest (Function.update children i (some c)) (off + entry)
    else decodeChildren data bits rest children off

def countOnes (bits : BitVec 16) : Nat := (List.finRange 16).countP fun i => bits.getLsbD i.val

def decode (data : Bytes) : Except MerkleError Node :=
  if data.head? = some NODE_TAG_LEAF then
    if data.length ≠ 1 + 2 * 32 + 8 then throw (corrupt "bad leaf length")
    else pure (.leaf {
      path := toVec 32 (data.drop 1)
      vh := toVec 32 (data.drop (1 + 32))
      value_version := u64OfBe (data.drop (1 + 2 * 32)) })
  else if data.head? = some NODE_TAG_INTERNAL then
    if data.length < 3 then throw (corrupt "internal too short")
    else
      let bits : BitVec 16 := (data.getD 2 0).toBitVec ++ (data.getD 1 0).toBitVec
      let count := countOnes bits
      if count = 0 then throw (corrupt "internal with no children")
      else if data.length ≠ 3 + count * entry then throw (corrupt "bad internal length")
      else do
        let children ← decodeChildren data bits (List.finRange 16) (fun _ => none) 3
        pure (.internal ⟨children⟩)
  else throw (corrupt "unknown tag")

end Node

section

variable [Crypto]

def subtree_hash (children : Nibble → Option Child) (start : Nat) : Nat → Hash
  | 0 =>
    match presentSlots children start 1 with
    | [] => placeholder
    | (_, c) :: _ => c.hash
  | level + 1 =>
    match presentSlots children start (2 ^ (level + 1)) with
    | [] => placeholder
    | (_, c) :: rest =>
      if rest.isEmpty ∧ c.is_leaf then c.hash
      else internal_hash (subtree_hash children start level)
        (subtree_hash children (start + 2 ^ level) level)

def Node.hash : Node → Hash
  | .leaf l => leaf_hash l.path l.vh
  | .internal n => subtree_hash n.children 0 4

end

def debugList (items : List String) : String := "[" ++ ", ".intercalate items ++ "]"

def debugHash (h : Hash) : String := debugList (h.toList.map toString)

def NodeKey.debug (nk : NodeKey) : String :=
  "NodeKey \x7b version: " ++ toString nk.version ++ ", prefix: " ++ debugList (nk.pfx.map toString) ++ " \x7d"

def Child.debug (c : Child) : String :=
  "Child \x7b version: " ++ toString c.version ++ ", hash: " ++ debugHash c.hash ++
    ", is_leaf: " ++ toString c.is_leaf ++ " \x7d"

def debugOption {α : Type} (debug : α → String) : Option α → String
  | none => "None"
  | some a => "Some(" ++ debug a ++ ")"

def Node.debug : Node → String
  | .internal n => "Internal(InternalNode \x7b children: " ++
      debugList ((List.finRange 16).map fun i => debugOption Child.debug (n.children i)) ++ " \x7d)"
  | .leaf l => "Leaf(LeafNode \x7b path: " ++ debugHash l.path ++ ", vh: " ++ debugHash l.vh ++
      ", value_version: " ++ toString l.value_version ++ " \x7d)"

end EnclaveOs.Merkle
