import EnclaveOs.Lib.Tasks
import EnclaveOs.Wasm.Shamir

/-!
# The KEK of a handle (`vaultkey.rs`)

Any number of enclaves resolve the handle at once, one request to one vault at a time.
-/

namespace EnclaveOs.Wasm

open Lib

def GENERATION_SIZE : Nat := 16

def KEK_SIZE : Nat := 32

/-! ## Requests to a vault -/

/-- The failures of a request that the caller tells apart by their text. -/
inductive VaultError where
  /-- "key not found" -/
  | notFound
  /-- "policy.principals" -/
  | denied
  /-- "already exists" -/
  | exists
  | other
deriving DecidableEq

inductive Op where
  | exportKey (vault : Nat)
  | createKey (vault : Nat) (material : Bytes)
  /-- The result of a call reaches its caller. -/
  | report

@[reducible] def Ans : Op → Type
  | .exportKey _ | .createKey _ _ => Except VaultError Bytes
  | .report => Unit

inductive Net where
  | fine
  | unreachable
  /-- The request is served but the reply is lost. -/
  | lost
  /-- The policy refuses the caller. -/
  | refused
deriving DecidableEq

abbrev Vaults := Nat → Option Bytes

def export_key (held : Option Bytes) : Net → Except VaultError Bytes
  | .unreachable | .lost => .error .other
  | .refused =>
    match held with
    | some _ => .error .denied
    | none => .error .notFound
  | .fine =>
    match held with
    | some material => .ok material
    | none => .error .notFound

def create_key (held : Option Bytes) (material : Bytes) : Net → Except VaultError Bytes × Option Bytes
  | .unreachable => (.error .other, held)
  | .refused =>
    match held with
    | some _ => (.error .exists, held)
    | none => (.error .other, none)
  | .lost => (.error .other, some (held.getD material))
  | .fine =>
    match held with
    | some _ => (.error .exists, held)
    | none => (.ok [], some material)

def respond : (o : Op) → Net → Vaults → Ans o × Vaults
  | .exportKey i, net, vaults => (export_key (vaults i) net, vaults)
  | .createKey i material, net, vaults =>
    let r := create_key (vaults i) material net
    (r.1, Function.update vaults i r.2)
  | .report, _, vaults => ((), vaults)

abbrev VaultM := Prog Op Ans

def encode_share (generation : Bytes) (s : Share) : Bytes := generation ++ s.x :: s.data

/-- The generation is kept as bytes: the source writes them in hex. -/
def decode_share (payload : Bytes) : Except String (Bytes × Share) :=
  if payload.length < GENERATION_SIZE + 2 then
    .error ("share payload too short (" ++ toString payload.length ++ " bytes)")
  else
    match payload.drop GENERATION_SIZE with
    | [] => .error "share payload too short"
    | x :: data =>
      if x = 0 then .error "share X must be non-zero" else .ok (payload.take GENERATION_SIZE, ⟨x, data⟩)

def push_share (gen : Bytes) (share : Share) : List (Bytes × List Share) → List (Bytes × List Share)
  | [] => [(gen, [share])]
  | (g, shares) :: rest =>
    if g = gen then (g, shares ++ [share]) :: rest else (g, shares) :: push_share gen share rest

def best_group (threshold : Nat) : List (Bytes × List Share) → Option (List Share) → Option (List Share)
  | [], best => best
  | (_, shares) :: rest, best =>
    if threshold ≤ shares.length ∧ (best.map List.length).getD 0 < shares.length then
      best_group threshold rest (some shares)
    else best_group threshold rest best

structure VaultConfig where
  endpoints : List Nat
  threshold_field : Nat

def VaultConfig.threshold (cfg : VaultConfig) : Nat :=
  if cfg.threshold_field = 0 then 2 else cfg.threshold_field

structure Entropy where
  kek : Option Bytes
  generation : Option Bytes
  coeffs : Nat → Option (Nat → UInt8)
  kek_size : ∀ b, kek = some b → b.length = KEK_SIZE
  generation_size : ∀ b, generation = some b → b.length = GENERATION_SIZE

structure Found where
  by_gen : List (Bytes × List Share)
  not_found : Nat
  denied : Nat
deriving DecidableEq

def Found.add (found : Found) : Except VaultError Bytes → Found
  | .ok material =>
    match decode_share material with
    | .ok (gen, share) => { found with by_gen := push_share gen share found.by_gen }
    | .error _ => found
  | .error .notFound => { found with not_found := found.not_found + 1 }
  | .error .denied => { found with denied := found.denied + 1 }
  | .error _ => found

def collect_shares : List Nat → Found → VaultM Found
  | [], found => pure found
  | ep :: rest, found => do
    let reply ← Prog.perform (Op.exportKey ep)
    collect_shares rest (found.add reply)

/-- The answer is how many acknowledgements to count. -/
def create_share (ep : Nat) (payload : Bytes) : Nat → VaultM Nat
  | 0 => pure 0
  | tries + 1 => do
    match ← (Prog.perform (Op.createKey ep payload) : VaultM (Except VaultError Bytes)) with
    | .ok _ => pure 1
    | .error .exists => pure 0
    | .error _ => create_share ep payload tries

def create_shares (generation : Bytes) : List Nat → List Share → Nat → VaultM Nat
  | ep :: eps, share :: shares, acks => do
    let ack ← create_share ep (encode_share generation share) 2
    create_shares generation eps shares (acks + ack)
  | _, _, acks => pure acks

def to_kek (v : Bytes) : Except String Bytes :=
  if v.length ≠ KEK_SIZE then
    .error ("vaultkey: reconstructed KEK has " ++ toString v.length ++ " bytes, want 32")
  else .ok v

def provision (cfg : VaultConfig) (e : Entropy) : VaultM (Except String Bytes) :=
  match e.kek with
  | none => pure (.error "vaultkey: rng (kek)")
  | some kek =>
    match e.generation with
    | none => pure (.error "vaultkey: rng (generation)")
    | some generation =>
      match shamir_split e.coeffs kek cfg.threshold cfg.endpoints.length with
      | .error err => pure (.error err)
      | .ok shares => do
        let acks ← create_shares generation cfg.endpoints shares 0
        if acks < cfg.threshold then
          pure (.error ("vaultkey: only " ++ toString acks ++ " of " ++ toString cfg.endpoints.length ++
            " vaults accepted a share (threshold " ++ toString cfg.threshold ++
            ") — refusing to use an unrecoverable KEK"))
        else pure (.ok kek)

def resolve_or_provision (cfg : VaultConfig) (grant : String) (e : Entropy) : VaultM (Except String Bytes) :=
  if cfg.endpoints.isEmpty then pure (.error "vaultkey: sealed config has no vault endpoints")
  else if cfg.endpoints.length < cfg.threshold then
    pure (.error ("vaultkey: threshold " ++ toString cfg.threshold ++ " exceeds " ++
      toString cfg.endpoints.length ++ " endpoints"))
  else do
    let found ← collect_shares cfg.endpoints ⟨[], 0, 0⟩
    match best_group cfg.threshold found.by_gen none with
    | some best => pure (shamir_reconstruct best >>= to_kek)
    | none =>
      -- the key exists but this measurement is not authorised: never fall through to a create
      if 0 < found.denied then pure (.error "vaultkey: key exists but this measurement is not authorised")
      else if found.not_found ≠ cfg.endpoints.length then
        pure (.error "vaultkey: cannot reconstruct and not every vault reports the handle absent")
      else if grant.isEmpty then
        pure (.error "vaultkey: handle does not exist and no key-creation grant was supplied")
      else provision cfg e

end EnclaveOs.Wasm
