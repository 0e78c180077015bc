import EnclaveOs.Merkle.Store

/-! # The store: pruning (`tree.rs`) -/

open EnclaveOs.Lib

namespace EnclaveOs.Merkle

def PRUNE_CHUNK : Nat := 512

structure PruneStats where
  stale_entries : Nat := 0
  records_deleted : Nat := 0
  root_records_deleted : Nat := 0
  deriving DecidableEq

namespace MerkleStore

variable {B : Type} [KvBackend B]

def staleEnd (before_version : UInt64) : Bytes :=
  if before_version.toNat + 1 < 2 ^ 64 then REC_STALE :: u64Be (before_version + 1) else [REC_STALE + 1]

/-- The first loop. An entry and the record that it names go in one batch. -/
def pruneStale (stop : Bytes) : Nat → PruneStats → StoreM B PruneStats
  | 0, _ => throw .fuel
  | fuel + 1, stats => do
    let entries ← backendScan [REC_STALE] stop PRUNE_CHUNK
    if entries.isEmpty then pure stats
    else if entries.any (fun e => e.1.length < 10) then fail (.corrupted "stale entry key too short")
    else do
      backendWriteBatch (entries.flatMap fun e => [.delete (e.1.drop 9), .delete e.1])
      let stats := { stats with
        stale_entries := stats.stale_entries + entries.length
        records_deleted := stats.records_deleted + entries.length }
      if entries.length ≠ PRUNE_CHUNK then pure stats else pruneStale stop fuel stats

def pruneRoots (stop : Bytes) : Nat → PruneStats → StoreM B PruneStats
  | 0, _ => throw .fuel
  | fuel + 1, stats => do
    let entries ← backendScan [REC_ROOT] stop PRUNE_CHUNK
    if entries.isEmpty then pure stats
    else do
      backendWriteBatch (entries.map fun e => .delete e.1)
      let stats := { stats with root_records_deleted := stats.root_records_deleted + entries.length }
      if entries.length ≠ PRUNE_CHUNK then pure stats else pruneRoots stop fuel stats

/-- The version that `prune` goes up to. A pinned version caps it. -/
def horizon (pin : Option UInt64) (before_version : UInt64) : UInt64 :=
  match pin with
  | some pin => min before_version pin
  | none => before_version

def prune (fuel : Nat) (before_version : UInt64) : StoreM B PruneStats := do
  let s ← Method.state
  let before_version := horizon s.snapshot_pin before_version
  if before_version > s.version then
    fail (.invalid ("cannot prune to future version " ++ toString before_version ++ " (current " ++
      toString s.version ++ ")"))
  else do
    Method.update fun s => { s with cache := s.cache.clear }
    let stats ← pruneStale (staleEnd before_version) fuel {}
    pruneRoots (REC_ROOT :: u64Be before_version) fuel stats

def retain_recent (fuel : Nat) (window : UInt64) : StoreM B PruneStats := do
  let s ← Method.state
  prune fuel (if window ≤ s.version then s.version - window else 0)

end MerkleStore

end EnclaveOs.Merkle
