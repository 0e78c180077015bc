import EnclaveOs.Merkle.Hash

/-!
# Configuration roots (`config_merkle.rs`, `cert_store.rs`) and the hash of all apps (`lib.rs` of wasm)

Names and keys go into the manifest, not into the root.
-/

namespace EnclaveOs.Attest

open Lib Merkle

structure ConfigLeaf where
  name : String
  data : Option Bytes

structure ManifestEntry where
  name : String
  hash : Hash

structure ConfigManifest where
  entries : List ManifestEntry
  root : Hash

structure ConfigEntry where
  key : String
  value : Bytes
  oid : Option (List UInt64)

structure AttestedEndpointIdentity where
  endpoint_manifest_id : Vector UInt8 16
  endpoint_manifest_digest : Vector UInt8 32
  endpoint_id : Vector UInt8 16
  operation_id : Vector UInt8 16
  workflow_generation_id : Vector UInt8 16
  entry_stage_id : UInt32
  workflow_id : Vector UInt8 16
  workflow_manifest_digest : Vector UInt8 32
  route_digest : Vector UInt8 32
  activation_epoch : UInt64
deriving DecidableEq

structure RegisteredApp where
  merkle_root : Hash
  oid_extensions : List (List UInt64 × Bytes)
  attested_endpoint : Option AttestedEndpointIdentity
  manifest : List (String × Hash)

def zeros : Hash := Vector.replicate 32 0

section

variable (sha256 : Bytes → Hash)

def hash_of : Option Bytes → Hash
  | some data => sha256 data
  | none => zeros

def preimage (hashes : List Hash) : Bytes := (hashes.map Vector.toList).flatten

def finalize (leaves : List ConfigLeaf) : ConfigManifest where
  entries := leaves.map fun leaf => ⟨leaf.name, hash_of sha256 leaf.data⟩
  root := sha256 (preimage (leaves.map fun leaf => hash_of sha256 leaf.data))

def fields (e : AttestedEndpointIdentity) : List Bytes :=
  [e.endpoint_manifest_id.toList, e.endpoint_manifest_digest.toList, e.endpoint_id.toList, e.operation_id.toList,
    e.workflow_generation_id.toList, be 4 e.entry_stage_id.toNat, e.workflow_id.toList,
    e.workflow_manifest_digest.toList, e.route_digest.toList, u64Be e.activation_epoch]

def projection (e : AttestedEndpointIdentity) : Bytes := (fields e).flatten

def app_root (leaf_hashes : List Hash) : Hash :=
  if leaf_hashes.isEmpty then zeros else sha256 (preimage leaf_hashes)

def compute_app (config : List ConfigEntry) (attested_endpoint : Option AttestedEndpointIdentity) : RegisteredApp :=
  let entries := config.map fun entry => (entry.key, sha256 entry.value)
  let endpoint := attested_endpoint.toList.map fun e => ("honest.attested_endpoint", sha256 (projection e))
  { merkle_root := app_root sha256 ((entries ++ endpoint).map Prod.snd)
    oid_extensions := config.filterMap fun entry => entry.oid.map fun oid => (oid, entry.value)
    attested_endpoint
    manifest := entries ++ endpoint }

/-- A collision, or a string with the hash of an absent leaf. -/
def Broken (Q : Set Bytes) : Prop := ¬ Set.InjOn sha256 Q ∨ ∃ x ∈ Q, sha256 x = zeros

def hashed (leaves : List (Option Bytes)) : Set Bytes :=
  {x | some x ∈ leaves} ∪ {preimage (leaves.map (hash_of sha256))}

def app_leaves (config : List ConfigEntry) (e : Option AttestedEndpointIdentity) : List Bytes :=
  config.map ConfigEntry.value ++ e.toList.map projection

end

theorem preimage_inj {a b : List Hash} (h : preimage a = preimage b) : a = b := by
  induction a generalizing b with
  | nil =>
    rcases b with _ | ⟨y, b⟩
    · rfl
    have hlen := congrArg List.length h
    simp [preimage] at hlen
    omega
  | cons x a ih =>
    rcases b with _ | ⟨y, b⟩
    · have hlen := congrArg List.length h
      simp [preimage] at hlen
    have happend : x.toList ++ preimage a = y.toList ++ preimage b := h
    obtain ⟨hhead, htail⟩ := List.append_inj happend (by simp)
    rw [Vector.toList_inj.mp hhead, ih htail]

theorem projection_inj {e e' : AttestedEndpointIdentity} : projection e = projection e' ↔ e = e' := by
  refine ⟨fun h => ?_, fun h => h ▸ rfl⟩
  have hfields : fields e = fields e' := by
    refine List.eq_iff_flatten_eq.mpr ⟨h, ?_⟩
    simp [fields]
  simp only [fields, List.cons.injEq, Vector.toList_inj, and_true] at hfields
  obtain ⟨h1, h2, h3, h4, h5, hstage, h7, h8, h9, hepoch⟩ := hfields
  have hstage : e.entry_stage_id = e'.entry_stage_id := by
    have hnat := congrArg ofBe hstage
    rw [ofBe_be _ _ e.entry_stage_id.toNat_lt, ofBe_be _ _ e'.entry_stage_id.toNat_lt] at hnat
    exact UInt32.toNat_inj.mp hnat
  have hepoch := u64Be_inj hepoch
  cases e
  cases e'
  simp_all

section

variable {sha256 : Bytes → Hash} {Q : Set Bytes}

theorem map_hash_of_inj (hQ : ¬ Broken sha256 Q) {a b : List (Option Bytes)}
    (ha : ∀ d, some d ∈ a → d ∈ Q) (hb : ∀ d, some d ∈ b → d ∈ Q)
    (h : a.map (hash_of sha256) = b.map (hash_of sha256)) : a = b := by
  induction a generalizing b with
  | nil => exact (List.map_eq_nil_iff.mp h.symm).symm
  | cons x a ih =>
    rcases b with _ | ⟨y, b⟩
    · cases h
    obtain ⟨hhead, htail⟩ := List.cons.inj h
    obtain ⟨hinj, hzero⟩ := not_or.mp hQ
    have hxy : x = y := by
      rcases x with _ | d
      · rcases y with _ | d'
        · rfl
        · exact absurd ⟨d', hb d' List.mem_cons_self, hhead.symm⟩ hzero
      · rcases y with _ | d'
        · exact absurd ⟨d, ha d (.head _), hhead⟩ hzero
        · exact congrArg some (not_not.mp hinj (ha d (.head _)) (hb d' List.mem_cons_self) hhead)
    rw [hxy, ih (fun d hd => ha d (List.mem_cons_of_mem _ hd)) (fun d hd => hb d (List.mem_cons_of_mem _ hd)) htail]

theorem sha256_preimage_inj {a b : List (Option Bytes)} (hQ : ¬ Broken sha256 Q)
    (ha : hashed sha256 a ⊆ Q) (hb : hashed sha256 b ⊆ Q) :
    sha256 (preimage (a.map (hash_of sha256))) = sha256 (preimage (b.map (hash_of sha256))) ↔ a = b := by
  refine ⟨fun h => ?_, fun h => h ▸ rfl⟩
  have hpre := not_not.mp (not_or.mp hQ).1 (ha (.inr rfl)) (hb (.inr rfl)) h
  exact map_hash_of_inj hQ (fun d hd => ha (.inl hd)) (fun d hd => hb (.inl hd)) (preimage_inj hpre)

theorem app_root_eq (config : List ConfigEntry) (e : Option AttestedEndpointIdentity) :
    (compute_app sha256 config e).merkle_root =
      if app_leaves config e = [] then zeros
      else sha256 (preimage (((app_leaves config e).map some).map (hash_of sha256))) := by
  have hleaves : ((app_leaves config e).map some).map (hash_of sha256) = config.map (fun entry => sha256 entry.value) ++
      e.toList.map fun e => sha256 (projection e) := by
    simp [app_leaves, hash_of, Function.comp_def]
  rw [hleaves]
  simp [compute_app, app_root, app_leaves, Function.comp_def]

end

/-- Equal roots have equal leaves in order, whatever the names. -/
theorem roots_bind (sha256 : Bytes → Hash) (leaves leaves' : List ConfigLeaf) (config config' : List ConfigEntry)
    (e e' : Option AttestedEndpointIdentity) :
    (((finalize sha256 leaves).root = (finalize sha256 leaves').root ↔
        leaves.map ConfigLeaf.data = leaves'.map ConfigLeaf.data) ∨
      Broken sha256 (hashed sha256 (leaves.map ConfigLeaf.data) ∪ hashed sha256 (leaves'.map ConfigLeaf.data))) ∧
    (((compute_app sha256 config e).merkle_root = (compute_app sha256 config' e').merkle_root ↔
          app_leaves config e = app_leaves config' e') ∧
        ((compute_app sha256 config e).merkle_root = (compute_app sha256 config' e').merkle_root ∧
            e.isSome = e'.isSome ↔
          config.map ConfigEntry.value = config'.map ConfigEntry.value ∧ e = e') ∨
      Broken sha256 (hashed sha256 ((app_leaves config e).map some) ∪
        hashed sha256 ((app_leaves config' e').map some))) := by
  constructor
  · refine or_iff_not_imp_right.mpr fun hQ => ?_
    have hinj := sha256_preimage_inj hQ Set.subset_union_left Set.subset_union_right
    simpa [finalize, Function.comp_def] using hinj
  · refine or_iff_not_imp_right.mpr fun hQ => ?_
    have hzero := (not_or.mp hQ).2
    have hinj : (compute_app sha256 config e).merkle_root = (compute_app sha256 config' e').merkle_root ↔
        app_leaves config e = app_leaves config' e' := by
      rw [app_root_eq, app_root_eq]
      split
      · rename_i hnil
        split
        · rename_i hnil'
          simp [hnil, hnil']
        · rename_i hne'
          refine iff_of_false (fun heq => hzero ⟨_, .inr (.inr rfl), heq.symm⟩) (fun heq => hne' ?_)
          rw [← heq, hnil]
      · rename_i hne
        split
        · rename_i hnil'
          refine iff_of_false (fun heq => hzero ⟨_, .inl (.inr rfl), heq⟩) (fun heq => hne ?_)
          rw [heq, hnil']
        · rw [sha256_preimage_inj hQ Set.subset_union_left Set.subset_union_right]
          exact (List.map_injective_iff.mpr (Option.some_injective _)).eq_iff
    refine ⟨hinj, ?_⟩
    rw [hinj]
    cases e <;> cases e' <;> simp [app_leaves, projection_inj, List.append_singleton_inj]

def endpoint : AttestedEndpointIdentity :=
  ⟨.replicate 16 1, .replicate 32 2, .replicate 16 3, .replicate 16 4, .replicate 16 5, 6, .replicate 16 7,
    .replicate 32 8, .replicate 32 9, 10⟩

/-- Names and keys do not count, and an entry can stand for an endpoint. -/
theorem same_root_other_names :
    (((fun sha256 => (finalize sha256 [⟨"egress.ca_bundle", some [1]⟩]).root) =
        fun sha256 => (finalize sha256 [⟨"wasm.code_hash", some [1]⟩]).root) ∧ "egress.ca_bundle" ≠ "wasm.code_hash") ∧
    (((fun sha256 => (compute_app sha256 [⟨"code_hash", [1], none⟩] none).merkle_root) =
        fun sha256 => (compute_app sha256 [⟨"policy_version", [1], none⟩] none).merkle_root) ∧
      "code_hash" ≠ "policy_version") ∧
    (fun sha256 => (compute_app sha256 [⟨"code_hash", projection endpoint, none⟩] none).merkle_root) =
        fun sha256 => (compute_app sha256 [] (some endpoint)).merkle_root :=
  ⟨⟨rfl, by decide⟩, ⟨rfl, by decide⟩, rfl⟩

/-! ## All apps of the enclave (`combined_apps_hash`) -/

/-- The known apps by name, with the hashes of their code. -/
@[ext] structure KnownApps where
  hashes : List (String × Hash)
  ascending : hashes.Pairwise (·.1 < ·.1)

def as_bytes (name : String) : Bytes := name.toUTF8.data.toList

def listing (hashes : List (String × Hash)) : Bytes := hashes.flatMap fun e => as_bytes e.1 ++ e.2.toList

def combined_apps_hash (sha256 : Bytes → Hash) (apps : KnownApps) : Hash :=
  if apps.hashes.isEmpty then zeros else sha256 (listing apps.hashes)

/-- The extension of the certificate. -/
def custom_oids (sha256 : Bytes → Hash) (apps : KnownApps) : Option Hash :=
  if combined_apps_hash sha256 apps ≠ zeros then some (combined_apps_hash sha256 apps) else none

/-- The second name is the first one followed by bytes that agree with its hash. -/
def Continues (x y : String × Hash) : Prop :=
  x.1 ≠ y.1 ∧ as_bytes x.1 <+: as_bytes y.1 ∧
    (as_bytes y.1 <+: as_bytes x.1 ++ x.2.toList ∨ as_bytes x.1 ++ x.2.toList <+: as_bytes y.1)

/-- No app on one side continues an app on the other side. -/
def Apart (a b : List (String × Hash)) : Prop := ∀ x ∈ a, ∀ y ∈ b, ¬ Continues x y ∧ ¬ Continues y x

theorem eq_of_not_continues {x y : String × Hash} {r r' : Bytes} (hx : ¬ Continues x y) (hy : ¬ Continues y x)
    (h : as_bytes x.1 ++ x.2.toList ++ r = as_bytes y.1 ++ y.2.toList ++ r') : x.1 = y.1 := by
  by_contra hne
  have hnx : as_bytes x.1 <+: as_bytes x.1 ++ x.2.toList ++ r := by simp
  have hny : as_bytes y.1 <+: as_bytes x.1 ++ x.2.toList ++ r := by simp [h]
  rcases List.prefix_or_prefix_of_prefix hnx hny with hp | hp
  · exact hx ⟨hne, hp, List.prefix_or_prefix_of_prefix hny (List.prefix_append _ _)⟩
  · exact hy ⟨Ne.symm hne, hp, List.prefix_or_prefix_of_prefix hnx (h ▸ List.prefix_append _ _)⟩

theorem listing_inj {a b : List (String × Hash)} (hapart : Apart a b) (h : listing a = listing b) : a = b := by
  induction a generalizing b with
  | nil =>
    rcases b with _ | ⟨y, b⟩
    · rfl
    · simp [listing] at h
  | cons x a ih =>
    rcases b with _ | ⟨y, b⟩
    · simp [listing] at h
    obtain ⟨n, u⟩ := x
    obtain ⟨n', u'⟩ := y
    obtain ⟨hx, hy⟩ := hapart _ (.head _) _ (.head _)
    simp only [listing, List.flatMap_cons] at h
    obtain rfl : n = n' := eq_of_not_continues hx hy h
    rw [List.append_assoc, List.append_assoc] at h
    obtain ⟨hu, hrest⟩ := List.append_inj (List.append_cancel_left h) (by simp)
    rw [Vector.toList_inj.mp hu, ih (fun x hx y hy => hapart x (List.mem_cons_of_mem _ hx) y
      (.tail _ hy)) hrest]

/-- Sets of apps have different hashes when no name goes on as another one's hash does. -/
theorem combined_hash_identifies (sha256 : Bytes → Hash) {a b : KnownApps} (hapart : Apart a.hashes b.hashes) :
    (combined_apps_hash sha256 a = combined_apps_hash sha256 b ↔ a = b) ∧
        (custom_oids sha256 a = none ↔ a.hashes = []) ∨
      Broken sha256 {listing a.hashes, listing b.hashes} := by
  refine or_iff_not_imp_right.mpr fun hQ => ?_
  obtain ⟨hinj, hzero⟩ := not_or.mp hQ
  have hempty : ∀ c ∈ [a, b], combined_apps_hash sha256 c = zeros ↔ c.hashes = [] := by
    intro c hc
    unfold combined_apps_hash
    split
    · simp_all
    rename_i hsome
    refine iff_of_false (fun h => hzero ⟨listing c.hashes, ?_, h⟩) (by simpa using hsome)
    rcases List.mem_pair.mp hc with rfl | rfl <;> simp
  have ha := hempty a (by simp)
  have hb := hempty b (by simp)
  refine ⟨⟨fun h => KnownApps.ext ?_, fun h => h ▸ rfl⟩, by simp [custom_oids, ha]⟩
  by_cases hnil : a.hashes = []
  · rw [hnil, hb.mp (h ▸ ha.mpr hnil)]
  have hsome : b.hashes ≠ [] := fun hn => hnil (ha.mp (h.trans (hb.mpr hn)))
  simp only [combined_apps_hash, List.isEmpty_iff, hnil, hsome, if_false] at h
  exact listing_inj hapart (not_not.mp hinj (by simp) (by simp) h)

def one (name : String) : KnownApps := ⟨[(name, .replicate 32 120)], List.pairwise_singleton _ _⟩

def two (byte : UInt8) : KnownApps :=
  ⟨[("app", .replicate 32 120), ("app2", .replicate 32 byte)], List.pairwise_pair.mpr (show "app" < "app2" by decide)⟩

theorem combined_hash_sample : let sha256 : Bytes → Hash := fun x => .replicate 32 (x.getD 39 0)
    combined_apps_hash sha256 (two 1) ≠ combined_apps_hash sha256 (two 2) ∧ custom_oids sha256 (two 1) ≠ none := by
  intro sha256
  have hapart : Apart (two 1).hashes (two 2).hashes := by unfold Apart Continues; decide
  rcases combined_hash_identifies sha256 hapart with ⟨heq, hnone⟩ | hinj | ⟨x, hx, hzero⟩
  · exact ⟨fun h => absurd (congrArg KnownApps.hashes (heq.mp h)) (by decide), fun h => absurd (hnone.mp h) (by decide)⟩
  · exact absurd (by simp only [Set.injOn_pair]; decide) hinj
  · rcases hx with rfl | rfl <;> exact absurd hzero (by decide)

/-- One app has the other two in its name. -/
theorem combined_hash_shared : ∃ a b : KnownApps, a.hashes.length ≠ b.hashes.length ∧
    (fun sha256 => combined_apps_hash sha256 a) = fun sha256 => combined_apps_hash sha256 b := by
  refine ⟨one ("a" ++ String.ofList (List.replicate 32 'x') ++ "b"),
    ⟨[("a", .replicate 32 120), ("b", .replicate 32 120)], by decide⟩, by decide, ?_⟩
  funext sha256
  exact congrArg sha256 (by decide)

end EnclaveOs.Attest
