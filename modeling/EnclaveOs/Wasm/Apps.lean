import EnclaveOs.Lib.Checks
import EnclaveOs.Wasm.Permissions

/-!
# The registry of apps

`known` holds what is kept about every app, `loaded` the few that are compiled. The mark that an app is configured
outlives an upgrade of the enclave.
-/

namespace EnclaveOs.Apps

open Lib

abbrev Key : Type := Vector UInt8 32
abbrev Hash : Type := Vector UInt8 32
abbrev AppId : Type := Vector UInt8 16

def MAX_LOADED_APPS : Nat := 10

class Outside where
  price_rule : String → Option PriceRule
  fingerprint : Key → String
  config_digest : AppPermissions → Hash
  debug : List String → String

structure FunctionSchema where
  name : String
  params : List String
  price : Option PriceRule
deriving DecidableEq

structure InterfaceSchema where
  name : String
  functions : List FunctionSchema
deriving DecidableEq

structure AppSchema where
  functions : List FunctionSchema
  interfaces : List InterfaceSchema
deriving DecidableEq

def qualified (iface f : String) : String := iface ++ "/" ++ f

def AppSchema.paths (s : AppSchema) : List (String × FunctionSchema) :=
  s.functions.map (fun f => (f.name, f)) ++
    s.interfaces.flatMap fun i => i.functions.map fun f => (qualified i.name f.name, f)

def AppSchema.to_exports_map (s : AppSchema) : List String := s.paths.map Prod.fst

def AppSchema.find_function (s : AppSchema) (name : String) : Option FunctionSchema :=
  (s.paths.find? fun e => e.1 = name).map Prod.snd

def FunctionSchema.stamp (perms : AppPermissions) (f : FunctionSchema) : FunctionSchema :=
  { f with price := perms.price_for f.name }

def AppSchema.stamp (perms : AppPermissions) (s : AppSchema) : AppSchema where
  functions := s.functions.map (FunctionSchema.stamp perms)
  interfaces := s.interfaces.map fun i => { i with functions := i.functions.map (FunctionSchema.stamp perms) }

structure AppMeta where
  name : String
  hostname : String
  encryption_key : Key
  key_source : String
  permissions : Option AppPermissions
  configuration_hash : Option Hash
  schema : Option AppSchema
  config_api_function : Option String
  owners : List String
  app_id : Option AppId
  vault_handle : Option String
  config_complete : Bool
  dependencies : Option Bytes

structure LoadedApp where
  encryption_key : Key
  exports : List String

structure ApiFeeEvent where
  seq : Nat
  app : String
  function : String
  call_id : String
  caller_sub : Option String
  sponsor_rp_id : Option String
  credits : UInt64
deriving DecidableEq

structure Module where
  known : AList fun _ : String => AppMeta
  loaded : AList fun _ : String => LoadedApp
  lru : AList fun _ : String => Nat
  lru_counter : Nat
  config_api : AList fun _ : String => String
  configured : AList fun _ : String => Bool
  billing_frozen : AList fun _ : String => String
  funded_rps : Finset String
  fee_seq : Nat
  api_fees : List ApiFeeEvent
  /-- The sealed store: `wasm:meta:<name>` and `wasm:manifest`. -/
  kv_meta : String → Option AppMeta
  manifest : List String
  /-- The mark in the table `app:<name>`, under the data key. -/
  markers : Key → String → Option Bytes

/-- Which writes of one request arrive. -/
structure Kv where
  record : Bool
  manifest : Bool
  marks : Bool

namespace Module

/-! ## The cache of compiled apps -/

def touch (m : Module) (name : String) : Module :=
  { m with lru_counter := m.lru_counter + 1, lru := m.lru.insert name (m.lru_counter + 1) }

def oldest (m : Module) : Option String :=
  ((m.lru.entries.filter fun e => (m.loaded.lookup e.1).isSome).argmin fun e => e.2).map Sigma.fst

def evict : Nat → Module → Module
  | 0, m => m
  | n + 1, m =>
    if m.loaded.entries.length ≤ MAX_LOADED_APPS then m
    else
      match m.oldest with
      | some name => evict n { m with loaded := m.loaded.erase name, lru := m.lru.erase name }
      | none => m

def evict_if_needed (m : Module) : Module := evict m.loaded.entries.length m

theorem evict_eq (n : Nat) (m : Module) : ∃ loaded lru, evict n m = { m with loaded, lru } := by
  induction n generalizing m with
  | zero => exact ⟨m.loaded, m.lru, rfl⟩
  | succ n ih =>
    rw [evict]
    split
    · exact ⟨m.loaded, m.lru, rfl⟩
    · split
      · obtain ⟨loaded, lru, h⟩ := ih _
        exact ⟨loaded, lru, h⟩
      · exact ⟨m.loaded, m.lru, rfl⟩

def app_permissions (m : Module) (name : String) : Option AppPermissions :=
  (m.known.lookup name).bind AppMeta.permissions

def app_owners (m : Module) (name : String) : List String := ((m.known.lookup name).map AppMeta.owners).getD []

def app_id (m : Module) (name : String) : Option AppId := (m.known.lookup name).bind AppMeta.app_id

def sponsor_index (info : AppMeta) (func : String) (rule : PriceRule) : Option Nat :=
  rule.sponsor_from.bind fun field => info.schema.bind fun s => (s.find_function func).bind fun f =>
    f.params.findIdx? (· = field)

/-- With the place of the parameter that names the sponsor. -/
def price_context (m : Module) (app func : String) : Option (PriceRule × Option Nat) :=
  (m.known.lookup app).bind fun info => info.permissions.bind fun p => (p.price_for func).map fun rule =>
    (rule, sponsor_index info func rule)

def is_frozen (m : Module) (name function : String) : Bool :=
  if (m.configured.lookup name).getD true then false
  else
    match m.config_api.lookup name with
    | some cfg_fn => cfg_fn ≠ function
    | none => false

def resolve_app [Outside] (m : Module) (supplied : String) : Except String String :=
  if supplied ≠ "" then .ok supplied
  else
    match m.known.keys with
    | [] => .error "no apps loaded; cannot resolve default app"
    | [name] => .ok name
    | names => .error ("multiple apps loaded (" ++ Outside.debug names ++ "); specify 'app' explicitly")

/-! ## What is kept in the stores -/

def persist_meta_to_kv (m : Module) (kv : Kv) (name : String) (info : AppMeta) : Module :=
  { m with kv_meta := if kv.record then Function.update m.kv_meta name (some info) else m.kv_meta }

def update_kv_manifest (m : Module) (kv : Kv) : Module :=
  { m with manifest := if kv.manifest then m.known.keys else m.manifest }

def remove_app_from_kv (m : Module) (kv : Kv) (name : String) : Module :=
  { m with kv_meta := if kv.record then Function.update m.kv_meta name none else m.kv_meta }.update_kv_manifest kv

end Module

def marker_value (configuration_hash : Option Hash) : Bytes := (configuration_hash.map Vector.toList).getD []

namespace Module

def write_configured_marker (m : Module) (kv : Kv) (dek : Key) (name : String) (hash : Option Hash) : Module :=
  { m with
    markers := fun k n => if kv.marks ∧ k = dek ∧ n = name then some (marker_value hash) else m.markers k n }

def read_configured_marker (m : Module) (dek : Key) (name : String) (hash : Option Hash) : Bool :=
  m.markers dek name = some (marker_value hash)

/-- Lifts the freeze of an app, for the first time or again. -/
def mark_configured (m : Module) (kv : Kv) (name : String) : Module :=
  match m.config_api.lookup name with
  | none => m
  | some _ =>
    let m := { m with configured := m.configured.insert name true }
    match m.known.lookup name with
    | none => m
    | some info =>
      if info.config_complete then m
      else
        let info := { info with config_complete := true }
        let m := { m with known := m.known.insert name info }
        (m.write_configured_marker kv info.encryption_key name info.configuration_hash).persist_meta_to_kv kv name
          info

end Module

structure AppLoad where
  name : String
  hostname : String
  encryption_key : Option Key
  permissions : Option AppPermissions
  docs : Option Docs
  config_api_function : Option String
  owners : List String
  app_id : Option AppId
  vault : Option String
  dependencies : Option Bytes

/-- `reads_mark`: the mark in the app's table can be read. -/
structure LoadWorld where
  reads_mark : Bool
  engine : Except String AppSchema
  vault_key : Except String (Key × String)
  random : Option Key

section Load

variable [Outside]

def data_key (load : AppLoad) (w : LoadWorld) : Except String (Key × String) :=
  match load.vault with
  | some _ => w.vault_key
  | none =>
    match load.encryption_key with
    | some k => .ok (k, "byok:" ++ Outside.fingerprint k)
    | none => ok_or (w.random.map fun k => (k, "generated")) "RDRAND failed generating app encryption key"

def AppLoad.merged (load : AppLoad) : Option AppPermissions :=
  merge_from_docs Outside.price_rule load.docs load.permissions

section

omit [Outside]

/-- The annotation goes before what the operator sent. -/
def AppLoad.config_api (load : AppLoad) : Option String :=
  (load.docs.bind fun d => d.lookup "config-api").or load.config_api_function

def AppLoad.stamped (load : AppLoad) (schema : AppSchema) : AppSchema :=
  match load.merged with
  | some perms => schema.stamp perms
  | none => schema

def AppLoad.configuration_hash (load : AppLoad) : Option Hash := load.merged.map Outside.config_digest

def carried_config_complete (m : Module) (load : AppLoad) (key : Key × String) : Bool :=
  match m.known.lookup load.name with
  | some prev => prev.config_complete && prev.encryption_key = key.1 && prev.key_source = key.2 &&
      prev.vault_handle = load.vault && prev.configuration_hash = load.configuration_hash
  | none => false

def config_complete (m : Module) (load : AppLoad) (key : Key × String) (reads_mark : Bool) : Bool :=
  carried_config_complete m load key ||
    (load.config_api.isSome && reads_mark && m.read_configured_marker key.1 load.name load.configuration_hash)

def AppLoad.app_meta (load : AppLoad) (m : Module) (schema : AppSchema) (key : Key × String) (reads_mark : Bool) :
    AppMeta where
  name := load.name
  hostname := load.hostname
  encryption_key := key.1
  key_source := key.2
  permissions := load.merged
  configuration_hash := load.configuration_hash
  schema := some (load.stamped schema)
  config_api_function := load.config_api
  owners := load.owners
  app_id := load.app_id
  vault_handle := load.vault
  config_complete := config_complete m load key reads_mark
  dependencies := load.dependencies

def AppLoad.prepare (load : AppLoad) (m : Module) (w : LoadWorld) : Except String AppMeta := do
  demand (m.known.lookup load.name = none) ("app '" ++ load.name ++ "' is already loaded")
  let schema ← w.engine
  let key ← data_key load w
  demand ((load.stamped schema).to_exports_map ≠ [])
    ("app '" ++ load.name ++ "' has no exported functions — is it a valid Component?")
  demand (load.merged.all fun p => p.version = 1)
    ("unsupported permissions version: " ++ toString ((load.merged.map AppPermissions.version).getD 0) ++
      " (expected 1)")
  pure (load.app_meta m schema key w.reads_mark)

def Module.arm (m : Module) (info : AppMeta) : Module :=
  match info.config_api_function with
  | some f =>
    { m with
      config_api := m.config_api.insert info.name f
      configured := m.configured.insert info.name info.config_complete }
  | none => m

def Module.register_known (m : Module) (info : AppMeta) : Module :=
  { m.arm info with known := m.known.insert info.name info }

def Module.compiled (m : Module) (name : String) (app : LoadedApp) : Module :=
  ({ m with loaded := m.loaded.insert name app }.touch name).evict_if_needed

theorem Module.compiled_eq (m : Module) (name : String) (app : LoadedApp) :
    ∃ loaded lru lru_counter, m.compiled name app = { m with loaded, lru, lru_counter } := by
  obtain ⟨loaded, lru, h⟩ := Module.evict_eq _ ({ m with loaded := m.loaded.insert name app }.touch name)
  exact ⟨loaded, lru, _, h⟩

def AppMeta.compile (info : AppMeta) (discovered : AppSchema) : LoadedApp :=
  ⟨info.encryption_key, (info.schema.getD discovered).to_exports_map⟩

end

def Module.load_app (m : Module) (kv : Kv) (load : AppLoad) (w : LoadWorld) : Except String Unit × Module :=
  match load.prepare m w with
  | .error e => (.error e, m)
  | .ok info =>
    let m := (m.register_known info).compiled load.name (info.compile ⟨[], []⟩)
    (.ok (), (m.persist_meta_to_kv kv load.name info).update_kv_manifest kv)

theorem AppLoad.prepare_ok {load : AppLoad} {m : Module} {w : LoadWorld} {info : AppMeta} :
    load.prepare m w = .ok info ↔ m.known.lookup load.name = none ∧ ∃ schema key, w.engine = .ok schema ∧
      data_key load w = .ok key ∧ (load.stamped schema).to_exports_map ≠ [] ∧
      load.merged.all (fun p => p.version = 1) = true ∧ info = load.app_meta m schema key w.reads_mark := by
  simp only [AppLoad.prepare, except_bind_ok, demand_ok, except_pure_ok]
  constructor
  · rintro ⟨_, hnew, schema, hschema, key, hkey, _, hexports, _, hversion, rfl⟩
    exact ⟨hnew, schema, key, hschema, hkey, hexports, hversion, rfl⟩
  · rintro ⟨hnew, schema, key, hschema, hkey, hexports, hversion, rfl⟩
    exact ⟨(), hnew, schema, hschema, key, hkey, (), hexports, (), hversion, rfl⟩

end Load

namespace Module

def ensure_loaded (m : Module) (name : String) (info : AppMeta) (discovered : AppSchema) : Module :=
  -- an app that was kept before there were schemas gets one now
  let known := if info.schema.isSome then m.known
    else m.known.insert name { info with schema := some discovered }
  { m with known }.compiled name (info.compile discovered)

/-- `bytes` and `engine` say how reading and compiling the code goes. -/
def ensure_app_loaded (m : Module) (name : String) (bytes : Except String Unit) (engine : Except String AppSchema) :
    Except String Unit × Module :=
  if (m.loaded.lookup name).isSome then (.ok (), m)
  else
    match m.known.lookup name with
    | none => (.error ("app '" ++ name ++ "' is not loaded"), m)
    | some info =>
      match bytes >>= fun _ => engine with
      | .error e => (.error e, m)
      | .ok discovered => (.ok (), m.ensure_loaded name info discovered)

/-! ## The other commands -/

def remove_app (m : Module) (name : String) : Option String × Module :=
  ((m.known.lookup name).map AppMeta.hostname,
    { m with
      loaded := m.loaded.erase name
      lru := m.lru.erase name
      config_api := m.config_api.erase name
      configured := m.configured.erase name
      billing_frozen := m.billing_frozen.erase name
      known := m.known.erase name })

def unload_app (m : Module) (kv : Kv) (name : String) : Bool × Module :=
  match m.remove_app name with
  | (some _, m) => (true, m.remove_app_from_kv kv name)
  | (none, m) => (false, m)

def set_billing_frozen (m : Module) (name : String) (reason : Option String) : Bool × Module :=
  match m.known.lookup name with
  | none => (false, m)
  | some _ =>
    match reason with
    | some r => (true, { m with billing_frozen := m.billing_frozen.insert name r })
    | none => (true, { m with billing_frozen := m.billing_frozen.erase name })

def set_funded_rps (m : Module) (rp_ids : List String) : Module := { m with funded_rps := rp_ids.toFinset }

def set_meta (m : Module) (kv : Kv) (name : String) (info : AppMeta) : Module :=
  { m with known := m.known.insert name info }.persist_meta_to_kv kv name info

def set_dependencies (m : Module) (kv : Kv) (name : String) (dependencies : Option Bytes) :
    Except String Unit × Module :=
  match m.known.lookup name with
  | none => (.error ("unknown app: '" ++ name ++ "'"), m)
  | some info => (.ok (), m.set_meta kv name { info with dependencies })

/-- `vaults` says how the exchange with the vaults goes. The data key stays. -/
def rotate_vault_key (m : Module) (kv : Kv) (name new_handle : String) (vaults : Except String Unit) :
    Except String Unit × Module :=
  match m.known.lookup name with
  | none => (.error ("app '" ++ name ++ "' is not known"), m)
  | some info =>
    match info.vault_handle with
    | none => (.error ("app '" ++ name ++ "' is not vault-backed (no sealed handle)"), m)
    | some old_handle =>
      if old_handle = new_handle then
        (.error ("rotate: new handle equals the current handle " ++ new_handle), m)
      else
        match vaults with
        | .error e => (.error e, m)
        | .ok _ =>
          (.ok (), m.set_meta kv name
            { info with vault_handle := some new_handle, key_source := "vault:" ++ new_handle })

def MAX_API_FEE_EVENTS : Nat := 4096

def record_api_fee (m : Module) (app function call_id : String) (caller_sub sponsor_rp_id : Option String)
    (credits : UInt64) : Module :=
  let fees := m.api_fees ++ [⟨m.fee_seq + 1, app, function, call_id, caller_sub, sponsor_rp_id, credits⟩]
  { m with fee_seq := m.fee_seq + 1, api_fees := fees.drop (fees.length - MAX_API_FEE_EVENTS) }

/-! ## Restarts (`WasmModule::new`) -/

/-- Only the stores are there: the registry is made anew from them. -/
def bare (m : Module) (fees : Nat × List ApiFeeEvent) : Module where
  known := ∅
  loaded := ∅
  lru := ∅
  lru_counter := 0
  config_api := ∅
  configured := ∅
  billing_frozen := ∅
  funded_rps := ∅
  fee_seq := fees.1
  api_fees := fees.2
  kv_meta := m.kv_meta
  manifest := m.manifest
  markers := m.markers

/-- Which reads of a restart succeed and give what parses. -/
structure Reads where
  manifest : Bool
  record : String → Bool

def Reads.All (r : Reads) : Prop := r.manifest = true ∧ ∀ name, r.record name = true

def restore (reads : Reads) (m : Module) (name : String) : Module :=
  match if reads.record name then m.kv_meta name else none with
  | some info => m.register_known info
  | none => m

def restart (m : Module) (reads : Reads) (fees : Nat × List ApiFeeEvent) : Module :=
  (if reads.manifest then m.manifest else []).foldl (restore reads) (m.bare fees)

/-- A new enclave cannot open what its predecessor sealed. -/
def upgrade (m : Module) : Module := { m.bare (0, []) with kv_meta := fun _ => none, manifest := [] }

def init : Module where
  known := ∅
  loaded := ∅
  lru := ∅
  lru_counter := 0
  config_api := ∅
  configured := ∅
  billing_frozen := ∅
  funded_rps := ∅
  fee_seq := 0
  api_fees := []
  kv_meta := fun _ => none
  manifest := []
  markers := fun _ _ => none

end Module

end EnclaveOs.Apps
