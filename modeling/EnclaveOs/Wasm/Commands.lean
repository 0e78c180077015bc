import EnclaveOs.Lib.Since
import EnclaveOs.Wasm.Calls

/-!
# Histories of the registry

Requests, restarts and upgrades in any order, with any answers from outside.
-/

namespace EnclaveOs.Apps

open Lib

inductive Command
  | wasm_load (kv : Kv) (load : AppLoad) (w : LoadWorld)
  | wasm_unload (kv : Kv) (name : String)
  | wasm_call (w : World) (call : WasmCall)
  | connect_call (w : World) (call : ConnectCall)
  | wasm_freeze (name : String) (reason : Option String)
  | wasm_funded_rps (rp_ids : List String)
  | wasm_rotate_key (kv : Kv) (name new_handle : String) (vaults : Except String Unit)
  | wasm_set_dependencies (kv : Kv) (name : String) (dependencies : Option Bytes)
  | restart (reads : Module.Reads) (fees : Nat × List ApiFeeEvent)
  | upgrade

def Kv.Saves (kv : Kv) : Prop := kv.record = true ∧ kv.manifest = true

/-- Its writes to the sealed store arrive, or its reads succeed. -/
def Command.Saves : Command → Prop
  | .wasm_load kv _ _ | .wasm_unload kv _ | .wasm_rotate_key kv _ _ _ | .wasm_set_dependencies kv _ _ => kv.Saves
  | .wasm_call w _ | .connect_call w _ => w.kv.Saves
  | .restart reads _ => reads.All
  | _ => True

section

variable [Outside] (m : Module)

def Module.after : Command → Module
  | .wasm_load kv load w => (m.load_app kv load w).2
  | .wasm_unload kv name => (m.unload_app kv name).2
  | .wasm_call w call => (run_call m w call).2
  | .connect_call w call => (run_connect_call m w call).2
  | .wasm_freeze name reason => (m.set_billing_frozen name reason).2
  | .wasm_funded_rps rp_ids => m.set_funded_rps rp_ids
  | .wasm_rotate_key kv name new_handle vaults => (m.rotate_vault_key kv name new_handle vaults).2
  | .wasm_set_dependencies kv name dependencies => (m.set_dependencies kv name dependencies).2
  | .restart reads fees => m.restart reads fees
  | .upgrade => m.upgrade

/-- The call that a command comes to, named parameters in their places. -/
def Command.call : Command → Option (World × WasmCall)
  | .wasm_call w call => some (w, call)
  | .connect_call w call => (connect_to_wasm_call m w call).toOption.map (w, ·)
  | _ => none

/-- The app reports completion, or returns without an error. -/
def Run.Succeeds (run : Run) : Prop :=
  run.completes = true ∨ ∃ returns, run.outcome = .ok returns ∧ wit_err returns = false

/-- An owner or admin has called the configure function, under this data key and these permissions. -/
def Lifts (name : String) (key : Key) (hash : Option Hash) (c : Command) : Prop :=
  ∃ w call info auth, c.call m = some (w, call) ∧ call.app = name ∧ m.config_api.lookup name = some call.function ∧
    check_configure_authz w.tokens call (m.app_id name) = .ok auth ∧ m.known.lookup name = some info ∧
    info.encryption_key = key ∧ info.configuration_hash = hash ∧ w.run.Succeeds

/-- One of the first `i` commands has configured the app so. -/
def Earned (cmds : List Command) (i : Nat) (name : String) (key : Key) (hash : Option Hash) : Prop :=
  ∃ j c, j < i ∧ cmds[j]? = some c ∧ Lifts (before Module.after .init cmds j) name key hash c

end

section

variable {β : Type} (s : AList fun _ : String => β) (a b : String)

@[grind =] theorem lookup_insert_eq (v : β) : (s.insert a v).lookup b = if b = a then some v else s.lookup b := by
  obtain rfl | h := eq_or_ne b a
  · simp
  · simp [h, AList.lookup_insert_ne h]

@[grind =] theorem lookup_erase_eq : (s.erase a).lookup b = if b = a then none else s.lookup b := by
  obtain rfl | h := eq_or_ne b a
  · simp
  · simp [h, AList.lookup_erase_ne h]

@[grind =] theorem mem_keys_iff : a ∈ s.keys ↔ s.lookup a ≠ none := by
  rw [Ne, AList.lookup_eq_none, AList.mem_keys, not_not]

end

/-! ## What holds in every history -/

def AppMeta.freeze (info : AppMeta) : Option (String × Bool) := info.config_api_function.map (·, info.config_complete)

theorem Module.register_known_eq (m : Module) (info : AppMeta) : ∃ config_api configured,
    m.register_known info = { m with known := m.known.insert info.name info, config_api, configured } ∧
    ∀ name, config_api.lookup name =
        ((if name = info.name then info.freeze else none).map Prod.fst).or (m.config_api.lookup name) ∧
      configured.lookup name =
        ((if name = info.name then info.freeze else none).map Prod.snd).or (m.configured.lookup name) := by
  unfold Module.register_known Module.arm
  rcases hf : info.config_api_function with _ | f <;> refine ⟨_, _, rfl, fun name => ?_⟩ <;>
    by_cases hn : name = info.name <;> simp [AppMeta.freeze, hf, hn, lookup_insert_eq]

variable (E : String → Key → Option Hash → Prop) (saved : Prop) (m : Module) (name : String)

/-- `E` tells what has been configured. -/
def Kept (info : AppMeta) : Prop :=
  info.name = name ∧ info.schema.isSome = true ∧
    (info.config_complete = true → E name info.encryption_key info.configuration_hash)

/-- The flags in memory are those of the record. -/
abbrev Flagged : Prop :=
  m.config_api.lookup name = ((m.known.lookup name).bind AppMeta.freeze).map Prod.fst ∧
    m.configured.lookup name = ((m.known.lookup name).bind AppMeta.freeze).map Prod.snd

/-- When all was saved, the store has the same records. -/
structure Lawful : Prop where
  known : ∀ {name info}, m.known.lookup name = some info → Kept E name info
  stored : ∀ {name info}, m.kv_meta name = some info → Kept E name info
  marks : ∀ {key name v}, m.markers key name = some v → ∃ hash, v = marker_value hash ∧ E name key hash
  flags : ∀ name, Flagged m name
  durable : saved → ∀ name, m.kv_meta name = m.known.lookup name ∧ (name ∈ m.manifest ↔ m.known.lookup name ≠ none)

/-- Whoever lifts the freeze has configured the app. -/
def Entitled : Prop :=
  ∀ f info, m.config_api.lookup name = some f → m.known.lookup name = some info →
    E name info.encryption_key info.configuration_hash

variable {E saved m name} {kv : Kv} {info : AppMeta} {f : String}

theorem marker_value_injective : Function.Injective marker_value := by
  rintro (_ | a) (_ | b) h
  · rfl
  · simpa [marker_value] using congrArg List.length h
  · simpa [marker_value] using congrArg List.length h
  · exact congrArg some (Vector.toList_inj.mp h)

section

variable (h : Lawful E saved m)

include h

theorem Lawful.mono {E' : String → Key → Option Hash → Prop} (hE : ∀ {n k x}, E n k x → E' n k x) :
    Lawful E' saved m where
  known hk := (h.known hk).imp_right (.imp_right (hE ∘ ·))
  stored hk := (h.stored hk).imp_right (.imp_right (hE ∘ ·))
  marks hv := (h.marks hv).imp fun _ => .imp_right hE
  flags := h.flags
  durable := h.durable

theorem Lawful.armed (hf : m.config_api.lookup name = some f) :
    ∃ info, m.known.lookup name = some info ∧ info.freeze = some (f, info.config_complete) := by
  simpa [(h.flags name).1, AppMeta.freeze, Option.bind_eq_some_iff] using hf

/-- What runs is the configure function, or has been configured. -/
theorem Lawful.unfrozen {function : String} (hopen : m.is_frozen name function = false) (hne : f ≠ function)
    (hf : m.config_api.lookup name = some f) (hk : m.known.lookup name = some info) :
    E name info.encryption_key info.configuration_hash := by
  have hconf := (h.flags name).2
  have hkept := h.known hk
  obtain ⟨info', hk', hfreeze⟩ := h.armed hf
  simp_all [Module.is_frozen, Kept]

theorem Lawful.restored (reads : Module.Reads) (fees : Nat × List ApiFeeEvent) (l : List String) :
    ∀ name, let m' := l.foldl (Module.restore reads) (m.bare fees)
    m'.kv_meta name = m.kv_meta name ∧ (∀ key, m'.markers key name = m.markers key name) ∧
      (name ∈ m'.manifest ↔ name ∈ m.manifest) ∧ Flagged m' name ∧
      m'.known.lookup name = if name ∈ l ∧ reads.record name then m.kv_meta name else none := by
  induction l using List.reverseRecOn with
  | nil => exact fun _ => ⟨rfl, fun _ => rfl, .rfl, ⟨rfl, rfl⟩, by simp; rfl⟩
  | append_singleton l name ih =>
    have hname : ∀ {info}, m.kv_meta name = some info → info.name = name := fun hk => (h.stored hk).1
    rw [List.foldl_concat]
    generalize l.foldl (Module.restore reads) (m.bare fees) = m' at ih
    intro other
    have hother := ih other
    unfold Module.restore
    rw [(ih name).1]
    rcases hread : (if reads.record name then m.kv_meta name else none) with _ | info
    · grind
    obtain ⟨hrec, hstored⟩ : reads.record name = true ∧ m.kv_meta name = some info := by grind
    obtain rfl := hname hstored
    obtain ⟨config_api, configured, heq, hapi⟩ := Module.register_known_eq m' info
    simp only [heq]
    grind

theorem Lawful.restart_known {reads : Module.Reads} (fees : Nat × List ApiFeeEvent) (hsaved : saved)
    (hreads : reads.All) (name : String) : (m.restart reads fees).known.lookup name = m.known.lookup name := by
  obtain ⟨hmeta, hlisted⟩ := h.durable hsaved name
  rw [Module.restart, if_pos hreads.1, (h.restored reads fees m.manifest name).2.2.2.2, hmeta]
  simp only [hreads.2, and_true, hlisted]
  split
  · rfl
  · rename_i hnone
    rw [not_not.mp hnone]

theorem Lawful.restart (reads : Module.Reads) (fees : Nat × List ApiFeeEvent) (hs : saved → reads.All) :
    Lawful E saved (m.restart reads fees) := by
  have hr := h.restored reads fees (if reads.manifest then m.manifest else [])
  rw [← Module.restart] at hr
  exact {
    known := fun {name info} hk => by
      rw [(hr name).2.2.2.2, Option.ite_none_right_eq_some] at hk
      exact h.stored hk.2
    stored := fun {name _} hk => h.stored ((hr name).1 ▸ hk)
    marks := fun {key name _} hv => h.marks ((hr name).2.1 key ▸ hv)
    flags := fun name => (hr name).2.2.2.1
    durable := fun hsaved name => by
      rw [(hr name).1, (hr name).2.2.1, h.restart_known fees hsaved (hs hsaved)]
      exact h.durable hsaved name }

variable (hs : saved → kv.Saves)

include hs

theorem Lawful.unload : Lawful E saved (m.unload_app kv name).2 := by
  unfold Module.unload_app Module.remove_app Module.remove_app_from_kv Module.update_kv_manifest
  rcases hk : m.known.lookup name with _ | info <;> simp only [Option.map_none, Option.map_some]
  · exact {
      known := by grind [Lawful]
      stored := h.stored
      marks := h.marks
      flags := by grind [Lawful, AppMeta.freeze]
      durable := by grind [Lawful] }
  · exact {
      known := by grind [Lawful]
      stored := by grind [Lawful]
      marks := h.marks
      flags := by grind [Lawful, AppMeta.freeze]
      durable := by grind [Lawful, Kv.Saves] }

theorem Lawful.set_meta (hk : m.known.lookup name = some info) {info' : AppMeta}
    (hsame : info'.freeze = info.freeze) (hkept : Kept E name info → Kept E name info') :
    Lawful E saved (m.set_meta kv name info') := by
  have hkept := hkept (h.known hk)
  unfold Module.set_meta Module.persist_meta_to_kv
  exact {
    known := by grind [Lawful]
    stored := by grind [Lawful]
    marks := h.marks
    flags := by grind [Lawful]
    durable := by grind [Lawful, Kv.Saves] }

theorem Lawful.load [Outside] (load : AppLoad) (w : LoadWorld) : Lawful E saved (m.load_app kv load w).2 := by
  unfold Module.load_app
  split
  · exact h
  rename_i hinfo
  obtain ⟨hnew, schema, key, -, -, -, -, rfl⟩ := AppLoad.prepare_ok.mp hinfo
  have hkept : Kept E load.name (load.app_meta m schema key w.reads_mark) := by
    refine ⟨rfl, rfl, fun hc => ?_⟩
    -- The name is new, so only the mark in the app's own table counts.
    simp only [AppLoad.app_meta, config_complete, carried_config_complete, hnew, Bool.false_or, Bool.and_eq_true,
      Module.read_configured_marker, decide_eq_true_eq] at hc
    obtain ⟨hash, hv, he⟩ := h.marks hc.2
    obtain rfl := marker_value_injective hv
    exact he
  generalize load.app_meta m schema key w.reads_mark = info at hkept
  obtain ⟨loaded, lru, lru_counter, hc⟩ := Module.compiled_eq (m.register_known info) load.name (info.compile ⟨[], []⟩)
  obtain ⟨config_api, configured, heq, hapi⟩ := Module.register_known_eq m info
  rw [heq] at hc
  simp only [heq, hc, Module.persist_meta_to_kv, Module.update_kv_manifest]
  exact {
    known := by grind [Lawful, Kept]
    stored := by grind [Lawful]
    marks := h.marks
    flags := by grind [Lawful, Kept]
    durable := by grind [Lawful, Kv.Saves, Kept] }

theorem Lawful.mark {p : Prop} [Decidable p] (he : p → Entitled E m name) :
    let m' := if p then m.mark_configured kv name else m
    Lawful E saved m' ∧ (Entitled E m name → Entitled E m' name) := by
  dsimp only
  split_ifs with hp
  swap
  · exact ⟨h, id⟩
  unfold Module.mark_configured
  split
  · exact ⟨h, id⟩
  rename_i f hf
  obtain ⟨info, hk, hfreeze⟩ := h.armed hf
  have he := he hp f info hf hk
  have hfreeze' : AppMeta.freeze { info with config_complete := true } = some (f, true) := by
    simp_all [AppMeta.freeze]
  simp only [hk, Module.write_configured_marker, Module.persist_meta_to_kv]
  split <;> refine ⟨?_, by grind [Entitled]⟩ <;> exact {
    known := by grind [Lawful, Kept]
    stored := by grind [Lawful, Kept]
    marks := by grind [Lawful]
    flags := by grind [Lawful]
    durable := by grind [Lawful, Kv.Saves] }

end

/-! ## Calls -/

section Calls

variable [Outside] {c : Command} {w : World} {call : WasmCall} (h : Lawful E saved m)

include h

theorem Lawful.start (call : WasmCall) (run : Run) : let r := start_call m call run
    Lawful E saved r.2 ∧ r.2.known = m.known ∧ r.2.config_api = m.config_api ∧
      (r.1 = .ok () → m.is_frozen call.app call.function = false) := by
  obtain ⟨loaded, lru, lru_counter, heq⟩ : ∃ loaded lru lru_counter,
      (m.ensure_app_loaded call.app run.bytes run.engine).2 = { m with loaded, lru, lru_counter } := by
    unfold Module.ensure_app_loaded
    repeat' split
    case h_2 => simp only [Module.ensure_loaded, (h.known ‹_›).2.1, if_true, Module.compiled_eq]
    all_goals exact ⟨_, _, _, rfl⟩
  unfold start_call
  rcases hx : m.ensure_app_loaded call.app run.bytes run.engine with ⟨e | _, m1⟩ <;> rw [hx] at heq <;> subst heq
  · exact ⟨{ h with }, rfl, rfl, nofun⟩
  dsimp only
  split
  · exact ⟨{ h with }, rfl, rfl, nofun⟩
  · split <;> exact ⟨{ h with }, rfl, rfl, fun _ => Bool.eq_false_iff.mpr ‹_›⟩

variable (hE : ∀ {n k x}, Lifts m n k x c → E n k x)

include hE

theorem Lawful.run_call (hs : saved → w.kv.Saves) (hcall : c.call m = some (w, call)) :
    Lawful E saved (run_call m w call).2 := by
  unfold Apps.run_call
  split
  · exact h
  rename_i auth hauth
  obtain ⟨h1, hknown, hapi, hopen⟩ := h.start call w.run
  unfold dispatch_call
  rcases hx : start_call m call w.run with ⟨e | _, m1⟩ <;> rw [hx] at h1 hknown hapi hopen
  · exact h1
  have hent (hok : w.run.Succeeds) : Entitled E m1 call.app := by
    intro f info hf hk
    rw [hapi] at hf
    rw [hknown] at hk
    by_cases hconf : f = call.function
    · subst hconf
      rw [check_app_permissions, if_pos hf] at hauth
      obtain ⟨a, -, ha⟩ := except_map_some_ok.mp hauth
      exact hE ⟨w, call, info, a, hcall, rfl, hf, ha, hk, rfl, rfl, hok⟩
    · exact h.unfrozen (hopen rfl) hconf hf hk
  obtain ⟨h2, hent2⟩ := h1.mark hs (p := w.run.completes = true) fun hc => hent (.inl hc)
  dsimp only [execute]
  generalize (if w.run.completes = true then _ else m1) = m2 at h2 hent2 ⊢
  unfold finish_call
  split
  · exact h2
  split
  · exact h2
  rename_i returns houtcome hwit
  have h3 := (h2.mark hs (p := m2.config_api.lookup call.app = some call.function) fun _ =>
    hent2 (hent (.inr ⟨returns, houtcome, Bool.eq_false_iff.mpr hwit⟩))).1
  dsimp only [Prod.map]
  unfold charge
  split
  · exact { h3 with }
  · exact h3

theorem Lawful.after (hs : saved → c.Saves) : Lawful E saved (m.after c) := by
  cases c with
  | wasm_load => exact h.load hs _ _
  | wasm_unload => exact h.unload hs
  | wasm_call => exact h.run_call hE hs rfl
  | connect_call w call =>
    rw [Module.after, run_connect_call]
    split
    · exact h
    · rename_i hok
      exact h.run_call hE hs (by rw [Command.call, hok]; rfl)
  | wasm_freeze | wasm_funded_rps | wasm_rotate_key | wasm_set_dependencies =>
    simp only [Module.after, Module.set_billing_frozen.eq_def, Module.rotate_vault_key, Module.set_dependencies]
    repeat' split
    all_goals first
      | exact { h with }
      | apply h.set_meta hs <;> first | assumption | exact rfl | exact id
  | restart reads fees => exact h.restart reads fees hs
  | upgrade => exact ⟨nofun, nofun, h.marks, fun _ => ⟨rfl, rfl⟩, fun _ _ => ⟨rfl, nofun, nofun⟩⟩

omit h hE

theorem lawful_before (cmds : List Command) (i : Nat) :
    Lawful (Earned cmds i) (∀ c ∈ cmds, c.Saves) (before Module.after .init cmds i) := by
  induction i with
  | zero => exact ⟨nofun, nofun, nofun, fun _ => ⟨rfl, rfl⟩, fun _ _ => ⟨rfl, nofun, nofun⟩⟩
  | succ i ih =>
    have ih : Lawful (Earned cmds (i + 1)) _ _ := ih.mono fun ⟨j, c, hj, hin⟩ => ⟨j, c, by omega, hin⟩
    rcases hc : cmds[i]? with _ | c
    · rw [before_of_none hc]
      exact ih
    · rw [before_succ hc]
      exact ih.after (fun hl => ⟨i, c, by omega, hc, hl⟩) fun hs => hs c (List.mem_of_getElem? hc)

/-- A function other than the configure function starts only in an app that an owner or admin has configured under
its present data key and permissions. -/
theorem runs_only_configured (cmds : List Command) (i : Nat) (call : WasmCall) (run : Run) :
    let m := before Module.after .init cmds i
    (start_call m call run).1 ≠ .ok () ∨ m.config_api.lookup call.app ∈ [none, some call.function] ∨
      ∃ info, m.known.lookup call.app = some info ∧
        Earned cmds i call.app info.encryption_key info.configuration_hash := by
  intro m
  have h := lawful_before cmds i
  obtain ⟨-, -, -, hopen⟩ := h.start call run
  rcases hf : m.config_api.lookup call.app with _ | f
  · simp
  obtain ⟨info, hk, -⟩ := h.armed hf
  by_cases hne : f = call.function
  · simp [hne]
  · exact or_iff_not_imp_left.mpr fun hok => .inr ⟨info, hk, h.unfrozen (hopen (not_not.mp hok)) hne hf hk⟩

/-- A mark, which outlives an upgrade, was earned. The store may lose what is written and fail to give it back, but it
does not make it up. -/
theorem marks_earned (cmds : List Command) (i : Nat) (key : Key) (name : String) :
    let m := before Module.after .init cmds i
    m.markers key name = none ∨
      ∃ hash, m.markers key name = some (marker_value hash) ∧ Earned cmds i name key hash := by
  intro m
  rcases hv : m.markers key name with _ | v
  · exact .inl rfl
  obtain ⟨hash, rfl, he⟩ := (lawful_before cmds i).marks hv
  exact .inr ⟨hash, rfl, he⟩

/-- When every write arrived and every read succeeds, a restart brings back the same records and the same freeze. -/
theorem restart_restores (cmds : List Command) (i : Nat) (reads : Module.Reads) (fees : Nat × List ApiFeeEvent)
    (name : String) :
    let m := before Module.after .init cmds i
    (∃ c ∈ cmds, ¬ c.Saves) ∨ ¬ reads.All ∨
      (m.restart reads fees).known.lookup name = m.known.lookup name ∧
        (m.restart reads fees).config_api.lookup name = m.config_api.lookup name ∧
        (m.restart reads fees).configured.lookup name = m.configured.lookup name := by
  intro m
  by_cases hsaved : ∀ c ∈ cmds, c.Saves
  swap
  · exact .inl (by simpa using hsaved)
  refine .inr (or_iff_not_imp_left.mpr fun hreads => ?_)
  have h := lawful_before cmds i
  have hflags := (h.restart reads fees fun _ => not_not.mp hreads).flags name
  rw [hflags.1, hflags.2, (h.flags name).1, (h.flags name).2, h.restart_known fees hsaved (not_not.mp hreads)]
  exact ⟨rfl, rfl, rfl⟩

end Calls

end EnclaveOs.Apps
