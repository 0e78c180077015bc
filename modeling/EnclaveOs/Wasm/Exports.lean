import EnclaveOs.Wasm.Apps

/-!
# The exports of a component

A path is taken apart at the first slash. The name of an interface may hold one.
-/

namespace EnclaveOs.Apps

inductive ComponentItem (ι : Type) where
  | ComponentFunc (params : List String)
  | ComponentInstance (exports : ι)
  | Other

abbrev Exports (ι : Type) : Type := AList fun _ : String => ComponentItem ι

/-- In WIT the name of a function has no slash. -/
def Exports.Valid {ι : Type} (x : Exports ι) : Prop :=
  ∀ f params, x.lookup f = some (.ComponentFunc params) → '/' ∉ f.toList

structure Component where
  exports : Exports (Exports Unit)
  valid : exports.Valid
  nested_valid : ∀ iface x, exports.lookup iface = some (.ComponentInstance x) → x.Valid

inductive Export where
  | root (f : String)
  | nested (iface f : String)
deriving DecidableEq

def Export.path : Export → String
  | .root f => f
  | .nested iface f => qualified iface f

def AppSchema.to_mcp_manifest (s : AppSchema) : List String :=
  s.functions.map FunctionSchema.name ++ s.interfaces.flatMap fun i => i.functions.map fun f => qualified i.name f.name

def AppSchema.exports (s : AppSchema) : List Export :=
  s.functions.map (.root ·.name) ++ s.interfaces.flatMap fun i => i.functions.map (.nested i.name ·.name)

def Exports.functions {ι : Type} (x : Exports ι) : List FunctionSchema :=
  x.entries.filterMap fun e =>
    match e.2 with
    | .ComponentFunc params => some ⟨e.1, params, none⟩
    | _ => none

namespace Component

def discover_exports_typed (c : Component) : AppSchema where
  functions := c.exports.functions
  interfaces := c.exports.entries.filterMap fun e =>
    match e.2 with
    | .ComponentInstance x => if x.functions ≠ [] then some ⟨e.1, x.functions⟩ else none
    | _ => none

/-- How `prepare_call` finds the export that a call names. -/
def resolve (c : Component) (app_name function : String) : Except String Export :=
  let cs := function.toList
  if '/' ∈ cs then
    let iface := String.ofList (cs.takeWhile (· ≠ '/'))
    let func := String.ofList (cs.dropWhile (· ≠ '/')).tail
    let absent what := "function '" ++ func ++ "' not " ++ what ++ " in interface '" ++ iface ++ "' of app '" ++
      app_name ++ "'"
    match c.exports.lookup iface with
    | none => .error ("interface '" ++ iface ++ "' not found in app '" ++ app_name ++ "'")
    | some (.ComponentInstance x) =>
      match x.lookup func with
      | some (.ComponentFunc _) => .ok (.nested iface func)
      | some _ => .error (absent "callable")
      | none => .error (absent "found")
    | some _ => .error (absent "found")
  else
    match c.exports.lookup function with
    | some (.ComponentFunc _) => .ok (.root function)
    | _ => .error ("function '" ++ function ++ "' not found at root of app '" ++ app_name ++ "'")

variable {c : Component} {app_name iface f : String}

theorem lookup_of_mem_functions {ι : Type} {x : Exports ι} {s : FunctionSchema} (h : s ∈ x.functions) :
    x.lookup s.name = some (.ComponentFunc s.params) := by
  obtain ⟨⟨name, item⟩, hmem, hs⟩ := List.mem_filterMap.mp h
  split at hs
  · rename_i params hitem
    cases hs
    exact AList.mem_lookup_iff.mpr (hitem ▸ hmem)
  · cases hs

theorem lookup_root (h : .root f ∈ c.discover_exports_typed.exports) :
    ∃ params, c.exports.lookup f = some (.ComponentFunc params) := by
  obtain ⟨s, hs, rfl⟩ : ∃ s ∈ c.exports.functions, s.name = f := by
    simpa [AppSchema.exports, discover_exports_typed] using h
  exact ⟨_, lookup_of_mem_functions hs⟩

theorem lookup_nested (h : .nested iface f ∈ c.discover_exports_typed.exports) :
    ∃ x params, c.exports.lookup iface = some (.ComponentInstance x) ∧ x.lookup f = some (.ComponentFunc params) := by
  obtain ⟨i, hi, s, hs, hiface, rfl⟩ : ∃ i ∈ c.discover_exports_typed.interfaces, ∃ s ∈ i.functions,
      i.name = iface ∧ s.name = f := by
    simpa [AppSchema.exports] using h
  obtain ⟨⟨name, item⟩, hmem, hi⟩ := List.mem_filterMap.mp hi
  split at hi
  · rename_i x hitem
    obtain ⟨-, rfl⟩ : x.functions ≠ [] ∧ ⟨name, x.functions⟩ = i := by simpa using hi
    exact ⟨x, _, AList.mem_lookup_iff.mpr (hiface ▸ hitem ▸ hmem), lookup_of_mem_functions hs⟩
  · cases hi

theorem span_slash {l r : List Char} (h : '/' ∉ l) : (l ++ '/' :: r).takeWhile (· ≠ '/') = l ∧
    (l ++ '/' :: r).dropWhile (· ≠ '/') = '/' :: r := by
  have hl : ∀ x ∈ l, decide (x ≠ '/') = true := fun x hx => by simpa using ne_of_mem_of_not_mem hx h
  rw [List.takeWhile_append_of_pos hl, List.dropWhile_append_of_pos hl]
  simp

theorem toList_qualified (iface f : String) : (qualified iface f).toList = iface.toList ++ '/' :: f.toList := by
  simp [qualified]

theorem slash_mem_qualified : '/' ∈ (qualified iface f).toList := by
  simp [toList_qualified]

theorem root_path_ne {f' : String} (h : .root f' ∈ c.discover_exports_typed.exports) : f' ≠ qualified iface f := by
  rintro rfl
  obtain ⟨params, hf⟩ := lookup_root h
  exact c.valid _ params hf slash_mem_qualified

theorem nested_name (h : .nested iface f ∈ c.discover_exports_typed.exports) : '/' ∉ f.toList.reverse := by
  obtain ⟨x, params, hx, hf⟩ := lookup_nested h
  exact mt List.mem_reverse.mp (c.nested_valid iface x hx f params hf)

/-- The last slash of a path is the one that was put in. -/
theorem path_injOn (c : Component) : Set.InjOn Export.path {e | e ∈ c.discover_exports_typed.exports} := by
  intro e he e' he' h
  match e, e' with
  | .root f, .root f' => exact congrArg _ h
  | .root f, .nested iface f' => exact absurd h (root_path_ne he)
  | .nested iface f, .root f' => exact absurd h.symm (root_path_ne he')
  | .nested iface f, .nested iface' f' =>
    have hrev := congrArg (fun s => s.toList.reverse) h
    simp only [Export.path, toList_qualified, List.reverse_append, List.reverse_cons, List.append_assoc,
      List.singleton_append] at hrev
    have hf : f.toList.reverse = f'.toList.reverse := by
      rw [← (span_slash (nested_name he)).1, hrev, (span_slash (nested_name he')).1]
    rw [hf, List.append_cancel_left_eq, List.cons_inj_right, List.reverse_inj, String.toList_inj] at hrev
    rw [hrev, String.toList_inj.mp (List.reverse_inj.mp hf)]

theorem resolve_nested_iff (h : .nested iface f ∈ c.discover_exports_typed.exports) :
    c.resolve app_name (qualified iface f) = .ok (.nested iface f) ↔ '/' ∉ iface.toList := by
  obtain ⟨x, params, hx, hf⟩ := lookup_nested h
  unfold resolve
  dsimp only
  rw [if_pos slash_mem_qualified]
  constructor
  · intro h hslash
    have hcut : String.ofList ((qualified iface f).toList.takeWhile (· ≠ '/')) = iface := by
      split at h
      · cases h
      · split at h
        · exact (Export.nested.inj (Except.ok.inj h)).1
        · cases h
        · cases h
      · cases h
    rw [← hcut, String.toList_ofList] at hslash
    simpa using List.mem_takeWhile_imp hslash
  · intro hslash
    rw [toList_qualified, (span_slash hslash).1, (span_slash hslash).2, List.tail_cons, String.ofList_toList,
      String.ofList_toList, hx]
    dsimp only
    rw [hf]

/-- Every export has a path of its own, and all can be called exactly if no interface has a slash in its name. -/
theorem listed_callable_iff (c : Component) (app_name : String) :
    c.discover_exports_typed.to_exports_map = c.discover_exports_typed.exports.map Export.path ∧
    c.discover_exports_typed.to_mcp_manifest = c.discover_exports_typed.exports.map Export.path ∧
    Set.InjOn Export.path {e | e ∈ c.discover_exports_typed.exports} ∧
    ((∀ e ∈ c.discover_exports_typed.exports, c.resolve app_name e.path = .ok e) ↔
      ∀ iface f, .nested iface f ∈ c.discover_exports_typed.exports → '/' ∉ iface.toList) := by
  refine ⟨?_, ?_, c.path_injOn, fun h iface f he => ?_, fun h e he => ?_⟩
  · simp [AppSchema.to_exports_map, AppSchema.paths, AppSchema.exports, List.map_flatMap, Function.comp_def, Export.path]
  · simp [AppSchema.to_mcp_manifest, AppSchema.exports, List.map_flatMap, Function.comp_def, Export.path]
  · exact (resolve_nested_iff he).mp (h _ he)
  · cases e with
    | root f =>
      obtain ⟨params, hf⟩ := lookup_root he
      simp [resolve, Export.path, c.valid f params hf, hf]
    | nested iface f => exact (resolve_nested_iff he).mpr (h iface f he)

/-- The interface is looked up under the name of its package. -/
theorem qualified_interface_unresolved : ∃ c : Component,
    c.discover_exports_typed.to_exports_map = ["ns:pkg/iface@1.0.0/f"] ∧
      c.resolve "app" "ns:pkg/iface@1.0.0/f" = .error "interface 'ns:pkg' not found in app 'app'" := by
  let x : Exports Unit := AList.singleton "f" (.ComponentFunc [])
  refine ⟨⟨AList.singleton "ns:pkg/iface@1.0.0" (.ComponentInstance x), fun f params h => ?_, fun i y h f params hf => ?_⟩,
    ?_, ?_⟩
  · cases List.mem_singleton.mp (AList.mem_lookup_iff.mp h)
  · cases List.mem_singleton.mp (AList.mem_lookup_iff.mp h)
    cases List.mem_singleton.mp (AList.mem_lookup_iff.mp hf)
    decide
  · decide
  · decide

end Component

end EnclaveOs.Apps
