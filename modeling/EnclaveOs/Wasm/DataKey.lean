import EnclaveOs.Wasm.Registry
import EnclaveOs.Merkle.Sample

/-! # The data key is not replaced -/

open Function (update update_eq_self update_of_ne update_self)

namespace EnclaveOs.Wasm.Registry

open Lib Lib.Prog
open Tries (adapt lift pure throw)

open Merkle (Key Nonce AeadCipher Crypto toVec)

/-- A ciphertext opens to the text it was sealed from. -/
def Faithful (uses : List Use) : Prop :=
  ∀ ct text text', Use.sealed ct text ∈ uses → Use.opened ct text' ∈ uses → text' = text

def Use.clashes : Use → Use → Bool
  | .sealed ct text, .opened ct' text' => ct = ct' ∧ text' ≠ text
  | _, _ => false

instance (uses : List Use) : Decidable (Faithful uses) :=
  decidable_of_iff (∀ u ∈ uses, ∀ u' ∈ uses, u.clashes u' = false) (by
    constructor
    · intro h ct text text' hs ho
      have hclash := h _ hs _ ho
      simpa [Use.clashes] using hclash
    · intro h u hu u' hu'
      cases u <;> cases u' <;> try rfl
      simp only [Use.clashes, decide_eq_false_iff_not, not_and, not_not]
      rintro rfl
      exact h _ _ _ hu hu')

variable {uses : List Use} {keys : List Key}

theorem Faithful.tail {u : Use} (h : Faithful (u :: uses)) : Faithful uses :=
  fun ct text text' hs ho => h ct text text' (.tail _ hs) (.tail _ ho)

/-- Every blob was sealed from the one data key, which is what was returned. -/
structure Wraps (dek : Bytes) (keys : List Key) (wrapped : String → Option Bytes) (uses : List Use) : Prop where
  blobs : ∀ handle ct, wrapped handle = some ct → Use.sealed ct dek ∈ uses
  returned : ∀ key ∈ keys, key.toList = dek
  kept : keys ≠ [] → ∃ handle, wrapped handle ≠ none

/-- All keys returned are one key. -/
def OneKey (keys : List Key) (m : Mem) : Prop := Faithful m.uses → ∃ dek, Wraps dek keys m.wrapped m.uses

theorem OneKey.use {m : Mem} (h : OneKey keys m) (u : Use) : OneKey keys { m with uses := u :: m.uses } := by
  intro hf
  obtain ⟨dek, hw⟩ := h hf.tail
  exact ⟨dek, fun handle ct hct => .tail _ (hw.blobs handle ct hct), hw.returned, hw.kept⟩

theorem OneKey.fewer {key : Key} {m : Mem} (h : OneKey (key :: keys) m) : OneKey keys m := by
  intro hf
  obtain ⟨dek, hw⟩ := h hf
  exact ⟨dek, hw.blobs, fun k hk => hw.returned k (.tail _ hk),
    fun _ => hw.kept (List.cons_ne_nil _ _)⟩

theorem Wraps.put {dek : Bytes} {wrapped : String → Option Bytes}
    (h : Wraps dek keys wrapped uses) (handle : String) {ct : Bytes} (hct : Use.sealed ct dek ∈ uses) :
    Wraps dek keys (update wrapped handle (some ct)) uses := by
  refine ⟨fun handle' ct' hct' => ?_, h.returned, fun _ => ⟨handle, by simp⟩⟩
  by_cases hh : handle' = handle
  · subst hh
    rw [update_self] at hct'
    rwa [← Option.some.inj hct']
  · rw [update_of_ne hh] at hct'
    exact h.blobs handle' ct' hct'

theorem Wraps.delete {dek : Bytes} {wrapped : String → Option Bytes}
    (h : Wraps dek keys wrapped uses) {handle other : String} (hne : other ≠ handle) (hother : wrapped other ≠ none) :
    Wraps dek keys (update wrapped handle none) uses := by
  refine ⟨fun handle' ct' hct' => ?_, h.returned, fun _ => ⟨other, ?_⟩⟩
  · by_cases hh : handle' = handle
    · subst hh
      rw [update_self] at hct'
      cases hct'
    · rw [update_of_ne hh] at hct'
      exact h.blobs handle' ct' hct'
  · rwa [update_of_ne hne]

section

variable [Crypto] {keys : List Key} {m : Mem}

abbrev Holds {α : Type} (keys : List Key) := Tries (ε := String) (α := α) respond (OneKey keys)

theorem tries_on_vaults {α : Type} (handle : String) (p : VaultM (Except String α)) (h : OneKey keys m) :
    Holds keys (fun _ m' => ∃ v, m' = { m with vaults := v }) (attempt "" (on_vaults handle p)) m := by
  have htries : ∀ (p : VaultM (Except String α)) (v : String → Vaults), Holds keys
      (fun _ m' => ∃ v, m' = { m with vaults := v }) (ExceptT.mk (on_vaults handle p)) { m with vaults := v } := by
    intro p
    induction p with
    | ret r =>
      intro v
      rcases r with e | a
      · exact h
      · exact ⟨v, rfl⟩
    | fail => exact fun v => trivial
    | step o k ih => exact fun v w => ⟨h, ih _ _⟩
  exact adapt (htries p m.vaults)

theorem tries_selection (sealed : Option VaultConfig) (h : OneKey keys m) :
    Holds keys (fun _ m' => m' = m) (selection sealed) m := by
  rcases sealed with _ | c
  · refine adapt fun w => ⟨h, ?_⟩
    show Prog.Keeps respond _ _ (Prog.ret w.directory) m
    rcases w.directory with e | cfg
    · exact h
    · exact rfl
  · exact pure rfl

theorem tries_new_key (byok : Option Key) (h : OneKey keys m) : Holds keys (fun _ m' => m' = m) (new_key byok) m := by
  rcases byok with _ | k
  · have hrandom : Holds keys (fun _ m' => m' = m) (ask .random) m := lift fun w => ⟨h, rfl⟩
    refine hrandom.bind fun k m1 hm1 => ?_
    subst hm1
    rcases k with _ | k
    · exact throw h
    · exact pure rfl
  · exact pure rfl

theorem tries_get (lead handle : String) (h : OneKey keys m) :
    Holds keys (fun blob m' => m' = m ∧ blob = m.wrapped handle) (attempt lead (kv_store_get handle)) m := by
  refine adapt fun w => ?_
  simp only [respond]
  rcases w.read_error with _ | e
  · exact ⟨h, rfl, rfl⟩
  · exact ⟨h, h⟩

theorem tries_decrypt (lead : String) (c : AeadCipher) (ct aad : Bytes) (h : OneKey keys m) :
    Holds keys (fun text m' => m' = { m with uses := .opened ct text :: m.uses })
      (attempt lead (decrypt c ct aad)) m := by
  refine adapt fun w => ?_
  simp only [respond]
  rcases c.decrypt ct aad with e | text
  · exact ⟨h, h⟩
  · exact ⟨h.use _, rfl⟩

theorem tries_encrypt (lead : String) (c : AeadCipher) (text aad : Bytes) (h : OneKey keys m) :
    Holds keys (fun ct m' => m' = { m with uses := .sealed ct text :: m.uses })
      (attempt lead (encrypt c text aad)) m := by
  refine adapt fun w => ?_
  simp only [respond]
  rcases c.encrypt w.nonce text aad with e | ct
  · exact ⟨h, h⟩
  · exact ⟨h.use _, rfl⟩

theorem tries_put (lead handle : String) (ct : Bytes) (h : OneKey keys m)
    (hnew : OneKey keys { m with wrapped := update m.wrapped handle (some ct) }) :
    Holds keys (fun _ m' => m' = { m with wrapped := update m.wrapped handle (some ct) })
      (attempt lead (kv_store_put handle ct)) m := by
  refine adapt fun w => ?_
  simp only [respond]
  cases w.write with
  | done => exact ⟨hnew, rfl⟩
  | failed =>
    have hsame : OneKey keys { m with wrapped := update m.wrapped handle (m.wrapped handle) } := by
      rwa [update_eq_self]
    exact ⟨hsame, hsame⟩
  | lost => exact ⟨hnew, hnew⟩

theorem tries_delete {handle other : String} (h : OneKey keys m) (hne : other ≠ handle)
    (hother : m.wrapped other ≠ none) : Holds keys (fun _ m' => OneKey keys m') (ask (.delete handle)) m := by
  have hdeleted : OneKey keys { m with wrapped := update m.wrapped handle none } := by
    intro hf
    obtain ⟨dek, hw⟩ := h hf
    exact ⟨dek, hw.delete hne hother⟩
  refine lift fun w => ?_
  simp only [respond]
  cases w.write with
  | done => exact ⟨hdeleted, hdeleted⟩
  | failed =>
    have hsame : OneKey keys { m with wrapped := update m.wrapped handle (m.wrapped handle) } := by
      rwa [update_eq_self]
    exact ⟨hsame, hsame⟩
  | lost => exact ⟨hdeleted, hdeleted⟩

theorem tries_meta {o : Op} (hkeep : ∀ w m, (respond o w m).2.wrapped = m.wrapped ∧ (respond o w m).2.uses = m.uses)
    {keys' : List Key} (h : OneKey keys m) (h' : OneKey keys' m) :
    Holds keys (fun _ m' => OneKey keys m' ∧ OneKey keys' m') (ask o) m := by
  have hsame : ∀ {ks : List Key} (w : World), OneKey ks m → OneKey ks (respond o w m).2 := by
    intro ks w hks
    unfold OneKey
    rw [(hkeep w m).1, (hkeep w m).2]
    exact hks
  exact lift fun w => ⟨hsame w h, hsame w h, hsame w h'⟩

omit [Crypto] in
theorem OneKey.first (h : OneKey keys m) (hempty : ∀ handle, m.wrapped handle = none) (handle : String) {ct : Bytes}
    {key : Key} (hct : Use.sealed ct key.toList ∈ m.uses) :
    OneKey (key :: keys) { m with wrapped := update m.wrapped handle (some ct) } := by
  intro hf
  obtain ⟨dek, hw⟩ := h hf
  have hnone : keys = [] := by
    by_contra hne
    obtain ⟨handle', hh⟩ := hw.kept hne
    exact hh (hempty handle')
  have hblobs : ∀ handle' ct', m.wrapped handle' = some ct' → Use.sealed ct' key.toList ∈ m.uses := by
    intro handle' ct' hct'
    rw [hempty handle'] at hct'
    cases hct'
  have hwraps : Wraps key.toList [] m.wrapped m.uses := ⟨hblobs, by simp, by simp⟩
  refine ⟨key.toList, (hwraps.put handle hct).blobs, ?_, fun _ => ⟨handle, by simp⟩⟩
  rw [hnone]
  intro k hk
  rw [List.mem_singleton.mp hk]

theorem tries_resolve (vb : VaultBacking) (byok : Option Key) (entropy : Entropy) (h : OneKey keys m)
    (hblob : m.wrapped vb.handle ≠ none ∨ ∀ handle, m.wrapped handle = none) :
    Holds keys (fun r m' => OneKey (r.1 :: keys) m') (resolve_vault_backed_key vb byok entropy) m := by
  unfold resolve_vault_backed_key
  refine (tries_selection vb.sealed h).bind fun cfg m1 hm1 => ?_
  subst hm1
  refine (tries_on_vaults vb.handle _ h).bind fun kek m2 hm2 => ?_
  obtain ⟨v, rfl⟩ := hm2
  have h2 : OneKey keys { m1 with vaults := v } := h
  refine (tries_get _ vb.handle h2).bind fun blob m3 hm3 => ?_
  obtain ⟨rfl, hblob3⟩ := hm3
  rcases blob with _ | blob
  · have hempty : ∀ handle, m1.wrapped handle = none := hblob.resolve_left fun hne => hne hblob3.symm
    refine (tries_new_key byok h2).bind fun key m4 hm4 => ?_
    subst hm4
    refine (tries_encrypt _ _ key.toList _ h2).bind fun ct m5 hm5 => ?_
    subst hm5
    have hfirst := (h2.use (.sealed ct key.toList)).first hempty vb.handle (.head _)
    refine (tries_put _ vb.handle ct (h2.use _) hfirst.fewer).bind fun _ m6 hm6 => ?_
    subst hm6
    exact pure hfirst
  · refine (tries_decrypt _ _ blob _ h2).bind fun key_vec m4 hm4 => ?_
    subst hm4
    dsimp only
    split
    · exact throw (h2.use _)
    · rename_i hlen
      refine pure fun hf => ?_
      obtain ⟨dek, hw⟩ := h2 hf.tail
      have hsealed := hw.blobs vb.handle blob hblob3.symm
      have htext : key_vec = dek := hf blob dek key_vec (.tail _ hsealed) (.head _)
      refine ⟨dek, fun handle' ct' hct' => .tail _ (hw.blobs handle' ct' hct'), fun k hk => ?_,
        fun _ => ⟨vb.handle, Option.ne_none_iff_exists.mpr ⟨blob, hblob3⟩⟩⟩
      rcases List.mem_cons.mp hk with rfl | hk
      · rw [Merkle.toList_toVec key_vec (not_not.mp hlen), htext]
      · exact hw.returned k hk

theorem tries_rotate {old_cfg new_cfg : VaultConfig} {old_handle new_handle : String} (hne : old_handle ≠ new_handle)
    (new_grant : String) (entropy entropy' : Entropy) (h : OneKey keys m) : Holds keys (fun _ m' => OneKey keys m')
      (rotate_vault_backed_key old_cfg new_cfg old_handle new_handle new_grant entropy entropy') m := by
  unfold rotate_vault_backed_key
  refine (tries_on_vaults old_handle _ h).bind fun old_kek m1 hm1 => ?_
  obtain ⟨v₁, rfl⟩ := hm1
  have h1 : OneKey keys { m with vaults := v₁ } := h
  refine (tries_on_vaults new_handle _ h1).bind fun new_kek m2 hm2 => ?_
  obtain ⟨v₂, rfl⟩ := hm2
  have h2 : OneKey keys { m with vaults := v₂ } := h
  refine (tries_get _ old_handle h2).bind fun blob m3 hm3 => ?_
  obtain ⟨rfl, hblob⟩ := hm3
  rcases blob with _ | blob
  · exact throw h2
  refine (tries_decrypt _ _ blob _ h2).bind fun dek m4 hm4 => ?_
  subst hm4
  refine (tries_encrypt _ _ dek _ (h2.use _)).bind fun new_blob m5 hm5 => ?_
  subst hm5
  have h5 := (h2.use (.opened blob dek)).use (.sealed new_blob dek)
  have hput : OneKey keys { m with
      vaults := v₂, uses := .sealed new_blob dek :: .opened blob dek :: m.uses,
      wrapped := update m.wrapped new_handle (some new_blob) } := by
    intro hf
    obtain ⟨text, hw⟩ := h5 hf
    obtain rfl := hf blob text dek (hw.blobs old_handle blob hblob.symm) (.tail _ (.head _))
    exact ⟨dek, hw.put new_handle (.head _)⟩
  refine (tries_put _ new_handle new_blob h5 hput).bind fun _ m6 hm6 => ?_
  subst hm6
  refine (tries_delete hput hne.symm (by simp)).bind fun _ m7 hm7 => ?_
  exact pure hm7

/-- A load that has no blob of its own comes before all blobs. -/
def Careful (m : Mem) : Call → Prop
  | .load l => m.known ≠ none ∨ m.wrapped l.vault.handle ≠ none ∨ ∀ handle, m.wrapped handle = none
  | _ => True

theorem tries_pure {α : Type} (r : Except String α) (h : OneKey keys m) :
    Holds keys (fun _ m' => m' = m) (attempt "" (pure r)) m := by
  rcases r with e | a
  · exact adapt h
  · exact adapt (rfl : m = m)

theorem tries_load (name : String) (l : Load) (h : OneKey keys m) (hcareful : Careful m (.load l)) :
    Holds keys (fun entry m' => OneKey (entry.encryption_key :: keys) m') (load_app name l) m := by
  unfold load_app
  have hknown : Holds keys (fun entry m' => m' = m ∧ entry = m.known) (ask .known) m := lift fun w => ⟨h, rfl, rfl⟩
  refine hknown.bind fun entry m1 hm1 => ?_
  obtain ⟨rfl, hentry⟩ := hm1
  rcases entry with _ | entry
  · have hblob := hcareful.resolve_left fun hne => hne hentry.symm
    refine (tries_pure l.component h).bind fun _ m2 hm2 => ?_
    subst hm2
    refine (tries_resolve l.vault l.encryption_key l.entropy h hblob).bind fun r m3 h3 => ?_
    refine (tries_pure l.exports h3.fewer).bind fun _ m4 hm4 => ?_
    subst hm4
    refine (tries_meta (fun w m => ⟨rfl, rfl⟩) h3.fewer h3).bind fun _ m5 h5 => ?_
    refine (tries_meta (fun w m => ⟨rfl, rfl⟩) h5.1 h5.2).bind fun _ m6 h6 => ?_
    refine (tries_meta (fun w m => ⟨rfl, rfl⟩) h6.1 h6.2).bind fun _ m7 h7 => ?_
    exact pure h7.2
  · exact throw h

theorem tries_rotate_vault_key (name : String) (r : Rotate) (h : OneKey keys m) :
    Holds keys (fun _ m' => OneKey keys m') (rotate_vault_key name r) m := by
  unfold rotate_vault_key
  refine (tries_meta (fun w m => ⟨rfl, rfl⟩) h h).bind fun entry m1 h1 => ?_
  rcases entry with _ | entry
  · exact throw h1.1
  rcases hhandle : entry.vault_handle with _ | old_handle
  · simp only [hhandle]
    exact throw h1.1
  simp only [hhandle]
  split
  · exact throw h1.1
  rename_i hne
  refine (tries_selection entry.vault_config h1.1).bind fun old_cfg m2 hm2 => ?_
  subst hm2
  refine (tries_rotate hne r.new_grant r.entropy r.entropy' h1.1).bind fun _ m3 h3 => ?_
  refine (tries_meta (fun w m => ⟨rfl, rfl⟩) h3 h3).bind fun _ m4 h4 => ?_
  exact pure h4.1

theorem tries_wasm_rotate_key (name : String) (r : Rotate) (h : OneKey keys m) :
    Holds keys (fun _ m' => OneKey keys m') (wasm_rotate_key name r) m := by
  unfold wasm_rotate_key
  refine (tries_rotate_vault_key name r h).bind fun updated m1 h1 => ?_
  refine (tries_meta (fun w m => ⟨rfl, rfl⟩) h1 h1).bind fun _ m2 h2 => ?_
  exact pure h2.1

theorem tries_unload (h : OneKey keys m) : Holds keys (fun _ m' => OneKey keys m') unload_app m := by
  unfold unload_app
  refine (tries_meta (fun w m => ⟨rfl, rfl⟩) h h).bind fun entry m1 h1 => ?_
  rcases entry with _ | entry
  · exact pure h1.1
  refine (tries_meta (fun w m => ⟨rfl, rfl⟩) h1.1 h1.1).bind fun _ m2 h2 => ?_
  refine (tries_meta (fun w m => ⟨rfl, rfl⟩) h2.1 h2.1).bind fun _ m3 h3 => ?_
  refine (tries_meta (fun w m => ⟨rfl, rfl⟩) h3.1 h3.1).bind fun _ m4 h4 => ?_
  exact pure h4.1

theorem keeps_program (name : String) (c : Call) (h : OneKey keys m) (hcareful : Careful m c) :
    Prog.Keeps respond (OneKey keys) (fun r m' => OneKey (r.toList ++ keys) m') (c.program name) m := by
  cases c with
  | load l =>
    refine Prog.Keeps.bind (tries_load name l h hcareful) fun r m1 h1 => ?_
    rcases r with e | entry <;> exact h1
  | rotate r =>
    refine Prog.Keeps.bind (tries_wasm_rotate_key name r h) fun r m1 h1 => ?_
    rcases r with e | entry <;> exact h1
  | unload =>
    refine Prog.Keeps.bind (tries_unload h) fun r m1 h1 => ?_
    rcases r with e | u <;> exact h1

def Event.Careful (m : Mem) : Event → Prop
  | .call c _ => Registry.Careful m c
  | _ => True

def AllCareful (name : String) (s : Mem × List Key) : List Event → Prop
  | [] => True
  | e :: history => e.Careful s.1 ∧ AllCareful name (next name s e) history

theorem oneKey_next (name : String) {s : Mem × List Key} (h : OneKey s.2 s.1) {e : Event} (hcareful : e.Careful s.1) :
    OneKey (next name s e).2 (next name s e).1 := by
  cases e with
  | call c ws =>
    obtain ⟨hinv, hpost⟩ := (keeps_program name c h hcareful).play h ws
    simp only [next]
    split
    · rename_i key m hplay
      rw [hplay] at hpost
      exact hpost _ rfl
    · rename_i m hplay
      rw [hplay] at hpost
      exact hpost _ rfl
    · rename_i m hplay
      rw [hplay] at hinv
      exact hinv
  | restart | upgrade => exact h

theorem oneKey_run (name : String) (history : List Event) {s : Mem × List Key} (h : OneKey s.2 s.1)
    (hcareful : AllCareful name s history) :
    OneKey (history.foldl (next name) s).2 (history.foldl (next name) s).1 := by
  induction history generalizing s with
  | nil => exact h
  | cons e history ih => exact ih (oneKey_next name h hcareful.1) hcareful.2

/-- If every load is careful, all return the same data key. -/
theorem data_key_kept (name : String) (history : List Event) (hcareful : AllCareful name (Mem.init, []) history)
    (hfaithful : Faithful (run name history).1.uses) :
    ∀ key ∈ (run name history).2, ∀ key' ∈ (run name history).2, key = key' := by
  have hinit : OneKey [] Mem.init := fun _ => ⟨[], by simp [Mem.init], by simp, by simp⟩
  obtain ⟨dek, hw⟩ := oneKey_run name history (s := (Mem.init, [])) hinit hcareful hfaithful
  intro key hkey key' hkey'
  have hsame := (hw.returned key hkey).trans (hw.returned key' hkey').symm
  exact Vector.toList_inj.mp hsame

end

/-! ## A rotation that stops -/

open scoped Merkle.Sample

def two_vaults : VaultConfig := ⟨[0, 1], 2⟩

def zeros : Entropy where
  kek := some (List.replicate 32 0)
  generation := some (List.replicate 16 0)
  coeffs _ := some fun _ => 0
  kek_size := by simp [KEK_SIZE]
  generation_size := by simp [GENERATION_SIZE]

def fine (b : UInt8) : World where
  net := .fine
  directory := .ok two_vaults
  read_error := none
  write := .done
  random := some (Vector.replicate 32 b)
  nonce := some (Vector.replicate 12 0)

def load (handle : String) : Call := .load ⟨⟨handle, "grant", none⟩, none, zeros, .ok (), .ok ()⟩

def rotate : Call := .rotate ⟨"v2", "grant", none, zeros, zeros⟩

def rotation (steps : Nat) (handle : String) : List Event :=
  [.call (load "v1") (List.replicate 20 (fine 1)), .call rotate (List.replicate steps (fine 1)), .upgrade,
    .call (load handle) (List.replicate 20 (fine 2))]

theorem kept_by_rotation : (run "app" (rotation 20 "v2")).2 = [Vector.replicate 32 1, Vector.replicate 32 1] ∧
    ∀ key ∈ (run "app" (rotation 20 "v2")).2, ∀ key' ∈ (run "app" (rotation 20 "v2")).2, key = key' := by
  refine ⟨by decide +kernel, data_key_kept "app" _ ⟨.inr (.inr fun _ => rfl), trivial, trivial, ?_, trivial⟩ ?_⟩
  · exact .inr (.inl (by decide +kernel))
  · decide +kernel

/-- A rotation stops before the handle is sealed or before the new blob is put. A load then returns a new key. -/
theorem key_replaced :
    Faithful (run "app" (rotation 12 "v1")).1.uses ∧
    (run "app" (rotation 12 "v1")).2 = [Vector.replicate 32 2, Vector.replicate 32 1] ∧
    Faithful (run "app" (rotation 10 "v2")).1.uses ∧
    (run "app" (rotation 10 "v2")).2 = [Vector.replicate 32 2, Vector.replicate 32 1] := by
  decide +kernel

end EnclaveOs.Wasm.Registry
