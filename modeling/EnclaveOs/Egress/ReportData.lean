import EnclaveOs.Egress.Evidence

/-! # What report data commits to (`expected_report_data`) -/

namespace EnclaveOs.ReportData

open Egress Lib
open Outside (sha256 sha512)

section

variable [Outside] {spki spki' : Bytes} {ev ev' : Evidence}

def present (ev : Evidence) : Option Bytes := ev.gpu_evidence.filter (· ≠ [])

def binding (ev : Evidence) : Bytes :=
  match ev.mode with
  | .deterministic => utf8 ev.quote_time
  | .challenge => (ev.context.map Subtype.val).getD [] ++ (ev.hctx.map Subtype.val).getD []

def preimage (spki : Bytes) (ev : Evidence) : Bytes :=
  sha256 spki ++ binding ev ++ ((present ev).map sha256).getD []

/-- One leaf key, one mode with its binding, and the same GPU evidence, an empty one being none. -/
structure SameBinding (spki spki' : Bytes) (ev ev' : Evidence) : Prop where
  key : spki = spki'
  mode : ev.mode = ev'.mode
  time : ev.mode = .deterministic → ev.quote_time = ev'.quote_time
  challenge : ev.mode = .challenge → ev.context = ev'.context ∧ ev.hctx = ev'.hctx
  gpu : present ev = present ev'

/-- The binding has a length of its own in each mode. -/
def Bound (ev : Evidence) : Prop :=
  ev.mode = .deterministic ∧ (binding ev).length = 17 ∨
    ev.mode = .challenge ∧ ∃ c h, ev.context = some c ∧ ev.hctx = some h

theorem expected_ok {rd : Register 64} (h : expected_report_data spki ev = .ok rd) :
    Bound ev ∧ sha512 (preimage spki ev) = rd := by
  unfold expected_report_data at h
  unfold Bound preimage binding
  split at h
  · rename_i hmode
    simp only [except_bind_ok, demand_ok, except_pure_ok, report_data_parts, List.flatten_singleton] at h
    obtain ⟨_, hlen, hrd⟩ := h
    rw [hmode]
    exact ⟨.inl ⟨rfl, hlen⟩, hrd⟩
  · rename_i hmode
    split at h
    · rename_i c x hc hx
      rw [hmode, hc, hx]
      refine ⟨.inr ⟨rfl, c, x, rfl, rfl⟩, ?_⟩
      simpa [challenge_report_data, report_data_parts, present] using h
    · cases h

omit [Outside] in
theorem length_binding (h : Bound ev) :
    (binding ev).length = if ev.mode = .deterministic then 17 else 64 := by
  rcases h with ⟨hmode, hlen⟩ | ⟨hmode, c, hctx, hc, hh⟩
  · rw [if_pos hmode, hlen]
  · simp [binding, hmode, hc, hh, c.2, hctx.2]

section

variable (hlen : ∀ b, (sha256 b).length = 32)

include hlen

theorem length_gpu (ev : Evidence) :
    (((present ev).map sha256).getD []).length = if (present ev).isSome then 32 else 0 := by
  cases present ev <;> simp [hlen]

theorem same_of_preimage (hkeys : sha256 spki = sha256 spki' → spki = spki')
    (hgpus : ∀ g ∈ present ev, ∀ g' ∈ present ev', sha256 g = sha256 g' → g = g') (hb : Bound ev) (hb' : Bound ev')
    (h : preimage spki ev = preimage spki' ev') : SameBinding spki spki' ev ev' := by
  unfold preimage at h
  rw [List.append_assoc, List.append_assoc] at h
  obtain ⟨hkey, h⟩ := List.append_inj h (by rw [hlen, hlen])
  -- 17, 49, 64 and 96 bytes follow the key.
  have htotal := congrArg List.length h
  rw [List.length_append, List.length_append, length_binding hb, length_binding hb', length_gpu hlen,
    length_gpu hlen] at htotal
  obtain ⟨hmode, hsome⟩ : ev.mode = ev'.mode ∧ (present ev).isSome = (present ev').isSome := by
    cases hm : ev.mode <;> cases hm' : ev'.mode <;> cases hp : (present ev).isSome <;> cases hp' : (present ev').isSome <;>
      simp [hm, hm', hp, hp'] at htotal ⊢
  obtain ⟨hbinding, hgpu⟩ := List.append_inj h (by rw [length_binding hb, length_binding hb', hmode])
  refine ⟨hkeys hkey, hmode, fun hdet => ?_, fun hchal => ?_, ?_⟩
  · rw [binding, binding, ← hmode, hdet] at hbinding
    have htext := congrArg from_utf8 hbinding
    simpa using htext
  · rcases hb with ⟨hdet, -⟩ | ⟨-, c, x, hc, hx⟩
    · rw [hdet] at hchal
      cases hchal
    rcases hb' with ⟨hdet, -⟩ | ⟨-, c', x', hc', hx'⟩
    · rw [← hmode, hchal] at hdet
      cases hdet
    rw [binding, binding, ← hmode, hchal, hc, hx, hc', hx'] at hbinding
    obtain ⟨hcc, hxx⟩ := List.append_inj hbinding (by simp [c.2, c'.2])
    rw [hc, hx, hc', hx']
    exact ⟨congrArg some (Subtype.ext hcc), congrArg some (Subtype.ext hxx)⟩
  · cases hp : present ev with
    | none =>
      rw [hp] at hsome
      exact (Option.not_isSome_iff_eq_none.mp (by rw [← hsome]; simp)).symm
    | some g =>
      rw [hp] at hsome hgpu
      obtain ⟨g', hp'⟩ := Option.isSome_iff_exists.mp hsome.symm
      rw [hp'] at hgpu ⊢
      exact congrArg some (hgpus g hp g' hp' hgpu)

end

/-- Equal report data comes from one binding, so a quote is accepted for the binding it was made for only. -/
theorem report_data_separates {rd : Register 64} (hlen : ∀ b, (sha256 b).length = 32)
    (hkeys : sha256 spki = sha256 spki' → spki = spki')
    (hgpus : ∀ g ∈ present ev, ∀ g' ∈ present ev', sha256 g = sha256 g' → g = g')
    (h512 : sha512 (preimage spki ev) = sha512 (preimage spki' ev') → preimage spki ev = preimage spki' ev')
    (hmade : expected_report_data spki' ev' = .ok rd) :
    (expected_report_data spki ev = .ok rd → SameBinding spki spki' ev ev') ∧
    ∀ cert policy r m t, verify_evidence_locally cert spki ev policy = .ok r →
      quote_registers ev policy = .ok (m, t, rd) → SameBinding spki spki' ev ev' := by
  have hsame : expected_report_data spki ev = .ok rd → SameBinding spki spki' ev ev' := by
    intro h
    obtain ⟨hb, hrd⟩ := expected_ok h
    obtain ⟨hb', hrd'⟩ := expected_ok hmade
    exact same_of_preimage hlen hkeys hgpus hb hb' (h512 (hrd.trans hrd'.symm))
  refine ⟨hsame, fun cert policy r m t hverify hquote => hsame ?_⟩
  obtain ⟨_, _, report, hquote', hexpected, -⟩ := (verify_evidence_locally_ok hverify).registers
  rw [hquote] at hquote'
  cases hquote'
  exact hexpected

end

namespace Sample

def padded (n : Nat) (b : Bytes) : Register n := ⟨(b ++ List.replicate n 0).take n, by simp⟩

scoped instance outside : Outside where
  to_lowercase := id
  is_whitespace _ := false
  from_der _ := none
  sha256 b := (padded 32 b).val
  sha512 := padded 64
  base64_url _ := .error ""
  parse_quote3 _ := .error ""
  parse_quote4 _ := .error ""
  attest_response _ := .error ""
  debug := id

def evidence : Evidence := ⟨.deterministic, "sgx", [], none, "2026-09-04T12:00Z", none, none⟩

def challenged : Evidence := ⟨.challenge, "sgx", [], some [7], "", some (padded 32 [5]), some (padded 32 [6])⟩

/-- Under one leaf key, a quote made for a challenge is not one of a time of day. -/
theorem modes_separated : expected_report_data [1] challenged = .ok (sha512 (preimage [1] challenged)) ∧
    expected_report_data [1] evidence ≠ .ok (sha512 (preimage [1] challenged)) := by
  have hmade : expected_report_data [1] challenged = .ok (sha512 (preimage [1] challenged)) := rfl
  refine ⟨hmade, fun h => ?_⟩
  have hsame := (report_data_separates (fun b => (padded 32 b).2) (fun _ => rfl) (by decide) (by decide) hmade).1 h
  exact absurd hsame.mode (by decide)

end Sample

end EnclaveOs.ReportData
