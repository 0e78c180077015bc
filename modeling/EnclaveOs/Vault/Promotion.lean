import EnclaveOs.Vault.Authorisation

/-! # What a new attestation profile may do (`push_tee`) -/

namespace EnclaveOs.Vault.Authorisation

open Lib

section

variable [Outside] {w : World} {ctx : RequestContext} {record : KeyRecord} {profile : AttestationProfile}

/-- The slot that the next profile takes. -/
def next_slot (policy : KeyPolicy) : PrincipalRef := .Tee (UInt32.ofNat policy.principals.tees.length)

def Allowed (kv : Table) (w : World) (policy : KeyPolicy) (op : Operation) (handle : String)
    (approvals : List ApprovalToken) (ctx : RequestContext) (binding : Option OpBinding) : Prop :=
  ((evaluate_op policy op handle approvals ctx binding).exec (at_rest kv w)).1 = .ok ()

open Classical in
theorem first_slot_push_tee : first_slot w (push_tee record profile).policy.principals ctx =
    (first_slot w record.policy.principals ctx <|>
      if Attested w ctx profile then some (next_slot record.policy) else none) := by
  unfold first_slot push_tee next_slot
  dsimp only
  split
  · rfl
  · rw [List.findIdx?_append, List.findIdx?_singleton]
    by_cases h : Attested w ctx profile <;>
      cases record.policy.principals.tees.findIdx? (TeeMatches w ctx ·) <;> simp [TeeMatches, h]

theorem resolves_push_tee (ref : PrincipalRef) : Resolves w (push_tee record profile).policy.principals ctx ref ↔
    Resolves w record.policy.principals ctx ref ∨ first_slot w record.policy.principals ctx = none ∧
      Attested w ctx profile ∧ ref_grants ref (next_slot record.policy) = true := by
  unfold Resolves
  rw [first_slot_push_tee]
  rcases first_slot w record.policy.principals ctx with _ | slot
  · by_cases h : Attested w ctx profile <;> simp [h]
  · simp

omit [Outside] in
theorem grants_next_slot {policy : KeyPolicy} {refs : List PrincipalRef} :
    (∃ ref ∈ refs, ref_grants ref (next_slot policy) = true) ↔ .AnyTee ∈ refs ∨ next_slot policy ∈ refs := by
  constructor
  · rintro ⟨ref, href, hgrants⟩
    cases ref with
    | AnyTee => exact .inl href
    | Tee i =>
      obtain rfl : i = _ := by simpa [ref_grants, next_slot] using hgrants
      exact .inr href
    | _ => cases hgrants
  · rintro (href | href)
    · exact ⟨_, href, rfl⟩
    · exact ⟨_, href, by simp [ref_grants, next_slot]⟩

/-- Whoever was allowed an operation still is. Anyone else had no slot, has evidence for the new profile, and
finds the operation granted to any TEE or to its slot. -/
theorem push_tee_extends (kv : Table) (w : World) (record : KeyRecord) (profile : AttestationProfile)
    (pending_id : UInt32) (op : Operation) (handle : String) (approvals : List ApprovalToken) (ctx : RequestContext)
    (binding : Option OpBinding) :
    (promote record pending_id profile).policy = (push_tee record profile).policy ∧
    (Allowed kv w (push_tee record profile).policy op handle approvals ctx binding ↔
      Allowed kv w record.policy op handle approvals ctx binding ∨
      first_slot w record.policy.principals ctx = none ∧ Attested w ctx profile ∧
        ∃ rule ∈ record.policy.operations, op ∈ rule.ops ∧
          (.AnyTee ∈ rule.principals ∨ next_slot record.policy ∈ rule.principals) ∧
          ∀ c ∈ rule.requires, Holds w (key_pair kv w) record.policy op handle approvals ctx binding c) := by
  refine ⟨rfl, ?_⟩
  unfold Allowed
  rw [evaluate_op_iff, evaluate_op_iff]
  have hholds : ∀ c, Holds w (key_pair kv w) (push_tee record profile).policy op handle approvals ctx binding c ↔
      Holds w (key_pair kv w) record.policy op handle approvals ctx binding c := fun c => by cases c <;> rfl
  simp only [resolves_push_tee, hholds]
  constructor
  · rintro ⟨rule, hrule, hop, ⟨ref, href, hres | ⟨hnone, hatt, hgrants⟩⟩, hreq⟩
    · exact .inl ⟨rule, hrule, hop, ⟨ref, href, hres⟩, hreq⟩
    · exact .inr ⟨hnone, hatt, rule, hrule, hop, grants_next_slot.mp ⟨ref, href, hgrants⟩, hreq⟩
  · rintro (⟨rule, hrule, hop, ⟨ref, href, hres⟩, hreq⟩ | ⟨hnone, hatt, rule, hrule, hop, hslot, hreq⟩)
    · exact ⟨rule, hrule, hop, ⟨ref, href, .inl hres⟩, hreq⟩
    · obtain ⟨ref, href, hgrants⟩ := grants_next_slot.mpr hslot
      exact ⟨rule, hrule, hop, ⟨ref, href, .inr ⟨hnone, hatt, hgrants⟩⟩, hreq⟩

end

open Sample in
/-- Every certificate parses, and every quote is of the enclave `aa`. -/
abbrev attesting : Outside :=
  { outside with
    to_lowercase := id
    from_der := fun _ => .ok ⟨[], [1]⟩
    parse_quote := fun _ => .ok ⟨.Sgx, "aa", none, none⟩ }

open Sample in
/-- The rule names the first slot, and no profile is in it yet. -/
theorem unfilled_slot_granted :
    let policy : KeyPolicy := export_policy ⟨oidc "alice", [], [], []⟩ (.Tee 0)
    let w : World := { world policy with verify_quote_statuses := fun _ urls => .ok (urls.map fun _ => "UpToDate") }
    let after := (push_tee (record policy) { profile "aa" with required_oids := [] }).policy
    let tee : RequestContext := ⟨none, some [], some []⟩
    policy.principals.tees = [] ∧ (∀ rule ∈ policy.operations, .AnyTee ∉ rule.principals) ∧
      ¬ @Allowed attesting (fun _ => none) w policy .ExportKey "k" [] tee none ∧
      @Allowed attesting (fun _ => none) w after .ExportKey "k" [] tee none := by
  refine ⟨rfl, by decide, ?_, ?_⟩ <;> unfold Allowed
  · exact nofun
  · rfl

end EnclaveOs.Vault.Authorisation
