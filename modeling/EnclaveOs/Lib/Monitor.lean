import Mathlib

/-!
# Monitors with retained signals

A consumer whose queue is empty waits until its own bit is set. Whoever publishes sets bits under the mutex and
wakes all who wait. A wait may end without cause.
-/

open Function (update update_eq_self update_of_ne update_self)
open Option (ite_none_right_eq_some map_eq_some_iff some)

namespace EnclaveOs.Lib.Monitor

inductive Instr (M K : Type)
  | acquire (m : M)
  | release (m : M)
  | raise (m : M) (whom : K → Bool)
  | halt (m : M)
  | wakeAll (m : M)
  /-- `announced`: its sender is bound to signal it. -/
  | push (k : K) (announced : Bool)

inductive Thread (T K : Type)
  | caller (t : T)
  | consumer (k : K)
deriving DecidableEq

inductive Status
  | pushed
  | raised
  | signalled
deriving DecidableEq

structure Entry (T K : Type) where
  sender : Thread T K
  announced : Bool
  status : Status

/-- From `inside` to `left` it holds the mutex, except while it waits. -/
inductive Pc (M K : Type)
  | check
  | recv
  | working (code : List (Instr M K))
  | empty
  | inside
  | unset
  | parking
  | parked
  | waking
  | leaving
  | left (status : Int)
  | finished

variable {M K T C : Type}

/-! ## Code that keeps to its mutex -/

/-- The mutex that code is inside of: the one it releases next. -/
def Instr.holding : List (Instr M K) → Option M
  | [] => none
  | .acquire _ :: _ => none
  | .release m :: _ => some m
  | _ :: p => holding p

/-- One mutex at a time, and bits and wake-ups only inside. -/
def Instr.Guarded : List (Instr M K) → Prop
  | [] => True
  | .acquire m :: p => holding p = some m ∧ Guarded p
  | .release _ :: p => holding p = none ∧ Guarded p
  | .raise m _ :: p => holding p = some m ∧ Guarded p
  | .wakeAll m :: p => holding p = some m ∧ Guarded p
  | .halt _ :: p => Guarded p
  | .push _ _ :: p => Guarded p

open Instr

theorem holding_append {p q : List (Instr M K)} (hq : holding q = none) : holding (p ++ q) = holding p := by
  induction p with
  | nil => exact hq
  | cons i p ih => cases i <;> simp_all [holding]

theorem guarded_append {p q : List (Instr M K)} (hp : Guarded p) (hq : Guarded q) (hnone : holding q = none) :
    Guarded (p ++ q) := by
  induction p with
  | nil => exact hq
  | cons i p ih => cases i <;> simp_all [Guarded, holding_append]

/-- The calls that threads make, and how each consumer waits. -/
structure Rules (M K C : Type) where
  mon : K → M
  code : C → List (Instr M K)
  guarded : ∀ c, Guarded (code c) ∧ holding (code c) = none
  /-- The loop looks at the stop flag first. -/
  polls : M → Bool
  /-- The wait may run out of time. -/
  timed : M → Bool
  /-- The bit that a wait leaves behind, and what it returns. -/
  leave : M → Bool → Bool → Bool × Int

structure Sys (M K T : Type) where
  lock : M → Option (Thread T K)
  bits : K → Bool
  stop : M → Bool
  queue : K → List (Entry T K)
  code : T → List (Instr M K)
  pc : K → Pc M K
  /-- Who has set the stop flag, and whether all were woken since. -/
  halted : M → Thread T K → Bool
  told : M → Bool

def Pc.waits : Pc M K → Bool
  | .empty | .inside | .unset | .parking | .parked | .waking => true
  | _ => false

def Pc.holding (m : M) : Pc M K → Option M
  | .working p => Instr.holding p
  | .inside | .unset | .parking | .leaving | .left _ => some m
  | _ => none

def Pc.rest : Pc M K → List (Instr M K)
  | .working p => p
  | _ => []

def Pc.wake : Pc M K → Pc M K
  | .parked => .waking
  | pc => pc

@[simp] theorem Pc.wake_ne_parked (pc : Pc M K) : pc.wake ≠ .parked := by cases pc <;> simp [Pc.wake]

@[simp] theorem Pc.wake_waits (pc : Pc M K) : pc.wake.waits = pc.waits := by cases pc <;> rfl

@[simp] theorem Pc.wake_holding (pc : Pc M K) (m : M) : pc.wake.holding m = pc.holding m := by cases pc <;> rfl

@[simp] theorem Pc.wake_rest (pc : Pc M K) : pc.wake.rest = pc.rest := by cases pc <;> rfl

theorem Pc.wake_eq {pc pc' : Pc M K} (h : pc.wake = pc') (hne : pc' ≠ .waking) : pc = pc' := by
  cases pc <;> simp_all [Pc.wake]

namespace Sys

variable (rules : Rules M K C)

def holding (s : Sys M K T) : Thread T K → Option M
  | .caller t => Instr.holding (s.code t)
  | .consumer k => (s.pc k).holding (rules.mon k)

def rest (s : Sys M K T) : Thread T K → List (Instr M K)
  | .caller t => s.code t
  | .consumer k => (s.pc k).rest

end Sys

/-! ## What every step keeps -/

/-- A mutex is held by the thread that is inside of it. -/
def Owned (lock : M → Option (Thread T K)) (holding : Thread T K → Option M) : Prop :=
  ∀ m th, lock m = some th ↔ holding th = some m

section

variable (rules : Rules M K C)

/-- A consumer on its way to wait has seen all that was raised before its bit was last unset. -/
structure Heard (s : Sys M K T) (k : K) : Prop where
  unset : s.pc k = .unset ∨ s.pc k = .parking → s.bits k = false
  raised : (s.pc k).waits = true → ∀ e ∈ s.queue k, e.status ≠ .pushed → s.bits k = true
  parked : s.pc k = .parked → ∀ e ∈ s.queue k, e.status ≠ .signalled
  told : s.told (rules.mon k) = true → s.pc k ≠ .parking ∧ s.pc k ≠ .parked

/-- Locks are with their owners, the code ahead is guarded, and every consumer has heard. -/
structure Inv (s : Sys M K T) : Prop where
  owned : Owned s.lock (s.holding rules)
  guarded : ∀ th, Guarded (s.rest th)
  halted : ∀ m th, s.halted m th = true → s.stop m = true
  told : ∀ m, s.told m = true → s.stop m = true
  heard : ∀ k, Heard rules s k

variable {rules} {s s' : Sys M K T}

theorem Heard.congr {k : K} (h : Heard rules s k) (hpc : s'.pc k = s.pc k) (hbits : s'.bits k = s.bits k)
    (hqueue : s'.queue k = s.queue k) (htold : s'.told (rules.mon k) = s.told (rules.mon k)) : Heard rules s' k := by
  refine ⟨?_, ?_, ?_, ?_⟩
  · rw [hpc, hbits]
    exact h.unset
  · rw [hpc, hbits, hqueue]
    exact h.raised
  · rw [hpc, hqueue]
    exact h.parked
  · rw [hpc, htold]
    exact h.told

theorem Heard.away {k : K} (h : (s.pc k).waits = false) : Heard rules s k := by
  refine ⟨?_, by simp [h], ?_, fun _ => ⟨?_, ?_⟩⟩
  · rintro (hpc | hpc) <;> simp [hpc, Pc.waits] at h
  all_goals
    intro hpc
    simp [hpc, Pc.waits] at h

theorem Sys.holding_eq {th : Thread T K} {i : Instr M K} {p : List (Instr M K)} (hrest : s.rest th = i :: p) :
    s.holding rules th = Instr.holding (i :: p) := by
  cases th with
  | caller t => exact congrArg Instr.holding hrest
  | consumer k =>
    unfold Sys.rest at hrest
    unfold Sys.holding
    cases hpc : s.pc k <;> simp_all [Pc.rest, Pc.holding]

theorem Inv.apart (h : Inv rules s) {k : K} {th : Thread T K} {i : Instr M K} {p : List (Instr M K)}
    (hrest : s.rest th = i :: p) (hhold : s.holding rules th = some (rules.mon k)) :
    s.pc k ≠ .unset ∧ s.pc k ≠ .parking := by
  have hlock := (h.owned _ _).mpr hhold
  have hnot : (s.pc k).holding (rules.mon k) = some (rules.mon k) → (s.pc k).rest = [] → False := by
    intro hk hnil
    have hsame := some.inj (hlock.symm.trans ((h.owned _ (.consumer k)).mpr hk))
    subst hsame
    rw [Sys.rest, hnil] at hrest
    cases hrest
  constructor
  · intro hpc
    exact hnot (by rw [hpc]; rfl) (by rw [hpc]; rfl)
  · intro hpc
    exact hnot (by rw [hpc]; rfl) (by rw [hpc]; rfl)

end

/-! ## Steps -/

variable [DecidableEq M] [DecidableEq K] [DecidableEq T]

def Entry.raise (th : Thread T K) (e : Entry T K) : Entry T K :=
  if e.sender = th ∧ e.status = .pushed then { e with status := .raised } else e

def Entry.signal (th : Thread T K) (e : Entry T K) : Entry T K :=
  if e.sender = th ∧ e.status = .raised then { e with status := .signalled } else e

namespace Sys

def setPc (s : Sys M K T) (k : K) (pc : Pc M K) : Sys M K T := { s with pc := update s.pc k pc }

def setCode (s : Sys M K T) (t : T) (code : List (Instr M K)) : Sys M K T := { s with code := update s.code t code }

def setLock (s : Sys M K T) (m : M) (o : Option (Thread T K)) : Sys M K T := { s with lock := update s.lock m o }

variable (rules : Rules M K C)

section

variable (s : Sys M K T) (th : Thread T K)

def raise (m : M) (whom : K → Bool) : Sys M K T :=
  { s with
    bits := fun k => s.bits k || (decide (rules.mon k = m) && whom k)
    queue := fun k => if rules.mon k = m ∧ whom k = true then (s.queue k).map (Entry.raise th) else s.queue k }

def halt (m : M) : Sys M K T :=
  { s with
    stop := update s.stop m true
    halted := update s.halted m (update (s.halted m) th true) }

def wakeAll (m : M) : Sys M K T :=
  { s with
    pc := fun k => if rules.mon k = m then (s.pc k).wake else s.pc k
    queue := fun k => if rules.mon k = m then (s.queue k).map (Entry.signal th) else s.queue k
    told := update s.told m (s.told m || s.halted m th) }

def push (k : K) (announced : Bool) : Sys M K T :=
  { s with queue := update s.queue k (s.queue k ++ [⟨th, announced, .pushed⟩]) }

def exec : Instr M K → Option (Sys M K T)
  | .acquire m => if s.lock m = none then some (s.setLock m (some th)) else none
  | .release m => some (s.setLock m none)
  | .raise m whom => some (s.raise rules th m whom)
  | .halt m => some (s.halt th m)
  | .wakeAll m => some (s.wakeAll rules th m)
  | .push k announced => some (s.push th k announced)

end

/-- It answers an item with `calls`; `elapsed`: its time is up. -/
def turn (s : Sys M K T) (k : K) (calls : List C) (elapsed : Bool) : Option (Sys M K T) :=
  let m := rules.mon k
  match s.pc k with
  | .check => some (s.setPc k (if rules.polls m && s.stop m then .finished else .recv))
  | .recv =>
    match s.queue k with
    | [] => some (s.setPc k .empty)
    | _ :: q => some ({ s with queue := update s.queue k q }.setPc k
        (.working (calls.flatMap rules.code)))
  | .working [] => some (s.setPc k .check)
  | .working (i :: p) => (s.exec rules (.consumer k) i).map (·.setPc k (.working p))
  | .empty | .waking =>
    if s.lock m = none then some ((s.setLock m (some (.consumer k))).setPc k .inside) else none
  | .inside => some (s.setPc k (if s.bits k then .leaving else .unset))
  | .unset => some (s.setPc k (if s.stop m then .leaving else .parking))
  | .parking =>
    if elapsed && rules.timed m then some (s.setPc k .leaving) else some ((s.setLock m none).setPc k .parked)
  | .leaving =>
    let out := rules.leave m (s.bits k) (s.stop m)
    some ({ s with bits := update s.bits k out.1 }.setPc k (.left out.2))
  | .left _ => some ((s.setLock m none).setPc k .check)
  | .parked | .finished => none

end Sys

inductive Move (T K C : Type)
  | call (t : T) (calls : List C)
  | exec (t : T)
  | turn (k : K) (calls : List C) (elapsed : Bool)
  | spurious (k : K)

namespace Sys

variable (rules : Rules M K C)

def step (s : Sys M K T) : Move T K C → Option (Sys M K T)
  | .call t calls =>
    match s.code t with
    | [] => some (s.setCode t (calls.flatMap rules.code))
    | _ => none
  | .exec t =>
    match s.code t with
    | [] => none
    | i :: p => (s.exec rules (.caller t) i).map (·.setCode t p)
  | .turn k calls elapsed => s.turn rules k calls elapsed
  | .spurious k =>
    match s.pc k with
    | .parked => some (s.setPc k .waking)
    | _ => none

def run (s : Sys M K T) : List (Move T K C) → Sys M K T
  | [] => s
  | mv :: moves => run ((s.step rules mv).getD s) moves

def init : Sys M K T where
  lock _ := none
  bits _ := false
  stop _ := false
  queue _ := []
  code _ := []
  pc _ := .check
  halted _ _ := false
  told _ := false

end Sys

/-! ## One instruction -/

variable {th : Thread T K}

theorem Owned.acquire {lock : M → Option (Thread T K)} {holding : Thread T K → Option M} (h : Owned lock holding)
    {m : M} (hfree : lock m = none) (hth : holding th = none) :
    Owned (update lock m (some th)) (update holding th (some m)) := by
  intro m' th'
  by_cases hm : m' = m
  · subst hm
    by_cases ht : th' = th
    · simp [ht]
    · have hne : holding th' ≠ some m' := fun hh => by simp [(h m' th').mpr hh] at hfree
      simp [ht, hne, Ne.symm ht]
  · by_cases ht : th' = th
    · subst ht
      have hne : lock m' ≠ some th' := fun hh => by simp [(h m' th').mp hh] at hth
      simp [hm, hne, Ne.symm hm]
    · simp [hm, ht, h m' th']

theorem Owned.release {lock : M → Option (Thread T K)} {holding : Thread T K → Option M} (h : Owned lock holding)
    {m : M} (hth : holding th = some m) : Owned (update lock m none) (update holding th none) := by
  have hlock := (h m th).mpr hth
  intro m' th'
  by_cases hm : m' = m
  · subst hm
    by_cases ht : th' = th
    · simp [ht]
    · have hne : holding th' ≠ some m' := fun hh => ht (some.inj (((h m' th').mpr hh).symm.trans hlock))
      simp [ht, hne]
  · by_cases ht : th' = th
    · subst ht
      have hne : lock m' ≠ some th' := fun hh => hm (some.inj (((h m' th').mp hh).symm.trans hth))
      simp [hm, hne]
    · simp [hm, ht, h m' th']

theorem Entry.raise_status {e : Entry T K} (h : (e.raise th).status = .signalled) : e.status = .signalled := by
  unfold Entry.raise at h
  split at h
  · cases h
  · exact h

theorem Entry.signal_status {e : Entry T K} (h : (e.signal th).status ≠ .pushed) : e.status ≠ .pushed := by
  unfold Entry.signal at h
  split at h
  · rename_i hraised
    rw [hraised.2]
    decide
  · exact h

section

variable {rules : Rules M K C} {s s' : Sys M K T} {th : Thread T K} {i : Instr M K} {p : List (Instr M K)} {k : K}
  {pc : Pc M K}

section

variable (h : s.exec rules th i = some s')

include h

theorem Sys.exec_code : s'.code = s.code := by
  cases i <;> simp only [Sys.exec, some.injEq, ite_none_right_eq_some] at h
  case acquire => rw [← h.2]; rfl
  all_goals rw [← h]; try rfl

theorem Sys.exec_pc (k : K) : s'.pc k = s.pc k ∨ s'.pc k = (s.pc k).wake := by
  cases i <;> simp only [Sys.exec, some.injEq, ite_none_right_eq_some] at h
  case acquire => rw [← h.2]; exact .inl rfl
  case wakeAll m =>
    rw [← h]
    by_cases hm : rules.mon k = m
    · exact .inr (if_pos hm)
    · exact .inl (if_neg hm)
  all_goals rw [← h]; exact .inl rfl

theorem Sys.exec_holding : s'.holding rules = s.holding rules := by
  funext th'
  cases th' with
  | caller t => simp only [Sys.holding, Sys.exec_code h]
  | consumer k =>
    simp only [Sys.holding]
    rcases Sys.exec_pc h k with hpc | hpc <;> simp [hpc]

theorem Sys.exec_rest : s'.rest = s.rest := by
  funext th'
  cases th' with
  | caller t => simp only [Sys.rest, Sys.exec_code h]
  | consumer k =>
    simp only [Sys.rest]
    rcases Sys.exec_pc h k with hpc | hpc <;> simp [hpc]

end

omit [DecidableEq M] [DecidableEq T] in
theorem Heard.push (h : Heard rules s k) (k' : K) (announced : Bool) : Heard rules (s.push th k' announced) k := by
  by_cases hkk : k = k'
  · subst hkk
    have hqueue : (s.push th k announced).queue k = s.queue k ++ [⟨th, announced, .pushed⟩] := update_self _ _ _
    have hold : ∀ e ∈ (s.push th k announced).queue k, e.status ≠ .pushed → e ∈ s.queue k := by
      intro e he hne
      rw [hqueue] at he
      rcases List.mem_append.mp he with he | he
      · exact he
      · rw [List.mem_singleton.mp he] at hne
        exact absurd rfl hne
    refine ⟨h.unset, fun hw e he hne => h.raised hw e (hold e he hne) hne, fun hw e he hsig => ?_, h.told⟩
    exact h.parked hw e (hold e he (by simp [hsig])) hsig
  · exact h.congr rfl rfl (update_of_ne hkk _ _) rfl

theorem Heard.raise (h : Heard rules s k) {m : M} {whom : K → Bool}
    (hapart : rules.mon k = m → s.pc k ≠ .unset ∧ s.pc k ≠ .parking) :
    Heard rules (s.raise rules th m whom) k := by
  by_cases hto : rules.mon k = m ∧ whom k = true
  · obtain ⟨hne, hne'⟩ := hapart hto.1
    have hbit : (s.raise rules th m whom).bits k = true := by simp [Sys.raise, hto.1, hto.2]
    refine ⟨?_, fun _ _ _ _ => hbit, fun hw e he hsig => ?_, h.told⟩
    · rintro (hpc | hpc)
      · exact absurd hpc hne
      · exact absurd hpc hne'
    · have hqueue : (s.raise rules th m whom).queue k = (s.queue k).map (Entry.raise th) := if_pos hto
      rw [hqueue] at he
      obtain ⟨e', he', rfl⟩ := List.mem_map.mp he
      exact h.parked hw e' he' (Entry.raise_status hsig)
  · refine h.congr rfl ?_ (if_neg hto) rfl
    change (s.bits k || (decide (rules.mon k = m) && whom k)) = s.bits k
    simp only [not_and, Bool.not_eq_true] at hto
    by_cases hm : rules.mon k = m
    · simp [hto hm]
    · simp [hm]

theorem Heard.wakeAll (h : Heard rules s k) {m : M}
    (hapart : rules.mon k = m → s.pc k ≠ .unset ∧ s.pc k ≠ .parking) :
    Heard rules (s.wakeAll rules th m) k := by
  by_cases hm : rules.mon k = m
  · obtain ⟨hne, hne'⟩ := hapart hm
    have hpc : (s.wakeAll rules th m).pc k = (s.pc k).wake := if_pos hm
    have hqueue : (s.wakeAll rules th m).queue k = (s.queue k).map (Entry.signal th) := if_pos hm
    refine ⟨?_, ?_, ?_, ?_⟩ <;> rw [hpc]
    · rintro (hw | hw)
      · exact absurd (Pc.wake_eq hw (by simp)) hne
      · exact absurd (Pc.wake_eq hw (by simp)) hne'
    · rw [hqueue, Pc.wake_waits]
      intro hw e he hstatus
      obtain ⟨e', he', rfl⟩ := List.mem_map.mp he
      exact h.raised hw e' he' (Entry.signal_status hstatus)
    · intro hw
      exact absurd hw (Pc.wake_ne_parked _)
    · intro _
      exact ⟨fun hw => hne' (Pc.wake_eq hw (by simp)), Pc.wake_ne_parked _⟩
  · exact h.congr (if_neg hm) rfl (if_neg hm) (update_of_ne hm _ _)

theorem Inv.exec_heard (hi : Inv rules s) (hrest : s.rest th = i :: p) (h : s.exec rules th i = some s') (k : K) :
    Heard rules s' k := by
  have hk := hi.heard k
  have hhold : s.holding rules th = Instr.holding (i :: p) := Sys.holding_eq hrest
  have hg := hi.guarded th
  rw [hrest] at hg
  cases i <;> simp only [Sys.exec, some.injEq, ite_none_right_eq_some] at h
  case acquire m =>
    rw [← h.2]
    exact hk.congr rfl rfl rfl rfl
  case raise m whom =>
    rw [← h]
    exact hk.raise fun hm => hi.apart hrest (hm ▸ hhold.trans hg.1)
  case wakeAll m =>
    rw [← h]
    exact hk.wakeAll fun hm => hi.apart hrest (hm ▸ hhold.trans hg.1)
  case push k' announced =>
    rw [← h]
    exact hk.push k' announced
  all_goals
    rw [← h]
    exact hk.congr rfl rfl rfl rfl

theorem Inv.exec_flags (hi : Inv rules s) (h : s.exec rules th i = some s') :
    (∀ m th', s'.halted m th' = true → s'.stop m = true) ∧ ∀ m, s'.told m = true → s'.stop m = true := by
  cases i <;> simp only [Sys.exec, some.injEq, ite_none_right_eq_some] at h
  case acquire m =>
    rw [← h.2]
    exact ⟨hi.halted, hi.told⟩
  case halt m =>
    rw [← h]
    have hstop : ∀ m', s.stop m' = true → (s.halt th m).stop m' = true := by
      intro m' hm'
      by_cases hmm : m' = m
      · rw [hmm]
        exact update_self _ _ _
      · exact (update_of_ne hmm _ _).trans hm'
    refine ⟨fun m' th' hh => ?_, fun m' hh => hstop m' (hi.told m' hh)⟩
    by_cases hmm : m' = m
    · rw [hmm]
      exact update_self _ _ _
    · have hsame : (s.halt th m).halted m' = s.halted m' := update_of_ne hmm _ _
      exact hstop m' (hi.halted m' th' (hsame ▸ hh))
  case wakeAll m =>
    rw [← h]
    refine ⟨hi.halted, fun m' hh => ?_⟩
    by_cases hmm : m' = m
    · subst hmm
      have hor : (s.wakeAll rules th m').told m' = (s.told m' || s.halted m' th) := update_self _ _ _
      rw [hor, Bool.or_eq_true] at hh
      rcases hh with ht | hha
      · exact hi.told m' ht
      · exact hi.halted m' th hha
    · have hsame : (s.wakeAll rules th m).told m' = s.told m' := update_of_ne hmm _ _
      exact hi.told m' (hsame ▸ hh)
  all_goals
    rw [← h]
    exact ⟨hi.halted, hi.told⟩

section

omit [DecidableEq M]

/-! ## One turn of a consumer -/

theorem Sys.holding_of_pc (hcode : s'.code = s.code) (hpc : s'.pc = update s.pc k pc) :
    s'.holding rules = update (s.holding rules) (.consumer k) (pc.holding (rules.mon k)) := by
  funext th'
  cases th' with
  | caller t => simp [Sys.holding, hcode]
  | consumer k' =>
    by_cases hk : k' = k <;> simp [hk, Sys.holding, hpc]

theorem Sys.holding_setPc (k : K) (pc : Pc M K) :
    (s.setPc k pc).holding rules = update (s.holding rules) (.consumer k) (pc.holding (rules.mon k)) :=
  Sys.holding_of_pc rfl rfl

theorem Sys.holding_setCode (t : T) (code : List (Instr M K)) :
    (s.setCode t code).holding rules = update (s.holding rules) (.caller t) (Instr.holding code) := by
  funext th'
  cases th' with
  | caller t' =>
    by_cases ht : t' = t <;> simp [ht, Sys.holding, Sys.setCode]
  | consumer k => simp [Sys.holding, Sys.setCode]

theorem Sys.rest_setPc (k : K) (pc : Pc M K) : (s.setPc k pc).rest = update s.rest (.consumer k) pc.rest := by
  funext th'
  cases th' with
  | caller t => simp [Sys.rest, Sys.setPc]
  | consumer k' =>
    by_cases hk : k' = k <;> simp [hk, Sys.rest, Sys.setPc]

theorem Sys.rest_setCode (t : T) (code : List (Instr M K)) :
    (s.setCode t code).rest = update s.rest (.caller t) code := by
  funext th'
  cases th' with
  | caller t' =>
    by_cases ht : t' = t <;> simp [ht, Sys.rest, Sys.setCode]
  | consumer k => simp [Sys.rest, Sys.setCode]

theorem Inv.moved (hi : Inv rules s) (hpc : s'.pc = update s.pc k pc)
    (hsame : s'.code = s.code ∧ s'.stop = s.stop ∧ s'.halted = s.halted ∧ s'.told = s.told)
    (hbits : ∀ k' ≠ k, s'.bits k' = s.bits k') (hqueue : ∀ k' ≠ k, s'.queue k' = s.queue k')
    (howned : Owned s'.lock (update (s.holding rules) (.consumer k) (pc.holding (rules.mon k))))
    (hguarded : Guarded pc.rest) (hheard : Heard rules s' k) : Inv rules s' := by
  obtain ⟨hcode, hstop, hhalted, htold⟩ := hsame
  refine ⟨?_, fun th' => ?_, ?_, ?_, fun k' => ?_⟩
  · rwa [Sys.holding_of_pc hcode hpc]
  · cases th' with
    | caller t =>
      rw [Sys.rest, hcode]
      exact hi.guarded (.caller t)
    | consumer k' =>
      rw [Sys.rest, hpc]
      by_cases hk : k' = k
      · rwa [hk, update_self]
      · rw [update_of_ne hk]
        exact hi.guarded (.consumer k')
  · rw [hhalted, hstop]
    exact hi.halted
  · rw [htold, hstop]
    exact hi.told
  · by_cases hk : k' = k
    · rwa [hk]
    · refine (hi.heard k').congr ?_ (hbits k' hk) (hqueue k' hk) (congrFun htold _)
      rw [hpc, update_of_ne hk]

theorem Inv.setPc (hi : Inv rules s)
    (hhold : pc.holding (rules.mon k) = (s.pc k).holding (rules.mon k)) (hguarded : Guarded pc.rest)
    (hheard : Heard rules (s.setPc k pc) k) : Inv rules (s.setPc k pc) := by
  refine hi.moved rfl ⟨rfl, rfl, rfl, rfl⟩ (fun _ _ => rfl) (fun _ _ => rfl) ?_ hguarded hheard
  rw [hhold, show (s.pc k).holding (rules.mon k) = s.holding rules (.consumer k) from rfl, update_eq_self]
  exact hi.owned

end

omit [DecidableEq M] [DecidableEq T] in
theorem Sys.setPc_pc (k : K) (pc : Pc M K) : (s.setPc k pc).pc k = pc := update_self _ _ _

omit [DecidableEq M] in
theorem Inv.setPc_away (hi : Inv rules s)
    (hhold : pc.holding (rules.mon k) = (s.pc k).holding (rules.mon k)) (hrest : pc.rest = [])
    (hwaits : pc.waits = false) : Inv rules (s.setPc k pc) := by
  refine hi.setPc hhold ?_ (.away ?_)
  · rw [hrest]
    trivial
  · rwa [Sys.setPc_pc]

omit [DecidableEq M] [DecidableEq K] in
theorem guarded_calls (rules : Rules M K C) (calls : List C) :
    Guarded (calls.flatMap rules.code) ∧ Instr.holding (calls.flatMap rules.code) = none := by
  induction calls with
  | nil => exact ⟨trivial, rfl⟩
  | cons c calls ih =>
    obtain ⟨hg, hn⟩ := rules.guarded c
    rw [List.flatMap_cons, holding_append ih.2]
    exact ⟨guarded_append hg ih.1 ih.2, hn⟩

theorem Inv.executed (hi : Inv rules s) (hrest : s.rest th = i :: p) (h : s.exec rules th i = some s')
    {s1 : Sys M K T} (hlock : s1.lock = s'.lock) (hholding : s1.holding rules =
      update (s'.holding rules) th (Instr.holding p))
    (hrest1 : s1.rest = update s'.rest th p) (hflags : s1.stop = s'.stop ∧ s1.halted = s'.halted ∧
      s1.told = s'.told) (hheard : ∀ k, Heard rules s' k → Heard rules s1 k) : Inv rules s1 := by
  obtain ⟨hstop, hhalted, htold⟩ := hflags
  have hflags' := hi.exec_flags h
  refine ⟨?_, fun th' => ?_, ?_, ?_, fun k => hheard k (hi.exec_heard hrest h k)⟩
  · rw [hlock, hholding, Sys.exec_holding h]
    have hhold : s.holding rules th = Instr.holding (i :: p) := Sys.holding_eq hrest
    have hg := hi.guarded th
    rw [hrest] at hg
    cases i <;> simp only [Sys.exec, some.injEq, ite_none_right_eq_some] at h
    case acquire m =>
      rw [← h.2, hg.1]
      exact hi.owned.acquire h.1 hhold
    case release m =>
      rw [← h, hg.1]
      exact hi.owned.release hhold
    -- The other instructions leave the mutexes alone.
    all_goals
      rw [← h, show Instr.holding p = s.holding rules th from hhold.symm, update_eq_self]
      exact hi.owned
  · rw [hrest1, Sys.exec_rest h]
    by_cases hth : th' = th
    · rw [hth, update_self]
      have hg := hi.guarded th
      rw [hrest] at hg
      cases i <;> first | exact hg.2 | exact hg
    · rw [update_of_ne hth]
      exact hi.guarded th'
  · rw [hhalted, hstop]
    exact hflags'.1
  · rw [htold, hstop]
    exact hflags'.2

theorem Inv.enter (hi : Inv rules s) (hout : (s.pc k).holding (rules.mon k) = none)
    (hwaits : (s.pc k).waits = true) (hfree : s.lock (rules.mon k) = none) :
    Inv rules ((s.setLock (rules.mon k) (some (.consumer k))).setPc k .inside) := by
  have hk := hi.heard k
  refine hi.moved rfl ⟨rfl, rfl, rfl, rfl⟩ (fun _ _ => rfl) (fun _ _ => rfl) ?_ trivial ?_
  · exact hi.owned.acquire hfree hout
  · refine ⟨?_, fun _ => hk.raised hwaits, ?_, ?_⟩ <;> rw [Sys.setPc_pc] <;> simp

theorem Inv.turn (hi : Inv rules s) {calls : List C} {elapsed : Bool}
    (h : s.turn rules k calls elapsed = some s') : Inv rules s' := by
  have hk := hi.heard k
  unfold Sys.turn at h
  cases hpc : s.pc k <;> simp only [hpc] at h
  case check =>
    rw [← some.inj h]
    split <;> exact hi.setPc_away (by rw [hpc]; rfl) rfl rfl
  case recv =>
    rcases hqueue : s.queue k with _ | ⟨e, q⟩
    · rw [hqueue] at h
      rw [← some.inj h]
      refine hi.setPc (by rw [hpc]; rfl) trivial ⟨?_, fun _ e he => ?_, ?_, ?_⟩
      · simp [Sys.setPc_pc]
      · rw [show (s.setPc k .empty).queue k = [] from hqueue] at he
        cases he
      · simp [Sys.setPc_pc]
      · simp [Sys.setPc_pc]
    · rw [hqueue] at h
      rw [← some.inj h]
      obtain ⟨hg, hn⟩ := guarded_calls rules calls
      refine hi.moved rfl ⟨rfl, rfl, rfl, rfl⟩ (fun _ _ => rfl) (fun _ hne => update_of_ne hne _ _) ?_ hg
        (.away (by rw [Sys.setPc_pc]; rfl))
      have hout : s.holding rules (.consumer k) = none := by rw [Sys.holding, hpc]; rfl
      rw [Pc.holding, hn, ← hout, update_eq_self]
      exact hi.owned
  case working code =>
    rcases code with _ | ⟨i, p⟩
    · rw [← some.inj h]
      exact hi.setPc_away (by rw [hpc]; rfl) rfl rfl
    obtain ⟨s1, hexec, rfl⟩ := map_eq_some_iff.mp h
    have hrest : s.rest (.consumer k) = i :: p := by rw [Sys.rest, hpc]; rfl
    refine hi.executed hrest hexec rfl (Sys.holding_setPc k _) (Sys.rest_setPc k _) ⟨rfl, rfl, rfl⟩ fun k' hk' => ?_
    by_cases hkk : k' = k
    · exact .away (by rw [hkk, Sys.setPc_pc]; rfl)
    · exact hk'.congr (update_of_ne hkk _ _) rfl rfl rfl
  case empty | waking =>
    obtain ⟨hfree, hsome⟩ := ite_none_right_eq_some.mp h
    rw [← some.inj hsome]
    exact hi.enter (by rw [hpc]; rfl) (by rw [hpc]; rfl) hfree
  case inside =>
    rw [← some.inj h]
    split
    · exact hi.setPc_away (by rw [hpc]; rfl) rfl rfl
    rename_i hbit
    refine hi.setPc (by rw [hpc]; rfl) trivial ⟨fun _ => ?_, fun _ => hk.raised (by rw [hpc]; rfl), ?_, ?_⟩
    · exact Bool.eq_false_iff.mpr hbit
    · simp [Sys.setPc_pc]
    · simp [Sys.setPc_pc]
  case unset =>
    rw [← some.inj h]
    split
    · exact hi.setPc_away (by rw [hpc]; rfl) rfl rfl
    rename_i hstop
    refine hi.setPc (by rw [hpc]; rfl) trivial
      ⟨fun _ => hk.unset (.inl hpc), fun _ => hk.raised (by rw [hpc]; rfl), ?_, fun htold => ?_⟩
    · simp [Sys.setPc_pc]
    · exact absurd (hi.told _ htold) hstop
  case parking =>
    split at h
    · rw [← some.inj h]
      exact hi.setPc_away (by rw [hpc]; rfl) rfl rfl
    rw [← some.inj h]
    have hraised := hk.raised (by rw [hpc]; rfl)
    have hbit := hk.unset (.inr hpc)
    refine hi.moved rfl ⟨rfl, rfl, rfl, rfl⟩ (fun _ _ => rfl) (fun _ _ => rfl) ?_ trivial
      ⟨fun _ => hbit, fun _ => hraised, fun _ e he hsig => ?_, fun htold => ?_⟩
    · exact hi.owned.release (by rw [Sys.holding, hpc]; rfl)
    · have hset := hraised e he (by simp [hsig])
      rw [hbit] at hset
      cases hset
    · exact absurd hpc (hk.told htold).1
  case leaving =>
    rw [← some.inj h]
    refine hi.moved rfl ⟨rfl, rfl, rfl, rfl⟩ (fun _ hne => update_of_ne hne _ _) (fun _ _ => rfl) ?_ trivial
      (.away (by rw [Sys.setPc_pc]; rfl))
    have hin : s.holding rules (.consumer k) = some (rules.mon k) := by rw [Sys.holding, hpc]; rfl
    rw [Pc.holding, ← hin, update_eq_self]
    exact hi.owned
  case left status =>
    rw [← some.inj h]
    refine hi.moved rfl ⟨rfl, rfl, rfl, rfl⟩ (fun _ _ => rfl) (fun _ _ => rfl) ?_ trivial
      (.away (by rw [Sys.setPc_pc]; rfl))
    exact hi.owned.release (by rw [Sys.holding, hpc]; rfl)
  all_goals cases h

theorem Inv.step (hi : Inv rules s) {mv : Move T K C} (h : s.step rules mv = some s') : Inv rules s' := by
  cases mv with
  | call t calls =>
    rcases hcode : s.code t with _ | ⟨i, p⟩
    · simp only [Sys.step, hcode, some.injEq] at h
      obtain ⟨hg, hn⟩ := guarded_calls rules calls
      have hout : s.holding rules (.caller t) = none := by rw [Sys.holding, hcode]; rfl
      subst h
      refine ⟨?_, fun th' => ?_, hi.halted, hi.told, fun k => (hi.heard k).congr rfl rfl rfl rfl⟩
      · rw [Sys.holding_setCode, hn, ← hout, update_eq_self]
        exact hi.owned
      rw [Sys.rest_setCode]
      by_cases hth : th' = .caller t
      · rwa [hth, update_self]
      · rw [update_of_ne hth]
        exact hi.guarded th'
    · simp [Sys.step, hcode] at h
  | exec t =>
    rcases hcode : s.code t with _ | ⟨i, p⟩
    · simp [Sys.step, hcode] at h
    simp only [Sys.step, hcode] at h
    obtain ⟨s1, hexec, rfl⟩ := map_eq_some_iff.mp h
    have hrest : s.rest (.caller t) = i :: p := hcode
    exact hi.executed hrest hexec rfl (Sys.holding_setCode t p) (Sys.rest_setCode t p) ⟨rfl, rfl, rfl⟩
      fun k hk => hk.congr rfl rfl rfl rfl
  | turn k calls elapsed => exact hi.turn h
  | spurious k =>
    have hk := hi.heard k
    cases hpc : s.pc k <;> simp only [Sys.step, hpc, some.injEq, reduceCtorEq] at h
    subst h
    refine hi.setPc (by rw [hpc]; rfl) trivial ⟨?_, fun _ => hk.raised (by rw [hpc]; rfl), ?_, ?_⟩ <;>
      simp [Sys.setPc_pc]

omit [DecidableEq M] [DecidableEq K] [DecidableEq T] in
theorem inv_init (rules : Rules M K C) : Inv rules (Sys.init : Sys M K T) := by
  refine ⟨fun m th => ?_, fun th => ?_, ?_, ?_, fun k => .away rfl⟩
  · cases th <;> simp [Sys.init, Sys.holding, Instr.holding, Pc.holding]
  · cases th <;> exact trivial
  · simp [Sys.init]
  · simp [Sys.init]

theorem Inv.run (hi : Inv rules s) (moves : List (Move T K C)) : Inv rules (s.run rules moves) := by
  induction moves generalizing s with
  | nil => exact hi
  | cons mv moves ih =>
    rcases hstep : s.step rules mv with _ | s1
    · rw [Sys.run, hstep]
      exact ih hi
    · rw [Sys.run, hstep]
      exact ih (hi.step hstep)

/-! ## What holds in every run -/

theorem Sys.exec_bits (h : s.exec rules th i = some s') (hbit : s.bits k = true) : s'.bits k = true := by
  cases i <;> simp only [Sys.exec, some.injEq, ite_none_right_eq_some] at h
  case acquire m =>
    rw [← h.2]
    exact hbit
  case raise m whom =>
    rw [← h]
    simp [Sys.raise, hbit]
  all_goals
    rw [← h]
    exact hbit

/-- The consumer `k` took a step to `pc`, outside of a call. -/
structure Moved (s s' : Sys M K T) (k : K) (pc : Pc M K) : Prop where
  away : (s.pc k).rest = []
  pc : s'.pc = update s.pc k pc
  code : s'.code = s.code
  halted : s'.halted = s.halted
  told : s'.told = s.told
  queue : ∀ k', ∀ e ∈ s'.queue k', e ∈ s.queue k'
  bits : ∀ k', s'.bits k' = s.bits k' ∨ k' = k ∧ s.pc k = .leaving

theorem Sys.turn_cases {calls : List C} {elapsed : Bool} (h : s.turn rules k calls elapsed = some s') :
    (∃ i p s1, s.pc k = .working (i :: p) ∧ s.exec rules (.consumer k) i = some s1 ∧ s' = s1.setPc k (.working p)) ∨
    ∃ pc, Moved s s' k pc ∧ (pc.rest = [] ∨ pc.rest = calls.flatMap rules.code) := by
  have hset : ∀ pc, (s.pc k).rest = [] → Moved s (s.setPc k pc) k pc := by
    intro pc haway
    exact ⟨haway, rfl, rfl, rfl, rfl, fun _ _ he => he, fun _ => .inl rfl⟩
  have hlock : ∀ pc o, (s.pc k).rest = [] → Moved s ((s.setLock (rules.mon k) o).setPc k pc) k pc := by
    intro pc o haway
    exact ⟨haway, rfl, rfl, rfl, rfl, fun _ _ he => he, fun _ => .inl rfl⟩
  unfold Sys.turn at h
  cases hpc : s.pc k <;> simp only [hpc] at h
  case check | inside | unset =>
    cases h
    refine .inr ⟨_, hset _ (by rw [hpc]; rfl), .inl ?_⟩
    split <;> rfl
  case recv =>
    rcases hqueue : s.queue k with _ | ⟨e, q⟩
    · rw [hqueue] at h
      cases h
      exact .inr ⟨_, hset _ (by rw [hpc]; rfl), .inl rfl⟩
    rw [hqueue] at h
    cases h
    refine .inr ⟨_, ⟨by rw [hpc]; rfl, rfl, rfl, rfl, rfl, fun k' e' he => ?_, fun _ => .inl rfl⟩, .inr rfl⟩
    by_cases hk : k' = k
    · subst hk
      have he : e' ∈ q := by simpa [Sys.setPc] using he
      rw [hqueue]
      exact .tail e he
    · simpa [Sys.setPc, hk] using he
  case working code =>
    rcases code with _ | ⟨i, p⟩
    · cases h
      exact .inr ⟨_, hset _ (by rw [hpc]; rfl), .inl rfl⟩
    · obtain ⟨s1, hexec, rfl⟩ := map_eq_some_iff.mp h
      exact .inl ⟨i, p, s1, rfl, hexec, rfl⟩
  case empty | waking =>
    obtain ⟨-, hsome⟩ := ite_none_right_eq_some.mp h
    cases hsome
    exact .inr ⟨_, hlock _ _ (by rw [hpc]; rfl), .inl rfl⟩
  case parking =>
    split at h
    · cases h
      exact .inr ⟨_, hset _ (by rw [hpc]; rfl), .inl rfl⟩
    · cases h
      exact .inr ⟨_, hlock _ _ (by rw [hpc]; rfl), .inl rfl⟩
  case leaving =>
    cases h
    refine .inr ⟨_, ⟨by rw [hpc]; rfl, rfl, rfl, rfl, rfl, fun _ _ he => he, fun k' => ?_⟩, .inl rfl⟩
    by_cases hk : k' = k
    · exact .inr ⟨hk, hpc⟩
    · exact .inl (update_of_ne hk _ _)
  case left status =>
    cases h
    exact .inr ⟨_, hlock _ _ (by rw [hpc]; rfl), .inl rfl⟩
  all_goals cases h

theorem bit_cleared {mv : Move T K C} (h : s.step rules mv = some s') (hset : s.bits k = true)
    (hclear : s'.bits k = false) : s.pc k = .leaving ∧ ∃ calls elapsed, mv = .turn k calls elapsed := by
  cases mv with
  | call t calls =>
    simp only [Sys.step] at h
    split at h <;> cases h
    rw [show s.bits k = false from hclear] at hset
    cases hset
  | exec t =>
    simp only [Sys.step] at h
    split at h
    · cases h
    · obtain ⟨s1, hexec, rfl⟩ := map_eq_some_iff.mp h
      have hset1 := Sys.exec_bits hexec hset
      rw [show s1.bits k = false from hclear] at hset1
      cases hset1
  | turn k' calls elapsed =>
    rcases Sys.turn_cases h with ⟨i, p, s1, -, hexec, rfl⟩ | ⟨pc, hmoved, -⟩
    · have hset1 := Sys.exec_bits hexec hset
      rw [show s1.bits k = false from hclear] at hset1
      cases hset1
    · rcases hmoved.bits k with hsame | ⟨rfl, hpc⟩
      · rw [hsame, hset] at hclear
        cases hclear
      · exact ⟨hpc, calls, elapsed, rfl⟩
  | spurious k' =>
    simp only [Sys.step] at h
    split at h <;> cases h
    rw [show s.bits k = false from hclear] at hset
    cases hset

end

end EnclaveOs.Lib.Monitor
