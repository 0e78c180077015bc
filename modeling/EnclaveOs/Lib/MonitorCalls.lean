import EnclaveOs.Lib.Monitor

/-!
# Calls on monitors that have returned

Whoever publishes an item is bound to signal it, and whoever sets a stop flag is bound to wake all.
-/

open Function (update update_of_ne update_self)

namespace EnclaveOs.Lib.Monitor

open Instr

variable {M K T C : Type}

/-- The code ahead calls `notify_all` of the monitor. -/
def Instr.Wakes (m : M) : List (Instr M K) → Prop
  | [] => False
  | .wakeAll m' :: p => m' = m ∨ Wakes m p
  | _ :: p => Wakes m p

/-- The code ahead raises the bit of `k`, and wakes after that. -/
def Instr.Raises (m : M) (k : K) : List (Instr M K) → Prop
  | [] => False
  | .raise m' whom :: p => (m' = m ∧ whom k = true ∧ Wakes m p) ∨ Raises m k p
  | _ :: p => Raises m k p

/-- A stop flag is followed by a wake of all, an announced item by its signal. -/
def Instr.Announces (m : M) (k : K) : List (Instr M K) → Prop
  | [] => True
  | .push k' announced :: p => (announced = true → k' = k → Raises m k p) ∧ Announces m k p
  | .halt m' :: p => (m' = m → Wakes m p) ∧ Announces m k p
  | _ :: p => Announces m k p

/-- What has yet to happen to an item with this status. -/
def Instr.Owes (m : M) (k : K) : Status → List (Instr M K) → Prop
  | .pushed, p => Raises m k p
  | .raised, p => Wakes m p
  | .signalled, _ => True

variable {m : M} {p : List (Instr M K)} {k : K} {st : Status}

theorem Instr.Wakes.append (h : Wakes m p) (q : List (Instr M K)) : Wakes m (p ++ q) := by
  induction p with
  | nil => exact h.elim
  | cons i p ih =>
    cases i
    case wakeAll m' => exact h.imp id ih
    all_goals exact ih h

theorem Instr.Raises.append (h : Raises m k p) (q : List (Instr M K)) : Raises m k (p ++ q) := by
  induction p with
  | nil => exact h.elim
  | cons i p ih =>
    cases i
    case raise m' whom => exact h.imp (fun h => ⟨h.1, h.2.1, h.2.2.append q⟩) ih
    all_goals exact ih h

theorem Instr.Raises.wakes (h : Raises m k p) : Wakes m p := by
  induction p with
  | nil => exact h
  | cons i p ih =>
    cases i
    case raise m' whom => exact h.elim (fun h => h.2.2) ih
    case wakeAll m' => exact .inr (ih h)
    all_goals exact ih h

theorem Instr.Announces.append {q : List (Instr M K)}
    (hp : Announces m k p) (hq : Announces m k q) : Announces m k (p ++ q) := by
  induction p with
  | nil => exact hq
  | cons i p ih =>
    cases i
    case push k' announced => exact ⟨fun hann hk => (hp.1 hann hk).append q, ih hp.2⟩
    case halt m' => exact ⟨fun hm => (hp.1 hm).append q, ih hp.2⟩
    all_goals exact ih hp

theorem Instr.Announces.tail {i : Instr M K} (h : Announces m k (i :: p)) : Announces m k p := by
  cases i
  case push => exact h.2
  case halt => exact h.2
  all_goals exact h

theorem announces_calls {rules : Rules M K C}
    (hcode : ∀ c, Announces (rules.mon k) k (rules.code c)) (calls : List C) :
    Announces (rules.mon k) k (calls.flatMap rules.code) := by
  induction calls with
  | nil => trivial
  | cons c calls ih => exact (hcode c).append ih

theorem Instr.Owes.nil (h : Owes m k st []) : st = .signalled := by
  cases st
  · exact h.elim
  · exact h.elim
  · rfl

variable (rules : Rules M K C) (k : K)

/-- What has been begun for `k` is still in the code of whoever began it. -/
structure Due (s : Sys M K T) : Prop where
  code : ∀ th, Announces (rules.mon k) k (s.rest th)
  items : ∀ e ∈ s.queue k, e.announced = true → Owes (rules.mon k) k e.status (s.rest e.sender)
  halted : ∀ th, s.halted (rules.mon k) th = true → s.told (rules.mon k) = true ∨ Wakes (rules.mon k) (s.rest th)

variable {rules k} {s s' : Sys M K T}

theorem Due.congr (h : Due rules k s)
    (hrest : ∀ th, s'.rest th = s.rest th ∨ s.rest th = [] ∧ Announces (rules.mon k) k (s'.rest th))
    (hqueue : ∀ e ∈ s'.queue k, e ∈ s.queue k) (hhalted : s'.halted = s.halted) (htold : s'.told = s.told) :
    Due rules k s' := by
  refine ⟨fun th => ?_, fun e he hann => ?_, fun th hth => ?_⟩
  · rcases hrest th with hsame | ⟨-, hcode⟩
    · rw [hsame]
      exact h.code th
    · exact hcode
  · have hitem := h.items e (hqueue e he) hann
    rcases hrest e.sender with hsame | ⟨hnil, -⟩
    · rwa [hsame]
    rw [hnil] at hitem
    rw [hitem.nil]
    trivial
  · rw [hhalted] at hth
    rw [htold]
    rcases hrest th with hsame | ⟨hnil, -⟩
    · rw [hsame]
      exact h.halted th hth
    · have hold := h.halted th hth
      rw [hnil] at hold
      exact hold.imp id False.elim

/-! ## What a step leaves to do -/

variable [DecidableEq M] [DecidableEq K] [DecidableEq T] {th : Thread T K} {i : Instr M K} {p : List (Instr M K)}
  {e : Entry T K}

omit [DecidableEq M] [DecidableEq K] [DecidableEq T] in
theorem Instr.Owes.tail {m : M} {k : K} (h : Owes m k st (i :: p)) (hraise : ∀ m' whom, i ≠ .raise m' whom)
    (hwake : ∀ m', i ≠ .wakeAll m') : Owes m k st p := by
  cases st
  case signalled => trivial
  all_goals
    cases i
    case raise m' whom => exact absurd rfl (hraise m' whom)
    case wakeAll m' => exact absurd rfl (hwake m')
    all_goals exact h

omit [DecidableEq M] in
theorem Instr.Owes.raise {whom : K → Bool} (h : Owes (rules.mon k) k e.status (.raise (rules.mon k) whom :: p))
    (hsender : e.sender = th) : Owes (rules.mon k) k (e.raise th).status p := by
  cases hst : e.status with
  | pushed =>
    rw [hst] at h
    have hraised : (e.raise th).status = .raised := by simp [Entry.raise, hsender, hst]
    rw [hraised]
    exact h.elim (fun h => h.2.2) Raises.wakes
  | raised =>
    rw [hst] at h
    have hsame : (e.raise th).status = .raised := by simp [Entry.raise, hst]
    rw [hsame]
    exact h
  | signalled =>
    have hsame : (e.raise th).status = .signalled := by simp [Entry.raise, hst]
    rw [hsame]
    trivial

omit [DecidableEq M] in
theorem Instr.Owes.signal (h : Owes (rules.mon k) k e.status (.wakeAll (rules.mon k) :: p))
    (hsender : e.sender = th) : Owes (rules.mon k) k (e.signal th).status p := by
  cases hst : e.status with
  | pushed =>
    rw [hst] at h
    have hsame : (e.signal th).status = .pushed := by simp [Entry.signal, hst]
    rw [hsame]
    exact h
  | raised =>
    have hsig : (e.signal th).status = .signalled := by simp [Entry.signal, hsender, hst]
    rw [hsig]
    trivial
  | signalled =>
    have hsame : (e.signal th).status = .signalled := by simp [Entry.signal, hst]
    rw [hsame]
    trivial

section

variable (h : Due rules k s)

include h

omit [DecidableEq M] in
theorem Due.item_at (hrest : s.rest th = i :: p) (he : e ∈ s.queue k) (hann : e.announced = true)
    (hown : e.sender = th → Owes (rules.mon k) k e.status (i :: p) → Owes (rules.mon k) k st p)
    (hother : e.sender ≠ th → st = e.status) : Owes (rules.mon k) k st (update s.rest th p e.sender) := by
  have hitem := h.items e he hann
  by_cases hs : e.sender = th
  · rw [hs, update_self]
    rw [hs, hrest] at hitem
    exact hown hs hitem
  · rwa [update_of_ne hs, hother hs]

theorem Due.exec_items (hrest : s.rest th = i :: p) (hexec : s.exec rules th i = some s') :
    ∀ e ∈ s'.queue k, e.announced = true → Owes (rules.mon k) k e.status (update s.rest th p e.sender) := by
  intro e he hann
  cases i <;> simp only [Sys.exec, Option.some.injEq, Option.ite_none_right_eq_some] at hexec
  case acquire m =>
    rw [← hexec.2] at he
    exact h.item_at hrest he hann (fun _ ho => ho.tail (by simp) (by simp)) fun _ => rfl
  case push k' announced =>
    rw [← hexec] at he
    by_cases hk : k = k'
    · subst hk
      rw [show (s.push th k announced).queue k = s.queue k ++ [⟨th, announced, .pushed⟩] from update_self _ _ _] at he
      rcases List.mem_append.mp he with he | he
      · exact h.item_at hrest he hann (fun _ ho => ho.tail (by simp) (by simp)) fun _ => rfl
      rw [List.mem_singleton.mp he] at hann ⊢
      rw [update_self]
      have hcode := h.code th
      rw [hrest] at hcode
      exact hcode.1 hann rfl
    · rw [show (s.push th k' announced).queue k = s.queue k from update_of_ne hk _ _] at he
      exact h.item_at hrest he hann (fun _ ho => ho.tail (by simp) (by simp)) fun _ => rfl
  case raise m whom =>
    rw [← hexec] at he
    by_cases hto : rules.mon k = m ∧ whom k = true
    · rw [show (s.raise rules th m whom).queue k = (s.queue k).map (Entry.raise th) from if_pos hto] at he
      obtain ⟨e', he', rfl⟩ := List.mem_map.mp he
      obtain ⟨hsender, hsame⟩ : (e'.raise th).sender = e'.sender ∧ (e'.raise th).announced = e'.announced := by
        unfold Entry.raise
        split <;> exact ⟨rfl, rfl⟩
      obtain ⟨rfl, -⟩ := hto
      rw [hsender]
      refine h.item_at hrest he' (hsame ▸ hann) (fun hs ho => ho.raise hs) fun hs => ?_
      simp [Entry.raise, hs]
    · rw [show (s.raise rules th m whom).queue k = s.queue k from if_neg hto] at he
      refine h.item_at hrest he hann (fun _ ho => ?_) fun _ => rfl
      cases hst : e.status <;> rw [hst] at ho
      case pushed => exact ho.elim (fun hr => absurd ⟨hr.1.symm, hr.2.1⟩ hto) id
      case raised => exact ho
      case signalled => trivial
  case wakeAll m =>
    rw [← hexec] at he
    by_cases hm : rules.mon k = m
    · rw [show (s.wakeAll rules th m).queue k = (s.queue k).map (Entry.signal th) from if_pos hm] at he
      obtain ⟨e', he', rfl⟩ := List.mem_map.mp he
      obtain ⟨hsender, hsame⟩ : (e'.signal th).sender = e'.sender ∧ (e'.signal th).announced = e'.announced := by
        unfold Entry.signal
        split <;> exact ⟨rfl, rfl⟩
      subst hm
      rw [hsender]
      refine h.item_at hrest he' (hsame ▸ hann) (fun hs ho => ho.signal hs) fun hs => ?_
      simp [Entry.signal, hs]
    · rw [show (s.wakeAll rules th m).queue k = s.queue k from if_neg hm] at he
      refine h.item_at hrest he hann (fun _ ho => ?_) fun _ => rfl
      cases hst : e.status <;> rw [hst] at ho
      case pushed => exact ho
      case raised => exact ho.elim (fun hw => absurd hw.symm hm) id
      case signalled => trivial
  all_goals
    rw [← hexec] at he
    exact h.item_at hrest he hann (fun _ ho => ho.tail (by simp) (by simp)) fun _ => rfl

theorem Due.exec_halted (hrest : s.rest th = i :: p) (hexec : s.exec rules th i = some s')
    (th' : Thread T K) (hth : s'.halted (rules.mon k) th' = true) :
    s'.told (rules.mon k) = true ∨ Wakes (rules.mon k) (update s.rest th p th') := by
  have hkeep : s.halted (rules.mon k) th' = true → (∀ m', i = .wakeAll m' → m' ≠ rules.mon k) →
      s.told (rules.mon k) = true ∨ Wakes (rules.mon k) (update s.rest th p th') := by
    intro hha hi
    refine (h.halted th' hha).imp id fun hw => ?_
    by_cases hs : th' = th
    · rw [hs, update_self]
      rw [hs, hrest] at hw
      cases i
      case wakeAll m' => exact hw.elim (fun hm => absurd hm (hi m' rfl)) id
      all_goals exact hw
    · rwa [update_of_ne hs]
  cases i <;> simp only [Sys.exec, Option.some.injEq, Option.ite_none_right_eq_some] at hexec
  case acquire m =>
    rw [← hexec.2] at hth ⊢
    exact hkeep hth (by simp)
  case halt m =>
    rw [← hexec] at hth ⊢
    by_cases hold : s.halted (rules.mon k) th' = true
    · exact hkeep hold (by simp)
    -- It was set just now, so the rest of the code wakes all.
    have hnow : rules.mon k = m ∧ th' = th := by
      by_contra hne
      refine hold ?_
      rw [← hth]
      by_cases hm : rules.mon k = m
      · subst hm
        have hs : th' ≠ th := fun hs => hne ⟨rfl, hs⟩
        simp [Sys.halt, hs]
      · simp [Sys.halt, hm]
    obtain ⟨rfl, rfl⟩ := hnow
    have hcode := h.code th'
    rw [hrest] at hcode
    rw [update_self]
    exact .inr (hcode.1 rfl)
  case wakeAll m =>
    rw [← hexec] at hth ⊢
    by_cases hm : rules.mon k = m
    · subst hm
      have htold : (s.wakeAll rules th (rules.mon k)).told (rules.mon k) =
          (s.told (rules.mon k) || s.halted (rules.mon k) th) := update_self _ _ _
      rw [htold, Bool.or_eq_true]
      rcases h.halted th' hth with ht | hw
      · exact .inl (.inl ht)
      by_cases hs : th' = th
      · subst hs
        exact .inl (.inr hth)
      · exact .inr (by rwa [update_of_ne hs])
    · rw [show (s.wakeAll rules th m).told (rules.mon k) = s.told (rules.mon k) from update_of_ne hm _ _]
      exact hkeep hth (by rintro m' hi rfl; cases hi; exact hm rfl)
  all_goals
    rw [← hexec] at hth ⊢
    exact hkeep hth (by simp)

theorem Due.executed (hrest : s.rest th = i :: p) (hexec : s.exec rules th i = some s')
    {s1 : Sys M K T} (hqueue : s1.queue = s'.queue) (hhalted : s1.halted = s'.halted) (htold : s1.told = s'.told)
    (hrest1 : s1.rest = update s'.rest th p) : Due rules k s1 := by
  rw [Sys.exec_rest hexec] at hrest1
  refine ⟨fun th' => ?_, ?_, ?_⟩
  · rw [hrest1]
    by_cases hs : th' = th
    · rw [hs, update_self]
      have hcode := h.code th
      rw [hrest] at hcode
      exact hcode.tail
    · rw [update_of_ne hs]
      exact h.code th'
  · rw [hqueue, hrest1]
    exact h.exec_items hrest hexec
  · rw [hhalted, htold, hrest1]
    exact h.exec_halted hrest hexec

omit [DecidableEq M] [DecidableEq T] in
theorem Due.moved {k' : K} {pc : Pc M K} (hmoved : Moved s s' k' pc)
    (hnew : Announces (rules.mon k) k pc.rest) : Due rules k s' := by
  refine h.congr (fun th' => ?_) (hmoved.queue k) hmoved.halted hmoved.told
  cases th' with
  | caller t => exact .inl (congrFun hmoved.code t)
  | consumer k1 =>
    simp only [Sys.rest, hmoved.pc]
    by_cases hk : k1 = k'
    · subst hk
      rw [update_self]
      exact .inr ⟨hmoved.away, hnew⟩
    · rw [update_of_ne hk]
      exact .inl rfl

end

section

variable (hcode : ∀ c, Announces (rules.mon k) k (rules.code c))

include hcode

theorem Due.turn (h : Due rules k s) {k' : K}
    {calls : List C} {elapsed : Bool} (hturn : s.turn rules k' calls elapsed = some s') : Due rules k s' := by
  rcases Sys.turn_cases hturn with ⟨i, p, s1, hpc, hexec, rfl⟩ | ⟨pc, hmoved, hrest⟩
  · have hrest : s.rest (.consumer k') = i :: p := by rw [Sys.rest, hpc]; rfl
    exact h.executed hrest hexec rfl rfl rfl (Sys.rest_setPc k' _)
  refine h.moved hmoved ?_
  rcases hrest with hnil | hcalls
  · rw [hnil]
    trivial
  · rw [hcalls]
    exact announces_calls hcode calls

theorem Due.step (h : Due rules k s) {mv : Move T K C}
    (hstep : s.step rules mv = some s') : Due rules k s' := by
  cases mv with
  | call t calls =>
    rcases ht : s.code t with _ | ⟨i, p⟩
    · simp only [Sys.step, ht, Option.some.injEq] at hstep
      subst hstep
      refine h.congr (fun th' => ?_) (fun _ he => he) rfl rfl
      rw [Sys.rest_setCode]
      by_cases hs : th' = .caller t
      · subst hs
        rw [update_self]
        exact .inr ⟨ht, announces_calls hcode calls⟩
      · rw [update_of_ne hs]
        exact .inl rfl
    · simp [Sys.step, ht] at hstep
  | exec t =>
    rcases ht : s.code t with _ | ⟨i, p⟩
    · simp [Sys.step, ht] at hstep
    simp only [Sys.step, ht] at hstep
    obtain ⟨s1, hexec, rfl⟩ := Option.map_eq_some_iff.mp hstep
    have hrest : s.rest (.caller t) = i :: p := ht
    exact h.executed hrest hexec rfl rfl rfl (Sys.rest_setCode t p)
  | turn k' calls elapsed => exact h.turn hcode hstep
  | spurious k' =>
    cases hpc : s.pc k' <;> simp only [Sys.step, hpc, Option.some.injEq, reduceCtorEq] at hstep
    subst hstep
    have hmoved : Moved s (s.setPc k' .waking) k' .waking :=
      ⟨by rw [hpc]; rfl, rfl, rfl, rfl, rfl, fun _ _ he => he, fun _ => .inl rfl⟩
    exact h.moved hmoved trivial

theorem Due.run (h : Due rules k s)
    (moves : List (Move T K C)) : Due rules k (s.run rules moves) := by
  induction moves generalizing s with
  | nil => exact h
  | cons mv moves ih =>
    rcases hstep : s.step rules mv with _ | s1
    · rw [Sys.run, hstep]
      exact ih h
    · rw [Sys.run, hstep]
      exact ih (h.step hcode hstep)

end

omit [DecidableEq M] [DecidableEq K] [DecidableEq T] in
theorem due_init (rules : Rules M K C) (k : K) : Due rules k (Sys.init : Sys M K T) := by
  refine ⟨fun th => ?_, ?_, ?_⟩
  · cases th <;> exact trivial
  · simp [Sys.init]
  · simp [Sys.init]

end EnclaveOs.Lib.Monitor
