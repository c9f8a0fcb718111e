import Mathlib.Logic.Function.Basic

/-!
# Work that is done once for all who ask for it

Threads that need the result for a key register with an event, or wait for the event that is
registered. The one that registered leads: it does the work, takes the key out of the table and
sets the event, in two steps. Between any two steps of one thread the others take theirs.
-/

namespace Tgfs

/-- What a thread has to do with the work that is under way. -/
inductive Role (K : Type) where
  | free
  | waits (ev : Nat)
  /-- Registered for the key. -/
  | leads (key : K) (ev : Nat)
  /-- The key is out of the table, and the event is still to be set. -/
  | ends (ev : Nat)
  deriving DecidableEq

/-- The event that a thread has to set. -/
def Role.owes {K : Type} : Role K → Option Nat
  | .leads _ ev | .ends ev => some ev
  | _ => none

structure Flight (K : Type) where
  inflight : K → Option Nat
  isSet : Nat → Bool
  next : Nat
  role : Nat → Role K

namespace Flight

variable {K : Type} [DecidableEq K]

def setRole (i : Nat) (r : Role K) (f : Flight K) : Flight K :=
  { f with role := Function.update f.role i r }

inductive Step (f : Flight K) : Flight K → Prop where
  | wait {i key ev} (hi : f.role i = .free) (hkey : f.inflight key = some ev) :
    Step f (f.setRole i (.waits ev))
  | lead {i key} (hi : f.role i = .free) (hkey : f.inflight key = none) :
    Step f ({ f with
      inflight := Function.update f.inflight key (some f.next)
      next := f.next + 1 }.setRole i (.leads key f.next))
  | leave {i key ev} (hi : f.role i = .leads key ev) :
    Step f ({ f with inflight := Function.update f.inflight key none }.setRole i (.ends ev))
  | signal {i ev} (hi : f.role i = .ends ev) :
    Step f ({ f with isSet := Function.update f.isSet ev true }.setRole i .free)
  | wake {i ev} (hi : f.role i = .waits ev) (hset : f.isSet ev = true) :
    Step f (f.setRole i .free)

/-- A leader is registered under its own event, an event has one thread that owes it, and nobody
waits for an event that is owed by none. -/
structure Inv (f : Flight K) : Prop where
  lead : ∀ i key ev, f.role i = .leads key ev → f.inflight key = some ev
  led : ∀ key ev, f.inflight key = some ev → ∃ i, f.role i = .leads key ev
  one : ∀ i j ev, (f.role i).owes = some ev → (f.role j).owes = some ev → i = j
  waits : ∀ i ev, f.role i = .waits ev → f.isSet ev = true ∨ ∃ j, (f.role j).owes = some ev
  old : ∀ i ev, (f.role i).owes = some ev → ev < f.next

variable {f f' : Flight K} {i j : Nat} {r : Role K}

omit [DecidableEq K] in
@[simp] theorem role_setRole_self : (f.setRole i r).role i = r := Function.update_self _ _ _

omit [DecidableEq K] in
theorem role_setRole_ne (h : j ≠ i) : (f.setRole i r).role j = f.role j :=
  Function.update_of_ne h _ _

omit [DecidableEq K] in
@[simp] theorem inflight_setRole : (f.setRole i r).inflight = f.inflight := rfl

omit [DecidableEq K] in
/-- At the start nothing is under way. -/
theorem Inv.idle (hrole : ∀ i, f.role i = .free) (hin : ∀ key, f.inflight key = none) : Inv f := by
  refine ⟨fun i key ev h => ?_, fun key ev h => ?_, fun i j ev h => ?_, fun i ev h => ?_,
    fun i ev h => ?_⟩
  · rw [hrole] at h
    cases h
  · rw [hin] at h
    cases h
  · rw [hrole] at h
    cases h
  · rw [hrole] at h
    cases h
  · rw [hrole] at h
    cases h

/-! ## One step -/

omit [DecidableEq K] in
theorem Inv.wait (h : Inv f) {key : K} {ev : Nat} (hi : f.role i = .free)
    (hkey : f.inflight key = some ev) : Inv (f.setRole i (.waits ev)) := by
  have howes : ∀ j, ((f.setRole i (.waits ev)).role j).owes = (f.role j).owes := by
    intro j
    by_cases hj : j = i
    · subst hj
      rw [role_setRole_self, hi]
      rfl
    · rw [role_setRole_ne hj]
  refine ⟨fun j key' ev' hr => ?_, fun key' ev' hin => ?_, fun j j' ev' hr hr' => ?_,
    fun j ev' hr => ?_, fun j ev' hr => ?_⟩
  · by_cases hj : j = i
    · subst hj
      rw [role_setRole_self] at hr
      cases hr
    · rw [role_setRole_ne hj] at hr
      exact h.lead j key' ev' hr
  · obtain ⟨j, hj⟩ := h.led key' ev' hin
    refine ⟨j, ?_⟩
    rw [role_setRole_ne]
    · exact hj
    · rintro rfl
      rw [hi] at hj
      cases hj
  · rw [howes] at hr hr'
    exact h.one j j' ev' hr hr'
  · simp only [howes]
    by_cases hj : j = i
    · subst hj
      rw [role_setRole_self] at hr
      cases hr
      obtain ⟨j', hj'⟩ := h.led key ev hkey
      exact .inr ⟨j', by rw [hj']; rfl⟩
    · rw [role_setRole_ne hj] at hr
      exact h.waits j ev' hr
  · rw [howes] at hr
    exact h.old j ev' hr

theorem Inv.leadNew (h : Inv f) {key : K} (hi : f.role i = .free) (hkey : f.inflight key = none) :
    Inv ({ f with
      inflight := Function.update f.inflight key (some f.next)
      next := f.next + 1 }.setRole i (.leads key f.next)) := by
  have howes : ∀ j, j ≠ i → ∀ ev, (f.role j).owes = some ev → ev ≠ f.next := by
    intro j _ ev hj
    have := h.old j ev hj
    omega
  refine ⟨fun j key' ev' hr => ?_, fun key' ev' hin => ?_, fun j j' ev' hr hr' => ?_,
    fun j ev' hr => ?_, fun j ev' hr => ?_⟩
  · by_cases hj : j = i
    · subst hj
      rw [role_setRole_self] at hr
      cases hr
      exact Function.update_self _ _ _
    · rw [role_setRole_ne hj] at hr
      have hin := h.lead j key' ev' hr
      refine (Function.update_of_ne ?_ _ _).trans hin
      rintro rfl
      rw [hkey] at hin
      cases hin
  · by_cases hk : key' = key
    · subst hk
      simp only [inflight_setRole, Function.update_self] at hin
      cases hin
      exact ⟨i, role_setRole_self⟩
    · simp only [inflight_setRole, Function.update_of_ne hk] at hin
      obtain ⟨j, hj⟩ := h.led key' ev' hin
      refine ⟨j, ?_⟩
      rw [role_setRole_ne]
      · exact hj
      · rintro rfl
        rw [hi] at hj
        cases hj
  · by_cases hj : j = i
    · by_cases hj' : j' = i
      · exact hj.trans hj'.symm
      · subst hj
        rw [role_setRole_self] at hr
        cases hr
        rw [role_setRole_ne hj'] at hr'
        exact absurd rfl (howes j' hj' _ hr')
    · rw [role_setRole_ne hj] at hr
      by_cases hj' : j' = i
      · subst hj'
        rw [role_setRole_self] at hr'
        cases hr'
        exact absurd rfl (howes j hj _ hr)
      · rw [role_setRole_ne hj'] at hr'
        exact h.one j j' ev' hr hr'
  · by_cases hj : j = i
    · subst hj
      rw [role_setRole_self] at hr
      cases hr
    · rw [role_setRole_ne hj] at hr
      rcases h.waits j ev' hr with hset | ⟨j', hj'⟩
      · exact .inl hset
      · refine .inr ⟨j', ?_⟩
        rw [role_setRole_ne]
        · exact hj'
        · rintro rfl
          rw [hi] at hj'
          cases hj'
  · by_cases hj : j = i
    · subst hj
      rw [role_setRole_self] at hr
      cases hr
      exact Nat.lt_succ_self _
    · rw [role_setRole_ne hj] at hr
      exact Nat.lt_succ_of_lt (h.old j ev' hr)

theorem Inv.leave (h : Inv f) {key : K} {ev : Nat} (hi : f.role i = .leads key ev) :
    Inv ({ f with inflight := Function.update f.inflight key none }.setRole i (.ends ev)) := by
  have howes : ∀ j, (({ f with
      inflight := Function.update f.inflight key none }.setRole i (.ends ev)).role j).owes =
        (f.role j).owes := by
    intro j
    by_cases hj : j = i
    · subst hj
      rw [role_setRole_self, hi]
      rfl
    · rw [role_setRole_ne hj]
  refine ⟨fun j key' ev' hr => ?_, fun key' ev' hin => ?_, fun j j' ev' hr hr' => ?_,
    fun j ev' hr => ?_, fun j ev' hr => ?_⟩
  · by_cases hj : j = i
    · subst hj
      rw [role_setRole_self] at hr
      cases hr
    · rw [role_setRole_ne hj] at hr
      have hin := h.lead j key' ev' hr
      refine (Function.update_of_ne ?_ _ _).trans hin
      rintro rfl
      -- two leaders of one key would owe the same event
      have hsame := (h.lead i key' ev hi).symm.trans hin
      cases hsame
      exact hj (h.one j i ev (by rw [hr]; rfl) (by rw [hi]; rfl))
  · by_cases hk : key' = key
    · subst hk
      simp only [inflight_setRole, Function.update_self] at hin
      cases hin
    · simp only [inflight_setRole, Function.update_of_ne hk] at hin
      obtain ⟨j, hj⟩ := h.led key' ev' hin
      refine ⟨j, ?_⟩
      rw [role_setRole_ne]
      · exact hj
      · rintro rfl
        rw [hi] at hj
        cases hj
        exact hk rfl
  · rw [howes] at hr hr'
    exact h.one j j' ev' hr hr'
  · simp only [howes]
    by_cases hj : j = i
    · subst hj
      rw [role_setRole_self] at hr
      cases hr
    · rw [role_setRole_ne hj] at hr
      exact h.waits j ev' hr
  · rw [howes] at hr
    exact h.old j ev' hr

omit [DecidableEq K] in
/-- A thread that owes nothing and waits for nothing any more. -/
theorem Inv.rest (h : Inv f) {isSet : Nat → Bool} (hlead : ∀ key ev, f.role i ≠ .leads key ev)
    (hkeep : ∀ ev, f.isSet ev = true → isSet ev = true)
    (howed : ∀ ev, (f.role i).owes = some ev → isSet ev = true) :
    Inv ({ f with isSet := isSet }.setRole i .free) := by
  refine ⟨fun j key' ev' hr => ?_, fun key' ev' hin => ?_, fun j j' ev' hr hr' => ?_,
    fun j ev' hr => ?_, fun j ev' hr => ?_⟩
  · by_cases hj : j = i
    · subst hj
      rw [role_setRole_self] at hr
      cases hr
    · rw [role_setRole_ne hj] at hr
      exact h.lead j key' ev' hr
  · obtain ⟨j, hj⟩ := h.led key' ev' hin
    refine ⟨j, ?_⟩
    rw [role_setRole_ne]
    · exact hj
    · rintro rfl
      exact hlead key' ev' hj
  · by_cases hj : j = i
    · subst hj
      rw [role_setRole_self] at hr
      cases hr
    · by_cases hj' : j' = i
      · subst hj'
        rw [role_setRole_self] at hr'
        cases hr'
      · rw [role_setRole_ne hj] at hr
        rw [role_setRole_ne hj'] at hr'
        exact h.one j j' ev' hr hr'
  · by_cases hj : j = i
    · subst hj
      rw [role_setRole_self] at hr
      cases hr
    · rw [role_setRole_ne hj] at hr
      rcases h.waits j ev' hr with hset | ⟨j', hj'⟩
      · exact .inl (hkeep ev' hset)
      · by_cases he : j' = i
        · subst he
          exact .inl (howed ev' hj')
        · refine .inr ⟨j', ?_⟩
          rw [role_setRole_ne he]
          exact hj'
  · by_cases hj : j = i
    · subst hj
      rw [role_setRole_self] at hr
      cases hr
    · rw [role_setRole_ne hj] at hr
      exact h.old j ev' hr

/-- The step lemma. -/
theorem Inv.step (h : Inv f) (hs : Step f f') : Inv f' := by
  cases hs with
  | wait hi hkey => exact h.wait hi hkey
  | lead hi hkey => exact h.leadNew hi hkey
  | leave hi => exact h.leave hi
  | @signal i ev hi =>
    refine h.rest ?_ ?_ ?_
    · rw [hi]
      exact nofun
    · intro ev' hset
      by_cases he : ev' = ev
      · subst he
        exact Function.update_self _ _ _
      · exact (Function.update_of_ne he _ _).trans hset
    · rw [hi]
      rintro _ ⟨⟩
      exact Function.update_self _ _ _
  | @wake i ev hi hset =>
    have hkeep : ∀ ev, f.isSet ev = true → f.isSet ev = true := fun _ hset => hset
    refine h.rest ?_ hkeep ?_
    · rw [hi]
      exact nofun
    · rw [hi]
      exact nofun

/-! ## What follows -/

omit [DecidableEq K] in
/-- A key has one leader at most. -/
theorem Inv.leader_unique (h : Inv f) {key : K} {ev ev' : Nat} (hi : f.role i = .leads key ev)
    (hj : f.role j = .leads key ev') : i = j := by
  have hsame := (h.lead i key ev hi).symm.trans (h.lead j key ev' hj)
  cases hsame
  exact h.one i j ev (by rw [hi]; rfl) (by rw [hj]; rfl)

omit [DecidableEq K] in
/-- When nobody owes an event, nothing is in the table and nobody is blocked. -/
theorem Inv.settled (h : Inv f) (hno : ∀ i, (f.role i).owes = none) :
    (∀ key, f.inflight key = none) ∧ ∀ i ev, f.role i = .waits ev → f.isSet ev = true := by
  refine ⟨fun key => ?_, fun i ev hi => ?_⟩
  · cases hin : f.inflight key with
    | none => rfl
    | some ev =>
      obtain ⟨i, hi⟩ := h.led key ev hin
      have := hno i
      rw [hi] at this
      cases this
  · rcases h.waits i ev hi with hset | ⟨j, hj⟩
    · exact hset
    · rw [hno j] at hj
      cases hj

end Flight

end Tgfs
