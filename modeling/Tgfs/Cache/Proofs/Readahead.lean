import Tgfs.Cache.Readahead
import Tgfs.Misc.Tickets

/-!
# Readahead never floods

A hash in `_ra_queued` is a ticket. `_prefetch` takes it, hands it on to the task that it submits,
or gives it back when there is no blob; the task gives it back in its `finally`.
-/

namespace Tgfs

namespace Readahead

/-- The hash that a thread has added and not discarded. -/
def Reader.holds {Sha : Type} : Reader Sha → Option Sha
  | .looking sha _ | .missing sha _ | .submitting sha _ => some sha
  | _ => none

/-- The hash that a task is still to discard. -/
def Prefetch.holds {Sha : Type} : Prefetch Sha → Option Sha
  | .queued sha | .running sha _ | .discarding sha => some sha
  | .ended => none

variable {Sha : Type} [DecidableEq Sha] {loader : Nat → Sha → Except (PyErr Sha) Bytes}
  {c : Readahead Sha}

omit [DecidableEq Sha] in
/-- What threads and tasks hold. -/
def holds (c : Readahead Sha) : Nat ⊕ Nat → Option Sha
  | .inl k => (c.readers k).holds
  | .inr i => (c.tasks i).bind Prefetch.holds

omit [DecidableEq Sha] in
@[simp] theorem holds_setReader (k : Nat) (r : Reader Sha) (c : Readahead Sha) :
    (c.setReader k r).holds = Function.update c.holds (.inl k) r.holds := by
  funext h
  cases h with
  | inl j =>
    by_cases hj : j = k
    · subst hj
      simp [holds, setReader]
    · rw [Function.update_of_ne (by simpa using hj)]
      simp [holds, setReader, hj]
  | inr i =>
    rw [Function.update_of_ne Sum.inr_ne_inl]
    rfl

omit [DecidableEq Sha] in
@[simp] theorem holds_setTask (i : Nat) (t : Prefetch Sha) (c : Readahead Sha) :
    (c.setTask i t).holds = Function.update c.holds (.inr i) t.holds := by
  funext h
  cases h with
  | inl j =>
    rw [Function.update_of_ne Sum.inl_ne_inr]
    rfl
  | inr j =>
    by_cases hj : j = i
    · subst hj
      simp [holds, setTask]
    · rw [Function.update_of_ne (by simpa using hj)]
      simp [holds, setTask, hj]

/-! ## One step -/

/-- What holds in every state. -/
structure Inv (c : Readahead Sha) : Prop where
  tickets : Ticketed c.queued c.holds
  fresh : ∀ i, c.nextTask ≤ i → c.tasks i = none

omit [DecidableEq Sha] in
/-- A thread that holds as before. -/
theorem Inv.setReader (h : Inv c) {k : Nat} {r : Reader Sha}
    (hr : r.holds = (c.readers k).holds) : Inv (c.setReader k r) := by
  refine ⟨?_, h.fresh⟩
  rw [holds_setReader, hr, show (c.readers k).holds = c.holds (.inl k) from rfl,
    Function.update_eq_self]
  exact h.tickets

omit [DecidableEq Sha] in
/-- A task that holds as before. -/
theorem Inv.setTask (h : Inv c) {i : Nat} {t t' : Prefetch Sha} (ht : c.tasks i = some t)
    (hr : t'.holds = t.holds) : Inv (c.setTask i t') := by
  refine ⟨?_, fun j hj => ?_⟩
  · have hi : c.holds (.inr i) = t.holds := by simp [holds, ht]
    rw [holds_setTask, hr, ← hi, Function.update_eq_self]
    exact h.tickets
  · have hne : j ≠ i := by
      rintro rfl
      rw [h.fresh j hj] at ht
      cases ht
    exact (Function.update_of_ne hne _ _).trans (h.fresh j hj)

theorem Inv.prefetch (h : Inv c) (k : Nat) : Inv (c.prefetch k) := by
  unfold Readahead.prefetch
  cases hk : c.readers k with
  | idle => exact h
  | assembling ino offset fin next => exact h
  | prefetching shas =>
    cases shas with
    | nil => exact h.setReader (by rw [hk]; rfl)
    | cons sha rest =>
      dsimp only
      split
      case isTrue => exact h.setReader (by rw [hk]; rfl)
      case isFalse hno =>
        refine ⟨?_, h.fresh⟩
        rw [holds_setReader]
        exact h.tickets.take (by rw [holds, hk]; rfl) fun hm => hno (.inl hm)
  | looking sha rest =>
    dsimp only
    split
    · exact h.setReader (by rw [hk]; rfl)
    · exact h.setReader (by rw [hk]; rfl)
  | missing sha rest =>
    refine ⟨?_, h.fresh⟩
    rw [holds_setReader]
    exact h.tickets.giveBack (by rw [holds, hk]; rfl)
  | submitting sha rest =>
    refine ⟨?_, fun i hi => ?_⟩
    · have hnew : c.holds (.inr c.nextTask) = none := by simp [holds, h.fresh _ le_rfl]
      have hon := h.tickets.handOn (i := .inl k) (a := sha) (by rw [holds, hk]; rfl) hnew
      rw [Function.update_comm Sum.inl_ne_inr] at hon
      rw [holds_setReader, holds_setTask]
      exact hon
    · have hi : c.nextTask + 1 ≤ i := hi
      exact (Function.update_of_ne (by omega) _ _).trans (h.fresh i (by omega))

theorem Inv.task (h : Inv c) (i : Nat) : Inv (c.task loader i) := by
  unfold Readahead.task
  cases hi : c.tasks i with
  | none => exact h
  | some t =>
    cases t with
    | queued sha =>
      have h' : Inv { c with cache := Fetchers.step loader (.call sha .prefetch) c.cache } :=
        ⟨h.tickets, h.fresh⟩
      exact h'.setTask hi rfl
    | running sha call =>
      dsimp only
      split
      · exact h.setTask hi rfl
      · exact h
    | discarding sha =>
      refine ⟨?_, fun j hj => ?_⟩
      · rw [holds_setTask]
        exact h.tickets.giveBack (by simp [holds, hi]; rfl)
      · have hne : j ≠ i := by
          rintro rfl
          rw [h.fresh j hj] at hi
          cases hi
        exact (Function.update_of_ne hne _ _).trans (h.fresh j hj)
    | ended => exact h

omit [DecidableEq Sha] in
theorem Inv.read (h : Inv c) {k : Nat} (hk : c.readers k = .idle) (ino : Ino)
    (offset length : Nat) : Inv (c.read k ino offset length) := by
  unfold Readahead.read
  by_cases hlen : length = 0
  · rw [if_pos hlen]
    exact h
  · rw [if_neg hlen]
    dsimp only
    split
    · exact h
    · exact h.setReader (by rw [hk]; rfl)

omit [DecidableEq Sha] in
theorem Inv.assembled (h : Inv c) {k : Nat} (hk : (c.readers k).holds = none) (ino : Ino)
    (offset fin : Nat) (next : List Sha) : Inv (c.assembled k ino offset fin next) := by
  have h' : ∀ lastEnd, Inv { c with lastEnd := lastEnd } := fun _ => ⟨h.tickets, h.fresh⟩
  refine (h' _).setReader ?_
  rw [hk]
  split <;> rfl

/-- The step lemma. -/
theorem Inv.step (h : Inv c) (l : Label Sha) : Inv (step loader l c) := by
  cases l with
  | read k ino offset length =>
    simp only [Readahead.step]
    cases hk : c.readers k with
    | idle => exact h.read hk ino offset length
    | _ => exact h
  | assembled k ok =>
    simp only [Readahead.step]
    cases hk : c.readers k with
    | assembling ino offset fin next =>
      have hnone : (c.readers k).holds = none := by rw [hk]; rfl
      dsimp only
      split
      · exact h.assembled hnone ino offset fin next
      · exact h.setReader (by rw [hnone]; rfl)
    | _ => exact h
  | prefetch k => exact h.prefetch k
  | task i => exact h.task i
  | cache l => exact ⟨h.tickets, h.fresh⟩
  | index m => exact ⟨h.tickets, h.fresh⟩

/-! ## Runs -/

theorem Inv.start (readahead : Nat) (index : Meta Sha) (cap : Int) (dir : CacheDir Sha) :
    Inv (start readahead index cap dir) := by
  refine ⟨.empty fun h => ?_, fun _ _ => rfl⟩
  cases h with
  | inl k => rfl
  | inr i => rfl

/-- The run lemma. -/
theorem Inv.run (h : Inv c) (ls : List (Label Sha)) : Inv (run loader ls c) := by
  induction ls generalizing c with
  | nil => exact h
  | cons l ls ih => exact ih (h.step l)

/-- `_ra_queued` is what is between its check-and-add and its discard, a hash has one task at
most, and when nothing is under way no hash is shut out. -/
structure NeverFloods (c : Readahead Sha) : Prop where
  exact : ∀ sha, sha ∈ c.queued ↔ (∃ k, (c.readers k).holds = some sha) ∨
    ∃ i t, c.tasks i = some t ∧ t.holds = some sha
  one : ∀ i j t t' sha, c.tasks i = some t → c.tasks j = some t' → t.holds = some sha →
    t'.holds = some sha → i = j
  drained : (∀ k, (c.readers k).holds = none) → (∀ i t, c.tasks i = some t → t.holds = none) →
    c.queued = ∅

omit [DecidableEq Sha] in
theorem Inv.neverFloods (h : Inv c) : NeverFloods c := by
  have hexact : ∀ sha, sha ∈ c.queued ↔ (∃ k, (c.readers k).holds = some sha) ∨
      ∃ i t, c.tasks i = some t ∧ t.holds = some sha := by
    intro sha
    rw [h.tickets.held, Sum.exists]
    simp only [holds, Option.bind_eq_some_iff]
  refine ⟨hexact, fun i j t t' sha hi hj ht ht' => ?_, fun hreaders htasks => ?_⟩
  · have hij := h.tickets.one (.inr i) (.inr j) sha (by simp [holds, hi, ht])
      (by simp [holds, hj, ht'])
    exact Sum.inr.inj hij
  · apply Finset.eq_empty_of_forall_notMem
    intro sha hm
    rcases (hexact sha).mp hm with ⟨k, hk⟩ | ⟨i, t, hi, ht⟩
    · rw [hreaders k] at hk
      cases hk
    · rw [htasks i t hi] at ht
      cases ht

/-- Whatever readers, tasks, loaders and writers do. -/
theorem run_neverFloods (loader : Nat → Sha → Except (PyErr Sha) Bytes) (readahead : Nat)
    (index : Meta Sha) (cap : Int) (dir : CacheDir Sha) (ls : List (Label Sha)) :
    NeverFloods (run loader ls (start readahead index cap dir)) :=
  ((Inv.start readahead index cap dir).run ls).neverFloods

end Readahead

end Tgfs
