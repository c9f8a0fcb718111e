import Mathlib.Algebra.Order.BigOperators.Group.Finset
import Tgfs.Cache.Proofs.Readahead
import Tgfs.Cache.Proofs.Singleflight
import Tgfs.Misc.Tally

/-!
# What the read cache and the readahead have still to do

Each step of a call of the read cache, of `_prefetch` and of a prefetch leaves less to do, or it
changes nothing.
-/

namespace Tgfs

variable {Sha : Type} [DecidableEq Sha] {loader : Nat → Sha → Except (PyErr Sha) Bytes}

/-! ## The read cache -/

/-- More than the steps that a call can still take. -/
def FetchPc.todo {Sha : Type} : FetchPc Sha → Nat
  | .asking => 8
  | .trying left => 10 * left + 1
  | .opening left => 10 * (left - 1) + 9
  | .dropping left => 10 * (left - 1) + 8
  | .joining left => 10 * (left - 1) + 7
  | .waiting left _ => 10 * (left - 1) + 2
  | .loading _ => 4
  | .storing _ _ => 3
  | .leaving _ _ => 2
  | .setting _ _ => 1
  | .returned _ => 0

def Fetch.todo {Sha : Type} (f : Fetch Sha) : Nat := f.pc.todo

namespace Fetch

variable {load : Sha → Except (PyErr Sha) Bytes} {cache : ReadCache Sha} {f : Fetch Sha}

theorem advance_same (load : Sha → Except (PyErr Sha) Bytes) (cache : ReadCache Sha)
    (f : Fetch Sha) :
    (f.advance load cache).2.sha = f.sha ∧ (f.advance load cache).2.kind = f.kind := by
  unfold advance
  split
  all_goals try exact ⟨rfl, rfl⟩
  · split <;> exact ⟨rfl, rfl⟩
  · dsimp only
    split <;> exact ⟨rfl, rfl⟩
  · split <;> exact ⟨rfl, rfl⟩

/-- The event that a call waits for is not set. -/
def Stuck (cache : ReadCache Sha) (f : Fetch Sha) : Prop :=
  ∃ left ev, f.pc = .waiting left ev ∧ cache.isSet ev = false

theorem advance_stuck (h : f.Stuck cache) : f.advance load cache = (cache, f) := by
  obtain ⟨left, ev, hpc, hset⟩ := h
  unfold advance
  rw [hpc]
  simp [hset]

theorem todo_advance (h : ¬ f.Stuck cache) (hpc : 0 < f.todo) :
    (f.advance load cache).2.todo < f.todo := by
  obtain ⟨sha, kind, pc⟩ := f
  cases pc with
  | asking =>
    simp only [advance, todo, goto]
    split <;> simp [FetchPc.todo]
  | trying left =>
    cases left with
    | zero => simp [advance, todo, goto, FetchPc.todo]
    | succ left =>
      simp only [advance, todo, goto]
      split <;> simp [FetchPc.todo] <;> omega
  | opening left =>
    simp only [advance, todo]
    split <;> simp [FetchPc.todo, goto]
  | dropping left => simp [advance, todo, goto, FetchPc.todo]
  | joining left =>
    simp only [advance, todo, goto]
    split <;> simp [FetchPc.todo]
  | waiting left ev =>
    have hset : cache.isSet ev = true := by
      cases hs : cache.isSet ev with
      | true => rfl
      | false => exact absurd ⟨left, ev, rfl, hs⟩ h
    simp only [advance, todo, goto, hset, if_true]
    cases kind <;> simp [retry, FetchPc.todo]
  | loading ev =>
    simp only [advance, todo]
    split <;> simp [FetchPc.todo, goto]
  | storing ev data => simp [advance, todo, goto, FetchPc.todo]
  | leaving ev r => simp [advance, todo, goto, FetchPc.todo]
  | setting ev r => simp [advance, todo, goto, FetchPc.todo]
  | returned r => exact absurd hpc (Nat.lt_irrefl 0)

theorem advance_returned (h : f.todo = 0) : f.advance load cache = (cache, f) := by
  obtain ⟨sha, kind, pc⟩ := f
  cases pc with
  | returned r => rfl
  | _ => simp [todo, FetchPc.todo] at h

end Fetch

namespace Fetchers

variable {blob : Sha → Bytes} {c : Fetchers Sha}

def todo (c : Fetchers Sha) : Nat :=
  ∑ k ∈ Finset.range c.nextCall, (c.calls k).elim 0 Fetch.todo

theorem todo_call (sha : Sha) (kind : FetchKind) :
    (step loader (.call sha kind) c).todo = c.todo + (Fetch.start sha kind).todo :=
  sum_push c.calls (fun f => f.elim 0 Fetch.todo) _

/-- A call stays where it is, or the step is its own. -/
theorem calls_step (hnew : c.calls c.nextCall = none) (l : Label Sha) {k : Nat} {f : Fetch Sha}
    (hf : c.calls k = some f) :
    ∃ f', (step loader l c).calls k = some f' ∧
      (f' = f ∨ ∃ t, l = .step k t ∧ f' = (f.advance (loader t) c.cache).2) := by
  cases l with
  | call sha kind =>
    refine ⟨f, ?_, .inl rfl⟩
    have hne : k ≠ c.nextCall := by
      rintro rfl
      rw [hnew] at hf
      cases hf
    exact (Function.update_of_ne hne _ _).trans hf
  | vanish sha => exact ⟨f, hf, .inl rfl⟩
  | step j t =>
    cases hj : c.calls j with
    | none =>
      rw [step_none hj]
      exact ⟨f, hf, .inl rfl⟩
    | some g =>
      rw [step_some hj]
      by_cases hk : k = j
      · subst hk
        rw [hf] at hj
        cases hj
        exact ⟨_, Function.update_self _ _ _, .inr ⟨t, rfl, rfl⟩⟩
      · exact ⟨f, (Function.update_of_ne hk _ _).trans hf, .inl rfl⟩

theorem step_same {k t : Nat} {f : Fetch Sha} (hf : c.calls k = some f)
    (h : f.advance (loader t) c.cache = (c.cache, f)) : step loader (.step k t) c = c := by
  rw [step_some hf, h, ← hf, Function.update_eq_self]

theorem todo_step (hfresh : ∀ k, c.nextCall ≤ k → c.calls k = none) {k t : Nat} {f : Fetch Sha}
    (hf : c.calls k = some f) (h : (f.advance (loader t) c.cache).2.todo < f.todo) :
    (step loader (.step k t) c).todo < c.todo := by
  have hk : k < c.nextCall := by
    by_contra hk
    rw [hfresh k (Nat.le_of_not_lt hk)] at hf
    cases hf
  have hsum := sum_update c.calls (fun f => f.elim 0 Fetch.todo) hk
    (some (f.advance (loader t) c.cache).2)
  rw [hf] at hsum
  rw [step_some hf]
  unfold todo
  simp only [Option.elim_some] at hsum
  dsimp only
  omega

/-- A call waits, or has returned, or leaves less to do. -/
theorem step_todo (hfresh : ∀ k, c.nextCall ≤ k → c.calls k = none) (k t : Nat) :
    step loader (.step k t) c = c ∨ (step loader (.step k t) c).todo < c.todo := by
  cases hf : c.calls k with
  | none => exact .inl (step_none hf)
  | some f =>
    by_cases hstuck : f.Stuck c.cache
    · exact .inl (step_same hf (Fetch.advance_stuck hstuck))
    · rcases Nat.eq_zero_or_pos f.todo with hzero | hpos
      · exact .inl (step_same hf (Fetch.advance_returned hzero))
      · exact .inr (todo_step hfresh hf (Fetch.todo_advance hstuck hpos))

omit [DecidableEq Sha] in
/-- Where nothing is left to do, every call has returned. -/
theorem calls_of_todo (hfresh : ∀ k, c.nextCall ≤ k → c.calls k = none) (h : c.todo = 0) :
    ∀ k f, c.calls k = some f → f.todo = 0 := by
  intro k f hf
  have hk : k ∈ Finset.range c.nextCall := by
    rw [Finset.mem_range]
    by_contra hk
    rw [hfresh k (Nat.le_of_not_lt hk)] at hf
    cases hf
  have hzero := Finset.sum_eq_zero_iff.mp h k hk
  rw [hf] at hzero
  exact hzero

/-- The calls never wait for each other in vain. -/
theorem Flown.progress (h : Flown blob c) (hpos : 0 < c.todo) :
    ∃ k, (Fetchers.step loader (.step k 0) c).todo < c.todo := by
  by_cases hfree : ∃ k f, c.calls k = some f ∧ ¬ f.Stuck c.cache ∧ 0 < f.todo
  · obtain ⟨k, f, hf, hstuck, htodo⟩ := hfree
    exact ⟨k, todo_step h.fresh hf (Fetch.todo_advance hstuck htodo)⟩
  · exfalso
    have hall : ∀ k f, c.calls k = some f → f.Stuck c.cache ∨ f.todo = 0 := by
      intro k f hf
      by_contra hno
      rw [not_or] at hno
      exact hfree ⟨k, f, hf, hno.1, Nat.pos_of_ne_zero hno.2⟩
    have howes : ∀ k f, c.calls k = some f → (f.pc.role f.sha).owes = none := by
      intro k f hf
      rcases hall k f hf with ⟨left, ev, hpc, -⟩ | hzero
      · rw [hpc]
        rfl
      · obtain ⟨sha, kind, pc⟩ := f
        cases pc with
        | returned r => rfl
        | _ => simp [Fetch.todo, FetchPc.todo] at hzero
    obtain ⟨k, -, hk⟩ := Finset.sum_pos_iff.mp hpos
    cases hf : c.calls k with
    | none =>
      rw [hf] at hk
      exact Nat.lt_irrefl 0 hk
    | some f =>
      rw [hf] at hk
      rcases hall k f hf with ⟨left, ev, hpc, hset⟩ | hzero
      · rw [(h.singleFlight.settled howes).2 k f left ev hf hpc] at hset
        cases hset
      · rw [Option.elim_some, hzero] at hk
        exact Nat.lt_irrefl 0 hk

end Fetchers

/-! ## The readahead -/

namespace Readahead

variable {c : Readahead Sha} {threads : Nat}

def Reader.todo {Sha : Type} : Reader Sha → Nat
  | .idle => 0
  | .assembling _ _ _ next => 15 * next.length + 2
  | .prefetching shas => 15 * shas.length + 1
  | .looking _ rest => 15 * rest.length + 15
  | .missing _ rest => 15 * rest.length + 14
  | .submitting _ rest => 15 * rest.length + 14

def Prefetch.todo {Sha : Type} : Prefetch Sha → Nat
  | .queued _ => 11
  | .running _ _ => 2
  | .discarding _ => 1
  | .ended => 0

def readersTodo (threads : Nat) (c : Readahead Sha) : Nat :=
  ∑ k ∈ Finset.range threads, (c.readers k).todo

def tasksTodo (c : Readahead Sha) : Nat :=
  ∑ i ∈ Finset.range c.nextTask, (c.tasks i).elim 0 Prefetch.todo

def todo (threads : Nat) (c : Readahead Sha) : Nat :=
  c.readersTodo threads + c.tasksTodo + c.cache.todo

omit [DecidableEq Sha] in
theorem readersTodo_setReader {k : Nat} (hk : k < threads) (r : Reader Sha) :
    (c.setReader k r).readersTodo threads + (c.readers k).todo =
      c.readersTodo threads + r.todo :=
  sum_update c.readers Reader.todo hk r

omit [DecidableEq Sha] in
theorem tasksTodo_setTask {i : Nat} {t : Prefetch Sha} (hi : i < c.nextTask)
    (ht : c.tasks i = some t) (t' : Prefetch Sha) :
    (c.setTask i t').tasksTodo + t.todo = c.tasksTodo + t'.todo := by
  have hsum := sum_update c.tasks (fun t => t.elim 0 Prefetch.todo) hi (some t')
  rw [ht] at hsum
  exact hsum

omit [DecidableEq Sha] in
/-- A thread goes on, and nothing else changes. -/
theorem todo_setReader {k : Nat} (hk : k < threads) {r : Reader Sha}
    (hr : r.todo < (c.readers k).todo) : (c.setReader k r).todo threads < c.todo threads := by
  have hsum := readersTodo_setReader (c := c) hk r
  have htasks : (c.setReader k r).tasksTodo = c.tasksTodo := rfl
  have hcache : (c.setReader k r).cache = c.cache := rfl
  unfold todo
  rw [htasks, hcache]
  omega

/-- Whether a reader is in `_prefetch`. -/
def Reader.prefetches {Sha : Type} : Reader Sha → Bool
  | .idle | .assembling _ _ _ _ => false
  | _ => true

theorem prefetch_same {k : Nat} (h : (c.readers k).prefetches = false) : c.prefetch k = c := by
  unfold prefetch
  cases hr : c.readers k with
  | idle => rfl
  | assembling ino offset fin next => rfl
  | _ =>
    rw [hr] at h
    cases h

theorem todo_prefetch {k : Nat} (hk : k < threads) (h : (c.readers k).prefetches = true) :
    (c.prefetch k).todo threads < c.todo threads := by
  unfold prefetch
  cases hr : c.readers k with
  | idle =>
    rw [hr] at h
    cases h
  | assembling ino offset fin next =>
    rw [hr] at h
    cases h
  | prefetching shas =>
    cases shas with
    | nil => exact todo_setReader hk (by rw [hr]; exact Nat.zero_lt_succ _)
    | cons sha rest =>
      dsimp only
      split
      · apply todo_setReader hk
        rw [hr]
        simp only [Reader.todo, List.length_cons]
        omega
      · refine Nat.lt_of_lt_of_eq (todo_setReader (c := { c with queued := _ }) hk ?_) rfl
        change Reader.todo (.looking sha rest) < (c.readers k).todo
        rw [hr]
        simp only [Reader.todo, List.length_cons]
        omega
  | looking sha rest =>
    dsimp only
    split
    · apply todo_setReader hk
      rw [hr]
      simp only [Reader.todo]
      omega
    · apply todo_setReader hk
      rw [hr]
      simp only [Reader.todo]
      omega
  | missing sha rest =>
    refine Nat.lt_of_lt_of_eq (todo_setReader (c := { c with queued := _ }) hk ?_) rfl
    change Reader.todo (.prefetching rest) < (c.readers k).todo
    rw [hr]
    simp only [Reader.todo]
    omega
  | submitting sha rest =>
    have hreaders := readersTodo_setReader (c := c) hk (.prefetching rest)
    have htasks : ∑ i ∈ Finset.range (c.nextTask + 1),
        (Function.update c.tasks c.nextTask (some (.queued sha)) i).elim 0 Prefetch.todo =
          c.tasksTodo + 11 := sum_push c.tasks (fun t => t.elim 0 Prefetch.todo) _
    rw [hr] at hreaders
    simp only [Reader.todo] at hreaders
    change (c.setReader k (.prefetching rest)).readersTodo threads +
      ∑ i ∈ Finset.range (c.nextTask + 1),
        (Function.update c.tasks c.nextTask (some (.queued sha)) i).elim 0 Prefetch.todo +
          c.cache.todo < c.todo threads
    rw [htasks]
    unfold todo
    omega

/-- A read that is done with its parts. -/
theorem todo_assembled {k : Nat} (hk : k < threads) {ino : Ino} {offset fin : Nat}
    {next : List Sha} (hr : c.readers k = .assembling ino offset fin next) (ok : Bool) :
    (step loader (.assembled k ok) c).todo threads < c.todo threads := by
  simp only [step, hr]
  cases ok with
  | false =>
    apply todo_setReader hk
    rw [hr]
    exact Nat.zero_lt_succ _
  | true =>
    refine Nat.lt_of_lt_of_eq (todo_setReader (c := { c with lastEnd := _ }) hk ?_) rfl
    change _ < (c.readers k).todo
    rw [hr]
    split
    · exact Nat.lt_succ_self _
    · exact Nat.zero_lt_succ _

theorem todo_task (hfresh : ∀ i, c.nextTask ≤ i → c.tasks i = none) (i : Nat) :
    c.task loader i = c ∨ (c.task loader i).todo threads < c.todo threads := by
  unfold task
  cases ht : c.tasks i with
  | none => exact .inl rfl
  | some t =>
    have hi : i < c.nextTask := by
      by_contra hi
      rw [hfresh i (Nat.le_of_not_lt hi)] at ht
      cases ht
    cases t with
    | queued sha =>
      right
      have hsum := tasksTodo_setTask hi ht (.running sha c.cache.nextCall)
      have hcall : (Fetchers.step loader (.call sha .prefetch) c.cache).todo =
          c.cache.todo + (Fetch.start sha .prefetch).todo := Fetchers.todo_call sha .prefetch
      have hstart : (Fetch.start sha .prefetch).todo = 8 := rfl
      simp only [Prefetch.todo] at hsum
      change c.readersTodo threads + (c.setTask i (.running sha c.cache.nextCall)).tasksTodo +
        (Fetchers.step loader (.call sha .prefetch) c.cache).todo < c.todo threads
      unfold todo
      omega
    | running sha call =>
      dsimp only
      split
      · right
        have hsum := tasksTodo_setTask hi ht (.discarding sha)
        simp only [Prefetch.todo] at hsum
        change c.readersTodo threads + (c.setTask i (.discarding sha)).tasksTodo +
          c.cache.todo < c.todo threads
        unfold todo
        omega
      · exact .inl rfl
    | discarding sha =>
      right
      have hsum := tasksTodo_setTask hi ht .ended
      simp only [Prefetch.todo] at hsum
      change c.readersTodo threads + (c.setTask i .ended).tasksTodo + c.cache.todo <
        c.todo threads
      unfold todo
      omega
    | ended => exact .inl rfl

theorem todo_cache {l : Fetchers.Label Sha}
    (h : (Fetchers.step loader l c.cache).todo < c.cache.todo) :
    (step loader (.cache l) c).todo threads < c.todo threads := by
  change c.readersTodo threads + c.tasksTodo + (Fetchers.step loader l c.cache).todo < _
  unfold todo
  omega

end Readahead

end Tgfs
