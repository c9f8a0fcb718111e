import Tgfs.Misc.Tally
import Tgfs.Transfer.FastTransfer

/-!
# What holds under every schedule of `_run_parts`

`Held` says where each index is: not yet taken from the iterator, with a worker, or finished. It
holds in every state of a run, for any `do_part` that keeps to a `PartSpec`. A run also comes to an
end: some step is possible until it does, and each step that changes anything lowers `todo`.
-/

namespace Tgfs

namespace FastTransfer

variable {Out Env : Type}

/-- What `do_part` does to `env`, for outcomes that are `Honest`: it keeps `Good`, leaves each
part that is `Done` so, and returns for a part only when that part is. -/
structure PartSpec (doPart : DoPart Out Env) (Honest : Out → Prop) (count : Nat)
    (Good : Env → Prop) (Done : Nat → Env → Prop) : Prop where
  good : ∀ {i out env}, i < count → Honest out → Good env → Good (doPart i out env).2
  kept : ∀ {i j out env}, i < count → Honest out → Good env → Done j env →
    Done j (doPart i out env).2
  returns : ∀ {i out env}, i < count → Honest out → Good env →
    (doPart i out env).1 = .reply none → Done i (doPart i out env).2

/-- No worker was lost on the way. -/
def Intact (ws : List Worker) : Prop :=
  ∀ w ∈ ws, (∀ e, w ≠ .failed e) ∧ w ≠ .cancelled

/-- Where the indexes are. -/
structure Held (Good : Env → Prop) (Done : Nat → Env → Prop) (p : Parts Env) : Prop where
  next_le : p.next ≤ p.count
  handed : p.handed.map Prod.snd = List.range p.next
  sending : ∀ {k i attempt : Nat}, p.workers[k]? = some (.sending i attempt) → i < p.next
  attempts : ∀ {k i attempt : Nat}, p.workers[k]? = some (.sending i attempt) →
    attempt < partRetries
  done : ∀ {k : Nat}, p.workers[k]? = some .done → p.next = p.count
  finished : ∀ i ∈ p.finished, Done i p.env
  /-- An index that was taken is finished or with a worker. -/
  held : Intact p.workers → ∀ i, i < p.next →
    i ∈ p.finished ∨ ∃ (k attempt : Nat), p.workers[k]? = some (.sending i attempt)
  returned : p.gather = .returned → ∀ w ∈ p.workers, w = .done
  /-- Workers are cancelled in the `except` clause only. -/
  uncancelled : p.gather = .waiting → ∀ w ∈ p.workers, w ≠ .cancelled
  good : Good p.env

section Steps

variable {doPart : DoPart Out Env} {Honest : Out → Prop} {Good : Env → Prop}
  {Done : Nat → Env → Prop} {p : Parts Env} {k : Nat}

/-- A worker that was not lost after a change was not lost before. -/
theorem Intact.of_set {ws : List Worker} {w v : Worker} (h : Intact (ws.set k v))
    (hw : ws[k]? = some w) (hlive : (∀ e, w ≠ .failed e) ∧ w ≠ .cancelled) : Intact ws := by
  intro u hu
  obtain ⟨j, hj⟩ := List.getElem?_of_mem hu
  by_cases hjk : j = k
  · subst hjk
    rw [hw] at hj
    cases hj
    exact hlive
  · apply h
    apply List.mem_of_getElem? (i := j)
    rwa [List.getElem?_set_ne (Ne.symm hjk)]

/-- A worker at its place after a change is the new one or was there before. -/
theorem getElem?_set_cases {ws : List Worker} {v w : Worker} {j : Nat}
    (h : (ws.set k v)[j]? = some w) : (j = k ∧ w = v) ∨ (j ≠ k ∧ ws[j]? = some w) := by
  by_cases hjk : j = k
  · subst hjk
    rw [List.getElem?_set_self'] at h
    cases hw : ws[j]? with
    | none =>
      rw [hw] at h
      cases h
    | some u =>
      rw [hw] at h
      exact Or.inl ⟨rfl, (Option.some.inj h).symm⟩
  · right
    rw [List.getElem?_set_ne (Ne.symm hjk)] at h
    exact ⟨hjk, h⟩

theorem held_start {senders count : Nat} {env : Env} (hg : Good env) :
    Held Good Done (start senders count env) := by
  have hready : ∀ {j : Nat} {w : Worker}, (List.replicate senders Worker.ready)[j]? = some w →
      w = .ready := by
    intro j w hw
    exact List.eq_of_mem_replicate (List.mem_of_getElem? hw)
  exact
    { next_le := Nat.zero_le _
      handed := rfl
      sending := by
        intro j i attempt hj
        exact Worker.noConfusion (hready hj)
      attempts := by
        intro j i attempt hj
        exact Worker.noConfusion (hready hj)
      done := by
        intro j hj
        exact Worker.noConfusion (hready hj)
      finished := by simp [start]
      held := by
        intro _ i hi
        exact absurd hi (Nat.not_lt_zero i)
      returned := by
        intro h
        exact Gather.noConfusion h
      uncancelled := by
        intro _ w hw hc
        obtain ⟨j, hj⟩ := List.getElem?_of_mem hw
        exact Worker.noConfusion (hc.symm.trans (hready hj))
      good := hg }

/-- A worker takes the next index. -/
theorem Held.take (h : Held Good Done p) (hw : p.workers[k]? = some .ready)
    (hlt : p.next < p.count) (hgather : p.gather = .waiting) :
    Held Good Done { p with
      next := p.next + 1
      workers := p.workers.set k (.sending p.next 0)
      handed := p.handed ++ [(k, p.next)] } where
  next_le := hlt
  handed := by simp [h.handed, List.range_succ]
  sending := by
    intro j i attempt hj
    rcases getElem?_set_cases hj with ⟨_, he⟩ | ⟨_, hold⟩
    · injection he with hi _
      subst hi
      exact Nat.lt_succ_self _
    · exact Nat.lt_succ_of_lt (h.sending hold)
  attempts := by
    intro j i attempt hj
    rcases getElem?_set_cases hj with ⟨_, he⟩ | ⟨_, hold⟩
    · injection he with _ ha
      subst ha
      decide
    · exact h.attempts hold
  done := by
    intro j hj
    rcases getElem?_set_cases hj with ⟨_, he⟩ | ⟨_, hold⟩
    · cases he
    · have := h.done hold
      omega
  finished := h.finished
  held := by
    intro hint i hi
    have hk : k < p.workers.length := (List.getElem?_eq_some_iff.mp hw).1
    by_cases hnew : i = p.next
    · subst hnew
      exact Or.inr ⟨k, 0, List.getElem?_set_self hk⟩
    · have hold : i < p.next := by
        have : i < p.next + 1 := hi
        omega
      rcases h.held (hint.of_set hw (by simp)) i hold with hf | ⟨j, attempt, hj⟩
      · exact Or.inl hf
      · have hjk : j ≠ k := by
          intro he
          subst he
          rw [hw] at hj
          cases hj
        exact Or.inr ⟨j, attempt, (List.getElem?_set_ne (Ne.symm hjk)).trans hj⟩
  returned := by
    intro hr
    rw [show p.gather = .returned from hr] at hgather
    cases hgather
  uncancelled := by
    intro hwait w hm
    rcases List.mem_or_eq_of_mem_set hm with hold | rfl
    · exact h.uncancelled hwait w hold
    · simp
  good := h.good

/-- A worker finds no index left. -/
theorem Held.exhausted (h : Held Good Done p) (hw : p.workers[k]? = some .ready)
    (hle : ¬p.next < p.count) (hgather : p.gather = .waiting) :
    Held Good Done { p with workers := p.workers.set k .done } where
  next_le := h.next_le
  handed := h.handed
  sending := by
    intro j i attempt hj
    rcases getElem?_set_cases hj with ⟨_, he⟩ | ⟨_, hold⟩
    · cases he
    · exact h.sending hold
  attempts := by
    intro j i attempt hj
    rcases getElem?_set_cases hj with ⟨_, he⟩ | ⟨_, hold⟩
    · cases he
    · exact h.attempts hold
  done := by
    intro j _
    exact Nat.le_antisymm h.next_le (Nat.le_of_not_lt hle)
  finished := h.finished
  held := by
    intro hint i hi
    rcases h.held (hint.of_set hw (by simp)) i hi with hf | ⟨j, attempt, hj⟩
    · exact Or.inl hf
    · have hjk : j ≠ k := by
        intro he
        subst he
        rw [hw] at hj
        cases hj
      exact Or.inr ⟨j, attempt, (List.getElem?_set_ne (Ne.symm hjk)).trans hj⟩
  returned := by
    intro hr
    rw [show p.gather = .returned from hr] at hgather
    cases hgather
  uncancelled := by
    intro hwait w hm
    rcases List.mem_or_eq_of_mem_set hm with hold | rfl
    · exact h.uncancelled hwait w hold
    · simp
  good := h.good

theorem afterSend_alive (i attempt : Nat) (s : Sent (Option TransferErr)) :
    afterSend i attempt s ≠ .done ∧ afterSend i attempt s ≠ .cancelled := by
  unfold afterSend
  split <;> (try split) <;> simp

/-- After a request the worker is at the same part in the next attempt, unless the part is through
or failed. -/
theorem afterSend_sending {i j attempt attempt' : Nat} {s : Sent (Option TransferErr)}
    (h : afterSend i attempt s = .sending j attempt') (ha : attempt < partRetries) :
    j = i ∧ attempt' = attempt + 1 ∧ attempt' < partRetries := by
  unfold afterSend at h
  split at h
  · cases h
  · cases h
  · split at h
    · next hlt =>
      cases h
      exact ⟨rfl, rfl, hlt⟩
    · cases h
  · split at h
    · cases h
    · next hne =>
      cases h
      refine ⟨rfl, rfl, ?_⟩
      omega

theorem afterSend_cases (i attempt : Nat) (s : Sent (Option TransferErr)) :
    s = .reply none ∨ (∃ e, afterSend i attempt s = .failed e) ∨
      ∃ attempt', afterSend i attempt s = .sending i attempt' := by
  unfold afterSend
  split
  · exact Or.inl rfl
  · exact Or.inr (Or.inl ⟨_, rfl⟩)
  · split
    · exact Or.inr (Or.inr ⟨_, rfl⟩)
    · exact Or.inr (Or.inl ⟨_, rfl⟩)
  · split
    · exact Or.inr (Or.inl ⟨_, rfl⟩)
    · exact Or.inr (Or.inr ⟨_, rfl⟩)

/-- A request of `do_part` comes to an end. -/
theorem Held.sent (hspec : PartSpec doPart Honest p.count Good Done) (h : Held Good Done p)
    {i attempt : Nat} {out : Out} (hw : p.workers[k]? = some (.sending i attempt))
    (hout : Honest out) (hgather : p.gather = .waiting) :
    Held Good Done { p with
      workers := p.workers.set k (afterSend i attempt (doPart i out p.env).1)
      finished :=
        if (doPart i out p.env).1 = .reply none then p.finished ++ [i] else p.finished
      env := (doPart i out p.env).2 } := by
  have hi : i < p.next := h.sending hw
  have hcount : i < p.count := Nat.lt_of_lt_of_le hi h.next_le
  have hk : k < p.workers.length := (List.getElem?_eq_some_iff.mp hw).1
  exact
    { next_le := h.next_le
      handed := h.handed
      sending := by
        intro j i' attempt' hj
        rcases getElem?_set_cases hj with ⟨_, he⟩ | ⟨_, hold⟩
        · rw [(afterSend_sending he.symm (h.attempts hw)).1]
          exact hi
        · exact h.sending hold
      attempts := by
        intro j i' attempt' hj
        rcases getElem?_set_cases hj with ⟨_, he⟩ | ⟨_, hold⟩
        · exact (afterSend_sending he.symm (h.attempts hw)).2.2
        · exact h.attempts hold
      done := by
        intro j hj
        rcases getElem?_set_cases hj with ⟨_, he⟩ | ⟨_, hold⟩
        · exact absurd he.symm (afterSend_alive i attempt _).1
        · exact h.done hold
      finished := by
        intro j hj
        have hold : j ∈ p.finished → Done j (doPart i out p.env).2 := fun hm =>
          hspec.kept hcount hout h.good (h.finished j hm)
        by_cases hr : (doPart i out p.env).1 = .reply none
        · simp only [hr, if_true, List.mem_append, List.mem_singleton] at hj
          rcases hj with hm | rfl
          · exact hold hm
          · exact hspec.returns hcount hout h.good hr
        · simp only [hr, if_false] at hj
          exact hold hj
      held := by
        intro hint j hj
        have hin : ∀ {x}, x ∈ p.finished →
            x ∈ (if (doPart i out p.env).1 = .reply none then p.finished ++ [i]
              else p.finished) := by
          intro x hx
          split
          · exact List.mem_append_left _ hx
          · exact hx
        rcases h.held (hint.of_set hw (by simp)) j hj with hf | ⟨k', attempt', hk'⟩
        · exact Or.inl (hin hf)
        · by_cases hkk : k' = k
          · -- the part of the worker that took the step
            subst hkk
            rw [hw] at hk'
            cases hk'
            rcases afterSend_cases i attempt (doPart i out p.env).1 with hr | ⟨e, he⟩ | ⟨a, ha⟩
            · left
              simp [hr]
            · exfalso
              exact (hint _ (List.mem_set hk _)).1 e he
            · exact Or.inr ⟨k', a, by rw [← ha]; exact List.getElem?_set_self hk⟩
          · exact Or.inr ⟨k', attempt', (List.getElem?_set_ne (Ne.symm hkk)).trans hk'⟩
      returned := by
        intro hr
        rw [show p.gather = .returned from hr] at hgather
        cases hgather
      uncancelled := by
        intro hwait w hm
        rcases List.mem_or_eq_of_mem_set hm with hold | rfl
        · exact h.uncancelled hwait w hold
        · exact (afterSend_alive i attempt _).2
      good := hspec.good hcount hout h.good }

/-- A worker is cancelled. -/
theorem Held.cancelled (h : Held Good Done p) {e : TransferErr} {w : Worker}
    (hw : p.workers[k]? = some w) (hgather : p.gather = .cancelling e) :
    Held Good Done { p with workers := p.workers.set k .cancelled } where
  next_le := h.next_le
  handed := h.handed
  sending := by
    intro j i attempt hj
    rcases getElem?_set_cases hj with ⟨_, he⟩ | ⟨_, hold⟩
    · cases he
    · exact h.sending hold
  attempts := by
    intro j i attempt hj
    rcases getElem?_set_cases hj with ⟨_, he⟩ | ⟨_, hold⟩
    · cases he
    · exact h.attempts hold
  done := by
    intro j hj
    rcases getElem?_set_cases hj with ⟨_, he⟩ | ⟨_, hold⟩
    · cases he
    · exact h.done hold
  finished := h.finished
  held := by
    intro hint
    have hk : k < p.workers.length := (List.getElem?_eq_some_iff.mp hw).1
    exact absurd rfl (hint _ (List.mem_set hk _)).2
  returned := by
    intro hr
    rw [show p.gather = .returned from hr] at hgather
    cases hgather
  uncancelled := by
    intro hwait
    rw [show p.gather = .waiting from hwait] at hgather
    cases hgather
  good := h.good

/-- The awaiting task goes on. -/
theorem Held.gather (h : Held Good Done p) {g : Gather}
    (hg : g = .returned → ∀ w ∈ p.workers, w = .done) (hleft : g ≠ .waiting) :
    Held Good Done { p with gather := g } :=
  { h with returned := hg, uncancelled := fun hwait => absurd hwait hleft }

/-- Every step keeps `Held`. -/
theorem held_step (hspec : PartSpec doPart Honest p.count Good Done) (h : Held Good Done p)
    {l : Label Out} (hl : ∀ k out, l = .worker k out → Honest out) :
    Held Good Done (step doPart l p) := by
  cases l with
  | worker k out =>
    simp only [step]
    split
    · next hgather hw =>
      split
      · next hlt => exact h.take hw hlt hgather
      · next hle => exact h.exhausted hw hle hgather
    · next hgather hw => exact h.sent hspec hw (hl k out rfl) hgather
    · next hgather hw => exact h.cancelled hw hgather
    · next hgather hw => exact h.cancelled hw hgather
    · exact h
  | failure k =>
    simp only [step]
    split
    · exact h.gather nofun nofun
    · exact h
  | cancel =>
    simp only [step]
    split
    · exact h.gather nofun nofun
    · exact h.gather nofun nofun
    · exact h
  | finish =>
    simp only [step]
    split
    · split
      · next hall =>
        refine h.gather ?_ nofun
        intro _ w hw
        simpa using List.all_eq_true.mp hall w hw
      · exact h
    · split
      · exact h.gather nofun nofun
      · exact h
    · exact h

theorem step_count (l : Label Out) (p : Parts Env) : (step doPart l p).count = p.count := by
  cases l <;> simp only [step] <;> repeat' split
  all_goals rfl

/-- Every run keeps `Held`. -/
theorem held_run (hspec : PartSpec doPart Honest p.count Good Done) (h : Held Good Done p) :
    ∀ {ls : List (Label Out)}, (∀ k out, .worker k out ∈ ls → Honest out) →
      Held Good Done (run doPart ls p) := by
  intro ls
  induction ls generalizing p with
  | nil => exact fun _ => h
  | cons l ls ih =>
    intro hls
    apply ih
    · rw [step_count]
      exact hspec
    · apply held_step hspec h
      intro k out hl
      exact hls k out (hl ▸ List.mem_cons_self)
    · intro k out hm
      exact hls k out (List.mem_cons_of_mem l hm)

/-! ## The end of a run -/

/-- The steps a worker may still take with the index it has, and one to take another. -/
def Worker.todo : Worker → Nat
  | .ready => 1
  | .sending _ attempt => partRetries - attempt + 1
  | .done | .failed _ | .cancelled => 0

def Gather.todo : Gather → Nat
  | .waiting => 2
  | .cancelling _ => 1
  | .returned | .raised _ => 0

/-- A bound on the steps that are left. -/
def todo (p : Parts Env) : Nat :=
  (p.count - p.next) * (partRetries + 1) + (p.workers.map Worker.todo).sum + p.gather.todo

theorem afterSend_todo {i attempt : Nat} (ha : attempt < partRetries)
    (s : Sent (Option TransferErr)) :
    (afterSend i attempt s).todo < (Worker.sending i attempt).todo := by
  unfold afterSend
  split
  · simp only [Worker.todo]
    omega
  · exact Nat.succ_pos _
  · split
    · simp only [Worker.todo]
      omega
    · exact Nat.succ_pos _
  · split
    · exact Nat.succ_pos _
    · simp only [Worker.todo]
      omega

/-- A step that changes anything leaves less to do. -/
theorem step_todo_lt (h : Held Good Done p) {l : Label Out} (hne : step doPart l p ≠ p) :
    todo (step doPart l p) < todo p := by
  have hset : ∀ {k : Nat} {w v : Worker}, p.workers[k]? = some w → v.todo < w.todo →
      ((p.workers.set k v).map Worker.todo).sum < (p.workers.map Worker.todo).sum := by
    intro k w v hw hlt
    have := tally_set Worker.todo hw v
    omega
  cases l with
  | worker k out =>
    simp only [step] at hne ⊢
    split at hne
    · next hgather hw =>
      split at hne
      · next hlt =>
        rw [if_pos hlt]
        have hsum := tally_set Worker.todo hw (.sending p.next 0)
        have hrest : p.count - p.next = (p.count - (p.next + 1)) + 1 := by omega
        simp only [Worker.todo] at hsum
        simp only [todo, hrest, Nat.add_mul]
        omega
      · next hle =>
        rw [if_neg hle]
        have := hset hw (v := .done) Nat.zero_lt_one
        simp only [todo]
        omega
    · next i attempt hgather hw =>
      have := hset hw (afterSend_todo (h.attempts hw) (doPart i out p.env).1)
      simp only [todo]
      omega
    · next hgather hw =>
      have := hset hw (v := .cancelled) Nat.zero_lt_one
      simp only [todo]
      omega
    · next hgather hw =>
      have := hset hw (v := .cancelled) (Nat.succ_pos _)
      simp only [todo]
      omega
    · exact absurd rfl hne
  | failure k =>
    simp only [step] at hne ⊢
    split at hne
    · next hgather _ =>
      simp only [todo, hgather, Gather.todo]
      omega
    · exact absurd rfl hne
  | cancel =>
    simp only [step] at hne ⊢
    split at hne
    · next hgather =>
      simp only [todo, hgather, Gather.todo]
      omega
    · next hgather =>
      simp only [todo, hgather, Gather.todo]
      omega
    · exact absurd rfl hne
  | finish =>
    simp only [step] at hne ⊢
    split at hne
    · next hgather =>
      split at hne
      · next hall =>
        rw [if_pos hall]
        simp only [todo, hgather, Gather.todo]
        omega
      · exact absurd rfl hne
    · next hgather =>
      split at hne
      · next hall =>
        rw [if_pos hall]
        simp only [todo, hgather, Gather.todo]
        omega
      · exact absurd rfl hne
    · exact absurd rfl hne

/-- The steps `sched` names up to `n`. -/
def upTo (sched : Nat → Label Out) (n : Nat) : List (Label Out) := (List.range n).map sched

theorem run_upTo_succ (sched : Nat → Label Out) (n : Nat) (p : Parts Env) :
    run doPart (upTo sched (n + 1)) p = step doPart (sched n) (run doPart (upTo sched n) p) := by
  simp [run, upTo, List.range_succ]

/-- As long as `_run_parts` is not over, the next step that is named does something. -/
def Pursued (doPart : DoPart Out Env) (sched : Nat → Label Out) (p : Parts Env) : Prop :=
  ∀ n, (run doPart (upTo sched n) p).gather.over = false →
    step doPart (sched n) (run doPart (upTo sched n) p) ≠ run doPart (upTo sched n) p

/-- A run that goes on comes to its end. -/
theorem run_ends (hspec : PartSpec doPart Honest p.count Good Done) (h : Held Good Done p)
    {sched : Nat → Label Out} (hout : ∀ n k out, sched n = .worker k out → Honest out)
    (hgo : Pursued doPart sched p) : ∃ n, (run doPart (upTo sched n) p).gather.over := by
  by_contra hno
  have hover : ∀ n, (run doPart (upTo sched n) p).gather.over = false := by
    intro n
    exact Bool.eq_false_iff.mpr fun ho => hno ⟨n, ho⟩
  have hheld : ∀ n, Held Good Done (run doPart (upTo sched n) p) := by
    intro n
    apply held_run hspec h
    intro k out hm
    obtain ⟨m, _, hm⟩ := List.mem_map.mp hm
    exact hout m k out hm
  have hless : ∀ n, todo (run doPart (upTo sched n) p) + n ≤ todo p := by
    intro n
    induction n with
    | zero => exact Nat.le_refl _
    | succ n ih =>
      have hlt := step_todo_lt (hheld n) (hgo n (hover n))
      rw [run_upTo_succ]
      omega
  have := hless (todo p + 1)
  omega

/-- Until it is over, some step of a worker or of `gather` does something. -/
theorem step_progress [Inhabited Out] (h : Held Good Done p) (hover : p.gather.over = false) :
    ∃ l : Label Out, l ≠ .cancel ∧ step doPart l p ≠ p := by
  have hmove : ∀ {w v : Worker} {k : Nat}, p.workers[k]? = some w → v ≠ w →
      p.workers.set k v ≠ p.workers := by
    intro w v k hw hne he
    have hk : k < p.workers.length := (List.getElem?_eq_some_iff.mp hw).1
    rw [← he, List.getElem?_set_self hk] at hw
    exact hne (Option.some.inj hw)
  cases hgather : p.gather with
  | waiting =>
    by_cases hall : p.workers.all (· = .done)
    · refine ⟨.finish, nofun, fun he => ?_⟩
      have := congrArg Parts.gather he
      simp [step, hgather, hall] at this
    · simp only [List.all_eq_true, decide_eq_true_eq, not_forall] at hall
      obtain ⟨w, hm, hw⟩ := hall
      obtain ⟨k, hk⟩ := List.getElem?_of_mem hm
      cases w with
      | ready =>
        refine ⟨.worker k default, nofun, fun he => ?_⟩
        have hws := congrArg Parts.workers he
        simp only [step, hgather, hk] at hws
        split at hws
        · exact hmove (v := .sending p.next 0) hk nofun hws
        · exact hmove (v := .done) hk nofun hws
      | sending i attempt =>
        refine ⟨.worker k default, nofun, fun he => ?_⟩
        have hws := congrArg Parts.workers he
        simp only [step, hgather, hk] at hws
        refine hmove hk ?_ hws
        intro hsame
        have := afterSend_todo (i := i) (h.attempts hk) (doPart i default p.env).1
        rw [hsame] at this
        exact Nat.lt_irrefl _ this
      | done => exact absurd rfl hw
      | failed e =>
        refine ⟨.failure k, nofun, fun he => ?_⟩
        have := congrArg Parts.gather he
        simp [step, hgather, hk] at this
      | cancelled => exact absurd rfl (h.uncancelled hgather _ hm)
  | cancelling e =>
    by_cases hall : p.workers.all (·.ended)
    · refine ⟨.finish, nofun, fun he => ?_⟩
      have := congrArg Parts.gather he
      simp [step, hgather, hall] at this
    · simp only [List.all_eq_true, not_forall] at hall
      obtain ⟨w, hm, hw⟩ := hall
      obtain ⟨k, hk⟩ := List.getElem?_of_mem hm
      cases w with
      | ready =>
        refine ⟨.worker k default, nofun, fun he => ?_⟩
        have hws := congrArg Parts.workers he
        simp only [step, hgather, hk] at hws
        exact hmove (v := .cancelled) hk nofun hws
      | sending i attempt =>
        refine ⟨.worker k default, nofun, fun he => ?_⟩
        have hws := congrArg Parts.workers he
        simp only [step, hgather, hk] at hws
        exact hmove (v := .cancelled) hk nofun hws
      | done => exact absurd rfl hw
      | failed e => exact absurd rfl hw
      | cancelled => exact absurd rfl hw
  | returned =>
    rw [hgather] at hover
    cases hover
  | raised e =>
    rw [hgather] at hover
    cases hover

end Steps

end FastTransfer

end Tgfs
