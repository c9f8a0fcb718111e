import Tgfs.Store.Proofs.Stops

/-!
# A call that returns met no failing delete

Deletes happen at two places. A future whose delete raised ends as failed and stays so, and
`put_file` asks every future it submitted for its result before it returns. A delete of the
calling thread hands its error on at once. So a `put_file` that returns ran as it would have
run on a backend whose deletes never raise.
-/

namespace Tgfs

/-- The same decisions, except that no delete raises and the pool's are hushed. -/
def Tick.hush (hushed : PoolTick → PoolTick) (t : Tick) : Tick :=
  { t with
    before := t.before.map fun e => (e.1, hushed e.2)
    finish := fun f => hushed (t.finish f)
    deleteFails := false }

def PoolTick.calm (p : PoolTick) : PoolTick := { p with deleteFails := false }

/-- The same decisions, except that no delete raises. -/
def Tick.calm (t : Tick) : Tick := t.hush PoolTick.calm

theorem Tick.quiet_calm (t : Tick) : t.calm.Quiet True where
  delete := rfl
  download _ := trivial
  before e he := by
    obtain ⟨e', -, rfl⟩ := List.mem_map.mp he
    exact ⟨rfl, fun _ => trivial⟩
  finish _ := ⟨rfl, fun _ => trivial⟩

/-- The same decisions, except that no delete, upload or download raises. -/
def Tick.lucky (t : Tick) : Tick := { t.hush (fun _ => {}) with downloadFails := false }

theorem Tick.quiet_lucky (t : Tick) : t.lucky.Quiet False where
  delete := rfl
  download := nofun
  before e he := by
    obtain ⟨e', -, rfl⟩ := List.mem_map.mp he
    exact ⟨rfl, nofun⟩
  finish _ := ⟨rfl, nofun⟩

/-- The future raised. -/
def Phase.raised {Sha : Type} : Phase Sha → Bool
  | .failed _ => true
  | _ => false

namespace Store

variable {Sha : Type} [DecidableEq Sha] {src : Src Sha} {ts : Nat → Tick} {s : Store Sha}

/-! ## Futures that ended badly -/

/-- The futures that ended in a `bad` phase. -/
def endings (bad : Phase Sha → Bool) (s : Store Sha) : Nat := s.tasks.countP fun t => bad t.phase

/-- The futures that failed at their delete. -/
def spoils (s : Store Sha) : Nat := s.tasks.countP fun t => t.phase = .failed .deleteFailed

omit [DecidableEq Sha] in
/-- The count goes up by the futures that a step ends badly, and never down. -/
theorem endings_setPhase {bad : Phase Sha → Bool} (hbad : ∀ p, bad p = true → p.settled = true)
    {f : FutId} {t : Task Sha} {p : Phase Sha} (ht : s.tasks[f]? = some t)
    (hset : t.phase.settled = false) :
    (s.setPhase f t p).endings bad = s.endings bad + if bad p = true then 1 else 0 := by
  obtain ⟨hlt, rfl⟩ := List.getElem?_eq_some_iff.mp ht
  have hold : bad s.tasks[f].phase ≠ true := by
    intro h
    rw [hbad _ h] at hset
    cases hset
  unfold endings
  rw [setPhase_tasks, List.countP_set hlt]
  simp [hold]

/-- What is hushed would have ended badly. -/
structure Hushed (bad : Phase Sha → Bool) (hushed : PoolTick → PoolTick) : Prop where
  settled : ∀ p, bad p = true → p.settled = true
  upload : ∀ p, (hushed p).uploadFails = p.uploadFails ∨
    p.uploadFails = true ∧ bad (.failed .uploadFailed) = true
  delete : ∀ p, (hushed p).deleteFails = p.deleteFails ∨
    p.deleteFails = true ∧ bad (.failed .deleteFailed) = true

variable {bad : Phase Sha → Bool} {hushed : PoolTick → PoolTick}

/-- A step of the pool ends a future badly, or nothing is hushed in it. -/
theorem Hushed.poolStep (h : Hushed bad hushed) (e : FutId × PoolTick) (s : Store Sha) :
    s.endings bad ≤ (poolStep e s).endings bad ∧
      ((poolStep e s).endings bad = s.endings bad →
        poolStep (e.1, hushed e.2) s = poolStep e s) := by
  unfold Store.poolStep
  cases ht : s.tasks[e.1]? with
  | none => exact ⟨le_rfl, fun _ => rfl⟩
  | some t =>
    have key : ∀ (s₁ : Store Sha) (p : Phase Sha), s₁.tasks = s.tasks → t.phase.settled = false →
        (s₁.setPhase e.1 t p).endings bad = s.endings bad + if bad p = true then 1 else 0 := by
      intro s₁ p h₁ hset
      rw [endings_setPhase h.settled (h₁ ▸ ht) hset]
      exact congrArg (· + _) (congrArg (List.countP _) h₁)
    have hle : ∀ (s₁ : Store Sha) (p : Phase Sha), s₁.tasks = s.tasks → t.phase.settled = false →
        s.endings bad ≤ (s₁.setPhase e.1 t p).endings bad :=
      fun s₁ p h₁ hset => Nat.le.intro (key s₁ p h₁ hset).symm
    simp only
    cases hp : t.phase with
    | queued => exact ⟨hle s _ rfl (by rw [hp]; rfl), fun _ => rfl⟩
    | running =>
      have hset : t.phase.settled = false := by rw [hp]; rfl
      simp only
      rcases h.upload e.2 with hsame | ⟨hf, hend⟩
      · rw [hsame]
        refine ⟨?_, fun _ => rfl⟩
        split
        · exact hle s _ rfl hset
        · exact hle _ _ rfl hset
      · rw [hf, if_pos rfl]
        have hcount := key s (.failed .uploadFailed) rfl hset
        rw [if_pos hend] at hcount
        exact ⟨by omega, fun h' => by omega⟩
    | uploaded handle =>
      refine ⟨?_, fun _ => rfl⟩
      simp only
      split
      · exact hle _ _ rfl (by rw [hp]; rfl)
      · exact hle _ _ rfl (by rw [hp]; rfl)
    | dropCopy handle =>
      have hset : t.phase.settled = false := by rw [hp]; rfl
      simp only
      rcases h.delete e.2 with hsame | ⟨hf, hend⟩
      · rw [hsame]
        refine ⟨?_, fun _ => rfl⟩
        split
        · exact hle s _ rfl hset
        · exact hle _ _ rfl hset
      · rw [hf, if_pos rfl]
        have hcount := key s (.failed .deleteFailed) rfl hset
        rw [if_pos hend] at hcount
        exact ⟨by omega, fun h' => by omega⟩
    | done | failed _ | cancelled => exact ⟨le_rfl, fun _ => rfl⟩

/-! ## Runs -/

/-- The calling thread learns that a delete raised. -/
def DeleteRaised : (a : Act Sha) → a.Reply → Prop
  | .delete _, (e : Option (PyErr Sha)) => e ≠ none
  | _, _ => False

instance DeleteRaised.decide (a : Act Sha) (r : a.Reply) : Decidable (DeleteRaised a r) := by
  unfold DeleteRaised
  split <;> infer_instance

theorem Hushed.exec (h : Hushed bad hushed) (t : Tick) (a : Act Sha) (s : Store Sha) :
    s.endings bad ≤ (exec src t a s).2.endings bad ∧
      (¬ DeleteRaised a (exec src t a s).1 →
        exec src (t.hush hushed) a s = exec src t a s) := by
  cases a with
  | submit sha data =>
    refine ⟨?_, fun _ => rfl⟩
    simp only [Store.exec, endings, List.countP_append]
    exact Nat.le_add_right _ _
  | cancel f =>
    refine ⟨?_, fun _ => rfl⟩
    simp only [Store.exec]
    split
    case h_1 sha data ht => exact Nat.le.intro (endings_setPhase h.settled ht rfl).symm
    case h_2 => exact le_rfl
  | delete handle =>
    simp only [Store.exec, Tick.hush]
    cases t.deleteFails with
    | true => exact ⟨le_rfl, fun h => absurd (by simp [DeleteRaised]) h⟩
    | false => exact ⟨le_rfl, fun _ => rfl⟩
  | claimKnown sha | download sha =>
    refine ⟨?_, fun _ => rfl⟩
    simp only [Store.exec]
    split
    · exact le_rfl
    · first | exact le_rfl | (split <;> exact le_rfl)
  | result f | failed f =>
    refine ⟨?_, fun _ => rfl⟩
    simp only [Store.exec]
    split <;> exact le_rfl
  | _ => exact ⟨le_rfl, fun _ => rfl⟩

theorem Hushed.hushes (h : Hushed bad hushed) (src : Src Sha) :
    machine.Hushes DeleteRaised src (endings bad) (Tick.hush hushed)
      fun e => (e.1, hushed e.2) where
  before _ := rfl
  finish t s := by
    change finishPool (t.hush hushed) s = (finishPool t s).map fun e => (e.1, hushed e.2)
    unfold finishPool
    rw [List.map_flatMap]
    simp only [List.map_replicate]
    rfl
  env e s := h.poolStep e s
  exec t a s := h.exec t a s

theorem hushed_calm :
    Hushed (fun p : Phase Sha => decide (p = .failed .deleteFailed)) PoolTick.calm where
  settled p h := by
    rw [of_decide_eq_true h]
    rfl
  upload _ := .inl rfl
  delete p := by
    cases h : p.deleteFails with
    | true => exact .inr ⟨rfl, decide_eq_true rfl⟩
    | false => exact .inl rfl

omit [DecidableEq Sha] in
theorem hushed_lucky : Hushed (Phase.raised : Phase Sha → Bool) fun _ => {} where
  settled p h := by
    cases p with
    | failed e => rfl
    | _ => cases h
  upload p := by
    cases h : p.uploadFails with
    | true => exact .inr ⟨rfl, rfl⟩
    | false => exact .inl rfl
  delete p := by
    cases h : p.deleteFails with
    | true => exact .inr ⟨rfl, rfl⟩
    | false => exact .inl rfl

/-- The action downloads. -/
def Downloads : Act Sha → Prop
  | .download _ => True
  | _ => False

theorem hushes_lucky (src : Src Sha) :
    machine.Hushes (fun a r => Downloads a ∨ DeleteRaised a r) src (endings Phase.raised)
      Tick.lucky fun e => (e.1, {}) where
  before := (hushed_lucky.hushes src).before
  finish := (hushed_lucky.hushes src).finish
  env := (hushed_lucky.hushes src).env
  exec t a s := by
    obtain ⟨hle, hsame⟩ := (hushed_lucky.hushes src).exec t a s
    refine ⟨hle, fun h => ?_⟩
    have hquiet := hsame fun hr => h (.inr hr)
    cases a with
    | download handle => exact absurd (.inl trivial) h
    | _ => exact hquiet

/-- A run in which no delete raises is a run on a backend whose deletes never raise. -/
theorem seqRun_calm_of_not_alarmed {α : Type} (p : StoreProg Sha α) (n : Nat) (s : Store Sha) :
    s.spoils ≤ (machine.seqRun src ts p n s).2.2.spoils ∧
      ((machine.seqRun src ts p n s).2.2.spoils = s.spoils →
        ¬ machine.Alarmed DeleteRaised src ts p n s →
          machine.seqRun src (fun k => (ts k).calm) p n s = machine.seqRun src ts p n s) :=
  (hushed_calm.hushes src).seqRun ts p n s

/-- A program that heeds failing deletes, and whose result says that none failed, ran as on a
backend whose deletes never raise. -/
theorem seqRun_calm {α : Type} {P : α → Prop} {p : StoreProg Sha α} (hp : p.Heeds DeleteRaised P)
    (n : Nat) (s : Store Sha) :
    s.spoils ≤ (machine.seqRun src ts p n s).2.2.spoils ∧
      ((machine.seqRun src ts p n s).2.2.spoils = s.spoils → ¬ P (machine.seqRun src ts p n s).1 →
        machine.seqRun src (fun k => (ts k).calm) p n s = machine.seqRun src ts p n s) := by
  obtain ⟨hle, hsame⟩ := seqRun_calm_of_not_alarmed p n s
  exact ⟨hle, fun hsp hP => hsame hsp fun h => hP (h.ends _ hp)⟩

/-! ## The futures of a call -/

/-- A future that still may raise, or has. -/
def Suspect (t : Task Sha) : Prop := t.phase.settled = false ∨ t.phase.raised = true

/-- After the futures `old`, of which all were settled, only those in `g` are suspect. -/
def Watched (old : List (Task Sha)) (s : Store Sha) (g : Multiset FutId) : Prop :=
  ∃ rest, s.tasks = old ++ rest ∧
    ∀ i t, rest[i]? = some t → Suspect t → old.length + i ∈ g

variable {old : List (Task Sha)} {g : Multiset FutId}

omit [DecidableEq Sha] in
/-- A step on a future that is not settled is a step on one that is watched. -/
theorem Watched.set (hold : ∀ t ∈ old, t.phase.settled = true) (h : Watched old s g) {f : FutId}
    {t : Task Sha} (ht : s.tasks[f]? = some t) (hset : t.phase.settled = false) (t' : Task Sha) :
    Watched old { s with tasks := s.tasks.set f t' } g := by
  obtain ⟨rest, hrest, hsus⟩ := h
  have hge : old.length ≤ f := by
    by_contra hlt
    rw [hrest, List.getElem?_append_left (by omega)] at ht
    rw [hold t (List.mem_of_getElem? ht)] at hset
    cases hset
  obtain ⟨i, rfl⟩ := Nat.exists_eq_add_of_le hge
  have hti : rest[i]? = some t := by
    rwa [hrest, List.getElem?_append_right hge, Nat.add_sub_cancel_left] at ht
  refine ⟨rest.set i t', ?_, fun j u hu hs => ?_⟩
  · simp only [hrest, List.set_append_right _ _ hge, Nat.add_sub_cancel_left]
  · by_cases hj : j = i
    · exact hj ▸ hsus i t hti (.inl hset)
    · rw [List.getElem?_set_ne (Ne.symm hj)] at hu
      exact hsus j u hu hs

omit [DecidableEq Sha] in
theorem Watched.congr {s' : Store Sha} (h : Watched old s g) (ht : s'.tasks = s.tasks) :
    Watched old s' g := by
  unfold Watched
  rw [ht]
  exact h

theorem Watched.poolStep (hold : ∀ t ∈ old, t.phase.settled = true) (h : Watched old s g)
    (e : FutId × PoolTick) : Watched old (poolStep e s) g := by
  rcases poolStep_tasks e s with ⟨he, -⟩ | ⟨t, p, ht, hlt, he⟩
  · rwa [he]
  · have hset : t.phase.settled = false := by
      rw [← Bool.not_eq_true, t.phase.settled_iff_rank]
      omega
    exact (h.set hold ht hset { t with phase := p }).congr he

/-- The action submits nothing. -/
def Idles : Act Sha → Prop
  | .submit _ _ => False
  | _ => True

theorem Watched.exec (hold : ∀ t ∈ old, t.phase.settled = true) (h : Watched old s g) {t : Tick}
    {a : Act Sha} (ha : Idles a) : Watched old (exec src t a s).2 g := by
  cases a with
  | submit sha data => exact ha.elim
  | cancel f =>
    simp only [Store.exec]
    split
    case h_1 sha data ht => exact h.set hold ht rfl _
    case h_2 => exact h
  | claimKnown sha | download sha | delete sha =>
    simp only [Store.exec]
    split
    · exact h.congr rfl
    · first | exact h.congr rfl | (split <;> exact h)
  | result f | failed f =>
    simp only [Store.exec]
    split <;> exact h
  | _ => exact h.congr rfl

omit [DecidableEq Sha] in
theorem Watched.submit (h : Watched old s g) (t : Task Sha) :
    Watched old { s with tasks := s.tasks ++ [t] } (s.tasks.length ::ₘ g) := by
  obtain ⟨rest, hrest, hsus⟩ := h
  refine ⟨rest ++ [t], by simp [hrest], fun i u hu hs => ?_⟩
  rw [hrest, List.length_append]
  rcases Nat.lt_or_ge i rest.length with hi | hi
  · rw [List.getElem?_append_left hi] at hu
    exact Multiset.mem_cons_of_mem (hsus i u hu hs)
  · have hlt := (List.getElem?_eq_some_iff.mp hu).1
    rw [List.length_append, List.length_singleton] at hlt
    obtain rfl : i = rest.length := by omega
    exact Multiset.mem_cons_self _ _

omit [DecidableEq Sha] in
/-- A future known not to be suspect need not be watched any more. -/
theorem Watched.release {f : FutId} (h : Watched old s (f ::ₘ g))
    (hf : ∀ t, s.tasks[f]? = some t → ¬ Suspect t) : Watched old s g := by
  obtain ⟨rest, hrest, hsus⟩ := h
  refine ⟨rest, hrest, fun i t ht hs => ?_⟩
  rcases Multiset.mem_cons.mp (hsus i t ht hs) with rfl | hg
  · refine absurd hs (hf t ?_)
    rw [hrest, List.getElem?_append_right (Nat.le_add_right _ _), Nat.add_sub_cancel_left]
    exact ht
  · exact hg

omit [DecidableEq Sha] in
/-- When nothing is watched, all new futures are settled and none raised. -/
theorem Watched.alone (h : Watched old s 0) :
    ∃ rest, s.tasks = old ++ rest ∧ ∀ t ∈ rest, ¬ Suspect t := by
  obtain ⟨rest, hrest, hsus⟩ := h
  refine ⟨rest, hrest, fun t ht hs => ?_⟩
  obtain ⟨i, hi⟩ := List.getElem?_of_mem ht
  exact Multiset.notMem_zero _ (hsus i t hi hs)

theorem Watched.spoils_eq {s₀ : Store Sha} (h : Watched s₀.tasks s 0) : s.spoils = s₀.spoils := by
  obtain ⟨rest, hrest, hsus⟩ := h.alone
  have hnone : (rest.countP fun t => t.phase = .failed .deleteFailed) = 0 := by
    rw [List.countP_eq_zero]
    intro t ht hp
    apply hsus t ht
    right
    rw [of_decide_eq_true hp]
    rfl
  unfold spoils
  rw [hrest, List.countP_append, hnone, Nat.add_zero]

/-! ## What `put_file` watches -/

abbrev WatchSafe (old : List (Task Sha)) (src : Src Sha) {α : Type}
    (post : α → Multiset FutId → Prop) (p : StoreProg Sha α) (g : Multiset FutId) : Prop :=
  machine.Safe (Watched old) (fun _ => True) src post p g

/-- A call that watches its futures, run by itself. -/
theorem WatchSafe.run {α : Type} {post : α → Multiset FutId → Prop} {p : StoreProg Sha α}
    (hp : WatchSafe s.tasks src post p 0) (hold : ∀ t ∈ s.tasks, t.phase.settled = true)
    (ts : Nat → Tick) (n : Nat) :
    ∃ g, post (machine.seqRun src ts p n s).1 g ∧
      Watched s.tasks (machine.seqRun src ts p n s).2.2 g := by
  have henv : ∀ (e : FutId × PoolTick) (s' : Store Sha) (g : Multiset FutId), True →
      Watched s.tasks s' g → Watched s.tasks (machine.env e s') g :=
    fun e s' g _ h => h.poolStep hold e
  have h0 : Watched s.tasks s (0 + 0) := ⟨[], (List.append_nil _).symm, by simp⟩
  obtain ⟨g, hg, hw⟩ := Machine.Safe.seqRun henv hp (fun _ => trivial) (fun _ _ _ => trivial)
    (fun _ _ _ _ => trivial) h0
  rw [add_zero] at hw
  exact ⟨g, hg, hw⟩

section Watching

variable (hold : ∀ t ∈ old, t.phase.settled = true)
include hold

theorem watch_idle {α : Type} {p : StoreProg Sha α} (hp : p.All Idles) (g : Multiset FutId) :
    WatchSafe old src (fun _ g' => g' = g) p g :=
  Machine.Safe.ofAll (fun _ ha _ _ _ hI => hI.exec hold ha) hp

theorem watch_perform {a : Act Sha} (ha : Idles a) (g : Multiset FutId) :
    WatchSafe old src (fun _ g' => g' = g) (perform a) g :=
  watch_idle hold (p := perform a) ⟨ha, fun _ => trivial⟩ g

omit hold in
/-- A future whose result did not raise is not suspect. -/
theorem not_suspect_of_result {f : FutId} {t : Tick} (hready : ready (.result f) s = true)
    (hres : (exec src t (.result f) s).1 = none) (u : Task Sha) (hu : s.tasks[f]? = some u) :
    ¬ Suspect u := by
  simp only [ready, settled, hu] at hready
  rintro (hset | hp)
  · rw [hset] at hready
    cases hready
  · rcases u with ⟨sha, data, phase⟩
    cases phase with
    | failed e =>
      simp only [exec, hu] at hres
      cases hres
    | _ => cases hp

omit hold in
theorem watch_result (f : FutId) (g : Multiset FutId) :
    WatchSafe old src (fun e g' => g' = if e = none then g else f ::ₘ g) (perform (.result f))
      (f ::ₘ g) := by
  intro s t o _ hready hI
  have hs : (exec src t (.result f) s).2 = s := by
    simp only [exec]
    split <;> rfl
  by_cases hres : (exec src t (.result f) s).1 = none
  · refine ⟨g, ?_, (if_pos hres).symm⟩
    change Watched old (exec src t (.result f) s).2 _
    rw [hs]
    rw [Multiset.cons_add] at hI
    exact hI.release (not_suspect_of_result hready hres)
  · refine ⟨f ::ₘ g, ?_, (if_neg hres).symm⟩
    change Watched old (exec src t (.result f) s).2 _
    rwa [hs]

omit hold in
theorem watch_results (fs : List FutId) (g : Multiset FutId) :
    WatchSafe old src (fun e g' => e = none → g' = g) (results fs) (fs + g) := by
  induction fs with
  | nil => exact fun _ => zero_add g
  | cons f fs ih =>
    rw [← Multiset.cons_coe, Multiset.cons_add]
    refine Machine.Safe.bind (watch_result f _) ?_
    rintro (e : Option (PyErr Sha)) g' rfl
    cases e with
    | some e => exact nofun
    | none => exact ih

/-- The futures a call has to ask for their results. -/
def Refs.futures (r : Refs Sha) : Multiset FutId := (r.pending.map (·.2) : List FutId)

omit hold in
theorem watch_submit (sha : Sha) (data : Bytes) (g : Multiset FutId) :
    WatchSafe old src (fun f g' => g' = f ::ₘ g) (perform (.submit sha data)) g := by
  intro s t o _ _ hI
  refine ⟨s.tasks.length ::ₘ g, ?_, rfl⟩
  rw [Multiset.cons_add]
  exact hI.submit _

theorem watch_acquire (workers : Nat) (sha : Sha) (data : Bytes) (r : Refs Sha) :
    WatchSafe old src (fun p g' => p.2 = none → g' = Refs.futures p.1)
      (acquire workers sha data r) (Refs.futures r) := by
  unfold acquire
  split
  case isTrue => exact fun _ => rfl
  case isFalse =>
    refine Machine.Safe.bind (p := perform (.claimKnown sha))
      (watch_perform hold (a := .claimKnown sha) trivial _) ?_
    rintro (known : Bool) g' rfl
    cases known with
    | true => exact fun _ => rfl
    | false =>
      refine Machine.Safe.bind (watch_idle hold
        (all_waitSlot (fun _ => trivial) (fun _ => trivial) _ _ _) _) ?_
      rintro ⟨running, e⟩ g' rfl
      cases e with
      | some e => exact fun h => by cases h
      | none =>
        refine Machine.Safe.bind (watch_submit sha data _) ?_
        rintro fut g' rfl _
        change fut ::ₘ _ = ((r.pending ++ [(sha, fut)]).map (·.2) : Multiset FutId)
        rw [List.map_append, ← Multiset.coe_add, add_comm]
        rfl

variable [Sha256 Sha] {cfg : StoreConfig} {ino : Ino} {size : Nat} {dirty : Option (Finset Nat)}

theorem watch_putLoop {rows : List (Chunk Sha)} (st : PutState Sha) :
    WatchSafe old src (fun p g' => p.2 = none → g' = Refs.futures p.1.refs)
      (putLoop cfg ino size dirty rows st) (Refs.futures st.refs) := by
  induction hk : size - st.off using Nat.strong_induction_on generalizing st with
  | _ k ih =>
    subst hk
    unfold putLoop
    split
    case isFalse => exact fun _ => rfl
    case isTrue hoff =>
      have hcs := cfg.chunkSize_pos
      split
      case h_1 row _ =>
        refine Machine.Safe.bind (p := perform (.claimKnown row.sha))
          (watch_perform hold (a := .claimKnown row.sha) trivial _) ?_
        rintro (known : Bool) g' rfl
        cases known with
        | false => exact fun h => by cases h
        | true => exact ih (size - (st.off + min cfg.chunkSize (size - st.off))) (by omega) _ rfl
      case h_2 =>
        refine Machine.Safe.bind (p := perform (.read st.pos _))
          (watch_perform hold (a := .read st.pos _) trivial _) ?_
        rintro (got : Except (PyErr Sha) Bytes) g' rfl
        cases got with
        | error e => exact fun h => by cases h
        | ok data =>
          simp only
          split
          case isTrue => exact fun _ => rfl
          case isFalse hdata =>
            have := List.length_pos_iff.mpr hdata
            refine Machine.Safe.bind (watch_acquire hold _ _ _ _) ?_
            rintro ⟨refs, e⟩ g' hg
            cases e with
            | some e => exact fun h => by cases h
            | none =>
              obtain rfl := hg rfl
              exact ih (size - (st.off + data.length)) (by omega) _ rfl

theorem watch_putBody {rows : List (Chunk Sha)} :
    WatchSafe old src (fun p g' => p.2 = none → g' = 0) (putBody cfg ino size dirty rows) 0 := by
  refine Machine.Safe.bind (watch_putLoop hold {}) ?_
  rintro ⟨st, e⟩ g' hg
  cases e with
  | some e => exact nofun
  | none =>
    obtain rfl := hg rfl
    have hres : WatchSafe old src _ (results (st.refs.pending.map (·.2))) _ :=
      watch_results (st.refs.pending.map (·.2)) 0
    rw [add_zero] at hres
    refine Machine.Safe.bind hres ?_
    rintro (e : Option (PyErr Sha)) g' hg
    cases e with
    | some e => exact nofun
    | none =>
      obtain rfl := hg rfl
      refine Machine.Safe.bind (watch_idle hold (all_increfAll (fun _ => trivial) _) _) ?_
      rintro _ g' rfl
      exact fun _ => rfl

theorem watch_putFile :
    WatchSafe old src (fun r g' => r = .ok () → g' = 0) (putFile cfg ino size dirty) 0 := by
  refine Machine.Safe.bind (watch_perform hold (a := .getChunks ino) trivial _) ?_
  rintro rows g' rfl
  refine Machine.Safe.bind (watch_putBody hold) ?_
  rintro ⟨st, e⟩ g' hg
  cases e with
  | some e =>
    refine Machine.Safe.bind (watch_idle hold (all_rollback (fun _ => trivial) (fun _ => trivial)
      (fun _ => trivial) (fun _ => trivial) (fun _ => trivial) _) _) ?_
    rintro (e' : Option (PyErr Sha)) g' rfl
    cases e' <;> exact nofun
  | none =>
    obtain rfl := hg rfl
    refine Machine.Safe.bind (watch_perform hold (a := .setChunks ino st.new) trivial _) ?_
    rintro _ g' rfl
    refine Machine.Safe.bind (watch_perform hold (a := .setSize ino st.off) trivial _) ?_
    rintro _ g' rfl
    refine Machine.Safe.bind (watch_idle hold (all_releaseAll (fun _ => trivial)
      (fun _ => trivial) _) _) ?_
    rintro (e : Option (PyErr Sha)) g' rfl
    cases e with
    | some e => exact nofun
    | none => exact fun _ => rfl

end Watching

/-! ## What `put_file` heeds -/

omit [DecidableEq Sha] in
theorem heeds_release (sha : Sha) :
    (release sha : StoreProg Sha _).Heeds DeleteRaised (· ≠ none) := by
  refine fun handle => ⟨False.elim, ?_⟩
  cases handle with
  | none => trivial
  | some h => exact fun e => ⟨fun he => he, trivial⟩

omit [DecidableEq Sha] in
theorem heeds_releaseAll (hs : List Sha) :
    (releaseAll hs : StoreProg Sha _).Heeds DeleteRaised (· ≠ none) := by
  induction hs with
  | nil => trivial
  | cons sha hs ih =>
    apply (heeds_release sha).bind
    · intro e he
      cases e with
      | some e => exact nofun
      | none => exact absurd rfl he
    · intro e
      cases e with
      | some e => trivial
      | none => exact ih

omit [DecidableEq Sha] in
/-- Actions other than deletes raise no alarm. -/
def Deletes : Act Sha → Prop
  | .delete _ => True
  | _ => False

variable [Sha256 Sha] {cfg : StoreConfig} {ino : Ino} {size : Nat} {dirty : Option (Finset Nat)}

theorem heeds_putBody {rows : List (Chunk Sha)} {P : PutState Sha × Option (PyErr Sha) → Prop} :
    (putBody cfg ino size dirty rows).Heeds DeleteRaised P := by
  have hquiet : ∀ a : Act Sha, ¬ Deletes a → ∀ r, ¬ DeleteRaised a r := by
    intro a ha r
    cases a <;> first | exact absurd trivial ha | exact id
  apply Prog.Heeds.ofAll
  apply (all_putLoop (fun _ => hquiet _ id) (fun _ => hquiet _ id) (fun _ => hquiet _ id)
    (fun _ _ => hquiet _ id) (fun _ _ => hquiet _ id) _).bind
  rintro ⟨st, e⟩
  cases e with
  | some e => trivial
  | none =>
    apply (all_results (fun _ => hquiet _ id) _).bind
    intro e
    cases e with
    | some e => trivial
    | none => exact (all_increfAll (fun _ => hquiet _ id) _).bind fun _ => trivial

theorem heeds_putFile :
    (putFile cfg ino size dirty : StoreProg Sha _).Heeds DeleteRaised (· ≠ .ok ()) := by
  refine fun rows => ⟨False.elim, ?_⟩
  apply heeds_putBody.bind (Q := fun _ => False)
  · exact fun _ => False.elim
  rintro ⟨st, e⟩
  cases e with
  | some e =>
    apply (Prog.Heeds.of_forall (fun _ => trivial) _).bind (Q := fun _ => True)
    · intro e' _
      cases e' <;> exact nofun
    · intro e'
      cases e' <;> trivial
  | none =>
    refine fun _ => ⟨False.elim, fun _ => ⟨False.elim, ?_⟩⟩
    apply (heeds_releaseAll _).bind
    · intro e he
      cases e with
      | some e => exact nofun
      | none => exact absurd rfl he
    · intro e
      cases e <;> trivial

/-- A `put_file` that returns met no failing delete. -/
theorem putFile_calm (hold : ∀ t ∈ s.tasks, t.phase.settled = true) (n : Nat)
    (hok : (machine.seqRun src ts (putFile cfg ino size dirty) n s).1 = .ok ()) :
    machine.seqRun src (fun k => (ts k).calm) (putFile cfg ino size dirty) n s =
      machine.seqRun src ts (putFile cfg ino size dirty) n s := by
  have hsafe : WatchSafe s.tasks src _ (putFile cfg ino size dirty) 0 := watch_putFile hold
  obtain ⟨g, hg, hw⟩ := hsafe.run hold ts n
  obtain rfl := hg hok
  exact (seqRun_calm heeds_putFile n s).2 hw.spoils_eq (fun hne => hne hok)

end Store

end Tgfs
