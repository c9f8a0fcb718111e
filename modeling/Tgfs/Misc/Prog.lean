import Mathlib.Data.List.Forall2
import Mathlib.Algebra.BigOperators.Group.List.Basic
import Mathlib.Tactic.Abel

/-!
# Programs made of atomic actions

A `Prog A R α` is a finite tree of atomic actions `a : A`, each continued by its reply in
`R a`. The same program text is run in two ways: by a single thread (`Machine.seqRun`), with a
pool of helper steps running underneath, and by several threads whose actions interleave
(`Machine.run`).

`Machine.Safe` is a proof rule for both. Each thread owns a resource `g` of a commutative
monoid and a shared invariant `I` speaks about the sum of everything owned; an action must
re-establish `I` whatever the rest `o` of the sum is. No thread ever looks at another one's
program.
-/

namespace Tgfs

inductive Prog (A : Type) (R : A → Type) (α : Type) where
  | ret (a : α)
  | act (a : A) (k : R a → Prog A R α)

namespace Prog

variable {A : Type} {R : A → Type} {α β γ : Type}

def bind : Prog A R α → (α → Prog A R β) → Prog A R β
  | .ret a, f => f a
  | .act a k, f => .act a fun r => (k r).bind f

instance : Monad (Prog A R) where
  pure := .ret
  bind := Prog.bind

@[simp] theorem pure_eq (a : α) : (pure a : Prog A R α) = .ret a := rfl
@[simp] theorem bind_eq (p : Prog A R α) (f : α → Prog A R β) : p >>= f = p.bind f := rfl
@[simp] theorem ret_bind (a : α) (f : α → Prog A R β) : (Prog.ret a).bind f = f a := rfl
@[simp] theorem act_bind (a : A) (k : R a → Prog A R α) (f : α → Prog A R β) :
    (Prog.act a k).bind f = .act a fun r => (k r).bind f := rfl

theorem bind_assoc (p : Prog A R α) (f : α → Prog A R β) (g : β → Prog A R γ) :
    (p.bind f).bind g = p.bind fun a => (f a).bind g := by
  induction p with
  | ret a => rfl
  | act a k ih => simp only [act_bind, ih]

/-- Every action the program can ever perform satisfies `P`. -/
def All (P : A → Prop) : Prog A R α → Prop
  | .ret _ => True
  | .act a k => P a ∧ ∀ r, (k r).All P

theorem All.mono {P Q : A → Prop} {p : Prog A R α} (h : p.All P) (hPQ : ∀ a, P a → Q a) :
    p.All Q := by
  induction p with
  | ret a => trivial
  | act a k ih => exact ⟨hPQ a h.1, fun r => ih r (h.2 r)⟩

theorem All.bind {P : A → Prop} {p : Prog A R α} {f : α → Prog A R β} (hp : p.All P)
    (hf : ∀ a, (f a).All P) : (p.bind f).All P := by
  induction p with
  | ret a => exact hf a
  | act a k ih => exact ⟨hp.1, fun r => ih r (hp.2 r)⟩

/-- Every result the program can ever return satisfies `P`. -/
def Ends (P : α → Prop) : Prog A R α → Prop
  | .ret a => P a
  | .act _ k => ∀ r, (k r).Ends P

theorem Ends.bind {Q : α → Prop} {P : β → Prop} {p : Prog A R α} {f : α → Prog A R β}
    (hp : p.Ends Q) (hf : ∀ a, Q a → (f a).Ends P) : (p.bind f).Ends P := by
  induction p with
  | ret a => exact hf a hp
  | act a k ih => exact fun r => ih r (hp r)

/-- After a reply that raises the alarm, whatever the program returns satisfies `P`. -/
def Heeds (alarm : (a : A) → R a → Prop) (P : α → Prop) : Prog A R α → Prop
  | .ret _ => True
  | .act a k => ∀ r, (alarm a r → (k r).Ends P) ∧ (k r).Heeds alarm P

variable {alarm : (a : A) → R a → Prop}

theorem Heeds.bind {Q : α → Prop} {P : β → Prop} {p : Prog A R α} {f : α → Prog A R β}
    (hp : p.Heeds alarm Q) (hend : ∀ a, Q a → (f a).Ends P) (hf : ∀ a, (f a).Heeds alarm P) :
    (p.bind f).Heeds alarm P := by
  induction p with
  | ret a => exact hf a
  | act a k ih => exact fun r => ⟨fun hr => ((hp r).1 hr).bind hend, ih r (hp r).2⟩

theorem Ends.of_forall {P : α → Prop} (hP : ∀ a, P a) (p : Prog A R α) : p.Ends P := by
  induction p with
  | ret a => exact hP a
  | act a k ih => exact ih

/-- Every program heeds what does not matter for its result. -/
theorem Heeds.of_forall {P : α → Prop} (hP : ∀ a, P a) (p : Prog A R α) : p.Heeds alarm P := by
  induction p with
  | ret a => trivial
  | act a k ih => exact fun r => ⟨fun _ => Ends.of_forall hP _, ih r⟩

/-- Without actions that raise the alarm there is nothing to heed. -/
theorem Heeds.ofAll {P : α → Prop} {p : Prog A R α} (hp : p.All fun a => ∀ r, ¬ alarm a r) :
    p.Heeds alarm P := by
  induction p with
  | ret a => trivial
  | act a k ih => exact fun r => ⟨fun hr => absurd hr (hp.1 r), ih r (hp.2 r)⟩

end Prog

/-- How actions are carried out on a state `S`. `T` is what the surroundings decide about one
action, `X` what a thread brings with it, and `E` are the steps of helpers that run beside the
threads. An action that is not `ready` blocks its thread; letting the helpers `finish` ends
every block. -/
structure Machine (A : Type) (R : A → Type) (S T E X : Type) where
  ready : A → S → Bool
  exec : X → T → (a : A) → S → R a × S
  env : E → S → S
  before : T → List E
  finish : T → S → List E
  ready_finish : ∀ t a s, ready a ((finish t s).foldl (fun s e => env e s) s) = true

namespace Machine

variable {A : Type} {R : A → Type} {S T E X α β : Type} (M : Machine A R S T E X)

def runEnv (es : List E) (s : S) : S := es.foldl (fun s e => M.env e s) s

@[simp] theorem runEnv_nil (s : S) : M.runEnv [] s = s := rfl
@[simp] theorem runEnv_cons (e : E) (es : List E) (s : S) :
    M.runEnv (e :: es) s = M.runEnv es (M.env e s) := rfl

/-- The state in which action `a` is carried out: helpers first take the steps the tick names,
and if the action is still blocked they run until it is not. -/
def turn (t : T) (a : A) (s : S) : S :=
  if M.ready a (M.runEnv (M.before t) s) then M.runEnv (M.before t) s
  else M.runEnv (M.finish t (M.runEnv (M.before t) s)) (M.runEnv (M.before t) s)

theorem ready_turn (t : T) (a : A) (s : S) : M.ready a (M.turn t a s) = true := by
  unfold turn
  split
  · assumption
  · exact M.ready_finish t a _

/-- The program run by one thread from tick number `n` on: its result, the number of the next
tick and the state it leaves. -/
def seqRun (x : X) (ts : Nat → T) : Prog A R α → Nat → S → α × Nat × S
  | .ret a, n, s => (a, n, s)
  | .act a k, n, s =>
    let p := M.exec x (ts n) a (M.turn (ts n) a s)
    seqRun x ts (k p.1) (n + 1) p.2

@[simp] theorem seqRun_ret (x : X) (ts : Nat → T) (a : α) (n : Nat) (s : S) :
    M.seqRun x ts (.ret a : Prog A R α) n s = (a, n, s) := rfl

theorem seqRun_act (x : X) (ts : Nat → T) (a : A) (k : R a → Prog A R α) (n : Nat) (s : S) :
    M.seqRun x ts (.act a k) n s =
      M.seqRun x ts (k (M.exec x (ts n) a (M.turn (ts n) a s)).1) (n + 1)
        (M.exec x (ts n) a (M.turn (ts n) a s)).2 := rfl

theorem seqRun_bind (x : X) (ts : Nat → T) (p : Prog A R α) (f : α → Prog A R β) (n : Nat)
    (s : S) :
    M.seqRun x ts (p.bind f) n s =
      M.seqRun x ts (f (M.seqRun x ts p n s).1) (M.seqRun x ts p n s).2.1
        (M.seqRun x ts p n s).2.2 := by
  induction p generalizing n s with
  | ret a => rfl
  | act a k ih => simp only [Prog.act_bind, seqRun_act, ih]

theorem ends_seqRun {P : α → Prop} (x : X) (ts : Nat → T) {p : Prog A R α} (hp : p.Ends P)
    (n : Nat) (s : S) : P (M.seqRun x ts p n s).1 := by
  induction p generalizing n s with
  | ret a => exact hp
  | act a k ih => exact ih _ (hp _) _ _

/-- An action of the run got a reply that raises the alarm. -/
def Alarmed (alarm : (a : A) → R a → Prop) (x : X) (ts : Nat → T) : Prog A R α → Nat → S → Prop
  | .ret _, _, _ => False
  | .act a k, n, s =>
    let p := M.exec x (ts n) a (M.turn (ts n) a s)
    alarm a p.1 ∨ Alarmed alarm x ts (k p.1) (n + 1) p.2

instance Alarmed.decide (alarm : (a : A) → R a → Prop) [∀ a r, Decidable (alarm a r)] (x : X)
    (ts : Nat → T) : ∀ (p : Prog A R α) (n : Nat) (s : S), Decidable (M.Alarmed alarm x ts p n s)
  | .ret _, _, _ => isFalse id
  | .act a k, n, s =>
    @instDecidableOr _ _ inferInstance (Alarmed.decide alarm x ts
      (k (M.exec x (ts n) a (M.turn (ts n) a s)).1) (n + 1) (M.exec x (ts n) a (M.turn (ts n) a s)).2)

/-- What a program heeds shows in its result. -/
theorem Alarmed.ends {alarm : (a : A) → R a → Prop} {P : α → Prop} {x : X} {ts : Nat → T}
    {p : Prog A R α} (hp : p.Heeds alarm P) {n : Nat} {s : S} (h : M.Alarmed alarm x ts p n s) :
    P (M.seqRun x ts p n s).1 := by
  induction p generalizing n s with
  | ret a => exact h.elim
  | act a k ih =>
    obtain ⟨hend, hheed⟩ := hp (M.exec x (ts n) a (M.turn (ts n) a s)).1
    rcases h with h | h
    · exact M.ends_seqRun x ts (hend h) _ _
    · exact ih _ hheed h

theorem not_alarmed_of_all {alarm : (a : A) → R a → Prop} {x : X} {ts : Nat → T} {p : Prog A R α}
    (hp : p.All fun a => ∀ r, ¬ alarm a r) {n : Nat} {s : S} : ¬ M.Alarmed alarm x ts p n s :=
  fun h => h.ends M (P := fun _ => False) (Prog.Heeds.ofAll hp)

theorem alarmed_bind {alarm : (a : A) → R a → Prop} {x : X} {ts : Nat → T} {p : Prog A R α}
    {f : α → Prog A R β} {n : Nat} {s : S} :
    M.Alarmed alarm x ts (p.bind f) n s ↔ M.Alarmed alarm x ts p n s ∨
      M.Alarmed alarm x ts (f (M.seqRun x ts p n s).1) (M.seqRun x ts p n s).2.1
        (M.seqRun x ts p n s).2.2 := by
  induction p generalizing n s with
  | ret a => simp [Alarmed]
  | act a k ih =>
    simp only [Prog.act_bind, Alarmed, seqRun_act, ih, or_assoc]

/-- An action of the run failed, and with the reply `instead` the program would have come to an
action that raises the alarm. -/
def Missed (instead : (a : A) → R a → Option (R a)) (alarm : (a : A) → R a → Prop) (x : X)
    (ts : Nat → T) : Prog A R α → Nat → S → Prop
  | .ret _, _, _ => False
  | .act a k, n, s =>
    let p := M.exec x (ts n) a (M.turn (ts n) a s)
    (∃ r ∈ instead a p.1, M.Alarmed alarm x ts (k r) (n + 1) p.2) ∨
      Missed instead alarm x ts (k p.1) (n + 1) p.2

instance Missed.decide (instead : (a : A) → R a → Option (R a)) (alarm : (a : A) → R a → Prop)
    [∀ a r, Decidable (alarm a r)] (x : X) (ts : Nat → T) :
    ∀ (p : Prog A R α) (n : Nat) (s : S), Decidable (M.Missed instead alarm x ts p n s)
  | .ret _, _, _ => isFalse id
  | .act a k, n, s =>
    @instDecidableOr _ _ inferInstance (Missed.decide instead alarm x ts
      (k (M.exec x (ts n) a (M.turn (ts n) a s)).1) (n + 1) (M.exec x (ts n) a (M.turn (ts n) a s)).2)

variable {instead : (a : A) → R a → Option (R a)} {alarm : (a : A) → R a → Prop} {x : X}
  {ts : Nat → T}

section Step

variable {a : A} {k : R a → Prog A R α} {n : Nat} {s s' : S} {r : R a}
  (h : M.exec x (ts n) a (M.turn (ts n) a s) = (r, s'))
include h

theorem seqRun_step : M.seqRun x ts (.act a k) n s = M.seqRun x ts (k r) (n + 1) s' := by
  rw [seqRun_act, h]

theorem alarmed_step : M.Alarmed alarm x ts (.act a k) n s ↔
    alarm a r ∨ M.Alarmed alarm x ts (k r) (n + 1) s' := by
  simp only [Alarmed, h]

theorem missed_step : M.Missed instead alarm x ts (.act a k) n s ↔
    (∃ r' ∈ instead a r, M.Alarmed alarm x ts (k r') (n + 1) s') ∨
      M.Missed instead alarm x ts (k r) (n + 1) s' := by
  simp only [Missed, h]

end Step

/-- Nothing is missed before the first action that may fail. -/
theorem missed_bind {p : Prog A R α} (hp : p.All fun a => ∀ r, instead a r = none)
    {f : α → Prog A R β} {n : Nat} {s : S} :
    M.Missed instead alarm x ts (p.bind f) n s ↔
      M.Missed instead alarm x ts (f (M.seqRun x ts p n s).1) (M.seqRun x ts p n s).2.1
        (M.seqRun x ts p n s).2.2 := by
  induction p generalizing n s with
  | ret a => exact Iff.rfl
  | act a k ih =>
    simp only [Prog.act_bind, Missed, seqRun_act, hp.1, Option.mem_def, reduceCtorEq, false_and,
      exists_false, false_or]
    exact ih _ (hp.2 _)

/-- What a program makes of its result in the end is not missed. -/
theorem missed_bind_ret {p : Prog A R α} {f : α → Prog A R β} (hf : ∀ a, ∃ b, f a = .ret b)
    {n : Nat} {s : S} :
    M.Missed instead alarm x ts (p.bind f) n s ↔ M.Missed instead alarm x ts p n s := by
  have hret : ∀ a n s, ¬ M.Alarmed alarm x ts (f a) n s := by
    intro a n s
    obtain ⟨b, hb⟩ := hf a
    rw [hb]
    exact id
  induction p generalizing n s with
  | ret a =>
    obtain ⟨b, hb⟩ := hf a
    rw [Prog.ret_bind, hb]
    exact Iff.rfl
  | act a k ih =>
    simp only [Prog.act_bind, Missed, ih, alarmed_bind, hret, or_false]

/-- The actions that a run performs, in their order. -/
def acts (x : X) (ts : Nat → T) : Prog A R α → Nat → S → List A
  | .ret _, _, _ => []
  | .act a k, n, s =>
    let p := M.exec x (ts n) a (M.turn (ts n) a s)
    a :: acts x ts (k p.1) (n + 1) p.2

/-- An action of the run that raises the alarm wherever it is carried out. -/
theorem alarmed_of_acts {alarm : (a : A) → R a → Prop} {x : X} {ts : Nat → T} {b : A}
    (halarm : ∀ t s, alarm b (M.exec x t b s).1) {p : Prog A R α} {n : Nat} {s : S}
    (h : b ∈ M.acts x ts p n s) : M.Alarmed alarm x ts p n s := by
  induction p generalizing n s with
  | ret a => simp [acts] at h
  | act a k ih =>
    rcases List.mem_cons.mp h with rfl | h
    · exact .inl (halarm _ _)
    · exact .inr (ih _ h)

/-- Two threads run alike if their own data makes no difference to the actions performed. -/
theorem seqRun_congr {x x' : X} {ts : Nat → T} {p : Prog A R α} {n : Nat} {s : S}
    (h : ∀ a ∈ M.acts x ts p n s, ∀ t s, M.exec x t a s = M.exec x' t a s) :
    M.seqRun x ts p n s = M.seqRun x' ts p n s := by
  induction p generalizing n s with
  | ret a => rfl
  | act a k ih =>
    rw [seqRun_act, seqRun_act, ← h a List.mem_cons_self]
    apply ih
    intro b hb
    exact h b (List.mem_cons_of_mem _ hb)

theorem acts_bind (x : X) (ts : Nat → T) (p : Prog A R α) (f : α → Prog A R β) (n : Nat) (s : S) :
    M.acts x ts (p.bind f) n s = M.acts x ts p n s ++
      M.acts x ts (f (M.seqRun x ts p n s).1) (M.seqRun x ts p n s).2.1
        (M.seqRun x ts p n s).2.2 := by
  induction p generalizing n s with
  | ret a => rfl
  | act a k ih =>
    simp only [Prog.act_bind, acts, seqRun_act, List.cons_append, ih]

/-- What a program can ever perform, its runs perform. -/
theorem acts_of_all {P : A → Prop} {x : X} {ts : Nat → T} {p : Prog A R α} (hp : p.All P)
    {n : Nat} {s : S} : ∀ a ∈ M.acts x ts p n s, P a := by
  induction p generalizing n s with
  | ret a => simp [acts]
  | act a k ih =>
    intro b hb
    rcases List.mem_cons.mp hb with rfl | hb
    · exact hp.1
    · exact ih _ (hp.2 _) b hb

/-! ## Interleaved threads -/

variable (A R X α) in
structure Thread where
  arg : X
  prog : Prog A R α
  /-- Whether the thread has performed an action yet. -/
  started : Bool

variable (A R S X α) in
structure Pool where
  state : S
  threads : List (Thread A R X α)

variable (T E) in
inductive Label where
  | main (i : Nat) (t : T)
  | env (e : E)

/-- One step: thread `i` performs its next action, or a helper takes a step. A thread that has
returned or is blocked stays where it is. -/
def step : Label T E → Pool A R S X α → Pool A R S X α
  | .env e, c => { c with state := M.env e c.state }
  | .main i t, c =>
    match c.threads[i]? with
    | some ⟨x, .act a k, _⟩ =>
      if M.ready a c.state then
        let p := M.exec x t a c.state
        { state := p.2, threads := c.threads.set i ⟨x, k p.1, true⟩ }
      else c
    | _ => c

def run (ls : List (Label T E)) (c : Pool A R S X α) : Pool A R S X α :=
  ls.foldl (fun c l => M.step l c) c

theorem args_step (l : Label T E) (c : Pool A R S X α) :
    (M.step l c).threads.map (·.arg) = c.threads.map (·.arg) := by
  cases l with
  | env e => rfl
  | main i t =>
    simp only [step]
    split
    case h_2 => rfl
    case h_1 x a k st hth =>
      split
      case isFalse => rfl
      case isTrue =>
        obtain ⟨hi, hget⟩ := List.getElem?_eq_some_iff.mp hth
        have hi' : i < (c.threads.map (·.arg)).length := by simpa
        have hx : x = (c.threads.map (·.arg))[i] := by simp [hget]
        rw [List.map_set]
        exact (congrArg (List.set _ i) hx).trans (List.set_getElem_self hi')

/-- Threads keep what they brought. -/
theorem args_run (ls : List (Label T E)) (c : Pool A R S X α) :
    (M.run ls c).threads.map (·.arg) = c.threads.map (·.arg) := by
  induction ls generalizing c with
  | nil => rfl
  | cons l ls ih => exact (ih _).trans (M.args_step l c)

/-! ## What every step keeps -/

section Stable

variable {M} {P : S → Prop} (hexec : ∀ x t a s, P s → P (M.exec x t a s).2)
  (henv : ∀ e s, P s → P (M.env e s))
include henv

theorem runEnv_stable (es : List E) {s : S} (h : P s) : P (M.runEnv es s) := by
  induction es generalizing s with
  | nil => exact h
  | cons e es ih => exact ih (henv e s h)

theorem turn_stable (t : T) (a : A) {s : S} (h : P s) : P (M.turn t a s) := by
  unfold turn
  split
  · exact runEnv_stable henv _ h
  · exact runEnv_stable henv _ (runEnv_stable henv _ h)

/-- What helpers and the actions of a program keep, the program keeps. -/
theorem seqRun_all {Q : A → Prop} {x : X} (hexec : ∀ a, Q a → ∀ t s, P s → P (M.exec x t a s).2)
    {ts : Nat → T} {p : Prog A R α} (hp : p.All Q) (n : Nat) {s : S} (h : P s) :
    P (M.seqRun x ts p n s).2.2 := by
  induction p generalizing n s with
  | ret a => exact h
  | act a k ih =>
    rw [seqRun_act]
    exact ih _ (hp.2 _) _ (hexec a hp.1 _ _ (turn_stable henv _ _ h))

include hexec

/-- What every action and every helper keeps, a program keeps. -/
theorem seqRun_stable (x : X) (ts : Nat → T) (p : Prog A R α) (n : Nat) {s : S} (h : P s) :
    P (M.seqRun x ts p n s).2.2 := by
  induction p generalizing n s with
  | ret a => exact h
  | act a k ih =>
    rw [seqRun_act]
    apply ih
    apply hexec
    exact turn_stable henv _ _ h

/-- The same for threads that interleave. -/
theorem run_stable (ls : List (Label T E)) {c : Pool A R S X α} (h : P c.state) :
    P (M.run ls c).state := by
  induction ls generalizing c with
  | nil => exact h
  | cons l ls ih =>
    apply ih
    cases l with
    | env e => exact henv e _ h
    | main i t =>
      simp only [step]
      split
      case h_2 => exact h
      case h_1 =>
        split
        case isFalse => exact h
        case isTrue => exact hexec _ _ _ _ h

end Stable

/-! ## Runs in which nothing goes wrong -/

/-- The ticks `hush t` decide as `t` does, except that nothing goes wrong. Where a step of a
helper goes wrong, the `harm` done so far grows; where an action does, it raises the alarm. -/
structure Hushes (alarm : (a : A) → R a → Prop) (x : X) (harm : S → Nat) (hush : T → T)
    (hushE : E → E) : Prop where
  before : ∀ t, M.before (hush t) = (M.before t).map hushE
  finish : ∀ t s, M.finish (hush t) s = (M.finish t s).map hushE
  env : ∀ e s, harm s ≤ harm (M.env e s) ∧
    (harm (M.env e s) = harm s → M.env (hushE e) s = M.env e s)
  exec : ∀ t a s, harm s ≤ harm (M.exec x t a s).2 ∧
    (¬ alarm a (M.exec x t a s).1 → M.exec x (hush t) a s = M.exec x t a s)

namespace Hushes

variable {M} {alarm : (a : A) → R a → Prop} {x : X} {harm : S → Nat} {hush : T → T}
  {hushE : E → E}

theorem runEnv (h : M.Hushes alarm x harm hush hushE) (es : List E) (s : S) :
    harm s ≤ harm (M.runEnv es s) ∧
      (harm (M.runEnv es s) = harm s → M.runEnv (es.map hushE) s = M.runEnv es s) := by
  induction es generalizing s with
  | nil => exact ⟨le_rfl, fun _ => rfl⟩
  | cons e es ih =>
    obtain ⟨hle, heq⟩ := h.env e s
    obtain ⟨hle', heq'⟩ := ih (M.env e s)
    rw [List.map_cons, runEnv_cons, runEnv_cons]
    refine ⟨hle.trans hle', fun hsame => ?_⟩
    rw [heq (by omega)]
    exact heq' (by omega)

theorem turn (h : M.Hushes alarm x harm hush hushE) (t : T) (a : A) (s : S) :
    harm s ≤ harm (M.turn t a s) ∧
      (harm (M.turn t a s) = harm s → M.turn (hush t) a s = M.turn t a s) := by
  obtain ⟨hle, heq⟩ := h.runEnv (M.before t) s
  obtain ⟨hle', heq'⟩ := h.runEnv (M.finish t (M.runEnv (M.before t) s)) (M.runEnv (M.before t) s)
  rw [← h.finish] at heq'
  unfold Machine.turn
  rw [h.before]
  by_cases hr : M.ready a (M.runEnv (M.before t) s) = true
  · rw [if_pos hr]
    refine ⟨hle, fun hsame => ?_⟩
    rw [heq hsame, if_pos hr]
  · rw [if_neg hr]
    refine ⟨hle.trans hle', fun hsame => ?_⟩
    rw [heq (by omega), if_neg hr]
    exact heq' (by omega)

/-- A run that does no harm and raises no alarm is the run in which nothing goes wrong. -/
theorem seqRun (h : M.Hushes alarm x harm hush hushE) (ts : Nat → T) (p : Prog A R α) (n : Nat)
    (s : S) : harm s ≤ harm (M.seqRun x ts p n s).2.2 ∧
      (harm (M.seqRun x ts p n s).2.2 = harm s → ¬ M.Alarmed alarm x ts p n s →
        M.seqRun x (fun k => hush (ts k)) p n s = M.seqRun x ts p n s) := by
  induction p generalizing n s with
  | ret a => exact ⟨le_rfl, fun _ _ => rfl⟩
  | act a k ih =>
    obtain ⟨hturn, hturn'⟩ := h.turn (ts n) a s
    obtain ⟨hexec, hexec'⟩ := h.exec (ts n) a (M.turn (ts n) a s)
    obtain ⟨hrest, hrest'⟩ := ih (M.exec x (ts n) a (M.turn (ts n) a s)).1 (n + 1)
      (M.exec x (ts n) a (M.turn (ts n) a s)).2
    rw [seqRun_act, seqRun_act]
    refine ⟨hturn.trans (hexec.trans hrest), fun hsame hquiet => ?_⟩
    obtain ⟨hnow, hlater⟩ := not_or.mp hquiet
    rw [hturn' (by omega), hexec' hnow]
    exact hrest' (by omega) hlater

end Hushes

/-- The machine whose threads bring more than `M` looks at. -/
def comap {Y : Type} (f : Y → X) : Machine A R S T E Y :=
  { M with exec := fun y => M.exec (f y) }

/-! ## The proof rule -/

variable {G : Type} [AddCommMonoid G] (I : S → G → Prop) (okT : T → Prop) (okE : E → Prop)

/-- Started with the resource `g`, the program keeps `I` with every action and ends in `post`. -/
def Safe (x : X) (post : α → G → Prop) : Prog A R α → G → Prop
  | .ret a, g => post a g
  | .act a k, g => ∀ s t o, okT t → M.ready a s = true → I s (g + o) →
      ∃ g', I (M.exec x t a s).2 (g' + o) ∧ Safe x post (k (M.exec x t a s).1) g'

/-- What holds of a pool of threads, each safe with its own share of the resources; a thread
that has not started still has its initial share. -/
def PoolSafe (init : X → G) (post : X → α → G → Prop) (c : Pool A R S X α) : Prop :=
  ∃ gs : List G, I c.state gs.sum ∧
    List.Forall₂ (fun th g => M.Safe I okT th.arg (post th.arg) th.prog g ∧
      (th.started = false → g = init th.arg)) c.threads gs

variable {M I okT okE}

theorem Safe.mono {x : X} {post post' : α → G → Prop} {p : Prog A R α} {g : G}
    (h : M.Safe I okT x post p g) (hpost : ∀ a g, post a g → post' a g) :
    M.Safe I okT x post' p g := by
  induction p generalizing g with
  | ret a => exact hpost a g h
  | act a k ih =>
    intro s t o ht hr hI
    obtain ⟨g', hI', hk⟩ := h s t o ht hr hI
    exact ⟨g', hI', ih _ hk⟩

theorem Safe.bind {x : X} {mid : α → G → Prop} {post : β → G → Prop} {p : Prog A R α}
    {f : α → Prog A R β} {g : G} (hp : M.Safe I okT x mid p g)
    (hf : ∀ a g, mid a g → M.Safe I okT x post (f a) g) : M.Safe I okT x post (p.bind f) g := by
  induction p generalizing g with
  | ret a => exact hf a g hp
  | act a k ih =>
    intro s t o ht hr hI
    obtain ⟨g', hI', hk⟩ := hp s t o ht hr hI
    exact ⟨g', hI', ih _ hk⟩

theorem Safe.comap {Y : Type} {f : Y → X} {y : Y} {post : α → G → Prop} {p : Prog A R α} {g : G}
    (h : M.Safe I okT (f y) post p g) : (M.comap f).Safe I okT y post p g := by
  induction p generalizing g with
  | ret a => exact h
  | act a k ih =>
    intro s t o ht hr hI
    obtain ⟨g', hI', hk⟩ := h s t o ht hr hI
    exact ⟨g', hI', ih _ hk⟩

/-- A program all of whose actions keep the invariant with the same resource. -/
theorem Safe.ofAll {x : X} {P : A → Prop} {p : Prog A R α} {g : G}
    (hP : ∀ a, P a → ∀ s t o, I s (g + o) → I (M.exec x t a s).2 (g + o)) (hp : p.All P) :
    M.Safe I okT x (fun _ g' => g' = g) p g := by
  induction p with
  | ret a => rfl
  | act a k ih => exact fun s t o _ _ hI => ⟨g, hP a hp.1 s t o hI, ih _ (hp.2 _)⟩

/-- A fact that the program's actions keep where the invariant holds before and after them can be
carried along with it. -/
theorem Safe.along {J : S → Prop} {P : A → Prop} {x : X} {post : α → G → Prop} {p : Prog A R α}
    {g : G} (hJ : ∀ a t s g g', P a → I s g → I (M.exec x t a s).2 g' → J s →
      J (M.exec x t a s).2) (hp : M.Safe I okT x post p g) (hall : p.All P) :
    M.Safe (fun s g => I s g ∧ J s) okT x post p g := by
  induction p generalizing g with
  | ret a => exact hp
  | act a k ih =>
    intro s t o ht hr h
    obtain ⟨g', hI', hk⟩ := hp s t o ht hr h.1
    exact ⟨g', ⟨hI', hJ a t s _ _ hall.1 h.1 hI' h.2⟩, ih _ hk (hall.2 _)⟩

variable (henv : ∀ e s g, okE e → I s g → I (M.env e s) g)
include henv

omit [AddCommMonoid G] in
theorem runEnv_inv {es : List E} {s : S} {g : G} (hes : ∀ e ∈ es, okE e) (h : I s g) :
    I (M.runEnv es s) g := by
  induction es generalizing s with
  | nil => exact h
  | cons e es ih =>
    exact ih (fun e' he' => hes e' (List.mem_cons_of_mem _ he'))
      (henv e s g (hes e List.mem_cons_self) h)

omit [AddCommMonoid G] in
theorem turn_inv {t : T} {a : A} {s : S} {g : G} (hbefore : ∀ e ∈ M.before t, okE e)
    (hfinish : ∀ s, ∀ e ∈ M.finish t s, okE e) (h : I s g) : I (M.turn t a s) g := by
  have h₁ := runEnv_inv henv hbefore h
  unfold turn
  split
  · exact h₁
  · exact runEnv_inv henv (hfinish _) h₁

/-- A safe program run by one thread ends in its postcondition and keeps the invariant. -/
theorem Safe.seqRun {x : X} {post : α → G → Prop} {p : Prog A R α} {g o : G} {ts : Nat → T}
    {n : Nat} {s : S} (hp : M.Safe I okT x post p g) (hts : ∀ n, okT (ts n))
    (hbefore : ∀ n, ∀ e ∈ M.before (ts n), okE e)
    (hfinish : ∀ n s, ∀ e ∈ M.finish (ts n) s, okE e) (h : I s (g + o)) :
    ∃ g', post (M.seqRun x ts p n s).1 g' ∧ I (M.seqRun x ts p n s).2.2 (g' + o) := by
  induction p generalizing g n s with
  | ret a => exact ⟨g, hp, h⟩
  | act a k ih =>
    obtain ⟨g', hI, hk⟩ := hp _ (ts n) o (hts n) (M.ready_turn (ts n) a s)
      (turn_inv henv (hbefore n) (hfinish n) h)
    rw [seqRun_act]
    exact ih _ hk hI

omit henv in
theorem sum_set_split {gs : List G} {i : Nat} {g : G} (h : gs[i]? = some g) :
    ∃ o, gs.sum = g + o ∧ ∀ g', (gs.set i g').sum = g' + o := by
  obtain ⟨hi, rfl⟩ := List.getElem?_eq_some_iff.mp h
  refine ⟨(gs.take i).sum + (gs.drop (i + 1)).sum, ?_, fun g' => ?_⟩
  · have := List.sum_set gs i gs[i]
    rw [List.set_getElem_self, if_pos hi] at this
    rw [this]
    abel
  · rw [List.sum_set, if_pos hi]
    abel

/-- The step lemma of the rule: any step of any thread or helper keeps the pool safe. -/
theorem PoolSafe.step {init : X → G} {post : X → α → G → Prop} {c : Pool A R S X α}
    {l : Label T E} (hl : match l with | .main _ t => okT t | .env e => okE e)
    (h : M.PoolSafe I okT init post c) : M.PoolSafe I okT init post (M.step l c) := by
  obtain ⟨gs, hI, hall⟩ := h
  cases l with
  | env e => exact ⟨gs, henv e _ _ hl hI, hall⟩
  | main i t =>
    simp only [Machine.step]
    split
    case h_2 => exact ⟨gs, hI, hall⟩
    case h_1 x a k st hth =>
      split
      case isFalse => exact ⟨gs, hI, hall⟩
      case isTrue hr =>
        obtain ⟨hi, hth'⟩ := List.getElem?_eq_some_iff.mp hth
        have hlen := hall.length_eq
        have hg : gs[i]? = some gs[i] := List.getElem?_eq_getElem (by omega)
        have hsafe := List.Forall₂.get hall hi (by omega)
        simp only [List.get_eq_getElem, hth'] at hsafe
        obtain ⟨o, hsum, hset⟩ := sum_set_split hg
        rw [hsum] at hI
        obtain ⟨g', hI', hk⟩ := hsafe.1 _ t o hl hr hI
        refine ⟨gs.set i g', by rw [hset]; exact hI', ?_⟩
        rw [List.forall₂_iff_get]
        refine ⟨by simp [hlen], fun j h₁ h₂ => ?_⟩
        simp only [List.get_eq_getElem, List.getElem_set]
        by_cases hij : i = j
        · simpa [hij] using hk
        · simp only [if_neg hij]
          exact List.Forall₂.get hall (by simpa using h₁) (by simpa using h₂)

/-- The run lemma of the rule. -/
theorem PoolSafe.run {init : X → G} {post : X → α → G → Prop} {c : Pool A R S X α}
    {ls : List (Label T E)} (hls : ∀ l ∈ ls, match l with | .main _ t => okT t | .env e => okE e)
    (h : M.PoolSafe I okT init post c) : M.PoolSafe I okT init post (M.run ls c) := by
  induction ls generalizing c with
  | nil => exact h
  | cons l ls ih =>
    exact ih (fun l' hl' => hls l' (List.mem_cons_of_mem _ hl'))
      (PoolSafe.step henv (hls l List.mem_cons_self) h)

end Machine

end Tgfs
