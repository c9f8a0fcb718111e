import Tgfs.Misc.Run

/-!
# A database connection with an implicit transaction

The first change of the tables opens a transaction, and `commit` ends it. A statement that
violates a constraint is undone alone: what the statements before it changed stays pending,
and whoever uses the connection next sees it and commits it.
-/

namespace Tgfs

/-- What is durable, and what the statements on the connection see. -/
structure Conn (D : Type) where
  durable : D
  tables : D
  deriving DecidableEq, Repr

/-- Statements on a connection. -/
abbrev ConnRun (D ε α : Type) : Type := Run Unit (Conn D) ε α

namespace Conn

variable {D ε α β : Type}

/-- A query. -/
def select (f : D → α) : ConnRun D ε α := Run.gets fun c => f c.tables

/-- A change that no constraint can stop. -/
def update (f : D → D) : ConnRun D ε Unit := Run.modify fun c => { c with tables := f c.tables }

/-- A change that returns something, such as the id of a new row. -/
def updateGet (f : D → α × D) : ConnRun D ε α :=
  Run.modifyGet fun c => ((f c.tables).1, { c with tables := (f c.tables).2 })

/-- A change that a constraint may stop. -/
def execute (f : D → Except ε D) : ConnRun D ε Unit :=
  Run.attempt fun c => match f c.tables with
    | .ok d => (.ok (), { c with tables := d })
    | .error e => (.error e, c)

def commit : ConnRun D ε Unit := Run.modify fun c => { c with durable := c.tables }

open Run (Wp)

variable {ts : Nat → Unit} {c : Conn D} {Q : Except ε β → Conn D → Prop}

@[simp] theorem wp_select_bind {f : D → α} {g : α → ConnRun D ε β} :
    Wp ts (select f >>= g) Q c ↔ Wp ts (g (f c.tables)) Q c := Iff.rfl

@[simp] theorem wp_update_bind {f : D → D} {g : Unit → ConnRun D ε β} :
    Wp ts (update f >>= g) Q c ↔ Wp ts (g ()) Q { c with tables := f c.tables } := Iff.rfl

@[simp] theorem wp_updateGet_bind {f : D → α × D} {g : α → ConnRun D ε β} :
    Wp ts (updateGet f >>= g) Q c ↔
      Wp ts (g (f c.tables).1) Q { c with tables := (f c.tables).2 } := Iff.rfl

@[simp] theorem wp_commit_bind {g : Unit → ConnRun D ε β} :
    Wp ts (commit >>= g) Q c ↔ Wp ts (g ()) Q { c with durable := c.tables } := Iff.rfl

@[simp] theorem wp_commit {Q : Except ε Unit → Conn D → Prop} :
    Wp ts commit Q c ↔ Q (.ok ()) { c with durable := c.tables } := Run.wp_modify

theorem wp_execute_bind {f : D → Except ε D} {g : Unit → ConnRun D ε β} :
    Wp ts (execute f >>= g) Q c ↔ match f c.tables with
      | .ok d => Wp ts (g ()) Q { c with tables := d }
      | .error e => Q (.error e) c := by
  have hrun : ∀ n, (execute f >>= g) ts n c = match f c.tables with
      | .ok d => g () ts n { c with tables := d }
      | .error e => (.error e, n, c) := by
    intro n
    rw [Run.bind_run]
    unfold execute Run.attempt
    dsimp only
    cases f c.tables <;> rfl
  unfold Wp
  simp only [hrun]
  cases f c.tables with
  | ok d => exact Iff.rfl
  | error e => exact ⟨fun h => h 0, fun h _ => h⟩

/-! ## Related connections -/

/-- The tables are related, those that are durable and those that are seen. -/
structure Like (R : D → D → Prop) (c c' : Conn D) : Prop where
  durable : R c.durable c'.durable
  tables : R c.tables c'.tables

/-- From related connections, code returns the same and leaves related connections. -/
def Respects (R : D → D → Prop) (m : ConnRun D ε α) : Prop :=
  ∀ ts n c c', Like R c c' →
    (m ts n c).1 = (m ts n c').1 ∧ (m ts n c).2.1 = (m ts n c').2.1 ∧
      Like R (m ts n c).2.2 (m ts n c').2.2

section Respects

variable {R : D → D → Prop}

theorem respects_pure (a : α) : Respects R (pure a : ConnRun D ε α) :=
  fun _ _ _ _ h => ⟨rfl, rfl, h⟩

theorem respects_raise (e : ε) : Respects R (Run.raise e : ConnRun D ε α) :=
  fun _ _ _ _ h => ⟨rfl, rfl, h⟩

theorem respects_select {f : D → α} (hf : ∀ {d d'}, R d d' → f d = f d') :
    Respects R (select f : ConnRun D ε α) :=
  fun _ _ _ _ h => ⟨congrArg Except.ok (hf h.tables), rfl, h⟩

theorem respects_update {f : D → D} (hf : ∀ {d d'}, R d d' → R (f d) (f d')) :
    Respects R (update f : ConnRun D ε Unit) :=
  fun _ _ _ _ h => ⟨rfl, rfl, h.durable, hf h.tables⟩

theorem respects_updateGet {f : D → α × D}
    (hf : ∀ {d d'}, R d d' → (f d).1 = (f d').1 ∧ R (f d).2 (f d').2) :
    Respects R (updateGet f : ConnRun D ε α) :=
  fun _ _ _ _ h => ⟨congrArg Except.ok (hf h.tables).1, rfl, h.durable, (hf h.tables).2⟩

theorem respects_commit : Respects R (commit : ConnRun D ε Unit) :=
  fun _ _ _ _ h => ⟨rfl, rfl, h.tables, h.tables⟩

/-- A statement that the same states of the tables stop. -/
theorem respects_execute {p : D → Prop} [DecidablePred p] {f : D → D} {e : ε}
    (hp : ∀ {d d'}, R d d' → (p d ↔ p d')) (hf : ∀ {d d'}, R d d' → ¬ p d → R (f d) (f d')) :
    Respects R (execute fun d => if p d then .error e else .ok (f d)) := by
  intro ts n c c' h
  have hiff := hp h.tables
  unfold execute Run.attempt
  by_cases hc : p c.tables
  · dsimp only
    rw [if_pos hc, if_pos (hiff.mp hc)]
    exact ⟨rfl, rfl, h⟩
  · dsimp only
    rw [if_neg hc, if_neg (mt hiff.mpr hc)]
    exact ⟨rfl, rfl, h.durable, hf h.tables hc⟩

theorem Respects.bind {m : ConnRun D ε α} {g : α → ConnRun D ε β} (hm : Respects R m)
    (hg : ∀ a, Respects R (g a)) : Respects R (m >>= g) := by
  intro ts n c c' h
  have hstep := hm ts n c c' h
  rw [Run.bind_run, Run.bind_run]
  generalize m ts n c = o at hstep ⊢
  generalize m ts n c' = o' at hstep ⊢
  obtain ⟨r, n₁, c₁⟩ := o
  obtain ⟨r', n₁', c₁'⟩ := o'
  obtain ⟨rfl, rfl, hc⟩ := hstep
  cases r with
  | ok a => exact hg a ts n₁ c₁ c₁' hc
  | error e => exact ⟨rfl, rfl, hc⟩

theorem Respects.ite {p : Prop} [Decidable p] {m m' : ConnRun D ε α} (hm : Respects R m)
    (hm' : Respects R m') : Respects R (if p then m else m') := by
  split
  · exact hm
  · exact hm'

end Respects

end Conn

end Tgfs
