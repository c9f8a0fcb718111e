import Tgfs.Misc.Prog
import Tgfs.Misc.Run

/-!
# A machine that writes down what it does

`Machine.noting` adds a list of notes to the state. The notes never come back into the run, so
that results and states are those of the machine without them. Sequential code is written down
in the same way: `Run.Erases` says that the notes are all that was added.
-/

namespace Tgfs

namespace Machine

variable {A : Type} {R : A → Type} {S T E X V α : Type}

/-- What is written down at an action and at a step of a helper, in the state before it. -/
structure Notes (A S E V : Type) where
  act : A → S → List V
  env : E → S → List V

variable (M : Machine A R S T E X) (N : Notes A S E V)

theorem foldl_env_fst (es : List E) (s : S × List V) :
    (es.foldl (fun s e => (M.env e s.1, s.2 ++ N.env e s.1)) s).1 =
      es.foldl (fun s e => M.env e s) s.1 := by
  induction es generalizing s with
  | nil => rfl
  | cons e es ih => exact ih _

def noting : Machine A R (S × List V) T E X where
  ready a s := M.ready a s.1
  exec x t a s := ((M.exec x t a s.1).1, (M.exec x t a s.1).2, s.2 ++ N.act a s.1)
  env e s := (M.env e s.1, s.2 ++ N.env e s.1)
  before := M.before
  finish t s := M.finish t s.1
  ready_finish t a s := by
    rw [foldl_env_fst]
    exact M.ready_finish t a s.1

theorem runEnv_noting (es : List E) (s : S × List V) :
    ((M.noting N).runEnv es s).1 = M.runEnv es s.1 := M.foldl_env_fst N es s

theorem turn_noting (t : T) (a : A) (s : S × List V) :
    ((M.noting N).turn t a s).1 = M.turn t a s.1 := by
  have hbefore : ((M.noting N).runEnv ((M.noting N).before t) s).1 =
      M.runEnv (M.before t) s.1 := M.runEnv_noting N _ s
  have hready : (M.noting N).ready a ((M.noting N).runEnv ((M.noting N).before t) s) =
      M.ready a (M.runEnv (M.before t) s.1) := congrArg (M.ready a) hbefore
  unfold turn
  rw [hready]
  split
  · exact hbefore
  · rw [runEnv_noting, hbefore]
    exact congrArg (fun s' => M.runEnv (M.finish t s') _) hbefore

/-- With notes or without, a program returns the same and leaves the same state. -/
theorem seqRun_noting (x : X) (ts : Nat → T) (p : Prog A R α) (n : Nat) (s : S × List V) :
    ((M.noting N).seqRun x ts p n s).1 = (M.seqRun x ts p n s.1).1 ∧
      ((M.noting N).seqRun x ts p n s).2.1 = (M.seqRun x ts p n s.1).2.1 ∧
        ((M.noting N).seqRun x ts p n s).2.2.1 = (M.seqRun x ts p n s.1).2.2 := by
  induction p generalizing n s with
  | ret a => exact ⟨rfl, rfl, rfl⟩
  | act a k ih =>
    rw [seqRun_act, seqRun_act, ← turn_noting M N]
    exact ih _ _ _

end Machine

namespace Run

variable {T S ε V α β : Type}

/-- Code that writes nothing down. -/
def quiet (m : Run T S ε α) : Run T (S × List V) ε α :=
  zoom Prod.fst (fun s' s => (s', s.2)) m

def note (vs : List V) : Run T (S × List V) ε Unit := modify fun s => (s.1, s.2 ++ vs)

@[simp] theorem wp_quiet_gets_bind {ts : Nat → T} {g : S → α} {f : α → Run T (S × List V) ε β}
    {Q : Except ε β → S × List V → Prop} {s : S × List V} :
    Wp ts (quiet (gets g) >>= f) Q s ↔ Wp ts (f (g s.1)) Q s := Iff.rfl

@[simp] theorem wp_quiet_modify_bind {ts : Nat → T} {g : S → S}
    {f : Unit → Run T (S × List V) ε β} {Q : Except ε β → S × List V → Prop} {s : S × List V} :
    Wp ts (quiet (modify g) >>= f) Q s ↔ Wp ts (f ()) Q (g s.1, s.2) := Iff.rfl

theorem quiet_gets_bind_run (g : S → α) (f : α → Run T (S × List V) ε β) (ts : Nat → T) (n : Nat)
    (s : S × List V) : (quiet (gets g) >>= f) ts n s = f (g s.1) ts n s := rfl

theorem quiet_bind_run_ok {m : Run T S ε α} {f : α → Run T (S × List V) ε β} {ts : Nat → T}
    {n n' : Nat} {s : S × List V} {s' : S} {a : α} (h : m ts n s.1 = (.ok a, n', s')) :
    (quiet m >>= f) ts n s = f a ts n' (s', s.2) := by
  apply bind_run_ok
  unfold quiet zoom
  rw [h]

/-- Without its notes, `m'` is `m`. -/
def Erases (m' : Run T (S × List V) ε α) (m : Run T S ε α) : Prop :=
  ∀ ts n s, m ts n s.1 = ((m' ts n s).1, (m' ts n s).2.1, (m' ts n s).2.2.1)

theorem erases_quiet (m : Run T S ε α) : Erases (quiet m : Run T (S × List V) ε α) m :=
  fun _ _ _ => rfl

theorem erases_pure (a : α) : Erases (pure a : Run T (S × List V) ε α) (pure a) :=
  fun _ _ _ => rfl

theorem Erases.bind {m' : Run T (S × List V) ε α} {m : Run T S ε α}
    {f' : α → Run T (S × List V) ε β} {f : α → Run T S ε β} (hm : Erases m' m)
    (hf : ∀ a, Erases (f' a) (f a)) : Erases (m' >>= f') (m >>= f) := by
  intro ts n s
  have h := hm ts n s
  rw [bind_run, bind_run, h]
  rcases m' ts n s with ⟨r, n', s'⟩
  cases r with
  | ok a => exact hf a ts n' s'
  | error e => rfl

theorem Erases.note_bind {m' : Run T (S × List V) ε α} {m : Run T S ε α} (hm : Erases m' m)
    (vs : List V) : Erases (note vs >>= fun _ => m') m :=
  fun ts n s => hm ts n (s.1, s.2 ++ vs)

theorem Erases.ite {c : Prop} [Decidable c] {m' l' : Run T (S × List V) ε α} {m l : Run T S ε α}
    (hm : Erases m' m) (hl : Erases l' l) :
    Erases (if c then m' else l') (if c then m else l) := by
  split
  · exact hm
  · exact hl

/-- What the code without notes does, the code with notes does. -/
theorem Erases.wp {m' : Run T (S × List V) ε α} {m : Run T S ε α} (h : Erases m' m)
    {ts : Nat → T} {s : S × List V} {Q : Except ε α → S → Prop} (hm : Wp ts m Q s.1) :
    Wp ts m' (fun r s' => Q r s'.1) s := by
  intro n
  have := hm n
  rw [h ts n s] at this
  exact this

end Run

/-! ## What may still be written down -/

/-- From `s` to `s'`, `new` was written down: that might be in `s`, no more may be in `s'` than in
`s`, and everything in `new` is apart from what may come later. -/
structure Accrues {S V : Type} (may : S → V → Prop) (apart : V → V → Prop) (s s' : S)
    (new : List V) : Prop where
  might : ∀ v ∈ new, may s v
  less : ∀ v, may s' v → may s v
  away : ∀ v ∈ new, ∀ w, may s' w → apart v w
  pairwise : new.Pairwise apart

namespace Accrues

variable {S V : Type} {may : S → V → Prop} {apart : V → V → Prop} {s₁ s₂ s₃ : S}
  {new new' : List V}

theorem silent (h : ∀ v, may s₂ v → may s₁ v) : Accrues may apart s₁ s₂ [] :=
  ⟨by simp, h, by simp, .nil⟩

theorem trans (h : Accrues may apart s₁ s₂ new) (h' : Accrues may apart s₂ s₃ new') :
    Accrues may apart s₁ s₃ (new ++ new') := by
  refine ⟨fun v hv => ?_, fun v hv => h.less v (h'.less v hv), fun v hv w hw => ?_, ?_⟩
  · rcases List.mem_append.mp hv with hv | hv
    · exact h.might v hv
    · exact h.less v (h'.might v hv)
  · rcases List.mem_append.mp hv with hv | hv
    · exact h.away v hv w (h'.less w hw)
    · exact h'.away v hv w hw
  · refine List.pairwise_append.mpr ⟨h.pairwise, h'.pairwise, fun v hv w hw => ?_⟩
    exact h.away v hv w (h'.might w hw)

end Accrues

end Tgfs
