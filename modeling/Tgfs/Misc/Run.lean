import Mathlib.Logic.Basic

/-!
# Sequential code that can raise

`Run T S ε α` is code over a mutable state `S` that returns an `α` or raises an `ε`. What the
surroundings decide (a clock reading, whether a transfer fails) comes as a stream of ticks,
and the code consumes it from a running number on. A raised exception keeps the state
reached, as an exception does in a language with mutable objects.

`Run.Wp` is the weakest precondition over every tick number, with one rule for each way of
putting code together.
-/

namespace Tgfs

def Run (T S ε α : Type) : Type := (Nat → T) → Nat → S → Except ε α × Nat × S

namespace Run

variable {T S S' ε α β γ : Type}

protected def pure (a : α) : Run T S ε α := fun _ n s => (.ok a, n, s)

protected def bind (m : Run T S ε α) (f : α → Run T S ε β) : Run T S ε β := fun ts n s =>
  match m ts n s with
  | (.ok a, n', s') => f a ts n' s'
  | (.error e, n', s') => (.error e, n', s')

instance : Monad (Run T S ε) where
  pure := Run.pure
  bind := Run.bind

theorem bind_run {m : Run T S ε α} {f : α → Run T S ε β} (ts : Nat → T) (n : Nat) (s : S) :
    (m >>= f) ts n s = match m ts n s with
      | (.ok a, n', s') => f a ts n' s'
      | (.error e, n', s') => (.error e, n', s') := rfl

theorem bind_run_ok {m : Run T S ε α} {f : α → Run T S ε β} {ts : Nat → T} {n n' : Nat} {s s' : S}
    {a : α} (h : m ts n s = (.ok a, n', s')) : (m >>= f) ts n s = f a ts n' s' := by
  rw [bind_run, h]

theorem of_bind_ok {m : Run T S ε α} {f : α → Run T S ε β} {ts : Nat → T} {n n' : Nat} {s s' : S}
    {b : β} (h : (m >>= f) ts n s = (.ok b, n', s')) :
    ∃ a n₁ s₁, m ts n s = (.ok a, n₁, s₁) ∧ f a ts n₁ s₁ = (.ok b, n', s') := by
  rw [bind_run] at h
  rcases hm : m ts n s with ⟨r, n₁, s₁⟩
  rw [hm] at h
  cases r with
  | error e => cases h
  | ok a => exact ⟨a, n₁, s₁, rfl, h⟩

theorem bind_assoc (m : Run T S ε α) (f : α → Run T S ε β) (g : β → Run T S ε γ) :
    m >>= f >>= g = m >>= fun a => f a >>= g := by
  funext ts n s
  simp only [bind_run]
  rcases m ts n s with ⟨r, n', s'⟩
  cases r <;> rfl

def raise (e : ε) : Run T S ε α := fun _ n s => (.error e, n, s)
def get : Run T S ε S := fun _ n s => (.ok s, n, s)
def gets (f : S → α) : Run T S ε α := fun _ n s => (.ok (f s), n, s)
def modify (f : S → S) : Run T S ε Unit := fun _ n s => (.ok (), n, f s)

theorem gets_bind_run (g : S → α) (f : α → Run T S ε β) (ts : Nat → T) (n : Nat) (s : S) :
    (gets g >>= f) ts n s = f (g s) ts n s := rfl

/-- A section that changes the state and returns something. -/
def modifyGet (f : S → α × S) : Run T S ε α := fun _ n s => (.ok (f s).1, n, (f s).2)

/-- A section that changes the state, and may raise after it did. -/
def attempt (f : S → Except ε α × S) : Run T S ε α := fun _ n s => ((f s).1, n, (f s).2)

/-- Take the next tick. -/
def tick : Run T S ε T := fun ts n s => (.ok (ts n), n + 1, s)

/-- Raise `e` unless `c` holds. -/
def require (c : Bool) (e : ε) : Run T S ε Unit := if c then pure () else raise e

/-- `try: m except e: h e`. -/
def tryCatch (m : Run T S ε α) (h : ε → Run T S ε α) : Run T S ε α := fun ts n s =>
  match m ts n s with
  | (.ok a, n', s') => (.ok a, n', s')
  | (.error e, n', s') => h e ts n' s'

/-- `try: m finally: f`. An exception raised by `f` replaces the one raised by `m`. -/
def andFinally (m : Run T S ε α) (f : Run T S ε Unit) : Run T S ε α := fun ts n s =>
  match m ts n s with
  | (r, n', s') =>
    match f ts n' s' with
    | (.ok _, n'', s'') => (r, n'', s'')
    | (.error e, n'', s'') => (.error e, n'', s'')

/-- Run code on a part of the state. -/
def zoom (view : S → S') (put : S' → S → S) (m : Run T S' ε α) : Run T S ε α := fun ts n s =>
  match m ts n (view s) with
  | (r, n', s') => (r, n', put s' s)

/-! ## Weakest preconditions -/

/-- `m` started in `s` ends in `Q`, whatever tick it starts with. -/
def Wp (ts : Nat → T) (m : Run T S ε α) (Q : Except ε α → S → Prop) (s : S) : Prop :=
  ∀ n, Q (m ts n s).1 (m ts n s).2.2

variable {ts : Nat → T} {s : S} {Q : Except ε α → S → Prop}

theorem Wp.mono {m : Run T S ε α} {Q' : Except ε α → S → Prop} (h : Wp ts m Q s)
    (hQ : ∀ r s', Q r s' → Q' r s') : Wp ts m Q' s :=
  fun n => hQ _ _ (h n)

theorem Wp.and {m : Run T S ε α} {Q' : Except ε α → S → Prop} (h : Wp ts m Q s)
    (h' : Wp ts m Q' s) : Wp ts m (fun r s' => Q r s' ∧ Q' r s') s :=
  fun n => ⟨h n, h' n⟩

theorem Wp.bind {m : Run T S ε α} {f : α → Run T S ε β} {Q : Except ε β → S → Prop}
    (h : Wp ts m (fun r s' => match r with
      | .ok a => Wp ts (f a) Q s'
      | .error e => Q (.error e) s') s) : Wp ts (m >>= f) Q s := by
  intro n
  have hm := h n
  change Q (Run.bind m f ts n s).1 (Run.bind m f ts n s).2.2
  unfold Run.bind
  rcases hr : m ts n s with ⟨r, n', s'⟩
  rw [hr] at hm
  cases r with
  | ok a => exact hm n'
  | error e => exact hm

@[simp] theorem wp_pure {a : α} : Wp ts (pure a) Q s ↔ Q (.ok a) s :=
  ⟨fun h => h 0, fun h _ => h⟩

@[simp] theorem wp_raise {e : ε} : Wp ts (raise e) Q s ↔ Q (.error e) s :=
  ⟨fun h => h 0, fun h _ => h⟩

@[simp] theorem wp_get {Q : Except ε S → S → Prop} : Wp ts get Q s ↔ Q (.ok s) s :=
  ⟨fun h => h 0, fun h _ => h⟩

@[simp] theorem wp_gets {f : S → α} : Wp ts (gets f) Q s ↔ Q (.ok (f s)) s :=
  ⟨fun h => h 0, fun h _ => h⟩

@[simp] theorem wp_modify {f : S → S} {Q : Except ε Unit → S → Prop} :
    Wp ts (modify f) Q s ↔ Q (.ok ()) (f s) :=
  ⟨fun h => h 0, fun h _ => h⟩

@[simp] theorem wp_modifyGet {f : S → α × S} :
    Wp ts (modifyGet f) Q s ↔ Q (.ok (f s).1) (f s).2 :=
  ⟨fun h => h 0, fun h _ => h⟩

@[simp] theorem wp_attempt {f : S → Except ε α × S} : Wp ts (attempt f) Q s ↔ Q (f s).1 (f s).2 :=
  ⟨fun h => h 0, fun h _ => h⟩

@[simp] theorem wp_tick {Q : Except ε T → S → Prop} : Wp ts tick Q s ↔ ∀ n, Q (.ok (ts n)) s :=
  Iff.rfl

/-- Sequencing behind code that does not raise. -/
theorem Wp.bind_ok {m : Run T S ε α} {f : α → Run T S ε β} {Q : Except ε β → S → Prop}
    (h : Wp ts m (fun r s' => ∃ a, r = .ok a ∧ Wp ts (f a) Q s') s) : Wp ts (m >>= f) Q s := by
  refine Wp.bind (h.mono ?_)
  rintro r s' ⟨a, rfl, hf⟩
  exact hf

/-- Sequencing where only what is returned matters. -/
theorem Wp.bind_partial {m : Run T S ε α} {f : α → Run T S ε β} {P : β → S → Prop}
    (h : Wp ts m (fun r s' => ∀ a, r = .ok a →
      Wp ts (f a) (fun r s'' => ∀ b, r = .ok b → P b s'') s') s) :
    Wp ts (m >>= f) (fun r s' => ∀ b, r = .ok b → P b s') s := by
  refine Wp.bind (h.mono fun r s' hr => ?_)
  cases r with
  | ok a => exact hr a rfl
  | error e => exact nofun

@[simp] theorem wp_pure_bind {a : α} {f : α → Run T S ε β} {Q : Except ε β → S → Prop} :
    Wp ts (pure a >>= f) Q s ↔ Wp ts (f a) Q s := Iff.rfl

@[simp] theorem wp_raise_bind {e : ε} {f : α → Run T S ε β} {Q : Except ε β → S → Prop} :
    Wp ts (raise e >>= f) Q s ↔ Q (.error e) s := wp_raise

@[simp] theorem wp_gets_bind {g : S → α} {f : α → Run T S ε β} {Q : Except ε β → S → Prop} :
    Wp ts (gets g >>= f) Q s ↔ Wp ts (f (g s)) Q s := Iff.rfl

@[simp] theorem wp_modify_bind {g : S → S} {f : Unit → Run T S ε β}
    {Q : Except ε β → S → Prop} : Wp ts (modify g >>= f) Q s ↔ Wp ts (f ()) Q (g s) := Iff.rfl

@[simp] theorem wp_modifyGet_bind {g : S → α × S} {f : α → Run T S ε β}
    {Q : Except ε β → S → Prop} :
    Wp ts (modifyGet g >>= f) Q s ↔ Wp ts (f (g s).1) Q (g s).2 := Iff.rfl

/-- The code behind a tick runs whatever the tick is. -/
theorem Wp.tick_bind {f : T → Run T S ε β} {Q : Except ε β → S → Prop}
    (h : ∀ n, Wp ts (f (ts n)) Q s) : Wp ts (tick >>= f) Q s :=
  fun n => h n (n + 1)

@[simp] theorem wp_bind_assoc {m : Run T S ε α} {f : α → Run T S ε β}
    {g : β → Run T S ε γ} {Q : Except ε γ → S → Prop} :
    Wp ts (m >>= f >>= g) Q s ↔ Wp ts (m >>= fun a => f a >>= g) Q s := by
  rw [bind_assoc]

theorem wp_require {c : Bool} {e : ε} {Q : Except ε Unit → S → Prop} :
    Wp ts (require c e) Q s ↔ if c then Q (.ok ()) s else Q (.error e) s := by
  unfold require
  split <;> simp

theorem Wp.tryCatch {m : Run T S ε α} {h : ε → Run T S ε α}
    (hm : Wp ts m (fun r s' => match r with
      | .ok a => Q (.ok a) s'
      | .error e => Wp ts (h e) Q s') s) : Wp ts (tryCatch m h) Q s := by
  intro n
  have hn := hm n
  unfold Run.tryCatch
  rcases hr : m ts n s with ⟨r, n', s'⟩
  rw [hr] at hn
  cases r with
  | ok a => exact hn
  | error e => exact hn n'

theorem Wp.andFinally {m : Run T S ε α} {f : Run T S ε Unit}
    (hm : Wp ts m (fun r s' => Wp ts f (fun r' s'' => match r' with
      | .ok _ => Q r s''
      | .error e => Q (.error e) s'') s') s) : Wp ts (andFinally m f) Q s := by
  intro n
  have hn := hm n
  unfold Run.andFinally
  rcases hr : m ts n s with ⟨r, n', s'⟩
  rw [hr] at hn
  have hf := hn n'
  rcases hr' : f ts n' s' with ⟨r', n'', s''⟩
  rw [hr'] at hf
  simp only [hr']
  cases r' <;> exact hf

theorem wp_zoom {S' : Type} {view : S → S'} {put : S' → S → S} {m : Run T S' ε α} :
    Wp ts (zoom view put m) Q s ↔ Wp ts m (fun r s' => Q r (put s' s)) (view s) :=
  Iff.rfl

/-! ## What code leaves alone -/

/-- Whatever happens, `m` does not change what `f` shows of the state. -/
def Keeps (f : S → γ) (m : Run T S ε α) : Prop := ∀ ts n s, f (m ts n s).2.2 = f s

section Keeps

variable {f : S → γ}

theorem Keeps.wp {m : Run T S ε α} (h : Keeps f m) : Wp ts m (fun _ s' => f s' = f s) s :=
  fun n => h ts n s

theorem keeps_pure (a : α) : Keeps f (pure a : Run T S ε α) := fun _ _ _ => rfl
theorem keeps_raise (e : ε) : Keeps f (raise e : Run T S ε α) := fun _ _ _ => rfl
theorem keeps_gets (g : S → α) : Keeps f (gets g : Run T S ε α) := fun _ _ _ => rfl
theorem keeps_tick : Keeps f (tick : Run T S ε T) := fun _ _ _ => rfl

theorem keeps_modify {g : S → S} (h : ∀ s, f (g s) = f s) : Keeps f (modify g : Run T S ε Unit) :=
  fun _ _ s => h s

theorem keeps_modifyGet {g : S → α × S} (h : ∀ s, f (g s).2 = f s) :
    Keeps f (modifyGet g : Run T S ε α) :=
  fun _ _ s => h s

theorem keeps_require (c : Bool) (e : ε) : Keeps f (require c e : Run T S ε Unit) := by
  unfold require
  split
  · exact keeps_pure ()
  · exact keeps_raise e

theorem Keeps.bind {m : Run T S ε α} {g : α → Run T S ε β} (hm : Keeps f m)
    (hg : ∀ a, Keeps f (g a)) : Keeps f (m >>= g) := by
  intro ts n s
  rw [bind_run, ← hm ts n s]
  rcases m ts n s with ⟨r, n', s'⟩
  cases r with
  | ok a => exact hg a ts n' s'
  | error e => rfl

theorem Keeps.tryCatch {m : Run T S ε α} {h : ε → Run T S ε α} (hm : Keeps f m)
    (hh : ∀ e, Keeps f (h e)) : Keeps f (tryCatch m h) := by
  intro ts n s
  unfold Run.tryCatch
  rw [← hm ts n s]
  rcases m ts n s with ⟨r, n', s'⟩
  cases r with
  | ok a => rfl
  | error e => exact hh e ts n' s'

theorem Keeps.andFinally {m : Run T S ε α} {g : Run T S ε Unit} (hm : Keeps f m)
    (hg : Keeps f g) : Keeps f (andFinally m g) := by
  intro ts n s
  unfold Run.andFinally
  rw [← hm ts n s]
  rcases m ts n s with ⟨r, n', s'⟩
  rw [← hg ts n' s']
  rcases hr : g ts n' s' with ⟨r', n'', s''⟩
  simp only [hr]
  cases r' <;> rfl

/-- Code on a part of the state that keeps what the part shows. -/
theorem Keeps.zoom {view : S → S'} {put : S' → S → S} {f' : S' → γ} {m : Run T S' ε α}
    (hm : Keeps f' m) (hput : ∀ s s', f' s' = f' (view s) → f (put s' s) = f s) :
    Keeps f (zoom view put m) :=
  fun ts n s => hput s _ (hm ts n (view s))

end Keeps

/-! ## What code preserves -/

/-- Whatever happens, `m` leaves a state with `J` if it starts in one. -/
def Preserves (J : S → Prop) (m : Run T S ε α) : Prop := ∀ ts n s, J s → J (m ts n s).2.2

/-- What code does not change it preserves. -/
theorem keeps_of_preserves {f : S → γ} {m : Run T S ε α}
    (h : ∀ v, Preserves (fun s => f s = v) m) : Keeps f m :=
  fun ts n s => h (f s) ts n s rfl

section Preserves

variable {J : S → Prop}

theorem preserves_pure (a : α) : Preserves J (pure a : Run T S ε α) := fun _ _ _ h => h
theorem preserves_raise (e : ε) : Preserves J (raise e : Run T S ε α) := fun _ _ _ h => h
theorem preserves_gets (g : S → α) : Preserves J (gets g : Run T S ε α) := fun _ _ _ h => h
theorem preserves_tick : Preserves J (tick : Run T S ε T) := fun _ _ _ h => h

theorem preserves_modify {g : S → S} (h : ∀ s, J s → J (g s)) :
    Preserves J (modify g : Run T S ε Unit) :=
  fun _ _ s => h s

theorem preserves_modifyGet {g : S → α × S} (h : ∀ s, J s → J (g s).2) :
    Preserves J (modifyGet g : Run T S ε α) :=
  fun _ _ s => h s

theorem preserves_attempt {g : S → Except ε α × S} (h : ∀ s, J s → J (g s).2) :
    Preserves J (attempt g : Run T S ε α) :=
  fun _ _ s => h s

theorem preserves_require (c : Bool) (e : ε) : Preserves J (require c e : Run T S ε Unit) := by
  unfold require
  split
  · exact preserves_pure ()
  · exact preserves_raise e

theorem Preserves.bind {m : Run T S ε α} {g : α → Run T S ε β} (hm : Preserves J m)
    (hg : ∀ a, Preserves J (g a)) : Preserves J (m >>= g) := by
  intro ts n s hs
  have h := hm ts n s hs
  rw [bind_run]
  rcases hr : m ts n s with ⟨r, n', s'⟩
  rw [hr] at h
  cases r with
  | ok a => exact hg a ts n' s' h
  | error e => exact h

theorem Preserves.tryCatch {m : Run T S ε α} {g : ε → Run T S ε α} (hm : Preserves J m)
    (hg : ∀ e, Preserves J (g e)) : Preserves J (tryCatch m g) := by
  intro ts n s hs
  have h := hm ts n s hs
  unfold Run.tryCatch
  rcases hr : m ts n s with ⟨r, n', s'⟩
  rw [hr] at h
  cases r with
  | ok a => exact h
  | error e => exact hg e ts n' s' h

theorem Preserves.andFinally {m : Run T S ε α} {g : Run T S ε Unit} (hm : Preserves J m)
    (hg : Preserves J g) : Preserves J (andFinally m g) := by
  intro ts n s hs
  have h := hm ts n s hs
  unfold Run.andFinally
  rcases hr : m ts n s with ⟨r, n', s'⟩
  rw [hr] at h
  have h' := hg ts n' s' h
  rcases hr' : g ts n' s' with ⟨r', n'', s''⟩
  rw [hr'] at h'
  simp only [hr']
  cases r' <;> exact h'

theorem Preserves.wp {m : Run T S ε α} (h : Preserves J m) {ts : Nat → T} {s : S} (hs : J s) :
    Wp ts m (fun _ s' => J s') s :=
  fun n => h ts n s hs

end Preserves

/-! ## Where code leads -/

/-- If `m` returns, the state it leaves is related to the one it started in. -/
def Leads (R : S → S → Prop) (m : Run T S ε α) : Prop :=
  ∀ ts n s a n' s', m ts n s = (.ok a, n', s') → R s s'

section Leads

variable {R : S → S → Prop}

theorem leads_modify {g : S → S} (h : ∀ s, R s (g s)) : Leads R (modify g : Run T S ε Unit) := by
  intro ts n s a n' s' hr
  cases hr
  exact h s

variable (hrefl : ∀ s, R s s)
section Reflexive

include hrefl

theorem leads_pure (a : α) : Leads R (pure a : Run T S ε α) := by
  intro ts n s b n' s' h
  cases h
  exact hrefl s

end Reflexive

theorem Leads.bind (htrans : ∀ {s₁ s₂ s₃}, R s₁ s₂ → R s₂ s₃ → R s₁ s₃) {m : Run T S ε α}
    {g : α → Run T S ε β} (hm : Leads R m) (hg : ∀ a, Leads R (g a)) : Leads R (m >>= g) := by
  intro ts n s b n' s' h
  obtain ⟨a, n₁, s₁, hr, hr'⟩ := of_bind_ok h
  exact htrans (hm ts n s a n₁ s₁ hr) (hg a ts n₁ s₁ b n' s' hr')

theorem Leads.ite {c : Prop} [Decidable c] {m l : Run T S ε α} (hm : Leads R m) (hl : Leads R l) :
    Leads R (if c then m else l) := by
  split
  · exact hm
  · exact hl

end Leads

/-! ## What code raises -/

/-- Every exception that `m` ends with is in `P`. -/
def Raises (P : ε → Prop) (m : Run T S ε α) : Prop := ∀ ts n s e, (m ts n s).1 = .error e → P e

section Raises

variable {P : ε → Prop}

theorem raises_pure (a : α) : Raises P (pure a : Run T S ε α) := fun _ _ _ _ => nofun
theorem raises_gets (g : S → α) : Raises P (gets g : Run T S ε α) := fun _ _ _ _ => nofun
theorem raises_modify (g : S → S) : Raises P (modify g : Run T S ε Unit) := fun _ _ _ _ => nofun
theorem raises_modifyGet (g : S → α × S) : Raises P (modifyGet g : Run T S ε α) :=
  fun _ _ _ _ => nofun

theorem raises_raise {e : ε} (h : P e) : Raises P (raise e : Run T S ε α) := by
  intro _ _ _ e' he
  cases he
  exact h

theorem raises_require {e : ε} (h : P e) (c : Bool) : Raises P (require c e : Run T S ε Unit) := by
  unfold require
  split
  · exact raises_pure ()
  · exact raises_raise h

theorem Raises.bind {m : Run T S ε α} {g : α → Run T S ε β} (hm : Raises P m)
    (hg : ∀ a, Raises P (g a)) : Raises P (m >>= g) := by
  intro ts n s e he
  have h := hm ts n s
  rw [bind_run] at he
  rcases hr : m ts n s with ⟨r, n', s'⟩
  rw [hr] at h he
  cases r with
  | ok a => exact hg a ts n' s' e he
  | error e' => exact h e (congrArg Except.error (Except.error.inj he))

theorem Raises.zoom {view : S → S'} {put : S' → S → S} {m : Run T S' ε α} (hm : Raises P m) :
    Raises P (zoom view put m) := fun ts n s => hm ts n (view s)

end Raises

end Run

end Tgfs
