import Mathlib.Data.List.Infix
import Tgfs.Misc.Tally
import Tgfs.Store.IterChunks

/-!
# What the window of `iter_chunks` comes to

The chunks come in order and end where reading them one after the other ends, no more than
`download_workers` downloads are under way, and nothing is left in the queue of the pool.
-/

namespace Tgfs

/-- Replacing a member by a smaller one. -/
theorem tally_modify_le {α : Type} {f : α → Nat} {g : α → α} (h : ∀ a, f (g a) ≤ f a)
    (l : List α) (k : Nat) : ((l.modify k g).map f).sum ≤ (l.map f).sum := by
  induction l generalizing k with
  | nil => simp
  | cons a l ih =>
    cases k with
    | zero =>
      simp only [List.modify_zero_cons, List.map_cons, List.sum_cons]
      have := h a
      omega
    | succ k =>
      simp only [List.modify_succ_cons, List.map_cons, List.sum_cons]
      have := ih k
      omega

namespace IterChunks

variable {Sha ε α : Type} {answer : Nat → Except ε α} {shas : List Sha} {g : Gen Sha ε α}

/-! ## One after the other -/

theorem plain_append (as : List α) (rs : List (Except ε α)) :
    plain (as.map .ok ++ rs) = (as ++ (plain rs).1, (plain rs).2) := by
  induction as with
  | nil => rfl
  | cons a as ih => simp [plain, ih]

/-! ## The futures -/

namespace Future

/-- The steps that are left for the pool. -/
def todo : Future ε α → Nat
  | .pending => 2
  | .running => 1
  | _ => 0

def unfinished : Future ε α → Bool
  | .pending | .running => true
  | _ => false

@[simp] theorem todo_cancel (f : Future ε α) : f.cancel.todo ≤ f.todo := by
  cases f <;> simp [cancel, todo]

theorem cancel_ne_pending (f : Future ε α) : f.cancel ≠ .pending := by
  cases f <;> simp [cancel]

theorem cancel_of_ne {f : Future ε α} (h : f ≠ .pending) : f.cancel = f := by
  cases f <;> simp_all [cancel]

end Future

theorem getElem?_cancelAll (window : List Nat) (fs : List (Sha × Future ε α)) (j : Nat) :
    (window.foldl (fun fs k => fs.modify k fun p => (p.1, p.2.cancel)) fs)[j]? =
      fs[j]?.map fun p => if j ∈ window then (p.1, p.2.cancel) else p := by
  induction window generalizing fs with
  | nil => simp
  | cons k window ih =>
    rw [List.foldl_cons, ih, List.getElem?_modify]
    cases fs[j]? with
    | none => rfl
    | some p =>
      simp only [Option.map_eq_map, Option.map_some]
      by_cases hj : k = j
      · subst hj
        have hidem : p.2.cancel.cancel = p.2.cancel := Future.cancel_of_ne p.2.cancel_ne_pending
        simp [hidem]
      · simp [hj, Ne.symm hj]

theorem length_cancelAll (window : List Nat) (fs : List (Sha × Future ε α)) :
    (window.foldl (fun fs k => fs.modify k fun p => (p.1, p.2.cancel)) fs).length = fs.length := by
  induction window generalizing fs with
  | nil => rfl
  | cons k window ih => rw [List.foldl_cons, ih, List.length_modify]

theorem todo_cancelAll (window : List Nat) (fs : List (Sha × Future ε α)) :
    ((window.foldl (fun fs k => fs.modify k fun p => (p.1, p.2.cancel)) fs).map
      fun p => p.2.todo).sum ≤ (fs.map fun p => p.2.todo).sum := by
  induction window generalizing fs with
  | nil => exact Nat.le_refl _
  | cons k window ih =>
    refine (ih _).trans (tally_modify_le ?_ fs k)
    intro p
    exact p.2.todo_cancel

/-! ## The invariant -/

namespace Place

/-- Whether a future was popped that nothing was yielded for. -/
def popped : Place ε → Nat
  | .waiting _ | .raised _ => 1
  | _ => 0

def isOver : Place ε → Bool
  | .returned | .raised _ | .closed => true
  | _ => false

def todo : Place ε → Nat
  | .suspended => 3
  | .loop => 2
  | .waiting _ => 1
  | _ => 0

end Place

/-- The first future of the window. -/
def Gen.head (g : Gen Sha ε α) : Nat := g.out.length + g.place.popped

structure Inv (answer : Nat → Except ε α) (shas : List Sha) (g : Gen Sha ε α) : Prop where
  items : g.futures.map Prod.fst ++ g.it = shas
  head_le : g.head ≤ g.futures.length
  window : g.window = List.range' g.head (g.futures.length - g.head)
  waiting : ∀ k, g.place = .waiting k → k = g.out.length
  answered : ∀ k sha r, g.futures[k]? = some (sha, .finished r) → r = answer k
  yielded : ((List.range shas.length).map answer).take g.out.length = g.out.map .ok
  /-- The pool is done with what was yielded, or was raised. -/
  settled : ∀ k, k < g.out.length ∨ (k = g.out.length ∧ ∃ e, g.place = .raised e) →
    ∃ sha r, g.futures[k]? = some (sha, .finished r)
  returned : g.place = .returned → g.it = [] ∧ g.window = []
  raised : ∀ e, g.place = .raised e → answer g.out.length = .error e
  live : g.place.isOver = false → ∀ p ∈ g.futures, p.2 ≠ .cancelled
  finished : g.place.isOver = true → ∀ p ∈ g.futures, p.2 ≠ .pending

theorem Inv.futures_le (h : Inv answer shas g) : g.futures.length ≤ shas.length := by
  rw [← h.items, List.length_append, List.length_map]
  exact Nat.le_add_right _ _

theorem Inv.mem_window (h : Inv answer shas g) (j : Nat) :
    j ∈ g.window ↔ g.head ≤ j ∧ j < g.futures.length := by
  have hle := h.head_le
  rw [h.window, List.mem_range'_1]
  omega

theorem inv_start (workers : Nat) : Inv answer shas (start workers shas : Gen Sha ε α) where
  items := rfl
  head_le := Nat.le_refl 0
  window := rfl
  waiting := by simp [start]
  answered := by simp [start]
  yielded := by simp [start]
  settled := by simp [start]
  returned := by simp [start]
  raised := by simp [start]
  live := by simp [start]
  finished := by simp [start]

/-! ## The generator -/

theorem Inv.push (h : Inv answer shas g) (hp : g.place = .loop) {sha : Sha} {it : List Sha}
    (hit : g.it = sha :: it) :
    Inv answer shas { g with
      it := it
      futures := g.futures ++ [(sha, .pending)]
      window := g.window ++ [g.futures.length] } := by
  have hhead : g.head = g.out.length := by
    rw [Gen.head, hp]
    rfl
  have hle := h.head_le
  refine ⟨?_, ?_, ?_, h.waiting, fun k sha' r hk => ?_, h.yielded, fun k hk => ?_, ?_, h.raised, ?_, ?_⟩
  · rw [← h.items, hit, List.map_append, List.append_assoc]
    rfl
  · rw [List.length_append]
    exact hle.trans (Nat.le_add_right _ _)
  · have hcount : (g.futures ++ [(sha, Future.pending)]).length - g.head =
        (g.futures.length - g.head) + 1 := by
      rw [List.length_append, List.length_singleton]
      omega
    change g.window ++ [g.futures.length] =
      List.range' g.head ((g.futures ++ [(sha, Future.pending)]).length - g.head)
    rw [hcount, List.range'_1_concat, ← h.window, Nat.add_sub_cancel' hle]
  · rcases Nat.lt_trichotomy k g.futures.length with hlt | heq | hgt
    · rw [List.getElem?_append_left hlt] at hk
      exact h.answered k sha' r hk
    · rw [heq, List.getElem?_concat_length] at hk
      cases hk
    · rw [List.getElem?_eq_none (by simp; omega)] at hk
      cases hk
  · obtain ⟨sha', r, hold⟩ := h.settled k hk
    refine ⟨sha', r, ?_⟩
    rw [List.getElem?_append_left (List.getElem?_eq_some_iff.mp hold).1]
    exact hold
  · simp [hp]
  · intro hlive p hm
    rcases List.mem_append.mp hm with hm | hm
    · exact h.live hlive p hm
    · rw [List.mem_singleton.mp hm]
      simp
  · simp [hp, Place.isOver]

theorem Inv.popleft (h : Inv answer shas g) (hp : g.place = .loop) (hit : g.window = [] → g.it = []) :
    Inv answer shas g.popleft := by
  have hhead : g.head = g.out.length := by
    rw [Gen.head, hp]
    rfl
  have hle := h.head_le
  have hsettled : ∀ k, k < g.out.length → ∃ sha r, g.futures[k]? = some (sha, .finished r) :=
    fun k hk => h.settled k (.inl hk)
  unfold Gen.popleft
  cases hw : g.window with
  | nil =>
    have hlen : g.futures.length ≤ g.out.length := by
      have hlen := congrArg List.length (h.window.symm.trans hw)
      rw [List.length_range', List.length_nil] at hlen
      omega
    dsimp only
    refine ⟨h.items, ?_, ?_, by simp, h.answered, h.yielded, fun k hk => ?_, ?_, by simp,
      by simp [Place.isOver], fun _ p hm => ?_⟩
    · change g.out.length ≤ g.futures.length
      rw [← hhead]
      exact hle
    · change [] = List.range' g.out.length (g.futures.length - g.out.length)
      rw [Nat.sub_eq_zero_of_le hlen]
      rfl
    · rcases hk with hk | ⟨-, e, he⟩
      · exact hsettled k hk
      · cases he
    · exact fun _ => ⟨hit hw, rfl⟩
    · obtain ⟨k, hk⟩ := List.mem_iff_getElem?.mp hm
      have hlt := (List.getElem?_eq_some_iff.mp hk).1
      obtain ⟨sha, r, hold⟩ := hsettled k (Nat.lt_of_lt_of_le hlt hlen)
      rw [hk] at hold
      cases hold
      simp
  | cons k window =>
    have hrange := h.window
    rw [hw] at hrange
    obtain ⟨n, hn⟩ : ∃ n, g.futures.length - g.head = n + 1 := by
      apply Nat.exists_eq_succ_of_ne_zero
      intro h0
      rw [h0] at hrange
      cases hrange
    rw [hn, List.range'_succ] at hrange
    obtain ⟨rfl, rfl⟩ := List.cons.inj hrange
    dsimp only
    refine ⟨h.items, ?_, ?_, ?_, h.answered, h.yielded, fun k hk => ?_, by simp, by simp, ?_,
      by simp [Place.isOver]⟩
    · change g.out.length + 1 ≤ g.futures.length
      omega
    · change List.range' (g.head + 1) n =
        List.range' (g.out.length + 1) (g.futures.length - (g.out.length + 1))
      rw [hhead]
      congr 1
      omega
    · intro k hk
      cases hk
      exact hhead
    · rcases hk with hk | ⟨-, e, he⟩
      · exact hsettled k hk
      · cases he
    · intro _
      apply h.live
      rw [hp]
      rfl

/-- The `finally` cancels what the pool has not begun. -/
theorem Inv.leave (h : Inv answer shas g) {place : Place ε} (hover : place.isOver = true)
    (hpopped : place.popped = g.place.popped) (hreturned : place ≠ .returned)
    (hraised : ∀ e, place = .raised e →
      ∃ sha, g.futures[g.out.length]? = some (sha, .finished (.error e))) :
    Inv answer shas (g.leave place) := by
  have hcancel := getElem?_cancelAll g.window g.futures
  have hlen : (g.leave place).futures.length = g.futures.length := length_cancelAll _ _
  have hfst : (g.leave place).futures.map Prod.fst = g.futures.map Prod.fst := by
    apply List.ext_getElem?
    intro j
    rw [List.getElem?_map, List.getElem?_map, Gen.leave, hcancel]
    cases g.futures[j]? with
    | none => rfl
    | some p =>
      simp only [Option.map_some]
      split <;> rfl
  have hfinished : ∀ (k : Nat) (sha : Sha) (r : Except ε α),
      (g.leave place).futures[k]? = some (sha, .finished r) ↔
        g.futures[k]? = some (sha, .finished r) := by
    intro k sha r
    rw [Gen.leave, hcancel]
    cases g.futures[k]? with
    | none => simp
    | some p =>
      obtain ⟨sha', f⟩ := p
      simp only [Option.map_some, Option.some.injEq]
      split
      · cases f <;> simp [Future.cancel]
      · rfl
  have hhead : (g.leave place).head = g.head := congrArg (g.out.length + ·) hpopped
  have hsettled : ∀ k, k < g.out.length ∨ (k = g.out.length ∧ ∃ e, place = .raised e) →
      ∃ sha r, g.futures[k]? = some (sha, .finished r) := by
    rintro k (hk | ⟨rfl, e, he⟩)
    · exact h.settled k (.inl hk)
    · obtain ⟨sha, hk⟩ := hraised e he
      exact ⟨sha, _, hk⟩
  refine ⟨?_, ?_, ?_, fun k hk => ?_, fun k sha r hk => ?_, h.yielded, fun k hk => ?_,
    fun he => absurd he hreturned, fun e he => ?_, fun hlive => ?_, fun _ p hm => ?_⟩
  · rw [hfst]
    exact h.items
  · rw [hhead, hlen]
    exact h.head_le
  · rw [hhead, hlen]
    exact h.window
  · change place = .waiting k at hk
    rw [hk] at hover
    cases hover
  · exact h.answered k sha r ((hfinished k sha r).mp hk)
  · obtain ⟨sha, r, hold⟩ := hsettled k hk
    exact ⟨sha, r, (hfinished k sha r).mpr hold⟩
  · obtain ⟨sha, hk⟩ := hraised e he
    exact (h.answered _ sha _ hk).symm
  · exact absurd (hover.symm.trans hlive) (by simp)
  · obtain ⟨k, hk⟩ := List.mem_iff_getElem?.mp hm
    have hlt := (List.getElem?_eq_some_iff.mp hk).1
    rw [hlen] at hlt
    by_cases hw : k ∈ g.window
    · rw [Gen.leave, hcancel] at hk
      obtain ⟨q, -, rfl⟩ := Option.map_eq_some_iff.mp hk
      rw [if_pos hw]
      exact q.2.cancel_ne_pending
    · have hk' : k < g.out.length ∨ (k = g.out.length ∧ ∃ e, place = .raised e) := by
        rw [h.mem_window, not_and] at hw
        have hbelow : k < g.out.length + place.popped := by
          rw [hpopped]
          exact Nat.lt_of_not_le fun hle => hw hle hlt
        cases place with
        | raised e =>
          rcases Nat.lt_succ_iff_lt_or_eq.mp hbelow with hk | hk
          · exact .inl hk
          · exact .inr ⟨hk, e, rfl⟩
        | waiting j => cases hover
        | _ => exact .inl hbelow
      obtain ⟨sha, r, hold⟩ := hsettled k hk'
      rw [(hfinished k sha r).mpr hold] at hk
      cases hk
      simp

theorem Inv.yield (h : Inv answer shas g) {k : Nat} (hp : g.place = .waiting k) {sha : Sha} {a : α}
    (hk : g.futures[k]? = some (sha, .finished (.ok a))) :
    Inv answer shas { g with place := .suspended, out := g.out ++ [a] } := by
  obtain rfl := h.waiting k hp
  have hhead : g.head = g.out.length + 1 := by
    rw [Gen.head, hp]
    rfl
  have hhead' : ({ g with place := .suspended, out := g.out ++ [a] } : Gen Sha ε α).head = g.head := by
    rw [hhead, Gen.head]
    exact List.length_append
  refine ⟨h.items, ?_, ?_, by simp, h.answered, ?_, fun k' hk' => ?_, by simp, by simp, ?_,
    by simp [Place.isOver]⟩
  · rw [hhead']
    exact h.head_le
  · rw [hhead']
    exact h.window
  · have hlt : g.out.length < shas.length :=
      Nat.lt_of_lt_of_le (List.getElem?_eq_some_iff.mp hk).1 h.futures_le
    have hone : ((List.range shas.length).map answer)[g.out.length]? = some (.ok a) := by
      rw [List.getElem?_map, List.getElem?_range hlt, Option.map_some, ← h.answered _ sha _ hk]
    rw [List.length_append, List.length_singleton, List.take_add_one, h.yielded, hone,
      List.map_append]
    rfl
  · rcases hk' with hk' | ⟨-, e, he⟩
    · rw [List.length_append, List.length_singleton] at hk'
      rcases Nat.lt_succ_iff_lt_or_eq.mp hk' with hlt | rfl
      · exact h.settled k' (.inl hlt)
      · exact ⟨sha, _, hk⟩
    · cases he
  · intro _
    apply h.live
    rw [hp]
    rfl

/-! ## The pool -/

theorem Inv.setFuture (h : Inv answer shas g) {k : Nat} {sha : Sha} {f f' : Future ε α}
    (hk : g.futures[k]? = some (sha, f)) (hf : f.unfinished = true) (hpending : f' ≠ .pending)
    (hcancelled : f' ≠ .cancelled) (hanswer : ∀ r, f' = .finished r → r = answer k) :
    Inv answer shas { g with futures := g.futures.set k (sha, f') } := by
  have hlt := (List.getElem?_eq_some_iff.mp hk).1
  have hlen : (g.futures.set k (sha, f')).length = g.futures.length := List.length_set
  refine ⟨?_, ?_, ?_, h.waiting, fun j sha' r hj => ?_, h.yielded, fun j hj => ?_, h.returned,
    h.raised, fun hlive p hm => ?_, fun hover p hm => ?_⟩
  · have hfst : (g.futures.set k (sha, f')).map Prod.fst = g.futures.map Prod.fst := by
      apply List.ext_getElem?
      intro j
      rw [List.getElem?_map, List.getElem?_map, List.getElem?_set]
      split
      · rename_i he
        subst he
        rw [hk]
        rfl
      · rfl
    rw [hfst]
    exact h.items
  · rw [hlen]
    exact h.head_le
  · rw [hlen]
    exact h.window
  · rw [List.getElem?_set] at hj
    split at hj
    · rename_i he
      subst he
      cases hj
      exact hanswer r rfl
    · exact h.answered j sha' r hj
  · obtain ⟨sha', r, hold⟩ := h.settled j hj
    refine ⟨sha', r, ?_⟩
    rw [List.getElem?_set_ne]
    · exact hold
    · rintro rfl
      rw [hk] at hold
      cases hold
      cases hf
  · rcases List.mem_or_eq_of_mem_set hm with hm | rfl
    · exact h.live hlive p hm
    · exact hcancelled
  · rcases List.mem_or_eq_of_mem_set hm with hm | rfl
    · exact h.finished hover p hm
    · exact hpending

/-! ## Runs -/

theorem inv_go (h : Inv answer shas g) (hroom : g.window.length < g.workers) :
    Inv answer shas (step answer .go g) ∧
      (step answer .go g).window.length < (step answer .go g).workers := by
  have hpop : ∀ g' : Gen Sha ε α, g'.window.length ≤ g'.workers → 0 < g'.workers →
      g'.popleft.window.length < g'.popleft.workers := by
    intro g' hle hpos
    unfold Gen.popleft
    cases hw : g'.window with
    | nil => exact hpos
    | cons k window =>
      rw [hw] at hle
      exact hle
  have hpos : 0 < g.workers := Nat.lt_of_le_of_lt (Nat.zero_le _) hroom
  unfold step
  cases hp : g.place with
  | loop =>
    dsimp only
    cases hit : g.it with
    | nil => exact ⟨h.popleft hp fun _ => hit, hpop g (Nat.le_of_lt hroom) hpos⟩
    | cons sha it =>
      have hpush := h.push hp hit
      dsimp only
      split
      · refine ⟨hpush.popleft hp ?_, hpop _ ?_ hpos⟩
        · simp
        · rw [List.length_append]
          exact hroom
      · rename_i hless
        rw [hp] at hpush
        exact ⟨hpush, Nat.lt_of_not_le hless⟩
  | waiting k =>
    dsimp only
    split
    · rename_i sha a hk
      exact ⟨h.yield hp hk, hroom⟩
    · rename_i sha e hk
      refine ⟨h.leave rfl ?_ (by simp) ?_, hroom⟩
      · rw [hp]
        rfl
      · intro e' he
        cases he
        rw [← h.waiting k hp]
        exact ⟨sha, hk⟩
    · exact ⟨h, hroom⟩
  | _ => exact ⟨h, hroom⟩

theorem inv_step (h : Inv answer shas g) (hroom : g.window.length < g.workers) (l : Label) :
    Inv answer shas (step answer l g) ∧
      (step answer l g).window.length < (step answer l g).workers := by
  cases l with
  | go => exact inv_go h hroom
  | next =>
    unfold step
    cases hp : g.place with
    | suspended =>
      have hhead : ({ g with place := .loop } : Gen Sha ε α).head = g.head := by
        rw [Gen.head, Gen.head, hp]
        rfl
      refine ⟨⟨h.items, ?_, ?_, by simp, h.answered, h.yielded, fun k hk => ?_, by simp, by simp, ?_,
        by simp [Place.isOver]⟩, hroom⟩
      · rw [hhead]
        exact h.head_le
      · rw [hhead]
        exact h.window
      · rcases hk with hk | ⟨-, e, he⟩
        · exact h.settled k (.inl hk)
        · cases he
      · intro _
        apply h.live
        rw [hp]
        rfl
    | _ => exact ⟨h, hroom⟩
  | close =>
    unfold step
    cases hp : g.place with
    | suspended =>
      refine ⟨h.leave rfl ?_ (by simp) (by simp), hroom⟩
      rw [hp]
      rfl
    | _ => exact ⟨h, hroom⟩
  | start k =>
    unfold step
    dsimp only
    split
    · rename_i sha hk
      exact ⟨h.setFuture hk rfl (by simp) (by simp) (by simp), hroom⟩
    · exact ⟨h, hroom⟩
  | finish k =>
    unfold step
    dsimp only
    split
    · rename_i sha hk
      refine ⟨h.setFuture hk rfl (by simp) (by simp) ?_, hroom⟩
      intro r hr
      cases hr
      rfl
    · exact ⟨h, hroom⟩

theorem step_workers (l : Label) (g : Gen Sha ε α) : (step answer l g).workers = g.workers := by
  have hpop : ∀ g' : Gen Sha ε α, g'.popleft.workers = g'.workers := by
    intro g'
    unfold Gen.popleft
    split <;> rfl
  unfold step
  cases l with
  | go =>
    dsimp only
    split
    · split
      · exact hpop g
      · split
        · exact hpop _
        · rfl
    · split <;> rfl
    · rfl
  | _ =>
    dsimp only
    split <;> rfl

theorem run_workers (ls : List Label) (g : Gen Sha ε α) : (run answer ls g).workers = g.workers := by
  induction ls generalizing g with
  | nil => rfl
  | cons l ls ih => exact (ih _).trans (step_workers l g)

theorem inv_run (h : Inv answer shas g) (hroom : g.window.length < g.workers) (ls : List Label) :
    Inv answer shas (run answer ls g) ∧
      (run answer ls g).window.length < (run answer ls g).workers := by
  induction ls generalizing g with
  | nil => exact ⟨h, hroom⟩
  | cons l ls ih =>
    obtain ⟨h', hroom'⟩ := inv_step h hroom l
    exact ih h' hroom'

/-! ## The end -/

/-- The steps that are left, at most. -/
def Gen.todo (g : Gen Sha ε α) : Nat :=
  3 * (g.futures.length + g.it.length - g.out.length) + 3 * g.it.length +
    (g.futures.map fun p => p.2.todo).sum + g.place.todo

theorem Inv.out_le (h : Inv answer shas g) : g.out.length ≤ g.futures.length :=
  (Nat.le_add_right _ _).trans h.head_le

theorem todo_popleft (hp : g.place = .loop) : g.popleft.todo < g.todo := by
  unfold Gen.popleft
  cases g.window with
  | nil => simp [Gen.todo, hp, Place.todo]
  | cons k window => simp [Gen.todo, hp, Place.todo]

theorem todo_leave {place : Place ε} (hp : place.todo < g.place.todo) :
    (g.leave place).todo < g.todo := by
  have hsum := todo_cancelAll g.window g.futures
  have hlen := length_cancelAll g.window g.futures
  unfold Gen.todo Gen.leave
  dsimp only
  rw [hlen]
  omega

theorem todo_loop (hp : g.place = .loop) : (step answer .go g).todo < g.todo := by
  unfold step
  rw [hp]
  dsimp only
  cases hit : g.it with
  | nil => exact todo_popleft hp
  | cons sha it =>
    dsimp only
    have hpush : ({ g with
        it := it
        futures := g.futures ++ [(sha, .pending)]
        window := g.window ++ [g.futures.length] } : Gen Sha ε α).todo < g.todo := by
      unfold Gen.todo
      simp only [hit, List.length_append, List.length_cons, List.length_nil, List.map_append,
        List.sum_append, List.map_cons, List.map_nil, List.sum_cons, List.sum_nil, Future.todo]
      omega
    rw [hp] at hpush
    split
    · exact (todo_popleft rfl).trans hpush
    · exact hpush

theorem todo_next (hp : g.place = .suspended) : (step answer .next g).todo < g.todo := by
  unfold step
  rw [hp]
  simp [Gen.todo, hp, Place.todo]

theorem todo_result (h : Inv answer shas g) {k : Nat} (hp : g.place = .waiting k) {sha : Sha}
    {r : Except ε α} (hk : g.futures[k]? = some (sha, .finished r)) :
    (step answer .go g).todo < g.todo := by
  have hout := h.out_le
  have hlt := (List.getElem?_eq_some_iff.mp hk).1
  rw [h.waiting k hp] at hlt
  unfold step
  rw [hp]
  dsimp only
  rw [hk]
  cases r with
  | ok a =>
    unfold Gen.todo
    simp only [hp, Place.todo, List.length_append, List.length_cons, List.length_nil]
    omega
  | error e => exact todo_leave (by simp [hp, Place.todo])

theorem todo_start {k : Nat} {sha : Sha} (hk : g.futures[k]? = some (sha, .pending)) :
    (step answer (.start k) g).todo < g.todo := by
  have htally := tally_set (fun p : Sha × Future ε α => p.2.todo) hk (sha, .running)
  change _ + 2 = _ + 1 at htally
  unfold step
  dsimp only
  rw [hk]
  unfold Gen.todo
  simp only [List.length_set]
  omega

theorem todo_finish {k : Nat} {sha : Sha} (hk : g.futures[k]? = some (sha, .running)) :
    (step answer (.finish k) g).todo < g.todo := by
  have htally := tally_set (fun p : Sha × Future ε α => p.2.todo) hk (sha, .finished (answer k))
  change _ + 1 = _ + 0 at htally
  unfold step
  dsimp only
  rw [hk]
  unfold Gen.todo
  simp only [List.length_set]
  omega

/-- A step changes nothing, or leaves less to do. -/
theorem step_todo (h : Inv answer shas g) (l : Label) :
    step answer l g = g ∨ (step answer l g).todo < g.todo := by
  cases l with
  | go =>
    cases hp : g.place with
    | loop => exact .inr (todo_loop hp)
    | waiting k =>
      rcases hk : g.futures[k]? with _ | ⟨sha, f⟩
      · left
        unfold step
        rw [hp]
        dsimp only
        rw [hk]
      · cases f with
        | finished r => exact .inr (todo_result h hp hk)
        | _ =>
          left
          unfold step
          rw [hp]
          dsimp only
          rw [hk]
    | _ =>
      left
      unfold step
      rw [hp]
  | next =>
    cases hp : g.place with
    | suspended => exact .inr (todo_next hp)
    | _ =>
      left
      unfold step
      rw [hp]
  | close =>
    unfold step
    cases hp : g.place with
    | suspended => exact .inr (todo_leave (by simp [hp, Place.todo]))
    | _ => exact .inl rfl
  | start k =>
    rcases hk : g.futures[k]? with _ | ⟨sha, f⟩
    · left
      unfold step
      dsimp only
      rw [hk]
    · cases f with
      | pending => exact .inr (todo_start hk)
      | _ =>
        left
        unfold step
        dsimp only
        rw [hk]
  | finish k =>
    rcases hk : g.futures[k]? with _ | ⟨sha, f⟩
    · left
      unfold step
      dsimp only
      rw [hk]
    · cases f with
      | running => exact .inr (todo_finish hk)
      | _ =>
        left
        unfold step
        dsimp only
        rw [hk]

/-- Something can go on, as long as the generator has not come to its end. -/
theorem Inv.progress (h : Inv answer shas g) (hlive : g.place.isOver = false) :
    ∃ l, (step answer l g).todo < g.todo := by
  cases hp : g.place with
  | loop => exact ⟨.go, todo_loop hp⟩
  | suspended => exact ⟨.next, todo_next hp⟩
  | waiting k =>
    have hlt : k < g.futures.length := by
      have hle := h.head_le
      rw [Gen.head, hp] at hle
      rw [h.waiting k hp]
      exact hle
    have hk := List.getElem?_eq_getElem hlt
    rcases hf : g.futures[k] with ⟨sha, f⟩
    rw [hf] at hk
    cases f with
    | pending => exact ⟨.start k, todo_start hk⟩
    | running => exact ⟨.finish k, todo_finish hk⟩
    | finished r => exact ⟨.go, todo_result h hp hk⟩
    | cancelled => exact absurd rfl (h.live hlive _ (List.mem_of_getElem? hk))
  | _ =>
    rw [hp] at hlive
    cases hlive

/-- No more tasks are in the pool than the generator may be ahead. -/
theorem Inv.unfinished_le (h : Inv answer shas g) (hroom : g.window.length < g.workers) :
    (g.futures.countP fun p => p.2.unfinished) ≤ g.workers := by
  have hahead : g.futures.length ≤ g.out.length + g.workers := by
    have hlen := congrArg List.length h.window
    have hle := h.head_le
    have hpopped : g.place.popped ≤ 1 := by
      cases g.place <;> simp [Place.popped]
    rw [List.length_range'] at hlen
    unfold Gen.head at hlen hle
    omega
  have hnone : (g.futures.take g.out.length).countP (fun p => p.2.unfinished) = 0 := by
    rw [List.countP_eq_zero]
    intro p hp
    obtain ⟨k, hk⟩ := List.mem_iff_getElem?.mp hp
    rw [List.getElem?_take] at hk
    split at hk
    · rename_i hlt
      obtain ⟨sha, r, hold⟩ := h.settled k (.inl hlt)
      rw [hk] at hold
      cases hold
      simp [Future.unfinished]
    · cases hk
  calc g.futures.countP (fun p => p.2.unfinished)
      = (g.futures.take g.out.length ++ g.futures.drop g.out.length).countP
          fun p => p.2.unfinished := by rw [List.take_append_drop]
    _ = (g.futures.drop g.out.length).countP fun p => p.2.unfinished := by
        rw [List.countP_append, hnone, Nat.zero_add]
    _ ≤ (g.futures.drop g.out.length).length := List.countP_le_length
    _ ≤ g.workers := by
        rw [List.length_drop]
        omega

/-- What a run of the generator comes to, beside reading the chunks one after the other. -/
structure Windowed (answer : Nat → Except ε α) (shas : List Sha) (workers : Nat)
    (g : Gen Sha ε α) : Prop where
  /-- At most so many downloads are queued or under way. -/
  ahead : (g.futures.countP fun p => p.2.unfinished) ≤ workers
  order : g.out <+: (plain ((List.range shas.length).map answer)).1
  returned : g.place = .returned →
    plain ((List.range shas.length).map answer) = (g.out, .ok ())
  raised : ∀ e, g.place = .raised e →
    plain ((List.range shas.length).map answer) = (g.out, .error e)
  /-- At its end nothing is left in the queue. -/
  finished : g.place.isOver = true → ∀ p ∈ g.futures, p.2 ≠ .pending
  /-- Before that something can go on, and everything that goes on leaves less to do. -/
  progress : g.place.isOver = false → ∃ l, (step answer l g).todo < g.todo
  less : ∀ l, step answer l g = g ∨ (step answer l g).todo < g.todo

theorem Inv.windowed (h : Inv answer shas g) (hroom : g.window.length < g.workers) :
    Windowed answer shas g.workers g := by
  have hsplit : (List.range shas.length).map answer =
      g.out.map .ok ++ ((List.range shas.length).map answer).drop g.out.length := by
    rw [← h.yielded, List.take_append_drop]
  refine ⟨h.unfinished_le hroom, ?_, fun hp => ?_, fun e hp => ?_, h.finished, h.progress, step_todo h⟩
  · rw [hsplit, plain_append]
    exact List.prefix_append _ _
  · obtain ⟨hit, hw⟩ := h.returned hp
    have hlen : shas.length ≤ g.out.length := by
      have hwindow := congrArg List.length (h.window.symm.trans hw)
      have hitems := congrArg List.length h.items
      rw [List.length_range', List.length_nil, Gen.head, hp] at hwindow
      rw [hit, List.append_nil, List.length_map] at hitems
      change g.futures.length - (g.out.length + 0) = 0 at hwindow
      omega
    rw [hsplit, plain_append, List.drop_eq_nil_of_le (by simpa using hlen)]
    simp [plain]
  · have hlt : g.out.length < shas.length := by
      obtain ⟨sha, r, hk⟩ := h.settled g.out.length (.inr ⟨rfl, e, hp⟩)
      exact Nat.lt_of_lt_of_le (List.getElem?_eq_some_iff.mp hk).1 h.futures_le
    have hdrop : ((List.range shas.length).map answer).drop g.out.length =
        .error e :: ((List.range shas.length).map answer).drop (g.out.length + 1) := by
      rw [List.drop_eq_getElem_cons (by simpa using hlt)]
      simp [h.raised e hp]
    rw [hsplit, plain_append, hdrop]
    simp [plain]

/-- Whatever order the pool works in and whenever the caller goes on or stops: the window changes
nothing of what reading the chunks one after the other yields. -/
theorem run_windowed (answer : Nat → Except ε α) (shas : List Sha) (downloadWorkers : Nat)
    (ls : List Label) :
    Windowed answer shas (max 1 downloadWorkers)
      (run answer ls (start downloadWorkers shas)) := by
  have hroom : (start downloadWorkers shas : Gen Sha ε α).window.length <
      (start downloadWorkers shas : Gen Sha ε α).workers :=
    Nat.lt_of_lt_of_le Nat.one_pos (Nat.le_max_left 1 downloadWorkers)
  have hstart : Inv answer shas (start downloadWorkers shas : Gen Sha ε α) := inv_start _
  obtain ⟨h, hroom'⟩ := inv_run hstart hroom ls
  have hwindowed := h.windowed hroom'
  rw [run_workers] at hwindowed
  exact hwindowed

end IterChunks

end Tgfs
