import Mathlib.Algebra.Order.BigOperators.Group.List
import Mathlib.Algebra.Order.Group.Nat
import Mathlib.Data.List.Nodup
import Mathlib.Data.List.Perm.Basic
import Tgfs.Misc.Tally
import Tgfs.Transfer.SenderPool

/-!
# Who has a connection

Every connection that was made is in the pool, waits for one `reset` to disconnect it, is
disconnected, or was forgotten; and in one of these places once.
-/

namespace Tgfs

namespace SenderPool

namespace Task

/-- The connections that a `reset` still has to disconnect. -/
def dead : Task → List Conn
  | .dropping dead => dead
  | _ => []

/-- Whether the task has the lock. -/
def holds : Task → Nat
  | .making => 1
  | _ => 0

/-- The task has come to an end. -/
def isOver : Task → Bool
  | .got _ | .reset | .raised => true
  | .dropping dead => dead.isEmpty
  | _ => false

@[simp] theorem dead_afterDrop (l : List Conn) : (afterDrop l).dead = l := by
  cases l <;> rfl

@[simp] theorem holds_afterDrop (l : List Conn) : (afterDrop l).holds = 0 := by
  cases l <;> rfl

end Task

/-- How often a connection is somewhere. -/
def Pool.places (p : Pool) (c : Conn) : Nat :=
  p.senders.count c + (p.tasks.map fun t => t.dead.count c).sum + p.dropped.count c +
    p.left.count c

structure Inv (p : Pool) : Prop where
  room : p.senders.length ≤ p.size
  lock : (p.tasks.map Task.holds).sum = if p.locked then 1 else 0
  making : p.locked = true → p.senders.length < p.size
  got : ∀ s, Task.got s ∈ p.tasks → s.length = p.size ∧ s.Nodup
  once : ∀ c, p.places c = if c < p.made then 1 else 0

variable {p : Pool}

theorem Inv.senders_nodup (h : Inv p) : p.senders.Nodup := by
  rw [List.nodup_iff_count_le_one]
  intro c
  have hc := h.once c
  unfold Pool.places at hc
  split at hc <;> omega

theorem Inv.lt_made (h : Inv p) {c : Conn} (hc : c ∈ p.senders) : c < p.made := by
  have hone := h.once c
  have hpos := List.count_pos_iff.mpr hc
  unfold Pool.places at hone
  split at hone
  · assumption
  · omega

theorem inv_start (size : Nat) : Inv (start size) := by
  refine ⟨Nat.zero_le _, rfl, by simp [start], by simp [start], fun c => ?_⟩
  simp [start, Pool.places]

theorem Inv.add (h : Inv p) {t : Task} (hd : t.dead = []) (hh : t.holds = 0) (hg : t.isOver = false) :
    Inv { p with tasks := p.tasks ++ [t] } where
  room := h.room
  lock := by
    rw [List.map_append, List.sum_append, List.map_singleton, List.sum_singleton, hh]
    exact h.lock
  making := h.making
  got := by
    intro s hs
    rcases List.mem_append.mp hs with hs | hs
    · exact h.got s hs
    · rw [← List.mem_singleton.mp hs] at hg
      cases hg
  once := by
    intro c
    rw [← h.once c]
    unfold Pool.places
    dsimp only
    rw [List.map_append, List.sum_append, List.map_singleton, List.sum_singleton, hd]
    rfl

/-- A task goes on: the lock and the connections go with it. -/
theorem Inv.move (h : Inv p) {k : Nat} {t t' : Task} (hk : p.tasks[k]? = some t)
    {senders dropped left : List Conn} {locked : Bool} {made : Nat}
    (hroom : senders.length ≤ p.size)
    (hlock : t'.holds + (if p.locked then 1 else 0) = t.holds + if locked then 1 else 0)
    (hmaking : locked = true → senders.length < p.size)
    (hgot : ∀ s, t' = .got s → s.length = p.size ∧ s.Nodup)
    (honce : ∀ c, senders.count c + t'.dead.count c + dropped.count c + left.count c +
        (if c < p.made then 1 else 0) =
      p.senders.count c + t.dead.count c + p.dropped.count c + p.left.count c +
        if c < made then 1 else 0) :
    Inv ⟨p.size, senders, locked, p.tasks.set k t', made, dropped, left⟩ where
  room := hroom
  lock := by
    have htally := tally_set Task.holds hk t'
    have hold := h.lock
    dsimp only
    omega
  making := hmaking
  got := by
    intro s hs
    rcases List.mem_or_eq_of_mem_set hs with hs | hs
    · exact h.got s hs
    · exact hgot s hs.symm
  once := by
    intro c
    have htally := tally_set (fun t : Task => t.dead.count c) hk t'
    have hold := h.once c
    have hc := honce c
    unfold Pool.places at hold ⊢
    dsimp only
    omega

theorem Inv.holder (h : Inv p) {k : Nat} (hk : p.tasks[k]? = some .making) : p.locked = true := by
  have hle := le_tally Task.holds (List.mem_of_getElem? hk)
  have hlock := h.lock
  cases hl : p.locked with
  | true => rfl
  | false =>
    rw [hl] at hlock
    change 1 ≤ _ at hle
    have hzero : (p.tasks.map Task.holds).sum = 0 := hlock
    omega

theorem set_self {α : Type} {l : List α} {k : Nat} {a : α} (h : l[k]? = some a) :
    l.set k a = l := by
  obtain ⟨hk, rfl⟩ := List.getElem?_eq_some_iff.mp h
  exact List.set_getElem_self hk

theorem count_concat (l : List Conn) (c d : Conn) :
    (l ++ [d]).count c = l.count c + if c = d then 1 else 0 := by
  rw [List.count_append, List.count_singleton]
  by_cases h : c = d
  · subst h
    simp
  · simp [h, Ne.symm h]

/-- A step that leaves the pool's connections and moves none of the task's. -/
theorem Inv.keep (h : Inv p) {k : Nat} {t t' : Task} (hk : p.tasks[k]? = some t) {locked : Bool}
    (hlock : t'.holds + (if p.locked then 1 else 0) = t.holds + if locked then 1 else 0)
    (hmaking : locked = true → p.senders.length < p.size)
    (hgot : ∀ s, t' = .got s → s.length = p.size ∧ s.Nodup) (hdead : t'.dead = t.dead) :
    Inv { p with locked := locked, tasks := p.tasks.set k t' } :=
  h.move hk h.room hlock hmaking hgot fun c => by rw [hdead]

theorem inv_get (h : Inv p) {k : Nat} (hk : p.tasks[k]? = some .getting) (ok : Bool) :
    Inv (step (.run k ok) p) := by
  unfold step
  simp only [hk]
  split
  · exact h
  · rename_i hfree
    split
    · rename_i hless
      refine h.keep hk ?_ (fun _ => hless) (by simp) rfl
      rw [if_neg hfree]
      rfl
    · rename_i hfull
      refine h.keep hk rfl (fun hl => absurd hl hfree) ?_ rfl
      intro s hs
      cases hs
      exact ⟨Nat.le_antisymm h.room (Nat.le_of_not_lt hfull), h.senders_nodup⟩

theorem inv_make (h : Inv p) {k : Nat} (hk : p.tasks[k]? = some .making) (ok : Bool) :
    Inv (step (.run k ok) p) := by
  have hl := h.holder hk
  have hroom := h.making hl
  have hlen : (p.senders ++ [p.made]).length = p.senders.length + 1 := List.length_append
  have honce : ∀ c, (p.senders ++ [p.made]).count c + (if c < p.made then 1 else 0) =
      p.senders.count c + if c < p.made + 1 then 1 else 0 := by
    intro c
    rw [count_concat]
    by_cases hc : c = p.made
    · subst hc
      simp
    · have hiff : c < p.made ↔ c < p.made + 1 :=
        ⟨Nat.lt_succ_of_lt, fun h => Nat.lt_of_le_of_ne (Nat.le_of_lt_succ h) hc⟩
      simp only [hc, hiff, if_false]
      omega
  unfold step
  simp only [hk]
  cases ok with
  | false =>
    refine h.keep hk ?_ (by simp) (by simp) rfl
    rw [hl]
    rfl
  | true =>
    simp only [if_true]
    split
    · rename_i hless
      have hmove : Inv ⟨p.size, p.senders ++ [p.made], p.locked, p.tasks.set k .making,
          p.made + 1, p.dropped, p.left⟩ := by
        refine h.move hk (Nat.le_of_lt hless) rfl (fun _ => hless) (by simp) fun c => ?_
        have hc := honce c
        omega
      rwa [set_self hk] at hmove
    · rename_i hfull
      refine h.move hk ?_ ?_ (by simp) ?_ fun c => ?_
      · rw [hlen]
        exact hroom
      · rw [hl]
        rfl
      · intro s hs
        cases hs
        refine ⟨by rw [hlen] at hfull ⊢; omega, ?_⟩
        rw [List.nodup_append]
        refine ⟨h.senders_nodup, List.nodup_singleton _, ?_⟩
        intro c hc d hd
        rw [List.mem_singleton.mp hd]
        exact Nat.ne_of_lt (h.lt_made hc)
      · have hc := honce c
        change _ + List.count c [] + _ + _ + _ = _ + List.count c [] + _ + _ + _
        omega

theorem inv_reset (h : Inv p) {k : Nat} (hk : p.tasks[k]? = some .resetting) (ok : Bool) :
    Inv (step (.run k ok) p) := by
  unfold step
  simp only [hk]
  split
  · exact h
  · rename_i hfree
    refine h.move hk (Nat.zero_le _) ?_ (fun hl => absurd hl hfree) ?_ fun c => ?_
    · rw [Task.holds_afterDrop]
      rfl
    · intro s hs
      cases hsenders : p.senders <;> rw [hsenders] at hs <;> cases hs
    · rw [Task.dead_afterDrop]
      change List.count c [] + _ + _ + _ + _ = _ + List.count c [] + _ + _ + _
      rw [List.count_nil]
      omega

theorem inv_drop (h : Inv p) {k : Nat} {s : Conn} {dead : List Conn}
    (hk : p.tasks[k]? = some (.dropping (s :: dead))) (ok : Bool) : Inv (step (.run k ok) p) := by
  unfold step
  simp only [hk]
  refine h.move hk h.room ?_ h.making ?_ fun c => ?_
  · rw [Task.holds_afterDrop]
    rfl
  · intro l hl
    cases dead <;> cases hl
  · rw [Task.dead_afterDrop]
    change _ + List.count c dead + _ + _ + _ = _ + List.count c (s :: dead) + _ + _ + _
    rw [count_concat, List.count_cons]
    by_cases hc : c = s
    · subst hc
      simp
      omega
    · simp [hc, Ne.symm hc]

theorem inv_cancel (h : Inv p) (k : Nat) : Inv (step (.cancel k) p) := by
  unfold step
  dsimp only
  cases hk : p.tasks[k]? with
  | none => exact h
  | some t =>
    cases t with
    | getting => exact h.keep hk rfl h.making (by simp) rfl
    | resetting => exact h.keep hk rfl h.making (by simp) rfl
    | making =>
      refine h.keep hk ?_ (by simp) (by simp) rfl
      rw [h.holder hk]
      rfl
    | dropping dead =>
      refine h.move hk h.room rfl h.making (by simp) fun c => ?_
      change _ + List.count c [] + _ + List.count c (p.left ++ dead) + _ =
        _ + List.count c dead + _ + _ + _
      rw [List.count_append, List.count_nil]
      omega
    | _ => exact h

theorem inv_step (h : Inv p) (l : Label) : Inv (step l p) := by
  cases l with
  | get => exact h.add rfl rfl rfl
  | reset => exact h.add rfl rfl rfl
  | run k ok =>
    cases hk : p.tasks[k]? with
    | none =>
      unfold step
      simp only [hk]
      exact h
    | some t =>
      cases t with
      | getting => exact inv_get h hk ok
      | making => exact inv_make h hk ok
      | resetting => exact inv_reset h hk ok
      | dropping dead =>
        cases dead with
        | nil =>
          unfold step
          simp only [hk]
          exact h
        | cons s dead => exact inv_drop h hk ok
      | _ =>
        unfold step
        simp only [hk]
        exact h
  | cancel k => exact inv_cancel h k

theorem inv_run (h : Inv p) (ls : List Label) : Inv (run ls p) := by
  induction ls generalizing p with
  | nil => exact h
  | cons l ls ih => exact ih (inv_step h l)

/-! ## Every call comes to an end -/

/-- The steps that are left for a task, at most, with room for `free` connections. -/
def Task.todo (size free : Nat) : Task → Nat
  | .getting | .resetting => size + 2
  | .making => free + 1
  | .dropping dead => dead.length + 1
  | _ => 0

def Pool.todo (p : Pool) : Nat := (p.tasks.map (Task.todo p.size (p.size - p.senders.length))).sum

theorem Task.todo_afterDrop (size free : Nat) (l : List Conn) :
    (afterDrop l).todo size free ≤ l.length + 1 := by
  cases l with
  | nil => exact Nat.zero_le _
  | cons s l => exact Nat.le_refl _

theorem Task.todo_mono (size : Nat) {free free' : Nat} (h : free' ≤ free) (t : Task) :
    t.todo size free' ≤ t.todo size free := by
  cases t with
  | making => exact Nat.succ_le_succ h
  | _ => exact Nat.le_refl _

/-- Task `k` has less to do, and the others no more than before. -/
theorem todo_lt {k : Nat} {t u : Task} (hk : p.tasks[k]? = some t) {free : Nat}
    (hlt : u.todo p.size free < t.todo p.size (p.size - p.senders.length))
    (hothers : ∀ v ∈ p.tasks, v.todo p.size free ≤ v.todo p.size (p.size - p.senders.length)) :
    ((p.tasks.set k u).map (Task.todo p.size free)).sum < p.todo := by
  -- the sums without the task
  have htally := tally_set (Task.todo p.size free) hk u
  have hgone := tally_set (Task.todo p.size free) hk .raised
  have hgone' := tally_set (Task.todo p.size (p.size - p.senders.length)) hk .raised
  have hrest : ((p.tasks.set k .raised).map (Task.todo p.size free)).sum ≤
      ((p.tasks.set k .raised).map (Task.todo p.size (p.size - p.senders.length))).sum := by
    apply List.sum_le_sum
    intro u hu
    rcases List.mem_or_eq_of_mem_set hu with hu | rfl
    · exact hothers u hu
    · exact Nat.le_refl _
  have hzero : ∀ free, Task.raised.todo p.size free = 0 := fun _ => rfl
  rw [hzero] at hgone hgone'
  unfold Pool.todo
  omega

theorem Inv.not_making (h : Inv p) (hfree : ¬ p.locked = true) {t : Task} (ht : t ∈ p.tasks) :
    t ≠ .making := by
  rintro rfl
  obtain ⟨k, hk⟩ := List.getElem?_of_mem ht
  exact hfree (h.holder hk)

theorem step_todo_lt (h : Inv p) {k : Nat} {ok : Bool} (hne : step (.run k ok) p ≠ p) :
    (step (.run k ok) p).todo < p.todo := by
  have hsame : ∀ u ∈ p.tasks, u.todo p.size (p.size - p.senders.length) ≤
      u.todo p.size (p.size - p.senders.length) := fun _ _ => Nat.le_refl _
  cases hk : p.tasks[k]? with
  | none => exact absurd (by simp only [step, hk]) hne
  | some t =>
    cases t with
    | getting =>
      simp only [step, hk] at hne ⊢
      split at hne
      · exact absurd rfl hne
      · rename_i hfree
        rw [if_neg hfree]
        split
        · refine todo_lt hk ?_ hsame
          change p.size - p.senders.length + 1 < p.size + 2
          omega
        · exact todo_lt hk (Nat.succ_pos _) hsame
    | making =>
      have hroom := h.making (h.holder hk)
      have hless : p.size - (p.senders ++ [p.made]).length < p.size - p.senders.length := by
        rw [List.length_append, List.length_singleton]
        omega
      have hothers : ∀ u ∈ p.tasks, u.todo p.size (p.size - (p.senders ++ [p.made]).length) ≤
          u.todo p.size (p.size - p.senders.length) :=
        fun u _ => u.todo_mono p.size (Nat.le_of_lt hless)
      cases ok with
      | false =>
        simp only [step, hk]
        exact todo_lt hk (Nat.succ_pos _) hsame
      | true =>
        simp only [step, hk, if_true]
        split
        · have hlt := todo_lt hk (u := .making) (Nat.succ_lt_succ hless) hothers
          rwa [set_self hk] at hlt
        · exact todo_lt hk (Nat.succ_pos _) hothers
    | resetting =>
      simp only [step, hk] at hne ⊢
      split at hne
      · exact absurd rfl hne
      · rename_i hfree
        rw [if_neg hfree]
        refine todo_lt hk ?_ ?_
        · refine Nat.lt_of_le_of_lt (Task.todo_afterDrop _ _ _) ?_
          exact Nat.succ_lt_succ (Nat.lt_succ_of_le h.room)
        · intro u hu
          have hu' := h.not_making hfree hu
          cases u with
          | making => exact absurd rfl hu'
          | _ => exact Nat.le_refl _
    | dropping dead =>
      cases dead with
      | nil => exact absurd (by simp only [step, hk]) hne
      | cons s dead =>
        simp only [step, hk]
        refine todo_lt hk ?_ hsame
        exact Nat.lt_of_le_of_lt (Task.todo_afterDrop _ _ dead) (Nat.lt_succ_self _)
    | _ => exact absurd (by simp only [step, hk]) hne

theorem set_ne_self {k : Nat} {t t' : Task} (hk : p.tasks[k]? = some t) (hne : t' ≠ t) :
    p.tasks.set k t' ≠ p.tasks := by
  intro he
  have hlt := (List.getElem?_eq_some_iff.mp hk).1
  have hget := congrArg (·[k]?) he
  rw [List.getElem?_set_self hlt, hk] at hget
  exact hne (Option.some.inj hget)

theorem make_ne {k : Nat} (hk : p.tasks[k]? = some .making) : step (.run k true) p ≠ p := by
  intro he
  have hmade : (step (.run k true) p).made = p.made + 1 := by
    simp only [step, hk, if_true]
    split <;> rfl
  rw [he] at hmade
  omega

/-- As long as a task is not over, one of them can go on. -/
theorem step_progress (h : Inv p) (ht : ∃ t ∈ p.tasks, t.isOver = false) :
    ∃ k, step (.run k true) p ≠ p := by
  by_cases hl : p.locked = true
  · have hpos : 0 < (p.tasks.map Task.holds).sum := by
      rw [h.lock, if_pos hl]
      exact Nat.one_pos
    obtain ⟨t, ht, hholds⟩ := exists_of_tally_pos Task.holds hpos
    obtain ⟨k, hk⟩ := List.getElem?_of_mem ht
    cases t with
    | making => exact ⟨k, make_ne hk⟩
    | _ => cases hholds
  · obtain ⟨t, ht, hover⟩ := ht
    obtain ⟨k, hk⟩ := List.getElem?_of_mem ht
    refine ⟨k, ?_⟩
    cases t with
    | getting =>
      simp only [step, hk]
      rw [if_neg hl]
      split
      · intro he
        exact set_ne_self hk (by simp) (congrArg Pool.tasks he)
      · intro he
        exact set_ne_self hk (by simp) (congrArg Pool.tasks he)
    | making => exact make_ne hk
    | resetting =>
      simp only [step, hk]
      rw [if_neg hl]
      intro he
      refine set_ne_self hk ?_ (congrArg Pool.tasks he)
      cases p.senders <;> simp [afterDrop]
    | dropping dead =>
      cases dead with
      | nil => cases hover
      | cons s dead =>
        simp only [step, hk]
        intro he
        have hdropped := congrArg (fun p => p.dropped.length) he
        simp at hdropped
    | _ => cases hover

theorem step_size (l : Label) (p : Pool) : (step l p).size = p.size := by
  cases l <;> simp only [step] <;> repeat' split
  all_goals rfl

theorem run_size (ls : List Label) (p : Pool) : (run ls p).size = p.size := by
  induction ls generalizing p with
  | nil => rfl
  | cons l ls ih => exact (ih _).trans (step_size l p)

/-- Whatever transfers share a pool, and in whatever order their calls go on: the pool holds at
most `size` connections, a `get` returns `size` different ones, every connection that was made is
in one place, and the calls come to an end. -/
theorem run_pool (size : Nat) (ls : List Label) :
    ((run ls (start size)).senders ++ (run ls (start size)).tasks.flatMap Task.dead ++
        (run ls (start size)).dropped ++ (run ls (start size)).left).Perm
      (List.range (run ls (start size)).made) ∧
    (run ls (start size)).senders.length ≤ size ∧
    (∀ s, .got s ∈ (run ls (start size)).tasks → s.length = size ∧ s.Nodup) ∧
    ((∃ t ∈ (run ls (start size)).tasks, t.isOver = false) →
      ∃ k, step (.run k true) (run ls (start size)) ≠ run ls (start size)) ∧
    ∀ k ok, step (.run k ok) (run ls (start size)) ≠ run ls (start size) →
      (step (.run k ok) (run ls (start size))).todo < (run ls (start size)).todo := by
  have h := inv_run (inv_start size) ls
  have hroom := h.room
  have hgot := h.got
  rw [run_size] at hroom hgot
  refine ⟨?_, hroom, hgot, step_progress h, fun k ok => step_todo_lt h⟩
  rw [List.perm_iff_count]
  intro c
  rw [List.count_append, List.count_append, List.count_append, List.count_flatMap,
    List.nodup_range.count]
  simp only [List.mem_range]
  exact h.once c

end SenderPool

end Tgfs
