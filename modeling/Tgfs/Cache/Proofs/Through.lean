import Tgfs.Cache.Proofs.RangeReads

/-!
# Every read comes to an end

The workers of the pool may all be in parts or prefetches that wait for downloads of others. But
whoever leads a download waits for nobody, so there is always a call that can go on, or a worker
for the next task.
-/

namespace Tgfs

namespace RangeReads

variable {Sha : Type} [DecidableEq Sha] {blob : Sha → Bytes}
  {loader : Nat → Sha → Except (PyErr Sha) Bytes} {c : RangeReads Sha}
  {failed : Nat → Sha → PyErr Sha → Prop}

def Place.todo {Sha : Type} : Place Sha → Nat
  | .queued => 34
  | .begun => 33
  | .fetching _ => 1
  | .finished _ => 0

def joinsTodo (c : RangeReads Sha) : Nat :=
  ∑ k ∈ Finset.range c.threads, (c.joins k).elim 0 fun j => j.parts.length

/-- More than the steps that can still be taken before somebody calls `read_range` again. -/
def todo (c : RangeReads Sha) : Nat :=
  c.ahead.todo c.threads + (c.parts.map fun q => q.place.todo).sum + c.joinsTodo

/-- The step is one of a reader, a worker or a call of the read cache; the others are a new read
and what happens around the store. -/
def Label.inner {Sha : Type} : Label Sha → Bool
  | .read _ _ _ _ | .vanish _ | .index _ => false
  | _ => true

/-! ## One step -/

omit [DecidableEq Sha] in
theorem todo_ahead {a : Readahead Sha} (h : a.todo c.threads < c.ahead.todo c.threads) :
    ({ c with ahead := a } : RangeReads Sha).todo < c.todo := by
  change a.todo c.threads + (c.parts.map fun q => q.place.todo).sum + c.joinsTodo < c.todo
  unfold todo
  omega

omit [DecidableEq Sha] in
theorem todo_setPart {p : Nat} {q : PartCall Sha} (hq : c.parts[p]? = some q) {place : Place Sha}
    (h : place.todo < q.place.todo) : (c.setPart p { q with place := place }).todo < c.todo := by
  have hsum := tally_set (fun q : PartCall Sha => q.place.todo) hq { q with place := place }
  dsimp only at hsum
  change c.ahead.todo c.threads + ((c.parts.set p { q with place := place }).map
    fun q => q.place.todo).sum + c.joinsTodo < c.todo
  unfold todo
  omega

theorem todo_begin {p : Nat} {q : PartCall Sha} (hq : c.parts[p]? = some q) (hp : q.place = .queued)
    (hbusy : c.busy < c.downloadWorkers) : (c.part loader p).todo < c.todo := by
  unfold part
  rw [hq]
  dsimp only
  rw [hp]
  dsimp only
  rw [if_pos hbusy]
  exact todo_setPart hq (by rw [hp]; simp [Place.todo])

theorem todo_look {p : Nat} {q : PartCall Sha} (hq : c.parts[p]? = some q) (hp : q.place = .begun) :
    (c.part loader p).todo < c.todo := by
  unfold part
  rw [hq]
  dsimp only
  rw [hp]
  dsimp only
  split
  · exact todo_setPart hq (by rw [hp]; simp [Place.todo])
  · have hsum := tally_set (fun q : PartCall Sha => q.place.todo) hq
      { q with place := .fetching c.ahead.cache.nextCall }
    dsimp only at hsum
    have hcall : (Fetchers.step loader (.call q.sha (.getRange (some (q.lo, q.hi))))
        c.ahead.cache).todo = c.ahead.cache.todo +
          (Fetch.start q.sha (.getRange (some (q.lo, q.hi)))).todo := Fetchers.todo_call _ _
    have hstart : (Fetch.start q.sha (.getRange (some (q.lo, q.hi)))).todo = 31 := rfl
    have hfetch : (Place.fetching c.ahead.cache.nextCall : Place Sha).todo = 1 := rfl
    have hbegun : q.place.todo = 33 := by rw [hp]; rfl
    change (c.ahead.readersTodo c.threads + c.ahead.tasksTodo +
      (Fetchers.step loader (.call q.sha (.getRange (some (q.lo, q.hi)))) c.ahead.cache).todo) +
        ((c.parts.set p { q with place := .fetching c.ahead.cache.nextCall }).map
          fun q => q.place.todo).sum + c.joinsTodo < c.todo
    unfold todo Readahead.todo
    omega

/-- The call of a part has returned. -/
theorem todo_fetched {p : Nat} {q : PartCall Sha} (hq : c.parts[p]? = some q) {call : Nat}
    (hp : q.place = .fetching call) {f : Fetch Sha} (hf : c.ahead.cache.calls call = some f)
    (hzero : f.todo = 0) : (c.part loader p).todo < c.todo := by
  obtain ⟨sha, kind, pc⟩ := f
  cases pc with
  | returned r =>
    unfold part
    rw [hq]
    dsimp only
    rw [hp]
    dsimp only
    rw [hf]
    exact todo_setPart hq (by rw [hp]; simp [Place.todo])
  | _ => simp [Fetch.todo, FetchPc.todo] at hzero

theorem part_todo (p : Nat) : c.part loader p = c ∨ (c.part loader p).todo < c.todo := by
  cases hq : c.parts[p]? with
  | none =>
    left
    unfold part
    rw [hq]
  | some q =>
    cases hp : q.place with
    | queued =>
      by_cases hbusy : c.busy < c.downloadWorkers
      · exact .inr (todo_begin hq hp hbusy)
      · left
        simp [part, hq, hp, hbusy]
    | begun => exact .inr (todo_look hq hp)
    | fetching call =>
      cases hf : c.ahead.cache.calls call with
      | none =>
        left
        simp [part, hq, hp, hf]
      | some f =>
        rcases Nat.eq_zero_or_pos f.todo with hzero | hpos
        · exact .inr (todo_fetched hq hp hf hzero)
        · left
          obtain ⟨sha, kind, pc⟩ := f
          cases pc with
          | returned r => exact absurd hpos (Nat.lt_irrefl 0)
          | _ => simp [part, hq, hp, hf]
    | finished r =>
      left
      simp [part, hq, hp]

theorem ahead_task (h : Inv failed blob c) (i : Nat) :
    c.ahead.task loader i = c.ahead ∨
      (c.ahead.task loader i).todo c.threads < c.ahead.todo c.threads :=
  Readahead.todo_task h.below.ahead.fresh i

theorem task_todo (h : Inv failed blob c) (i : Nat) :
    c.task loader i = c ∨ (c.task loader i).todo < c.todo := by
  have hstep : ({ c with ahead := Readahead.step loader (.task i) c.ahead } : RangeReads Sha) = c ∨
      ({ c with ahead := Readahead.step loader (.task i) c.ahead } : RangeReads Sha).todo <
        c.todo := by
    rcases ahead_task h i with hsame | hless
    · left
      change ({ c with ahead := c.ahead.task loader i } : RangeReads Sha) = c
      rw [hsame]
    · exact .inr (todo_ahead hless)
  unfold task
  split
  · split
    · exact hstep
    · exact .inl rfl
  · exact hstep

theorem todo_answer (h : Inv failed blob c) {k : Nat} {j : Joining Sha} (hj : c.joins k = some j)
    (ok : Bool) (r : Except (PyErr Sha) Bytes) : (c.answer loader k j ok r).todo < c.todo := by
  have hreading : isAssembling (c.ahead.readers k) = true := by
    rw [← h.reading, hj]
    rfl
  have hk : k < c.threads := by
    by_contra hk
    rw [h.idle k (Nat.le_of_not_lt hk)] at hreading
    cases hreading
  have hjoins := sum_update c.joins (fun j => j.elim 0 fun j => j.parts.length) hk none
  rw [hj] at hjoins
  simp only [Option.elim_some, Option.elim_none] at hjoins
  cases hr : c.ahead.readers k with
  | assembling ino offset fin next =>
    have hahead : (Readahead.step loader (.assembled k ok) c.ahead).todo c.threads <
        c.ahead.todo c.threads := Readahead.todo_assembled hk hr ok
    change (Readahead.step loader (.assembled k ok) c.ahead).todo c.threads +
      (c.parts.map fun q => q.place.todo).sum + ∑ k' ∈ Finset.range c.threads,
        (Function.update c.joins k none k').elim 0 (fun j => j.parts.length) < c.todo
    unfold todo joinsTodo
    omega
  | _ =>
    rw [hr] at hreading
    cases hreading

/-- A reader takes what its next part has. -/
theorem todo_take (h : Inv failed blob c) {k : Nat} {j : Joining Sha} (hj : c.joins k = some j)
    (hready : ∀ p ps, j.parts = p :: ps → ∀ q, c.parts[p]? = some q →
      ∃ r, q.place = .finished r) :
    (c.take loader k).todo < c.todo := by
  have hright := h.joins k j hj
  have hk : k < c.threads := by
    by_contra hk
    have hreading := h.reading k
    rw [hj, h.idle k (Nat.le_of_not_lt hk)] at hreading
    cases hreading
  unfold take
  rw [hj]
  dsimp only
  cases hps : j.parts with
  | nil => exact todo_answer h hj true (.ok j.got)
  | cons p ps =>
    have hm : p ∈ j.parts := by rw [hps]; exact List.mem_cons_self
    obtain ⟨q, ch, hq, -⟩ := hright.rows p hm
    obtain ⟨r, hr⟩ := hready p ps hps q hq
    obtain ⟨sha, lo, hi, pooled, place⟩ := q
    cases hr
    dsimp only
    rw [hq]
    cases r with
    | error e => exact todo_answer h hj false (.error e)
    | ok data =>
      have hjoins := sum_update c.joins (fun j => j.elim 0 fun j => j.parts.length) hk
        (some { j with parts := ps, got := j.got ++ data })
      rw [hj] at hjoins
      simp only [Option.elim_some, hps, List.length_cons] at hjoins
      change c.ahead.todo c.threads + (c.parts.map fun q => q.place.todo).sum +
        ∑ k' ∈ Finset.range c.threads, (Function.update c.joins k (some
          { j with parts := ps, got := j.got ++ data }) k').elim 0 (fun j => j.parts.length) <
            c.todo
      unfold todo joinsTodo
      omega

theorem take_todo (h : Inv failed blob c) (k : Nat) :
    c.take loader k = c ∨ (c.take loader k).todo < c.todo := by
  cases hj : c.joins k with
  | none =>
    left
    unfold take
    rw [hj]
  | some j =>
    by_cases hready : ∀ p ps, j.parts = p :: ps → ∀ q, c.parts[p]? = some q →
        ∃ r, q.place = .finished r
    · exact .inr (todo_take h hj hready)
    · left
      simp only [not_forall] at hready
      obtain ⟨p, ps, hps, q, hq, hno⟩ := hready
      obtain ⟨sha, lo, hi, pooled, place⟩ := q
      unfold take
      rw [hj]
      dsimp only
      rw [hps]
      dsimp only
      rw [hq]
      cases place with
      | finished r => exact absurd ⟨r, rfl⟩ hno
      | _ => rfl

theorem prefetch_todo (h : Inv failed blob c) (k : Nat) :
    step loader (.prefetch k) c = c ∨ (step loader (.prefetch k) c).todo < c.todo := by
  cases hp : (c.ahead.readers k).prefetches with
  | false =>
    left
    change ({ c with ahead := c.ahead.prefetch k } : RangeReads Sha) = c
    rw [Readahead.prefetch_same hp]
  | true =>
    right
    have hk : k < c.threads := by
      by_contra hk
      rw [h.idle k (Nat.le_of_not_lt hk)] at hp
      cases hp
    exact todo_ahead (Readahead.todo_prefetch hk hp)

theorem fetch_todo (h : Inv failed blob c) (call t : Nat) :
    step loader (.fetch call t) c = c ∨ (step loader (.fetch call t) c).todo < c.todo := by
  have hstep : Fetchers.step loader (.step call t) c.ahead.cache = c.ahead.cache ∨
      (Fetchers.step loader (.step call t) c.ahead.cache).todo < c.ahead.cache.todo :=
    Fetchers.step_todo h.below.flown.fresh call t
  rcases hstep with hsame | hless
  · left
    change ({ c with ahead := { c.ahead with
      cache := Fetchers.step loader (.step call t) c.ahead.cache } } : RangeReads Sha) = c
    rw [hsame]
  · exact .inr (todo_ahead (Readahead.todo_cache hless))

/-- A step changes nothing, or leaves less to do. -/
theorem step_todo (h : Inv failed blob c) {l : Label Sha} (hl : l.inner = true) :
    step loader l c = c ∨ (step loader l c).todo < c.todo := by
  cases l with
  | take k => exact take_todo h k
  | part p => exact part_todo p
  | prefetch k => exact prefetch_todo h k
  | task i => exact task_todo h i
  | fetch call t => exact fetch_todo h call t
  | _ => cases hl

/-! ## Something can always go on -/

/-- A prefetch whose call of the read cache has returned, or that has yet to begin. -/
theorem task_goes (h : Inv failed blob c) (hcalls : ∀ k f, c.ahead.cache.calls k = some f →
    f.todo = 0) {i : Nat} {t : Readahead.Prefetch Sha} (ht : c.ahead.tasks i = some t)
    (hpos : 0 < t.todo) (hfree : (∃ sha, t = .queued sha) → c.busy < c.downloadWorkers) :
    (c.task loader i).todo < c.todo := by
  have hne : c.ahead.task loader i ≠ c.ahead := by
    intro hsame
    have htask : (c.ahead.task loader i).tasks i = some t := by
      rw [hsame]
      exact ht
    unfold Readahead.task at htask
    rw [ht] at htask
    cases t with
    | queued sha =>
      have hnew := htask.symm.trans (Function.update_self _ _ _)
      cases hnew
    | running sha call =>
      obtain ⟨f, hf⟩ := h.below.tasks i sha call ht
      have hzero := hcalls call f hf
      obtain ⟨sha', kind, pc⟩ := f
      cases pc with
      | returned r =>
        dsimp only at htask
        rw [hf] at htask
        have hnew := htask.symm.trans (Function.update_self _ _ _)
        cases hnew
      | _ => simp [Fetch.todo, FetchPc.todo] at hzero
    | discarding sha =>
      have hnew := htask.symm.trans (Function.update_self _ _ _)
      cases hnew
    | ended => exact absurd hpos (Nat.lt_irrefl 0)
  have hless : (c.ahead.task loader i).todo c.threads < c.ahead.todo c.threads := by
    rcases ahead_task h i with hsame | hless
    · exact absurd hsame hne
    · exact hless
  have hstep : ({ c with ahead := Readahead.step loader (.task i) c.ahead } : RangeReads Sha).todo <
      c.todo := todo_ahead hless
  unfold task
  rw [ht]
  cases t with
  | queued sha =>
    dsimp only
    rw [if_pos (hfree ⟨sha, rfl⟩)]
    exact hstep
  | _ => exact hstep

omit [DecidableEq Sha] in
/-- Where no call, no task and no reader has anything to do. -/
theorem todo_eq_zero (h : Inv failed blob c) (hcache : c.ahead.cache.todo = 0)
    (htasks : ∀ i t, c.ahead.tasks i = some t → t.todo = 0)
    (hparts : ∀ q ∈ c.parts, q.place.todo = 0) (hreaders : ∀ k, c.ahead.readers k = .idle) :
    c.todo = 0 := by
  have hreadersTodo : c.ahead.readersTodo c.threads = 0 := by
    apply Finset.sum_eq_zero
    intro k _
    rw [hreaders]
    rfl
  have htasksTodo : c.ahead.tasksTodo = 0 := by
    apply Finset.sum_eq_zero
    intro i _
    cases ht : c.ahead.tasks i with
    | none => rfl
    | some t => exact htasks i t ht
  have hsum : (c.parts.map fun q => q.place.todo).sum = 0 := by
    rw [List.sum_eq_zero_iff]
    intro n hn
    obtain ⟨q, hq, rfl⟩ := List.mem_map.mp hn
    exact hparts q hq
  have hjoins : c.joinsTodo = 0 := by
    apply Finset.sum_eq_zero
    intro k _
    have hnone : c.joins k = none := by
      rw [← Option.not_isSome_iff_eq_none, h.reading, hreaders]
      exact Bool.false_ne_true
    rw [hnone]
    rfl
  unfold todo Readahead.todo
  omega

omit [DecidableEq Sha] in
theorem todo_pos_of_reading (h : Inv failed blob c) {k : Nat} (hk : c.ahead.readers k ≠ .idle) :
    0 < c.todo := by
  have hlt : k < c.threads := by
    by_contra hlt
    exact hk (h.idle k (Nat.le_of_not_lt hlt))
  have hreader : 0 < (c.ahead.readers k).todo := by
    cases hr : c.ahead.readers k with
    | idle => exact absurd hr hk
    | _ => exact Nat.zero_lt_succ _
  have hpos : 0 < c.ahead.readersTodo c.threads :=
    Finset.sum_pos_iff.mpr ⟨k, Finset.mem_range.mpr hlt, hreader⟩
  unfold todo Readahead.todo
  omega

/-- A worker that is in a task can go on once the calls of the read cache have returned. -/
theorem busy_goes (h : Inv failed blob c) (hcalls : ∀ k f, c.ahead.cache.calls k = some f →
    f.todo = 0) (hbusy : 0 < c.busy) : ∃ l, l.inner = true ∧ (step loader l c).todo < c.todo := by
  unfold busy at hbusy
  rcases Nat.eq_zero_or_pos (c.parts.countP PartCall.busy) with hzero | hparts
  · rw [hzero, Nat.zero_add, List.countP_pos_iff] at hbusy
    obtain ⟨i, -, hi⟩ := hbusy
    cases ht : c.ahead.tasks i with
    | none =>
      rw [ht] at hi
      cases hi
    | some t =>
      rw [ht] at hi
      refine ⟨.task i, rfl, task_goes h hcalls ht ?_ ?_⟩
      · cases t with
        | running sha call => exact Nat.two_pos
        | discarding sha => exact Nat.one_pos
        | _ => cases hi
      · rintro ⟨sha, rfl⟩
        cases hi
  · obtain ⟨q, hm, hq⟩ := List.countP_pos_iff.mp hparts
    obtain ⟨p, hp⟩ := List.mem_iff_getElem?.mp hm
    refine ⟨.part p, rfl, ?_⟩
    unfold PartCall.busy at hq
    cases hplace : q.place with
    | begun => exact todo_look hp hplace
    | fetching call =>
      obtain ⟨f, hf, -⟩ := (h.parts p q hp).call call hplace
      exact todo_fetched hp hplace hf (hcalls call f hf)
    | _ =>
      rw [hplace] at hq
      simp at hq

/-- A part can go on when a worker is free. -/
theorem part_goes (h : Inv failed blob c) (hcalls : ∀ k f, c.ahead.cache.calls k = some f →
    f.todo = 0) (hbusy : c.busy < c.downloadWorkers) {q : PartCall Sha} (hm : q ∈ c.parts)
    (htodo : 0 < q.place.todo) : ∃ l, l.inner = true ∧ (step loader l c).todo < c.todo := by
  obtain ⟨p, hp⟩ := List.mem_iff_getElem?.mp hm
  refine ⟨.part p, rfl, ?_⟩
  cases hplace : q.place with
  | queued => exact todo_begin hp hplace hbusy
  | begun => exact todo_look hp hplace
  | fetching call =>
    obtain ⟨f, hf, -⟩ := (h.parts p q hp).call call hplace
    exact todo_fetched hp hplace hf (hcalls call f hf)
  | finished r =>
    rw [hplace] at htodo
    exact absurd htodo (Nat.lt_irrefl 0)

/-- A reader can go on when all parts have come to their ends. -/
theorem reader_goes (h : Inv failed blob c) (hparts : ∀ q ∈ c.parts, q.place.todo = 0) {k : Nat}
    (hk : c.ahead.readers k ≠ .idle) :
    ∃ l, l.inner = true ∧ (step loader l c).todo < c.todo := by
  cases hp : (c.ahead.readers k).prefetches with
  | true =>
    have hlt : k < c.threads := by
      by_contra hlt
      exact hk (h.idle k (Nat.le_of_not_lt hlt))
    exact ⟨.prefetch k, rfl, todo_ahead (Readahead.todo_prefetch hlt hp)⟩
  | false =>
    have hassembling : isAssembling (c.ahead.readers k) = true := by
      cases hr : c.ahead.readers k with
      | idle => exact absurd hr hk
      | assembling ino offset fin next => rfl
      | _ =>
        rw [hr] at hp
        cases hp
    rw [← h.reading] at hassembling
    obtain ⟨j, hj⟩ := Option.isSome_iff_exists.mp hassembling
    refine ⟨.take k, rfl, todo_take h hj fun p ps _ q hq => ?_⟩
    have hzero := hparts q (List.mem_of_getElem? hq)
    cases hplace : q.place with
    | finished r => exact ⟨r, rfl⟩
    | _ =>
      rw [hplace] at hzero
      cases hzero

theorem progress (h : Inv failed blob c) (hpos : 0 < c.todo) :
    ∃ l, l.inner = true ∧ (step loader l c).todo < c.todo := by
  -- first the calls of the read cache, then whoever waits for one, then the queue, then readers
  rcases Nat.eq_zero_or_pos c.ahead.cache.todo with hcache | hcache
  case inr =>
    obtain ⟨k, hk⟩ : ∃ k, (Fetchers.step loader (.step k 0) c.ahead.cache).todo <
        c.ahead.cache.todo := h.below.flown.progress hcache
    exact ⟨.fetch k 0, rfl, todo_ahead (Readahead.todo_cache hk)⟩
  have hcalls := Fetchers.calls_of_todo h.below.flown.fresh hcache
  by_cases hbusy : c.busy < c.downloadWorkers
  case neg =>
    exact busy_goes h hcalls (Nat.lt_of_lt_of_le h.workers (Nat.le_of_not_lt hbusy))
  by_cases htask : ∃ i t, c.ahead.tasks i = some t ∧ 0 < t.todo
  · obtain ⟨i, t, ht, htodo⟩ := htask
    exact ⟨.task i, rfl, task_goes h hcalls ht htodo fun _ => hbusy⟩
  by_cases hpart : ∃ q ∈ c.parts, 0 < q.place.todo
  · obtain ⟨q, hm, htodo⟩ := hpart
    exact part_goes h hcalls hbusy hm htodo
  simp only [not_exists, not_and, Nat.not_lt, Nat.le_zero] at htask hpart
  have hreader : ∃ k, c.ahead.readers k ≠ .idle := by
    by_contra hno
    simp only [not_exists, not_not] at hno
    exact Nat.ne_of_gt hpos (todo_eq_zero h hcache htask hpart hno)
  obtain ⟨k, hk⟩ := hreader
  exact reader_goes h hpart hk

/-! ## Runs -/

/-- What a read returns or raises comes from its own chunks. -/
structure Through (loader : Nat → Sha → Except (PyErr Sha) Bytes)
    (failed : Nat → Sha → PyErr Sha → Prop) (blob : Sha → Bytes) (c : RangeReads Sha) : Prop where
  /-- It returns the slices of the blobs that its rows name, in their order. -/
  returns : ∀ a ∈ c.answers, ∀ data, a.result = .ok data →
    data = plain blob a.rows a.offset a.length
  /-- So it returns the range of the content that they are the pieces of. -/
  content : ∀ a ∈ c.answers, ∀ data content, a.result = .ok data → Pieces blob a.rows content →
    data = pread content a.offset a.length
  /-- It raises what one of its own parts has failed with. -/
  raises : ∀ a ∈ c.answers, ∀ e, a.result = .error e →
    ∃ p ch, PartOf a.rows a.offset a.length a.first p ch ∧ failed p ch.sha e
  /-- As long as a thread is in `read_range`, something can go on. -/
  progress : (∃ k, c.ahead.readers k ≠ .idle) →
    ∃ l, l.inner = true ∧ (step loader l c).todo < c.todo
  /-- Whatever goes on leaves less to do. -/
  less : ∀ l, l.inner = true → step loader l c = c ∨ (step loader l c).todo < c.todo
  around : (∀ sha, (step loader (.vanish sha) c).todo = c.todo) ∧
    ∀ m, (step loader (.index m) c).todo = c.todo

theorem Inv.through (h : Inv failed blob c) : Through loader failed blob c := by
  refine ⟨fun a ha => (h.answers a ha).data, fun a ha data content hr hp => ?_,
    fun a ha => (h.answers a ha).error, ?_, fun l hl => step_todo h hl,
    fun _ => rfl, fun _ => rfl⟩
  · rw [← plain_content hp]
    exact (h.answers a ha).data data hr
  · rintro ⟨k, hk⟩
    exact progress h (todo_pos_of_reading h hk)

/-- Whatever threads read, in whatever order the workers, the downloads, the evictions and the
prefetches go, whatever fails, and whatever others write meanwhile. -/
theorem run_through (hload : ∀ t sha data, loader t sha = .ok data → data = blob sha)
    {dir : CacheDir Sha} (hdir : ∀ f ∈ dir.files, f.data = blob f.name)
    (threads downloadWorkers readahead : Nat) (index : Meta Sha) (cap : Int)
    (ls : List (Label Sha)) :
    Through loader (Failed loader (start threads downloadWorkers readahead index cap dir) ls) blob
      (run loader ls (start threads downloadWorkers readahead index cap dir)) :=
  ((Inv.start hdir threads downloadWorkers readahead index cap).run hload ls
    fun _ _ _ h => h).through

/-- A read of two chunks in a pool of one worker, whose first download fails, and one after it. -/
theorem run_through_retry :
    let loader : Nat → Bytes → Except (PyErr Bytes) Bytes :=
      fun t sha => if t = 0 then .error .downloadFailed else .ok sha
    let c := start 1 1 1 ⟨fun _ => none, 3, [], [(2, ⟨0, 0, 2, [1, 2]⟩), (2, ⟨1, 2, 2, [3, 4]⟩)],
      fun _ => some ⟨1, 2, 1⟩⟩ 10 ⟨[⟨[7], 0, [7]⟩], List.nodup_singleton _⟩
    let ls := [.read 0 2 1 2, .part 0, .part 1, .part 0, .fetch 0 0, .fetch 0 0, .fetch 0 0,
      .fetch 0 0, .fetch 0 0, .part 0, .take 0, .part 1, .read 0 2 2 1, .part 2, .part 1,
      .fetch 1 1, .fetch 1 1, .fetch 2 1, .fetch 2 1, .fetch 1 1, .fetch 1 1, .fetch 1 1,
      .fetch 1 1, .part 1, .fetch 2 1, .fetch 2 1, .fetch 2 1, .part 2, .take 0, .take 0]
    ((run loader ls c).answers.map (·.result) = [.error .downloadFailed, .ok [3]]) ∧
      Through loader (Failed loader c ls) (fun sha => sha) (run loader ls c) := by
  refine ⟨by decide +kernel, run_through (fun t sha data h => ?_) (by simp) _ _ _ _ _ _⟩
  split at h
  · cases h
  · exact (Except.ok.inj h).symm

end RangeReads

end Tgfs
