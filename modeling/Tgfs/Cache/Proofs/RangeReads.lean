import Tgfs.Cache.Proofs.Todo
import Tgfs.Cache.RangeReads
import Tgfs.Store.Proofs.Roundtrip

/-!
# Cache, pool and readahead change nothing of what a read returns

A part of a read gives its slice of the blob that its row names, whoever downloaded it. The parts
are joined in order, so a read that returns gives what the rows that it found say. The pool never
comes to a stop: a leader waits for nobody, and every waiter has a leader that runs.
-/

namespace Tgfs

namespace RangeReads

variable {Sha : Type} {blob : Sha → Bytes}

/-! ## What a read is to give -/

def PartCall.data (blob : Sha → Bytes) (q : PartCall Sha) : Bytes :=
  sliceOf (some (q.lo, q.hi)) (blob q.sha)

/-- The slices of the rows one after the other. -/
def plain (blob : Sha → Bytes) (rows : List (Chunk Sha)) (offset length : Nat) : Bytes :=
  ((Readahead.hits rows offset (offset + length)).map Prod.fst).flatMap fun ch =>
    (PartCall.of offset (offset + length) false ch).data blob

theorem hits_rows (rows : List (Chunk Sha)) (lo hi : Nat) :
    (Readahead.hits rows lo hi).map Prod.fst =
      rows.filter fun ch => ch.off + ch.len > lo ∧ ch.off < hi := by
  unfold Readahead.hits
  conv_rhs => rw [← List.zipIdx_map_fst 0 rows]
  rw [List.filter_map]
  rfl

theorem data_of (blob : Sha → Bytes) (lo hi : Nat) (pooled : Bool) (ch : Chunk Sha) :
    (PartCall.of lo hi pooled ch).data blob =
      pread (blob ch.sha) (max lo ch.off - ch.off)
        (min hi (ch.off + ch.len) - ch.off - (max lo ch.off - ch.off)) := rfl

theorem plain_nil_of_length (rows : List (Chunk Sha)) (offset : Nat) :
    plain blob rows offset 0 = [] := by
  unfold plain
  rw [List.flatMap_eq_nil_iff]
  intro ch _
  rw [data_of]
  have hzero : min (offset + 0) (ch.off + ch.len) - ch.off - (max offset ch.off - ch.off) = 0 := by
    omega
  rw [hzero]
  exact List.take_zero

/-- Contiguous rows whose blobs are the pieces of a content give the range asked for. -/
theorem plain_slice {content : Bytes} {lo hi a : Nat} {rows : List (Chunk Sha)}
    (hc : Store.Contiguous a rows)
    (hdata : ∀ ch ∈ rows, blob ch.sha = pread content ch.off ch.len) :
    (rows.filter fun ch => ch.off + ch.len > lo ∧ ch.off < hi).flatMap
        (fun ch => (PartCall.of lo hi false ch).data blob) =
      Store.slice content (max lo a) (min hi (a + (rows.map (·.len)).sum)) := by
  induction rows generalizing a with
  | nil =>
    rw [Store.slice_nil (by simp only [List.map_nil, List.sum_nil]; omega)]
    rfl
  | cons ch rows ih =>
    obtain ⟨rfl, hrest⟩ := hc
    have hih := ih hrest fun x hx => hdata x (List.mem_cons_of_mem _ hx)
    rw [List.map_cons, List.sum_cons, ← Nat.add_assoc,
      ← Store.slice_border (Nat.le_add_right _ ch.len) (Nat.le_add_right (ch.off + ch.len) _)]
    by_cases hhit : ch.off + ch.len > lo ∧ ch.off < hi
    · rw [List.filter_cons_of_pos (by simpa using hhit), List.flatMap_cons, hih, data_of,
        hdata ch List.mem_cons_self]
      congr 1
      exact Store.pread_piece (by omega) (by omega)
    · rw [List.filter_cons_of_neg (by simpa using hhit), Store.slice_nil (by omega),
        List.nil_append]
      exact hih

/-- The rows are the pieces of a content. -/
structure Pieces (blob : Sha → Bytes) (rows : List (Chunk Sha)) (content : Bytes) : Prop where
  contiguous : Store.Contiguous 0 rows
  sum : (rows.map (·.len)).sum = content.length
  data : ∀ ch ∈ rows, blob ch.sha = pread content ch.off ch.len

theorem plain_content {content : Bytes} {rows : List (Chunk Sha)} (h : Pieces blob rows content)
    (offset length : Nat) : plain blob rows offset length = pread content offset length := by
  unfold plain
  rw [hits_rows, plain_slice h.contiguous h.data, Nat.max_zero, Nat.zero_add, h.sum]
  exact Store.slice_clamp content offset length

/-! ## The layers below -/

variable [DecidableEq Sha] {loader : Nat → Sha → Except (PyErr Sha) Bytes}

/-- A step of the readahead leaves the read cache alone, or is a step of it. -/
theorem cache_step (loader : Nat → Sha → Except (PyErr Sha) Bytes) (l : Readahead.Label Sha)
    (a : Readahead Sha) :
    (Readahead.step loader l a).cache = a.cache ∨
      ∃ l', (Readahead.step loader l a).cache = Fetchers.step loader l' a.cache ∧
        ∀ k t, l' = .step k t → l = .cache (.step k t) := by
  cases l with
  | read k ino offset length =>
    left
    simp only [Readahead.step]
    split
    · unfold Readahead.read
      split
      · rfl
      · dsimp only
        split <;> rfl
    · rfl
  | assembled k ok =>
    left
    simp only [Readahead.step]
    split
    · split <;> rfl
    · rfl
  | prefetch k =>
    left
    simp only [Readahead.step]
    unfold Readahead.prefetch
    split
    · rfl
    · split <;> rfl
    · split <;> rfl
    · rfl
    · rfl
    · rfl
  | task i =>
    simp only [Readahead.step]
    unfold Readahead.task
    split
    case h_1 sha _ => exact .inr ⟨.call sha .prefetch, rfl, by simp⟩
    case h_2 =>
      left
      split <;> rfl
    case h_3 => exact .inl rfl
    case h_4 => exact .inl rfl
  | cache l =>
    refine .inr ⟨l, rfl, fun k t h => ?_⟩
    rw [h]
  | index m => exact .inl rfl

/-- The step `l` leaves every call where it is, but the one whose step it is. -/
def Extends (loader : Nat → Sha → Except (PyErr Sha) Bytes) (l : Readahead.Label Sha)
    (c c' : Fetchers Sha) : Prop :=
  ∀ k f, c.calls k = some f → ∃ f', c'.calls k = some f' ∧
    (f' = f ∨ ∃ t cache, l = .cache (.step k t) ∧ f' = (f.advance (loader t) cache).2)

theorem extends_step {a : Readahead Sha} (hnew : a.cache.calls a.cache.nextCall = none)
    (l : Readahead.Label Sha) : Extends loader l a.cache (Readahead.step loader l a).cache := by
  intro k f hf
  rcases cache_step loader l a with hsame | ⟨l', hstep, hown⟩
  · rw [hsame]
    exact ⟨f, hf, .inl rfl⟩
  · rw [hstep]
    obtain ⟨f', hf', hgo⟩ : ∃ f', (Fetchers.step loader l' a.cache).calls k = some f' ∧
        (f' = f ∨ ∃ t, l' = .step k t ∧ f' = (f.advance (loader t) a.cache.cache).2) :=
      Fetchers.calls_step hnew l' hf
    refine ⟨f', hf', hgo.imp_right ?_⟩
    rintro ⟨t, hl', hadvance⟩
    exact ⟨t, _, hown k t hl', hadvance⟩

/-- The next step of the call runs its loader. -/
def Loads (f : Fetch Sha) : Prop := f.pc = .trying 0 ∨ ∃ ev, f.pc = .loading ev

/-- What the call raises, it has raised by itself. -/
def Blames (own : PyErr Sha → Prop) (f : Fetch Sha) : Prop :=
  match f.pc with
  | .leaving _ (.error e) | .setting _ (.error e) | .returned (.error e) => own e
  | _ => True

theorem blames_advance {own : PyErr Sha → Prop} {f : Fetch Sha} (h : Blames own f) {t : Nat}
    (hown : Loads f → ∀ e, loader t f.sha = .error e → own e) (cache : ReadCache Sha) :
    Blames own (f.advance (loader t) cache).2 := by
  obtain ⟨sha, kind, pc⟩ := f
  cases pc with
  | asking =>
    simp only [Fetch.advance, Fetch.goto]
    split <;> trivial
  | trying left =>
    cases left with
    | zero =>
      simp only [Fetch.advance, Fetch.goto]
      cases hl : loader t sha with
      | ok data => trivial
      | error e => exact hown (.inl rfl) e hl
    | succ left =>
      simp only [Fetch.advance, Fetch.goto]
      split <;> trivial
  | opening left =>
    simp only [Fetch.advance]
    split <;> trivial
  | dropping left => trivial
  | joining left =>
    simp only [Fetch.advance, Fetch.goto]
    split <;> trivial
  | waiting left ev =>
    simp only [Fetch.advance]
    split
    · cases kind <;> trivial
    · trivial
  | loading ev =>
    simp only [Fetch.advance]
    cases hl : loader t sha with
    | ok data => trivial
    | error e => exact hown (.inr ⟨ev, rfl⟩) e hl
  | storing ev data => trivial
  | leaving ev r =>
    cases r with
    | ok data => trivial
    | error e => exact h
  | setting ev r =>
    cases r with
    | ok data => trivial
    | error e => exact h
  | returned r => exact h

/-- What holds of the readahead and the read cache. -/
structure Below (blob : Sha → Bytes) (a : Readahead Sha) : Prop where
  ahead : a.Inv
  flown : a.cache.Flown blob
  tasks : ∀ i sha call, a.tasks i = some (.running sha call) → ∃ f, a.cache.calls call = some f

variable {a : Readahead Sha}

/-- A prefetch that runs has run before, or its call was made just now. -/
theorem running_step (l : Readahead.Label Sha) {i : Nat} {sha : Sha} {call : Nat}
    (h : (Readahead.step loader l a).tasks i = some (.running sha call)) :
    a.tasks i = some (.running sha call) ∨
      ∃ f, (Readahead.step loader l a).cache.calls call = some f := by
  cases l with
  | task j =>
    simp only [Readahead.step] at h ⊢
    unfold Readahead.task at h ⊢
    by_cases hij : i = j
    · subst hij
      cases ht : a.tasks i with
      | none =>
        rw [ht] at h
        dsimp only at h
        rw [ht] at h
        cases h
      | some t =>
        rw [ht] at h
        cases t with
        | queued sha' =>
          right
          have hnew := h.symm.trans (Function.update_self _ _ _)
          cases hnew
          exact ⟨_, Function.update_self _ _ _⟩
        | running sha' call' =>
          dsimp only at h
          split at h
          · have hnew := h.symm.trans (Function.update_self _ _ _)
            cases hnew
          · rw [ht] at h
            exact .inl h
        | discarding sha' =>
          have hnew := h.symm.trans (Function.update_self _ _ _)
          cases hnew
        | ended =>
          dsimp only at h
          rw [ht] at h
          cases h
    · left
      split at h
      · exact (Function.update_of_ne hij _ _).symm.trans h
      · split at h
        · exact (Function.update_of_ne hij _ _).symm.trans h
        · exact h
      · exact (Function.update_of_ne hij _ _).symm.trans h
      · exact h
  | read k ino offset length =>
    left
    simp only [Readahead.step] at h
    split at h
    · unfold Readahead.read at h
      split at h
      · exact h
      · dsimp only at h
        split at h <;> exact h
    · exact h
  | assembled k ok =>
    left
    simp only [Readahead.step] at h
    split at h
    · split at h <;> exact h
    · exact h
  | prefetch k =>
    left
    simp only [Readahead.step] at h
    unfold Readahead.prefetch at h
    split at h
    · exact h
    · split at h <;> exact h
    · split at h <;> exact h
    · exact h
    · by_cases hi : i = a.nextTask
      · subst hi
        have hnew := h.symm.trans (Function.update_self _ _ _)
        cases hnew
      · exact (Function.update_of_ne hi _ _).symm.trans h
    · exact h
  | cache l => exact .inl h
  | index m => exact .inl h

theorem Below.step (hload : ∀ t sha data, loader t sha = .ok data → data = blob sha)
    (h : Below blob a) (l : Readahead.Label Sha) :
    Below blob (Readahead.step loader l a) ∧
      Extends loader l a.cache (Readahead.step loader l a).cache := by
  have hext : Extends loader l a.cache (Readahead.step loader l a).cache :=
    extends_step (h.flown.fresh _ le_rfl) l
  refine ⟨⟨h.ahead.step l, ?_, fun i sha call hi => ?_⟩, hext⟩
  · rcases cache_step loader l a with hsame | ⟨l', hstep, -⟩
    · rw [hsame]
      exact h.flown
    · rw [hstep]
      exact h.flown.step hload l'
  · rcases running_step l hi with hold | hnew
    · obtain ⟨f, hf⟩ := h.tasks i sha call hold
      obtain ⟨f', hf', -⟩ := hext call f hf
      exact ⟨f', hf'⟩
    · exact hnew

/-! ## The invariant -/

def isAssembling : Readahead.Reader Sha → Bool
  | .assembling _ _ _ _ => true
  | _ => false

/-- A part is in the call that it made, and what it has is what it should have; what it raises it
has failed with by itself. -/
structure PartCall.Right (failed : PyErr Sha → Prop) (blob : Sha → Bytes) (cache : Fetchers Sha)
    (q : PartCall Sha) : Prop where
  call : ∀ call, q.place = .fetching call → ∃ f, cache.calls call = some f ∧ f.sha = q.sha ∧
    f.kind = .getRange (some (q.lo, q.hi)) ∧ Blames failed f
  data : ∀ data, q.place = .finished (.ok data) → data = q.data blob
  error : ∀ e, q.place = .finished (.error e) → failed e

/-- The part fails by itself in this step: it looks its blob up and finds no row, or the call that
it has made of the read cache runs the loader, which raises. -/
inductive PartCall.FailsAt (loader : Nat → Sha → Except (PyErr Sha) Bytes) (c : RangeReads Sha)
    (p : Nat) (q : PartCall Sha) : Label Sha → PyErr Sha → Prop where
  | lookup : q.place = .begun → c.ahead.index.blobGet q.sha = none →
      FailsAt loader c p q (.part p) (.blobNotInIndex q.sha)
  | load {call t f e} : q.place = .fetching call → c.ahead.cache.calls call = some f → Loads f →
      loader t q.sha = .error e → FailsAt loader c p q (.fetch call t) e

/-- Part `p`, which is for the hash `sha`, fails by itself in one step of the run. -/
def Failed (loader : Nat → Sha → Except (PyErr Sha) Bytes) (c : RangeReads Sha)
    (ls : List (Label Sha)) (p : Nat) (sha : Sha) (e : PyErr Sha) : Prop :=
  ∃ before l after q, ls = before ++ l :: after ∧ (run loader before c).parts[p]? = some q ∧
    q.sha = sha ∧ q.FailsAt loader (run loader before c) p l e

/-- The chunk that part `p` of a read is for, if `first` is the number of its first part. -/
def PartOf (rows : List (Chunk Sha)) (offset length first p : Nat) (ch : Chunk Sha) : Prop :=
  ∃ i, p = first + i ∧
    ((Readahead.hits rows offset (offset + length)).map Prod.fst)[i]? = some ch

/-- What a read has taken and what it has still to take make what it is to give. -/
structure Joining.Right (blob : Sha → Bytes) (parts : List (PartCall Sha)) (j : Joining Sha) :
    Prop where
  rows : ∀ p ∈ j.parts, ∃ q ch, parts[p]? = some q ∧ PartOf j.rows j.offset j.length j.first p ch ∧
    q.sha = ch.sha
  data : j.got ++ j.parts.flatMap (fun p => (parts[p]?).elim [] (PartCall.data blob)) =
    plain blob j.rows j.offset j.length

structure Answer.Right (failed : Nat → Sha → PyErr Sha → Prop) (blob : Sha → Bytes)
    (a : Answer Sha) : Prop where
  data : ∀ data, a.result = .ok data → data = plain blob a.rows a.offset a.length
  error : ∀ e, a.result = .error e → ∃ p ch, PartOf a.rows a.offset a.length a.first p ch ∧
    failed p ch.sha e

/-- The invariant of reads whose parts have failed as `failed` says: part `p`, which is for the
hash `sha`, with the error `e`. -/
structure Inv (failed : Nat → Sha → PyErr Sha → Prop) (blob : Sha → Bytes) (c : RangeReads Sha) :
    Prop where
  below : Below blob c.ahead
  workers : 0 < c.downloadWorkers
  parts : ∀ p (q : PartCall Sha), c.parts[p]? = some q → q.Right (failed p q.sha) blob c.ahead.cache
  joins : ∀ k j, c.joins k = some j → j.Right blob c.parts
  answers : ∀ a ∈ c.answers, a.Right failed blob
  reading : ∀ k, (c.joins k).isSome = isAssembling (c.ahead.readers k)
  idle : ∀ k, c.threads ≤ k → c.ahead.readers k = .idle

variable {c : RangeReads Sha} {failed : Nat → Sha → PyErr Sha → Prop}

/-- A step of the layers below, in which the call of a part may raise. -/
theorem PartCall.Right.goAhead {own : PyErr Sha → Prop} {q : PartCall Sha}
    {cache cache' : Fetchers Sha} {l : Readahead.Label Sha} (h : q.Right own blob cache)
    (hext : Extends loader l cache cache')
    (hown : ∀ call t f e, l = .cache (.step call t) → q.place = .fetching call →
      cache.calls call = some f → Loads f → loader t q.sha = .error e → own e) :
    q.Right own blob cache' := by
  refine ⟨fun call hq => ?_, h.data, h.error⟩
  obtain ⟨f, hf, hsha, hkind, hblames⟩ := h.call call hq
  obtain ⟨f', hf', rfl | ⟨t, cache, hl, rfl⟩⟩ := hext call f hf
  · exact ⟨f', hf', hsha, hkind, hblames⟩
  · obtain ⟨hsha', hkind'⟩ := f.advance_same (loader t) cache
    refine ⟨_, hf', hsha'.trans hsha, hkind'.trans hkind, blames_advance hblames ?_ cache⟩
    intro hloads e he
    rw [hsha] at he
    exact hown call t f e hl hq hf hloads he

omit [DecidableEq Sha] in
/-- A reader that has made its call of the pool is known by its parts alone. -/
theorem Joining.Right.mono {j : Joining Sha} {parts parts' : List (PartCall Sha)}
    (h : j.Right blob parts)
    (hsame : ∀ (p : Nat) (q : PartCall Sha), parts[p]? = some q →
      ∃ place : Place Sha, parts'[p]? = some { q with place := place }) :
    j.Right blob parts' := by
  refine ⟨fun p hp => ?_, ?_⟩
  · obtain ⟨q, ch, hq, hch, hsha⟩ := h.rows p hp
    obtain ⟨place, hq'⟩ := hsame p q hq
    exact ⟨_, ch, hq', hch, hsha⟩
  · rw [← h.data]
    congr 1
    rw [List.flatMap_congr]
    intro p hp
    obtain ⟨q, ch, hq, -⟩ := h.rows p hp
    obtain ⟨place, hq'⟩ := hsame p q hq
    rw [hq, hq', Option.elim_some, Option.elim_some]
    rfl

/-- A step of the layers below. -/
theorem Inv.goAhead (h : Inv failed blob c)
    (hload : ∀ t sha data, loader t sha = .ok data → data = blob sha) (l : Readahead.Label Sha)
    (hreading : ∀ k, isAssembling ((Readahead.step loader l c.ahead).readers k) =
      isAssembling (c.ahead.readers k))
    (hidle : ∀ k, c.ahead.readers k = .idle → (Readahead.step loader l c.ahead).readers k = .idle)
    (hfail : ∀ p q call t f e, c.parts[p]? = some q → l = .cache (.step call t) →
      q.place = .fetching call → c.ahead.cache.calls call = some f → Loads f →
        loader t q.sha = .error e → failed p q.sha e) :
    Inv failed blob { c with ahead := Readahead.step loader l c.ahead } := by
  obtain ⟨hbelow, hext⟩ := h.below.step hload l
  refine ⟨hbelow, h.workers, fun p q hq => ?_, h.joins, h.answers,
    fun k => (h.reading k).trans (hreading k).symm, fun k hk => hidle k (h.idle k hk)⟩
  exact (h.parts p q hq).goAhead hext fun call t f e => hfail p q call t f e hq

omit [DecidableEq Sha] in
/-- A step of a part. -/
theorem Inv.setPart (h : Inv failed blob c) {p : Nat} {q : PartCall Sha} (hq : c.parts[p]? = some q)
    {place : Place Sha} (hright : ({ q with place := place } : PartCall Sha).Right (failed p q.sha)
      blob c.ahead.cache) :
    Inv failed blob (c.setPart p { q with place := place }) := by
  refine ⟨h.below, h.workers, fun p' q' hq' => ?_, fun k j hj => ?_, h.answers, h.reading, h.idle⟩
  · by_cases hpp : p' = p
    · subst hpp
      have hset := (List.getElem?_set_self (List.getElem?_eq_some_iff.mp hq).1).symm.trans hq'
      cases hset
      exact hright
    · exact h.parts p' q' ((List.getElem?_set_ne (Ne.symm hpp)).symm.trans hq')
  · refine (h.joins k j hj).mono fun p' q' hq' => ?_
    by_cases hpp : p' = p
    · subst hpp
      rw [hq] at hq'
      cases hq'
      exact ⟨place, List.getElem?_set_self (List.getElem?_eq_some_iff.mp hq).1⟩
    · exact ⟨q'.place, (List.getElem?_set_ne (Ne.symm hpp)).trans hq'⟩

/-! ## One step -/

theorem readers_prefetch (k : Nat) (a : Readahead Sha) (k' : Nat) :
    isAssembling ((a.prefetch k).readers k') = isAssembling (a.readers k') ∧
      (a.readers k' = .idle → (a.prefetch k).readers k' = .idle) := by
  have hset : ∀ (r : Readahead.Reader Sha), isAssembling r = isAssembling (a.readers k) →
      a.readers k ≠ .idle →
      isAssembling (Function.update a.readers k r k') = isAssembling (a.readers k') ∧
        (a.readers k' = .idle → Function.update a.readers k r k' = .idle) := by
    intro r hr hne
    by_cases hk : k' = k
    · subst hk
      rw [Function.update_self]
      exact ⟨hr, fun hidle => absurd hidle hne⟩
    · rw [Function.update_of_ne hk]
      exact ⟨rfl, id⟩
  unfold Readahead.prefetch
  cases hk : a.readers k with
  | idle => exact ⟨rfl, id⟩
  | assembling ino offset fin next => exact ⟨rfl, id⟩
  | prefetching shas =>
    rw [hk] at hset
    cases shas with
    | nil => exact hset _ rfl (by simp)
    | cons sha rest =>
      dsimp only
      split
      · exact hset _ rfl (by simp)
      · exact hset _ rfl (by simp)
  | looking sha rest =>
    rw [hk] at hset
    dsimp only
    split
    · exact hset _ rfl (by simp)
    · exact hset _ rfl (by simp)
  | missing sha rest =>
    rw [hk] at hset
    exact hset _ rfl (by simp)
  | submitting sha rest =>
    rw [hk] at hset
    exact hset _ rfl (by simp)

theorem readers_task (i : Nat) (a : Readahead Sha) : (a.task loader i).readers = a.readers := by
  unfold Readahead.task
  split
  · rfl
  · split <;> rfl
  · rfl
  · rfl

theorem Inv.task (h : Inv failed blob c)
    (hload : ∀ t sha data, loader t sha = .ok data → data = blob sha) (i : Nat) :
    Inv failed blob (c.task loader i) := by
  have hgo : Inv failed blob { c with ahead := Readahead.step loader (.task i) c.ahead } := by
    have hsame : (Readahead.step loader (.task i) c.ahead).readers = c.ahead.readers :=
      readers_task i c.ahead
    refine h.goAhead hload _ (fun k => by rw [hsame]) (fun k hk => by rw [hsame, hk]) ?_
    intro _ _ _ _ _ _ _ hl
    cases hl
  unfold RangeReads.task
  split
  · split
    · exact hgo
    · exact h
  · exact hgo

theorem Inv.part (h : Inv failed blob c)
    (hload : ∀ t sha data, loader t sha = .ok data → data = blob sha) {p : Nat}
    (hfail : ∀ q e, c.parts[p]? = some q → q.FailsAt loader c p (.part p) e → failed p q.sha e) :
    Inv failed blob (c.part loader p) := by
  unfold RangeReads.part
  cases hq : c.parts[p]? with
  | none => exact h
  | some q =>
    have hright := h.parts p q hq
    dsimp only
    cases hplace : q.place with
    | queued =>
      dsimp only
      split
      · exact h.setPart hq ⟨by simp, by simp, by simp⟩
      · exact h
    | begun =>
      dsimp only
      split
      case h_1 hnone =>
        refine h.setPart hq ⟨by simp, by simp, fun e he => ?_⟩
        cases he
        exact hfail q _ hq (.lookup hplace hnone)
      case h_2 =>
        have hgo := h.goAhead hload (.cache (.call q.sha (.getRange (some (q.lo, q.hi)))))
          (fun _ => rfl) (fun _ hk => hk) (by simp)
        refine hgo.setPart hq ⟨fun call hc => ?_, by simp, by simp⟩
        cases hc
        exact ⟨_, Function.update_self _ _ _, rfl, rfl, trivial⟩
    | fetching call =>
      dsimp only
      split
      case h_1 sha kind r hcall =>
        obtain ⟨f, hf, hsha, hkind, hblames⟩ := hright.call call hplace
        rw [hcall] at hf
        cases hf
        refine h.setPart hq ⟨by simp, fun data hd => ?_, fun e he => ?_⟩
        · cases r with
          | error e => cases hd
          | ok r =>
            have hanswer := h.below.flown.singleFlight.answers call _ _ r hcall hkind rfl
            cases hd
            rw [hanswer]
            exact congrArg (fun s => sliceOf (some (q.lo, q.hi)) (blob s)) hsha
        · cases r with
          | error e =>
            cases he
            exact hblames
          | ok r => cases he
      case h_2 => exact h
    | finished r => exact h

omit [DecidableEq Sha] in
/-- A reader goes from one place to another, and its parts come or go with it. -/
theorem Inv.readers (h : Inv failed blob c) {k : Nat} (hk : k < c.threads)
    {r : Readahead.Reader Sha} {j : Option (Joining Sha)} (hj : j.isSome = isAssembling r) :
    (∀ k', (Function.update c.joins k j k').isSome =
      isAssembling (Function.update c.ahead.readers k r k')) ∧
      ∀ k', c.threads ≤ k' → Function.update c.ahead.readers k r k' = .idle := by
  refine ⟨fun k' => ?_, fun k' hk' => ?_⟩
  · by_cases hkk : k' = k
    · subst hkk
      rw [Function.update_self, Function.update_self, hj]
    · rw [Function.update_of_ne hkk, Function.update_of_ne hkk]
      exact h.reading k'
  · rw [Function.update_of_ne (Nat.ne_of_gt (Nat.lt_of_lt_of_le hk hk'))]
    exact h.idle k' hk'

/-- A reader that is done with its parts. -/
theorem Inv.answer (h : Inv failed blob c)
    (hload : ∀ t sha data, loader t sha = .ok data → data = blob sha) {k : Nat} {j : Joining Sha}
    (hj : c.joins k = some j) {ok : Bool} {r : Except (PyErr Sha) Bytes}
    (hr : Answer.Right failed blob ⟨j.rows, j.offset, j.length, j.first, r⟩) :
    Inv failed blob (c.answer loader k j ok r) := by
  obtain ⟨hbelow, hext⟩ := h.below.step hload (.assembled k ok)
  have hreading : isAssembling (c.ahead.readers k) = true := by
    rw [← h.reading, hj]
    rfl
  have hreaders : ∃ r', isAssembling r' = false ∧
      (Readahead.step loader (.assembled k ok) c.ahead).readers =
        Function.update c.ahead.readers k r' := by
    simp only [Readahead.step]
    cases hk : c.ahead.readers k with
    | assembling ino offset fin next =>
      dsimp only
      cases ok with
      | true =>
        refine ⟨_, ?_, rfl⟩
        split <;> rfl
      | false => exact ⟨_, rfl, rfl⟩
    | _ =>
      rw [hk] at hreading
      cases hreading
  obtain ⟨r', hr', hupdate⟩ := hreaders
  have hk : k < c.threads := by
    by_contra hk
    rw [h.idle k (Nat.le_of_not_lt hk)] at hreading
    cases hreading
  obtain ⟨hreads, hidles⟩ := h.readers hk (r := r') (j := none) hr'.symm
  refine ⟨hbelow, h.workers, fun p q hq => (h.parts p q hq).goAhead hext (by simp),
    fun k' j' hj' => ?_, fun a ha => ?_, fun k' => ?_, fun k' hk' => ?_⟩
  · by_cases hkk : k' = k
    · subst hkk
      have hnone := hj'.symm.trans (Function.update_self _ _ _)
      cases hnone
    · exact h.joins k' j' ((Function.update_of_ne hkk _ _).symm.trans hj')
  · rcases List.mem_append.mp ha with hold | hnew
    · exact h.answers a hold
    · rw [List.mem_singleton.mp hnew]
      exact hr
  · refine (hreads k').trans ?_
    rw [← hupdate]
    rfl
  · refine Eq.trans ?_ (hidles k' hk')
    rw [← hupdate]
    rfl

theorem Inv.take (h : Inv failed blob c)
    (hload : ∀ t sha data, loader t sha = .ok data → data = blob sha) (k : Nat) :
    Inv failed blob (c.take loader k) := by
  unfold RangeReads.take
  cases hj : c.joins k with
  | none => exact h
  | some j =>
    have hright := h.joins k j hj
    have hdata := hright.data
    dsimp only
    cases hps : j.parts with
    | nil =>
      refine h.answer hload hj ⟨fun data hd => ?_, fun e he => by cases he⟩
      cases hd
      rw [hps, List.flatMap_nil, List.append_nil] at hdata
      exact hdata
    | cons p ps =>
      dsimp only
      split
      case h_1 sha lo hi pooled data hq =>
        refine ⟨h.below, h.workers, h.parts, fun k' j' hj' => ?_, h.answers, fun k' => ?_, h.idle⟩
        · by_cases hkk : k' = k
          · subst hkk
            have hj'' := hj'.symm.trans (Function.update_self _ _ _)
            cases hj''
            refine ⟨fun p' hp' => hright.rows p' ?_, ?_⟩
            · rw [hps]
              exact List.mem_cons_of_mem p hp'
            · have hpart := (h.parts p _ hq).data data rfl
              rw [hps, List.flatMap_cons, hq, Option.elim_some, ← hpart, ← List.append_assoc]
                at hdata
              exact hdata
          · exact h.joins k' j' ((Function.update_of_ne hkk _ _).symm.trans hj')
        · by_cases hkk : k' = k
          · subst hkk
            rw [← h.reading, hj]
            dsimp only
            rw [Function.update_self]
            rfl
          · rw [← h.reading k']
            dsimp only
            rw [Function.update_of_ne hkk]
      case h_2 sha lo hi pooled e hq =>
        refine h.answer hload hj ⟨by simp, fun e' he => ?_⟩
        cases he
        obtain ⟨q, ch, hq', hch, hsha⟩ := hright.rows p (by rw [hps]; exact List.mem_cons_self)
        have hraised := (h.parts p _ hq).error e rfl
        rw [hq] at hq'
        cases hq'
        exact ⟨p, ch, hch, by rw [← hsha]; exact hraised⟩
      case h_3 => exact h

omit [DecidableEq Sha] in
theorem right_of_hits (lo hi : Nat) (pooled : Bool) (hit : List (Chunk Sha))
    (parts : List (PartCall Sha)) :
    (List.range' parts.length hit.length).flatMap
        (fun p => ((parts ++ hit.map (PartCall.of lo hi pooled))[p]?).elim []
          (PartCall.data blob)) =
      hit.flatMap fun ch => (PartCall.of lo hi false ch).data blob := by
  induction hit generalizing parts with
  | nil => rfl
  | cons ch hit ih =>
    have hrest := ih (parts ++ [PartCall.of lo hi pooled ch])
    rw [List.length_append, List.length_singleton] at hrest
    rw [List.length_cons, List.range'_succ, List.flatMap_cons, List.flatMap_cons, ← hrest,
      List.map_cons, List.append_assoc, List.singleton_append,
      List.getElem?_append_right (Nat.le_refl _), Nat.sub_self]
    rfl

theorem Inv.read (h : Inv failed blob c)
    (hload : ∀ t sha data, loader t sha = .ok data → data = blob sha) {k : Nat}
    (hk : c.ahead.readers k = .idle) (hthreads : k < c.threads) (ino : Ino) (offset length : Nat) :
    Inv failed blob (c.read k ino offset length) := by
  unfold RangeReads.read
  dsimp only
  generalize hrows : c.ahead.index.getChunks ino = rows
  generalize hhit : (Readahead.hits rows offset (offset + length)).map Prod.fst = hit
  have hplain : plain blob rows offset length =
      hit.flatMap fun ch => (PartCall.of offset (offset + length) false ch).data blob := by
    rw [plain, hhit]
  split
  case isTrue hnone =>
    refine ⟨h.below, h.workers, h.parts, h.joins, fun a ha => ?_, h.reading, h.idle⟩
    rcases List.mem_append.mp ha with hold | hnew
    · exact h.answers a hold
    · rw [List.mem_singleton.mp hnew]
      refine ⟨fun data hd => ?_, fun e he => by cases he⟩
      cases hd
      rcases hnone with rfl | rfl
      · exact (plain_nil_of_length rows offset).symm
      · exact hplain.symm
  case isFalse hsome =>
    rw [not_or] at hsome
    have hstep : Readahead.step loader (.read k ino offset length) c.ahead =
        c.ahead.read k ino offset length := by
      simp only [Readahead.step, hk]
    obtain ⟨hbelow, hext⟩ := h.below.step hload (.read k ino offset length)
    rw [hstep] at hbelow hext
    have hreaders : ∃ r', isAssembling r' = true ∧ (c.ahead.read k ino offset length).readers =
        Function.update c.ahead.readers k r' := by
      unfold Readahead.read
      rw [if_neg hsome.1]
      dsimp only
      rw [hrows]
      split
      case h_1 hlast =>
        rw [List.getLast?_eq_none_iff] at hlast
        rw [hlast] at hhit
        exact absurd hhit.symm hsome.2
      case h_2 => exact ⟨_, rfl, rfl⟩
    obtain ⟨r', hr', hupdate⟩ := hreaders
    obtain ⟨hreads, hidles⟩ := h.readers hthreads (r := r')
      (j := some ⟨rows, offset, length, c.parts.length,
        List.range' c.parts.length hit.length, []⟩) hr'.symm
    refine ⟨hbelow, h.workers, fun p q hq => ?_, fun k' j hj => ?_, h.answers, fun k' => ?_,
      fun k' hk' => ?_⟩
    · by_cases hp : p < c.parts.length
      · exact (h.parts p q ((List.getElem?_append_left hp).symm.trans hq)).goAhead hext (by simp)
      · have hnew := (List.getElem?_append_right (Nat.le_of_not_lt hp)).symm.trans hq
        obtain ⟨ch, -, rfl⟩ := List.mem_map.mp (List.mem_of_getElem? hnew)
        refine ⟨fun call hc => ?_, fun data hd => ?_, fun e he => ?_⟩
        · simp only [PartCall.of] at hc
          split at hc <;> cases hc
        · simp only [PartCall.of] at hd
          split at hd <;> cases hd
        · simp only [PartCall.of] at he
          split at he <;> cases he
    · by_cases hkk : k' = k
      · subst hkk
        have hj' := hj.symm.trans (Function.update_self _ _ _)
        cases hj'
        refine ⟨fun p hp => ?_, ?_⟩
        · rw [List.mem_range'_1] at hp
          have hlt : p - c.parts.length < hit.length := by omega
          refine ⟨_, hit[p - c.parts.length], (List.getElem?_append_right hp.1).trans
            (List.getElem?_eq_getElem (by rwa [List.length_map])), ?_, ?_⟩
          · refine ⟨p - c.parts.length, (Nat.add_sub_cancel' hp.1).symm, ?_⟩
            rw [hhit]
            exact List.getElem?_eq_getElem hlt
          · rw [List.getElem_map]
            rfl
        · rw [List.nil_append, right_of_hits]
          exact hplain.symm
      · refine (h.joins k' j ((Function.update_of_ne hkk _ _).symm.trans hj)).mono fun p q hq => ?_
        have hp := (List.getElem?_eq_some_iff.mp hq).1
        exact ⟨q.place, (List.getElem?_append_left hp).trans hq⟩
    · refine (hreads k').trans ?_
      rw [← hupdate]
    · refine Eq.trans ?_ (hidles k' hk')
      rw [← hupdate]

/-- The step lemma. -/
theorem Inv.step (h : Inv failed blob c)
    (hload : ∀ t sha data, loader t sha = .ok data → data = blob sha) (l : Label Sha)
    (hfail : ∀ p q e, c.parts[p]? = some q → q.FailsAt loader c p l e → failed p q.sha e) :
    Inv failed blob (step loader l c) := by
  cases l with
  | read k ino offset length =>
    simp only [RangeReads.step]
    cases hk : c.ahead.readers k with
    | idle =>
      dsimp only
      split
      · exact h.read hload hk ‹_› ino offset length
      · exact h
    | _ => exact h
  | take k => exact h.take hload k
  | part p => exact h.part hload fun q e => hfail p q e
  | prefetch k =>
    exact h.goAhead hload _ (fun k' => (readers_prefetch k c.ahead k').1)
      (fun k' => (readers_prefetch k c.ahead k').2) (by simp)
  | task i => exact h.task hload i
  | fetch call t =>
    refine h.goAhead hload _ (fun _ => rfl) (fun _ hk => hk) ?_
    intro p q call' t' f e hq hl hplace hf hloads he
    cases hl
    exact hfail p q e hq (.load hplace hf hloads he)
  | vanish sha => exact h.goAhead hload _ (fun _ => rfl) (fun _ hk => hk) (by simp)
  | index m => exact h.goAhead hload _ (fun _ => rfl) (fun _ hk => hk) (by simp)

theorem Inv.start {dir : CacheDir Sha} (hdir : ∀ f ∈ dir.files, f.data = blob f.name)
    (threads downloadWorkers readahead : Nat) (index : Meta Sha) (cap : Int) :
    Inv failed blob (start threads downloadWorkers readahead index cap dir) where
  below := ⟨.start readahead index cap dir, .start hdir cap,
    by simp [RangeReads.start, Readahead.start]⟩
  workers := Nat.lt_of_lt_of_le Nat.one_pos (Nat.le_max_left _ _)
  parts := by simp [RangeReads.start]
  joins := by simp [RangeReads.start]
  answers := by simp [RangeReads.start]
  reading := fun _ => rfl
  idle := fun _ _ => rfl

/-- The run lemma. -/
theorem Inv.run (h : Inv failed blob c)
    (hload : ∀ t sha data, loader t sha = .ok data → data = blob sha) (ls : List (Label Sha))
    (hfail : ∀ p sha e, Failed loader c ls p sha e → failed p sha e) :
    Inv failed blob (run loader ls c) := by
  induction ls generalizing c with
  | nil => exact h
  | cons l ls ih =>
    apply ih
    · apply h.step hload l
      intro p q e hq hat
      exact hfail p q.sha e ⟨[], l, ls, q, rfl, hq, rfl, hat⟩
    · rintro p sha e ⟨before, l', after, q, rfl, hq⟩
      exact hfail p sha e ⟨l :: before, l', after, q, rfl, hq⟩

end RangeReads

end Tgfs
