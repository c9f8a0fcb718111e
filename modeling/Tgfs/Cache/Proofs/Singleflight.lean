import Tgfs.Cache.ReadCache
import Tgfs.Misc.Flight

/-!
# One download for all who miss

The calls of the read cache, seen as threads that share the work for a hash: `_load_once` is the
only place where they register, wait and signal. What a call returns is the blob of its hash,
whichever way it got it.
-/

namespace Tgfs

/-- What a call has to do with the downloads under way. -/
def FetchPc.role {Sha : Type} (sha : Sha) : FetchPc Sha → Role Sha
  | .waiting _ ev => .waits ev
  | .loading ev | .storing ev _ | .leaving ev _ => .leads sha ev
  | .setting ev _ => .ends ev
  | _ => .free

namespace Fetchers

variable {Sha : Type} [DecidableEq Sha] {loader : Nat → Sha → Except (PyErr Sha) Bytes}
  {c : Fetchers Sha}

omit [DecidableEq Sha] in
/-- The downloads under way. -/
def flight (c : Fetchers Sha) : Flight Sha where
  inflight := c.cache.inflight
  isSet := c.cache.isSet
  next := c.cache.nextEvent
  role k := (c.calls k).elim .free fun f => f.pc.role f.sha

omit [DecidableEq Sha] in
theorem role_flight {k : Nat} {f : Fetch Sha} (h : c.calls k = some f) :
    c.flight.role k = f.pc.role f.sha := by
  simp only [flight, h, Option.elim_some]

omit [DecidableEq Sha] in
/-- A call that takes a step. -/
theorem flight_set (c : Fetchers Sha) (k : Nat) (cache : ReadCache Sha) (f : Fetch Sha) :
    ({ c with cache := cache, calls := Function.update c.calls k (some f) } : Fetchers Sha).flight =
      ({ c.flight with
        inflight := cache.inflight
        isSet := cache.isSet
        next := cache.nextEvent }).setRole k (f.pc.role f.sha) := by
  unfold flight Flight.setRole
  congr 1
  funext j
  by_cases hj : j = k
  · subst hj
    simp only [Function.update_self, Option.elim_some]
  · simp only [Function.update_of_ne hj]

theorem step_none {k t : Nat} (h : c.calls k = none) : step loader (.step k t) c = c := by
  simp only [step, h]

theorem step_some {k t : Nat} {f : Fetch Sha} (h : c.calls k = some f) :
    step loader (.step k t) c = { c with
      cache := (f.advance (loader t) c.cache).1
      calls := Function.update c.calls k (some (f.advance (loader t) c.cache).2) } := by
  simp only [step, h]

/-- The part of the cache that the downloads under way are. -/
def sameFlight (c c' : ReadCache Sha) : Prop :=
  c'.inflight = c.inflight ∧ c'.isSet = c.isSet ∧ c'.nextEvent = c.nextEvent

theorem sameFlight_touch (c : ReadCache Sha) (sha : Sha) : sameFlight c (c.touch sha).2 := by
  unfold ReadCache.touch
  split
  · exact ⟨rfl, rfl, rfl⟩
  · exact ⟨rfl, rfl, rfl⟩

theorem sameFlight_drop (c : ReadCache Sha) (sha : Sha) : sameFlight c (c.drop sha) := by
  unfold ReadCache.drop
  split
  · exact ⟨rfl, rfl, rfl⟩
  · exact ⟨rfl, rfl, rfl⟩

theorem sameFlight_store (c : ReadCache Sha) (sha : Sha) (data : Bytes) :
    sameFlight c (c.store sha data) := by
  unfold ReadCache.store ReadCache.evict ReadCache.put
  split
  · exact ⟨rfl, rfl, rfl⟩
  · exact ⟨rfl, rfl, rfl⟩

/-! ## Every step is one of the protocol, or none -/

omit [DecidableEq Sha] in
theorem flight_same {k : Nat} {f f' : Fetch Sha} (hf : c.calls k = some f) {cache : ReadCache Sha}
    (hcache : sameFlight c.cache cache) (hrole : f'.pc.role f'.sha = f.pc.role f.sha) :
    ({ c with cache := cache, calls := Function.update c.calls k (some f') } : Fetchers Sha).flight =
      c.flight := by
  obtain ⟨hin, hset, hnext⟩ := hcache
  rw [flight_set, hin, hset, hnext, hrole, ← role_flight hf]
  unfold Flight.setRole
  rw [Function.update_eq_self]
  rfl

/-- Either the downloads under way are as they were, or one step of theirs was taken. -/
theorem flight_step (hnew : c.calls c.nextCall = none) (l : Label Sha) :
    (step loader l c).flight = c.flight ∨ Flight.Step c.flight (step loader l c).flight := by
  cases l with
  | vanish sha => exact .inl rfl
  | call sha kind =>
    left
    have hfree : c.flight.role c.nextCall = .free := by
      simp only [flight, hnew, Option.elim_none]
    have hstart : (Fetch.start sha kind).pc.role sha = .free := by
      cases kind <;> rfl
    have hset := flight_set c c.nextCall c.cache (.start sha kind)
    refine Eq.trans ?_ (hset.trans ?_)
    · rfl
    · rw [show (Fetch.start sha kind).sha = sha from rfl, hstart, ← hfree]
      unfold Flight.setRole
      rw [Function.update_eq_self]
      rfl
  | step k t =>
    cases hf : c.calls k with
    | none => exact .inl (by rw [step_none hf])
    | some f =>
      rw [step_some hf]
      obtain ⟨sha, kind, pc⟩ := f
      have hrole := role_flight hf
      have hsame : ∀ {cache : ReadCache Sha} {pc' : FetchPc Sha}, sameFlight c.cache cache →
          pc'.role sha = pc.role sha →
          ({ c with cache := cache, calls := Function.update c.calls k (some ⟨sha, kind, pc'⟩) } :
            Fetchers Sha).flight = c.flight := fun hc hr => flight_same hf hc hr
      have hid : sameFlight c.cache c.cache := ⟨rfl, rfl, rfl⟩
      cases pc with
      | asking =>
        left
        refine hsame hid ?_
        split <;> rfl
      | trying left =>
        left
        cases left with
        | zero => exact hsame hid rfl
        | succ left =>
          refine hsame (sameFlight_touch c.cache sha) ?_
          split <;> rfl
      | opening left =>
        left
        unfold Fetch.advance
        dsimp only
        split
        · exact hsame hid rfl
        · exact hsame hid rfl
      | dropping left => exact .inl (hsame (sameFlight_drop c.cache sha) rfl)
      | joining left =>
        right
        unfold Fetch.advance ReadCache.register
        dsimp only
        cases hin : c.cache.inflight sha with
        | some ev =>
          rw [flight_set]
          exact .wait hrole hin
        | none =>
          rw [flight_set]
          exact .lead hrole hin
      | waiting left ev =>
        unfold Fetch.advance
        dsimp only
        split
        case isTrue hset =>
          right
          have hfree : ((Fetch.mk sha kind (.waiting left ev)).retry left).role sha = .free := by
            cases kind <;> rfl
          rw [flight_set]
          dsimp only [Fetch.goto]
          rw [hfree]
          exact .wake hrole hset
        case isFalse => exact .inl (hsame hid rfl)
      | loading ev =>
        left
        unfold Fetch.advance
        dsimp only
        split
        · exact hsame hid rfl
        · exact hsame hid rfl
      | storing ev data => exact .inl (hsame (sameFlight_store c.cache sha data) rfl)
      | leaving ev r =>
        right
        unfold Fetch.advance
        rw [flight_set]
        exact .leave hrole
      | setting ev r =>
        right
        unfold Fetch.advance
        rw [flight_set]
        exact .signal hrole
      | returned r => exact .inl (hsame hid rfl)

/-! ## What calls return -/

omit [DecidableEq Sha] in
/-- What a call has in hand, and what it returned, come from the blob of its hash. -/
def Honest (blob : Sha → Bytes) (f : Fetch Sha) : Prop :=
  match f.pc with
  | .asking => f.kind = .prefetch
  | .storing _ data | .leaving _ (.ok data) | .setting _ (.ok data) => data = blob f.sha
  | .returned (.ok r) => r = f.answer (blob f.sha)
  | _ => True

/-- Every file of the directory is the blob it is named after. -/
def GoodFiles (blob : Sha → Bytes) (c : ReadCache Sha) : Prop :=
  ∀ sha data, c.files sha = some data → data = blob sha

section Blobs

variable {blob : Sha → Bytes} {cache cache' : ReadCache Sha}

theorem GoodFiles.update (h : GoodFiles blob cache) {sha : Sha} {r : Option Bytes}
    (hr : ∀ data, r = some data → data = blob sha)
    (hfiles : cache'.files = Function.update cache.files sha r) : GoodFiles blob cache' := by
  intro sha' data hd
  rw [hfiles] at hd
  by_cases hs : sha' = sha
  · subst hs
    rw [Function.update_self] at hd
    exact hr data hd
  · rw [Function.update_of_ne hs] at hd
    exact h sha' data hd

/-- Eviction only takes files away. -/
theorem evictLoop_files (cap : Int) (index : List (Sha × Nat)) (total : Int)
    (files : Sha → Option Bytes) (sha : Sha) (data : Bytes)
    (h : (ReadCache.evictLoop cap index total files).2.2 sha = some data) :
    files sha = some data := by
  induction index generalizing total files with
  | nil => exact h
  | cons p index ih =>
    cases index with
    | nil => exact h
    | cons q index =>
      unfold ReadCache.evictLoop at h
      split at h
      case isTrue =>
        have hrest := ih _ _ h
        by_cases hs : sha = p.1
        · rw [hs, Function.update_self] at hrest
          cases hrest
        · rwa [Function.update_of_ne hs] at hrest
      case isFalse => exact h

theorem GoodFiles.store (h : GoodFiles blob cache) (sha : Sha) :
    GoodFiles blob (cache.store sha (blob sha)) := by
  have hput : GoodFiles blob (cache.put sha (blob sha)) := by
    unfold ReadCache.put
    split
    · exact h
    · exact h.update (fun data hd => (Option.some.inj hd).symm) rfl
  intro sha' data hd
  exact hput sha' data (evictLoop_files _ _ _ _ sha' data hd)

theorem GoodFiles.init {dir : CacheDir Sha} (hdir : ∀ f ∈ dir.files, f.data = blob f.name)
    (cap : Int) : GoodFiles blob (ReadCache.init cap dir) := by
  intro sha data hd
  obtain ⟨f, hf, rfl⟩ := Option.map_eq_some_iff.mp hd
  have hname : f.name = sha := by simpa using List.find?_some hf
  rw [hdir f (List.mem_of_find?_eq_some hf), hname]

/-- The step of one call. -/
theorem honest_advance {load : Sha → Except (PyErr Sha) Bytes}
    (hload : ∀ sha data, load sha = .ok data → data = blob sha) (hc : GoodFiles blob cache)
    {f : Fetch Sha} (hf : Honest blob f) : GoodFiles blob (f.advance load cache).1 ∧
      Honest blob (f.advance load cache).2 := by
  obtain ⟨sha, kind, pc⟩ := f
  cases pc with
  | asking =>
    refine ⟨hc, ?_⟩
    have hkind : kind = .prefetch := hf
    subst hkind
    unfold Fetch.advance Fetch.goto
    dsimp only
    split
    · rfl
    · trivial
  | trying left =>
    cases left with
    | zero =>
      refine ⟨hc, ?_⟩
      unfold Fetch.advance Fetch.goto
      dsimp only
      cases hl : load sha with
      | error e => trivial
      | ok data => exact congrArg _ (hload sha data hl)
    | succ left =>
      refine ⟨?_, ?_⟩
      · unfold Fetch.advance ReadCache.touch
        dsimp only
        split
        · exact hc
        · exact hc
      · unfold Fetch.advance Fetch.goto
        dsimp only
        split
        · trivial
        · trivial
  | opening left =>
    unfold Fetch.advance
    dsimp only
    split
    case h_1 data hd => exact ⟨hc, congrArg _ (hc sha data hd)⟩
    case h_2 => exact ⟨hc, trivial⟩
  | dropping left =>
    refine ⟨?_, trivial⟩
    unfold Fetch.advance ReadCache.drop
    dsimp only
    split
    · exact hc
    · exact hc
  | joining left =>
    unfold Fetch.advance ReadCache.register
    dsimp only
    split
    · exact ⟨hc, trivial⟩
    · exact ⟨hc, trivial⟩
  | waiting left ev =>
    refine ⟨hc, ?_⟩
    unfold Fetch.advance
    dsimp only
    split
    · cases kind with
      | getRange range => trivial
      | prefetch => rfl
    · trivial
  | loading ev =>
    unfold Fetch.advance
    dsimp only
    split
    case h_1 data hd => exact ⟨hc, hload sha data hd⟩
    case h_2 => exact ⟨hc, trivial⟩
  | storing ev data =>
    obtain rfl : data = blob sha := hf
    exact ⟨hc.store sha, rfl⟩
  | leaving ev r =>
    cases r with
    | error e => exact ⟨hc, trivial⟩
    | ok data => exact ⟨hc, hf⟩
  | setting ev r =>
    cases r with
    | error e => exact ⟨hc, trivial⟩
    | ok data => exact ⟨hc, congrArg _ (show data = blob sha from hf)⟩
  | returned r => exact ⟨hc, hf⟩

end Blobs

/-! ## Runs -/

/-- What holds in every state of a run. -/
structure Flown (blob : Sha → Bytes) (c : Fetchers Sha) : Prop where
  flight : c.flight.Inv
  fresh : ∀ k, c.nextCall ≤ k → c.calls k = none
  files : GoodFiles blob c.cache
  calls : ∀ k f, c.calls k = some f → Honest blob f

variable {blob : Sha → Bytes}

theorem Flown.start {dir : CacheDir Sha} (hdir : ∀ f ∈ dir.files, f.data = blob f.name)
    (cap : Int) : Flown blob (start cap dir) :=
  ⟨.idle (fun _ => rfl) fun _ => rfl, fun _ _ => rfl, .init hdir cap, nofun⟩

/-- The step lemma. -/
theorem Flown.step (hload : ∀ t sha data, loader t sha = .ok data → data = blob sha)
    (h : Flown blob c) (l : Label Sha) : Flown blob (step loader l c) := by
  have hflight : (Fetchers.step loader l c).flight.Inv := by
    rcases flight_step (h.fresh _ le_rfl) l with hsame | hstep
    · rw [hsame]
      exact h.flight
    · exact h.flight.step hstep
  cases l with
  | call sha kind =>
    refine ⟨hflight, fun k hk => ?_, h.files, fun k f hf => ?_⟩
    · have hk : c.nextCall + 1 ≤ k := hk
      exact (Function.update_of_ne (by omega) _ _).trans (h.fresh k (by omega))
    · by_cases hk : k = c.nextCall
      · subst hk
        simp only [Fetchers.step, Function.update_self] at hf
        obtain rfl := Option.some.inj hf
        cases kind with
        | getRange range => trivial
        | prefetch => rfl
      · exact h.calls k f ((Function.update_of_ne hk _ _).symm.trans hf)
  | vanish sha =>
    refine ⟨hflight, h.fresh, h.files.update (r := none) ?_ rfl, h.calls⟩
    exact fun _ hd => absurd hd nofun
  | step k t =>
    cases hf : c.calls k with
    | none =>
      rw [step_none hf]
      exact h
    | some f =>
      obtain ⟨hfiles, hhonest⟩ := honest_advance (hload t) h.files (h.calls k f hf)
      rw [step_some hf] at hflight ⊢
      refine ⟨hflight, fun j hj => ?_, hfiles, fun j g hg => ?_⟩
      · have hne : j ≠ k := by
          rintro rfl
          rw [h.fresh j hj] at hf
          cases hf
        exact (Function.update_of_ne hne _ _).trans (h.fresh j hj)
      · by_cases hj : j = k
        · subst hj
          simp only [Function.update_self] at hg
          obtain rfl := Option.some.inj hg
          exact hhonest
        · exact h.calls j g ((Function.update_of_ne hj _ _).symm.trans hg)

/-- The run lemma. -/
theorem Flown.run (hload : ∀ t sha data, loader t sha = .ok data → data = blob sha)
    (h : Flown blob c) (ls : List (Label Sha)) : Flown blob (run loader ls c) := by
  induction ls generalizing c with
  | nil => exact h
  | cons l ls ih => exact ih (h.step hload l)

/-- The promises of the single flight. -/
structure SingleFlight (blob : Sha → Bytes) (c : Fetchers Sha) : Prop where
  /-- A hash has one leader at most between registration and removal. -/
  leader : ∀ i j f g ev ev', c.calls i = some f → c.calls j = some g → f.sha = g.sha →
    f.pc.role f.sha = .leads f.sha ev → g.pc.role g.sha = .leads g.sha ev' → i = j
  /-- An event that is waited for is set, or a leader still runs that will set it. -/
  served : ∀ k f left ev, c.calls k = some f → f.pc = .waiting left ev →
    c.cache.isSet ev = true ∨ ∃ j g, c.calls j = some g ∧ (g.pc.role g.sha).owes = some ev
  settled : (∀ k f, c.calls k = some f → (f.pc.role f.sha).owes = none) →
    (∀ sha, c.cache.inflight sha = none) ∧
      ∀ k f left ev, c.calls k = some f → f.pc = .waiting left ev → c.cache.isSet ev = true
  answers : ∀ k f range r, c.calls k = some f → f.kind = .getRange range →
    f.pc = .returned (.ok r) → r = some (sliceOf range (blob f.sha))

omit [DecidableEq Sha] in
theorem Flown.singleFlight (h : Flown blob c) : SingleFlight blob c := by
  have howes : ∀ j ev, (c.flight.role j).owes = some ev →
      ∃ g, c.calls j = some g ∧ (g.pc.role g.sha).owes = some ev := by
    intro j ev hj
    cases hg : c.calls j with
    | none =>
      simp only [Fetchers.flight, hg, Option.elim_none] at hj
      cases hj
    | some g =>
      rw [role_flight hg] at hj
      exact ⟨g, rfl, hj⟩
  refine ⟨?_, ?_, ?_, ?_⟩
  · intro i j f g ev ev' hf hg hsha hlf hlg
    rw [← role_flight hf] at hlf
    rw [← role_flight hg, ← hsha] at hlg
    exact h.flight.leader_unique hlf hlg
  · intro k f left ev hf hpc
    have hrole : c.flight.role k = .waits ev := by
      rw [role_flight hf, hpc]
      rfl
    rcases h.flight.waits k ev hrole with hset | ⟨j, hj⟩
    · exact .inl hset
    · obtain ⟨g, hg, hev⟩ := howes j ev hj
      exact .inr ⟨j, g, hg, hev⟩
  · intro hno
    obtain ⟨hin, hwaits⟩ := h.flight.settled fun j => by
      cases hj : (c.flight.role j).owes with
      | none => rfl
      | some ev =>
        obtain ⟨g, hg, hev⟩ := howes j ev hj
        rw [hno j g hg] at hev
        cases hev
    refine ⟨hin, fun k f left ev hf hpc => hwaits k ev ?_⟩
    rw [role_flight hf, hpc]
    rfl
  · intro k f range r hf hkind hpc
    have hhonest := h.calls k f hf
    unfold Honest at hhonest
    rw [hpc] at hhonest
    rw [show r = f.answer (blob f.sha) from hhonest, Fetch.answer, hkind]

/-- Whatever the threads do and however their loaders fail, if a loader that returns gives the
blob and the directory held blobs. -/
theorem run_singleFlight (hload : ∀ t sha data, loader t sha = .ok data → data = blob sha)
    (cap : Int) {dir : CacheDir Sha} (hdir : ∀ f ∈ dir.files, f.data = blob f.name)
    (ls : List (Label Sha)) : SingleFlight blob (run loader ls (start cap dir)) :=
  ((Flown.start hdir cap).run hload ls).singleFlight

/-- Two reads and a prefetch of one blob, whose first download fails. -/
theorem run_singleFlight_failing :
    SingleFlight (fun sha : Bytes => sha) (run
      (fun t sha => if t = 0 then .error .downloadFailed else .ok sha)
      [.call [1, 2, 3] (.getRange (some (1, 3))), .call [1, 2, 3] (.getRange none),
        .call [1, 2, 3] .prefetch, .step 0 0, .step 0 0, .step 1 0, .step 1 0, .step 0 0,
        .step 0 0, .step 2 1, .step 2 1, .step 0 0, .step 1 1, .step 1 1]
      (start 10 ⟨[⟨[7], 0, [7]⟩], List.nodup_singleton _⟩)) := by
  refine run_singleFlight (fun t sha data h => ?_) 10 (by simp) _
  split at h
  · cases h
  · exact (Except.ok.inj h).symm

end Fetchers

end Tgfs
