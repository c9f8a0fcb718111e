import Mathlib.Algebra.Group.Prod
import Tgfs.Store.Proofs.Actions
import Tgfs.Store.Proofs.Threads

/-!
# How many uploads are under way

A call of `put_file` has `upload_workers` places for uploads, and gets a place back where it sees
that the upload has come to an end. It has all of its places again when it returns or raises, and
places are all that the pool's uploads can take.
-/

namespace Tgfs

namespace Store

variable {Sha : Type} [DecidableEq Sha]

/-- Free places, and the futures that may still be under way. -/
abbrev Places : Type := Nat × Multiset FutId

structure Places.Inv (limit : Nat) (s : Store Sha) (g : Places) : Prop where
  taken : ∀ f, s.settled f = false → f ∈ g.2
  room : g.1 + Multiset.card g.2 ≤ limit

abbrev PlacesSafe {α : Type} (limit : Nat) (src : Src Sha) (post : α → Places → Prop)
    (p : StoreProg Sha α) (g : Places) : Prop :=
  machine.Safe (Places.Inv limit) (fun _ => True) src post p g

variable {α β : Type} {limit : Nat} {src : Src Sha} {g g' : Places}

omit [DecidableEq Sha] in
theorem settled_setPhase {s : Store Sha} {f : FutId} {t : Task Sha} {p : Phase Sha}
    (ht : s.tasks[f]? = some t) (hp : t.phase.settled = false) {f' : FutId}
    (h : (s.setPhase f t p).settled f' = false) : s.settled f' = false := by
  unfold settled at h ⊢
  by_cases he : f = f'
  · subst he
    rw [ht]
    exact hp
  · rwa [setPhase_tasks, List.getElem?_set_ne he] at h

def Submitless (a : Act Sha) : Prop := ∀ sha data, a ≠ .submit sha data

/-- No action but `submit` puts anything under way. -/
theorem settled_exec (t : Tick) {a : Act Sha} (ha : Submitless a) {s : Store Sha} {f : FutId}
    (h : (exec src t a s).2.settled f = false) : s.settled f = false := by
  cases a with
  | submit sha data => exact absurd rfl (ha sha data)
  | claimKnown sha =>
    simp only [exec] at h
    split at h
    · exact h
    · exact h
  | download handle =>
    simp only [exec] at h
    split at h
    · exact h
    · split at h
      · exact h
      · exact h
  | delete handle =>
    simp only [exec] at h
    split at h
    · exact h
    · exact h
  | result f' =>
    simp only [exec] at h
    split at h
    · exact h
    · exact h
    · exact h
  | failed f' =>
    simp only [exec] at h
    split at h
    · exact h
    · exact h
    · exact h
  | cancel f' =>
    simp only [exec] at h
    split at h
    · rename_i hf'
      exact settled_setPhase hf' rfl h
    · exact h
  | _ => exact h

theorem settled_poolStep (e : FutId × PoolTick) {s : Store Sha} {f : FutId}
    (h : (poolStep e s).settled f = false) : s.settled f = false := by
  cases hs : s.settled f with
  | false => rfl
  | true =>
    rw [settled_iff_rank] at hs
    have hrank : (poolStep e s).rank f = 0 := by
      by_cases hf : f = e.1
      · subst hf
        have hself := rank_poolStep_self e s
        omega
      · rw [rank_poolStep_ne hf, hs]
    rw [(settled_iff_rank _ f).mpr hrank] at h
    cases h

/-! ## The rules -/

theorem placesSafe_bind {mid : α → Places → Prop} {post : β → Places → Prop} {p : StoreProg Sha α}
    {f : α → StoreProg Sha β} (hp : PlacesSafe limit src mid p g)
    (hf : ∀ a g', mid a g' → PlacesSafe limit src post (f a) g') :
    PlacesSafe limit src post (p >>= f) g :=
  Machine.Safe.bind hp hf

theorem placesSafe_pure {post : α → Places → Prop} {a : α} (h : post a g) :
    PlacesSafe limit src post (pure a) g := h

theorem placesSafe_submitless {p : StoreProg Sha α} (hp : p.All Submitless) (g : Places) :
    PlacesSafe limit src (fun _ g' => g' = g) p g := by
  apply Machine.Safe.ofAll _ hp
  intro a ha s t o h
  exact ⟨fun f hf => h.taken f (settled_exec t ha hf), h.room⟩

theorem placesSafe_perform {a : Act Sha} (ha : Submitless a) (g : Places) :
    PlacesSafe limit src (fun _ g' => g' = g) (perform a) g := by
  apply placesSafe_submitless
  exact ⟨ha, fun _ => trivial⟩

/-- The places of the futures that `P` names are free again. -/
def Places.settle (P : FutId → Bool) (g : Places) : Places :=
  (g.1 + Multiset.card (g.2.filter fun f => P f = true), g.2.filter fun f => ¬ P f = true)

omit [DecidableEq Sha] in
theorem Places.Inv.settle {s : Store Sha} {o : Places} {P : FutId → Bool}
    (h : Places.Inv limit s (g + o)) (hP : ∀ f, P f = true → s.settled f = true) :
    Places.Inv limit s (g.settle P + o) := by
  refine ⟨fun f hf => ?_, ?_⟩
  · rcases Multiset.mem_add.mp (h.taken f hf) with hm | hm
    · refine Multiset.mem_add.mpr (.inl (Multiset.mem_filter.mpr ⟨hm, fun hPf => ?_⟩))
      rw [hP f hPf] at hf
      cases hf
    · exact Multiset.mem_add.mpr (.inr hm)
  · have hroom := h.room
    have hcard := congrArg Multiset.card (Multiset.filter_add_not (fun f => P f = true) g.2)
    rw [Multiset.card_add] at hcard
    simp only [Places.settle, Prod.fst_add, Prod.snd_add, Multiset.card_add] at hroom ⊢
    omega

/-- An action that only looks, and sees what has come to an end. -/
theorem placesSafe_look {a : Act Sha} (P : a.Reply → FutId → Bool) {Q : a.Reply → Prop}
    (hsame : ∀ t s, (exec src t a s).2 = s)
    (hseen : ∀ t s, ready a s = true →
      (∀ f, P (exec src t a s).1 f = true → s.settled f = true) ∧ Q (exec src t a s).1) :
    PlacesSafe limit src (fun r g' => g' = g.settle (P r) ∧ Q r) (perform a) g := by
  intro s t o _ hr h
  obtain ⟨hP, hQ⟩ := hseen t s hr
  refine ⟨_, ?_, rfl, hQ⟩
  change Places.Inv limit (exec src t a s).2 _
  rw [hsame]
  exact h.settle hP

theorem placesSafe_result (f : FutId) :
    PlacesSafe limit src (fun _ g' => g' = g.settle fun f' => decide (f' = f))
      (perform (.result f)) g := by
  refine Machine.Safe.mono (placesSafe_look (a := .result f) (Q := fun _ => True)
    (fun _ f' => decide (f' = f)) (fun t s => ?_) fun t s hr => ⟨fun f' hf' => ?_, trivial⟩)
    fun _ _ h => h.1
  · simp only [exec]
    split <;> rfl
  · rw [of_decide_eq_true hf']
    exact hr

theorem placesSafe_waitAll (fs : List FutId) :
    PlacesSafe limit src (fun _ g' => g' = g.settle fun f' => decide (f' ∈ fs))
      (perform (.waitAll fs)) g := by
  refine Machine.Safe.mono (placesSafe_look (a := .waitAll fs) (Q := fun _ => True)
    (fun _ f' => decide (f' ∈ fs)) (fun t s => rfl) fun t s hr => ⟨fun f' hf' => ?_, trivial⟩)
    fun _ _ h => h.1
  exact List.all_eq_true.mp hr f' (of_decide_eq_true hf')

/-- A wait returns at least one of the futures, unless there are none. -/
theorem placesSafe_waitFirst (fs : List FutId) :
    PlacesSafe limit src (fun (done : List FutId) g' =>
      g' = g.settle (fun f' => decide (f' ∈ done)) ∧ (fs ≠ [] → ∃ f ∈ fs, f ∈ done))
      (perform (.waitFirst fs)) g := by
  refine placesSafe_look (a := .waitFirst fs) (fun (done : List FutId) f' => decide (f' ∈ done))
    (fun t s => rfl) fun t s hr => ⟨fun f' hf' => ?_, fun hne => ?_⟩
  · have hm : f' ∈ fs.filter s.settled := of_decide_eq_true hf'
    exact (List.mem_filter.mp hm).2
  · have hr' : (fs.isEmpty || fs.any s.settled) = true := hr
    rw [Bool.or_eq_true] at hr'
    rcases hr' with he | he
    · exact absurd (List.isEmpty_iff.mp he) hne
    · obtain ⟨f, hf, hs⟩ := List.any_eq_true.mp he
      exact ⟨f, hf, List.mem_filter.mpr ⟨hf, hs⟩⟩

theorem placesSafe_submit (sha : Sha) (data : Bytes) (h : 0 < g.1) :
    PlacesSafe limit src (fun (f : FutId) g' => g' = (g.1 - 1, f ::ₘ g.2))
      (perform (.submit sha data)) g := by
  intro s t o _ _ hI
  refine ⟨_, ⟨fun f hf => ?_, ?_⟩, rfl⟩
  · change f ∈ s.tasks.length ::ₘ g.2 + o.2
    rw [Multiset.cons_add, Multiset.mem_cons]
    by_cases he : f = s.tasks.length
    · exact .inl he
    · right
      apply hI.taken
      change settled { s with tasks := s.tasks ++ [⟨sha, data, .queued⟩] } f = false at hf
      unfold settled at hf ⊢
      dsimp only at hf
      rcases Nat.lt_or_gt_of_ne he with hlt | hgt
      · rwa [List.getElem?_append_left hlt] at hf
      · rw [List.getElem?_eq_none (by simp; omega)] at hf
        cases hf
  · have hroom := hI.room
    change g.1 - 1 + o.1 + Multiset.card (s.tasks.length ::ₘ g.2 + o.2) ≤ limit
    simp only [Prod.fst_add, Prod.snd_add, Multiset.card_add, Multiset.card_cons] at hroom ⊢
    omega

/-! ## `put_file` -/

/-- A call with `workers` places, of which the futures `fs` have theirs. -/
structure Places.Using (workers : Nat) (fs : List FutId) (g : Places) : Prop where
  taken : g.2 = fs
  room : g.1 + fs.length = workers

variable {workers : Nat} {fs : List FutId}

omit [DecidableEq Sha] in
theorem Places.Using.settle (h : Places.Using workers fs g) (P : FutId → Bool) :
    Places.Using workers (fs.filter fun f => !P f) (g.settle P) := by
  have hlen : fs.length = (fs.filter fun f => P f).length + (fs.filter fun f => !P f).length :=
    List.length_eq_length_filter_add P
  have hroom := h.room
  refine ⟨?_, ?_⟩
  · unfold Places.settle
    rw [h.taken, Multiset.filter_coe]
    simp
  · unfold Places.settle
    rw [h.taken, Multiset.filter_coe, Multiset.coe_card]
    simp only [Bool.decide_eq_true]
    omega

/-- The loop that waits for a place. -/
theorem placesSafe_waitSlot (hw : 0 < workers) (k : Nat) (h : Places.Using workers fs g)
    (hk : fs.length ≤ k) :
    PlacesSafe limit src (fun p g' => Places.Using workers p.1 g' ∧ p.1 ⊆ fs ∧
      (p.2 = none → p.1.length < workers)) (waitSlot workers k fs : StoreProg Sha _) g := by
  induction k generalizing fs g with
  | zero =>
    refine placesSafe_pure ⟨h, List.Subset.refl _, fun _ => ?_⟩
    exact Nat.lt_of_le_of_lt hk hw
  | succ k ih =>
    unfold waitSlot
    split
    case isFalse hless =>
      exact placesSafe_pure ⟨h, List.Subset.refl _, fun _ => Nat.lt_of_not_le hless⟩
    case isTrue hfull =>
      refine placesSafe_bind (placesSafe_waitFirst fs) ?_
      rintro done g' ⟨rfl, hdone⟩
      have hne : fs ≠ [] := by
        rintro rfl
        exact absurd hfull (Nat.not_le_of_lt hw)
      obtain ⟨f, hf, hfd⟩ := hdone hne
      have hrest : (fs.filter fun f => !decide (f ∈ done)) = fs.filter (· ∉ done) := by
        simp
      have hless : (fs.filter (· ∉ done)).length < fs.length := by
        rw [List.length_filter_lt_length_iff_exists]
        exact ⟨f, hf, by simpa using hfd⟩
      have husing := h.settle fun f => decide (f ∈ done)
      rw [hrest] at husing
      have hsub : fs.filter (· ∉ done) ⊆ fs := List.filter_subset_self _
      refine placesSafe_bind (placesSafe_submitless (all_results (by simp [Submitless]) done) _) ?_
      rintro e g'' rfl
      cases e with
      | some x => exact placesSafe_pure ⟨husing, hsub, by simp⟩
      | none =>
        refine (ih husing (by omega)).mono ?_
        rintro p g₃ ⟨hp, hps, hlt⟩
        exact ⟨hp, fun _ hm => hsub (hps hm), hlt⟩

/-- The futures that have a place are those of the call. -/
structure Places.Call (workers : Nat) (r : Refs Sha) (g : Places) : Prop where
  usage : Places.Using workers r.running g
  own : ∀ f ∈ r.running, f ∈ r.pending.map Prod.snd

theorem placesSafe_acquire (hw : 0 < workers) (sha : Sha) (data : Bytes) {r : Refs Sha}
    (h : Places.Call workers r g) :
    PlacesSafe limit src (fun p g' => Places.Call workers p.1 g')
      (acquire workers sha data r) g := by
  unfold acquire
  split
  case isTrue => exact placesSafe_pure ⟨h.usage, h.own⟩
  case isFalse =>
    refine placesSafe_bind (placesSafe_perform (by simp [Submitless]) g) ?_
    rintro known g' rfl
    cases known with
    | true => exact placesSafe_pure ⟨h.usage, h.own⟩
    | false =>
      refine placesSafe_bind (placesSafe_waitSlot hw _ h.usage (Nat.le_refl _)) ?_
      rintro ⟨fs, e⟩ g'' ⟨husing, hsub, hless⟩
      cases e with
      | some x => exact placesSafe_pure ⟨husing, fun f hf => h.own f (hsub hf)⟩
      | none =>
        have hlt := hless rfl
        have hroom := husing.room
        refine placesSafe_bind (placesSafe_submit sha data (by dsimp only at hlt hroom; omega)) ?_
        rintro f g₃ rfl
        refine placesSafe_pure ⟨⟨?_, ?_⟩, fun f' hf' => ?_⟩
        · rw [husing.taken, ← Multiset.coe_add, Multiset.coe_singleton, Multiset.add_comm]
          rfl
        · dsimp only at hlt hroom ⊢
          rw [List.length_append, List.length_singleton]
          omega
        · rw [List.map_append, List.mem_append]
          rcases List.mem_append.mp hf' with hf' | hf'
          · exact .inl (h.own f' (hsub hf'))
          · right
            rw [List.mem_singleton.mp hf']
            exact List.mem_singleton_self f

variable [Sha256 Sha]

theorem placesSafe_putLoop (cfg : StoreConfig) (ino : Ino) (size : Nat)
    (dirty : Option (Finset Nat)) (old : List (Chunk Sha)) (st : PutState Sha)
    (h : Places.Call cfg.uploadWorkers st.refs g) :
    PlacesSafe limit src (fun p g' => Places.Call cfg.uploadWorkers p.1.refs g')
      (putLoop cfg ino size dirty old st) g := by
  -- the loop ends because every round moves `off` towards `size`
  induction hn : size - st.off using Nat.strong_induction_on generalizing st g with
  | _ n ih =>
    rw [putLoop]
    split
    case isFalse => exact placesSafe_pure h
    case isTrue hoff =>
      have hcs := cfg.chunkSize_pos
      split
      case h_1 row hrow =>
        refine placesSafe_bind (placesSafe_perform (a := .claimKnown row.sha)
          (by simp [Submitless]) g) ?_
        rintro known g' rfl
        cases known with
        | false => exact placesSafe_pure h
        | true =>
          exact ih (size - (st.off + min cfg.chunkSize (size - st.off))) (by omega) _
            ⟨h.usage, h.own⟩ rfl
      case h_2 hrow =>
        refine placesSafe_bind (placesSafe_perform (a := .read st.pos _)
          (by simp [Submitless]) g) ?_
        rintro got g' rfl
        split
        case h_1 => exact placesSafe_pure h
        case h_2 data =>
          split
          case isTrue => exact placesSafe_pure h
          case isFalse hne =>
            refine placesSafe_bind (placesSafe_acquire cfg.uploadWorkers_pos _ data h) ?_
            rintro ⟨refs, e⟩ g'' h'
            cases e with
            | some x => exact placesSafe_pure h'
            | none =>
              have hlen := List.length_pos_iff.mpr hne
              exact ih (size - (st.off + data.length)) (by omega) _ h' rfl

omit [Sha256 Sha] in
/-- `for f in fs: f.result()`: without an exception none of these is under way. -/
theorem placesSafe_results (ps : List FutId) (h : Places.Using workers fs g) :
    PlacesSafe limit src (fun e g' => ∃ fs', Places.Using workers fs' g' ∧ fs' ⊆ fs ∧
      (e = none → ∀ f ∈ ps, f ∉ fs')) (results ps : StoreProg Sha _) g := by
  induction ps generalizing fs g with
  | nil => exact placesSafe_pure ⟨fs, h, List.Subset.refl _, by simp⟩
  | cons f ps ih =>
    have husing := h.settle fun f' => decide (f' = f)
    have hsub : (fs.filter fun f' => !decide (f' = f)) ⊆ fs := List.filter_subset_self _
    have hf : f ∉ fs.filter fun f' => !decide (f' = f) := by simp
    refine placesSafe_bind (placesSafe_result f) ?_
    rintro r g' rfl
    cases r with
    | some e => exact placesSafe_pure ⟨_, husing, hsub, by simp⟩
    | none =>
      refine (ih husing).mono ?_
      rintro e g' ⟨fs', h', hsub', hnone⟩
      refine ⟨fs', h', fun _ hm => hsub (hsub' hm), fun he f' hf' => ?_⟩
      rcases List.mem_cons.mp hf' with rfl | hf'
      · exact fun hm => hf (hsub' hm)
      · exact hnone he f' hf'

/-- A call that is over has all its places. -/
def Places.Over (workers : Nat) (g : Places) : Prop := g = (workers, 0)

omit [DecidableEq Sha] [Sha256 Sha] in
theorem Places.Using.whole (h : Places.Using workers [] g) : Places.Over workers g :=
  Prod.ext h.room h.taken

theorem placesSafe_putBody (cfg : StoreConfig) (ino : Ino) (size : Nat)
    (dirty : Option (Finset Nat)) (old : List (Chunk Sha)) (hg : Places.Over cfg.uploadWorkers g) :
    PlacesSafe limit src (fun p g' =>
      (p.2 = none → Places.Over cfg.uploadWorkers g') ∧
        ∃ fs, Places.Using cfg.uploadWorkers fs g' ∧
          ∀ f ∈ fs, f ∈ p.1.refs.pending.map Prod.snd)
      (putBody cfg ino size dirty old) g := by
  subst hg
  have hstart : Places.Call cfg.uploadWorkers ({} : PutState Sha).refs (cfg.uploadWorkers, 0) :=
    ⟨⟨rfl, rfl⟩, by simp⟩
  refine placesSafe_bind (placesSafe_putLoop cfg ino size dirty old {} hstart) ?_
  rintro ⟨st, e⟩ g' h
  cases e with
  | some x => exact placesSafe_pure ⟨by simp, _, h.usage, h.own⟩
  | none =>
    refine placesSafe_bind (placesSafe_results (st.refs.pending.map (·.2)) h.usage) ?_
    rintro e g'' ⟨fs', h', hsub, hnone⟩
    cases e with
    | some x => exact placesSafe_pure ⟨by simp, fs', h', fun f hf => h.own f (hsub hf)⟩
    | none =>
      have hnil : fs' = [] := by
        rw [List.eq_nil_iff_forall_not_mem]
        intro f hf
        exact hnone rfl f (h.own f (hsub hf)) hf
      subst hnil
      refine placesSafe_bind (placesSafe_submitless
        (all_increfAll (by simp [Submitless]) st.refs.dups) _) ?_
      rintro _ g₃ rfl
      exact placesSafe_pure ⟨fun _ => h'.whole, [], h', by simp⟩

omit [Sha256 Sha] in
/-- The `except` clause waits for all uploads of the call. -/
theorem placesSafe_rollback {r : Refs Sha} (h : Places.Using workers fs g)
    (hown : ∀ f ∈ fs, f ∈ r.pending.map Prod.snd) :
    PlacesSafe limit src (fun _ g' => Places.Over workers g') (rollback r) g := by
  refine placesSafe_bind (placesSafe_submitless (all_cancelAll (by simp [Submitless]) _) g) ?_
  rintro _ g' rfl
  refine placesSafe_bind (placesSafe_waitAll (r.pending.map (·.2))) ?_
  rintro _ g' rfl
  have husing := h.settle fun f' => decide (f' ∈ r.pending.map Prod.snd)
  have hnil : (fs.filter fun f' => !decide (f' ∈ r.pending.map Prod.snd)) = [] := by
    rw [List.filter_eq_nil_iff]
    intro f hf
    simpa using hown f hf
  rw [hnil] at husing
  refine Machine.Safe.mono (placesSafe_submitless (all_releaseAcquired (by simp [Submitless])
    (by simp [Submitless]) (by simp [Submitless]) r r.acquired) _) ?_
  rintro _ g' rfl
  exact husing.whole

theorem placesSafe_putFile (cfg : StoreConfig) (ino : Ino) (size : Nat)
    (dirty : Option (Finset Nat)) :
    PlacesSafe limit src (fun _ g' => Places.Over cfg.uploadWorkers g')
      (putFile cfg ino size dirty : StoreProg Sha _) (cfg.uploadWorkers, 0) := by
  refine placesSafe_bind (placesSafe_perform (a := .getChunks ino) (by simp [Submitless]) _) ?_
  rintro old g rfl
  refine placesSafe_bind (placesSafe_putBody cfg ino size dirty old rfl) ?_
  rintro ⟨st, e⟩ g ⟨hover, fs, husing, hown⟩
  cases e with
  | some x =>
    refine placesSafe_bind (placesSafe_rollback husing hown) ?_
    rintro e g' h'
    cases e with
    | some e => exact placesSafe_pure h'
    | none => exact placesSafe_pure h'
  | none =>
    refine Machine.Safe.mono (placesSafe_submitless ?_ g) ?_
    · refine ⟨by simp [Submitless], fun _ => ⟨by simp [Submitless], fun _ => ?_⟩⟩
      apply (all_releaseAll (by simp [Submitless]) (by simp [Submitless]) _).bind
      intro e
      cases e <;> trivial
    · rintro _ g' rfl
      exact hover rfl

/-! ## Calls from several threads -/

omit [DecidableEq Sha] [Sha256 Sha] in
/-- The futures that are not done. -/
def underWay (s : Store Sha) : Nat :=
  (List.range s.tasks.length).countP fun f => !s.settled f

omit [DecidableEq Sha] [Sha256 Sha] in
theorem underWay_le {s : Store Sha} (h : Places.Inv limit s g) :
    s.underWay ≤ Multiset.card g.2 := by
  unfold underWay
  rw [List.countP_eq_length_filter, ← Multiset.coe_card]
  apply Multiset.card_le_card
  rw [Multiset.le_iff_subset (Multiset.coe_nodup.mpr (List.nodup_range.filter _))]
  intro f hf
  have hf' := (List.mem_filter.mp (Multiset.mem_coe.mp hf)).2
  apply h.taken
  simpa using hf'

/-- The places of a call. -/
def callPlaces (cfg : StoreConfig) (c : Call Sha) : Places :=
  (if c.isFree then 0 else cfg.uploadWorkers, 0)

theorem placesSafe_call (cfg : StoreConfig) (c : Call Sha) :
    callMachine.Safe (Places.Inv limit) (fun _ => True) c (fun _ g' => g' = callPlaces cfg c)
      (c.prog cfg) (callPlaces cfg c) := by
  apply Machine.Safe.comap
  cases c with
  | putFile ino size dirty src => exact placesSafe_putFile cfg ino size dirty
  | freeFile ino =>
    apply placesSafe_submitless
    refine ⟨by simp [Submitless], fun shas => ?_⟩
    apply (all_releaseAll (by simp [Submitless]) (by simp [Submitless]) shas).bind
    intro e
    cases e with
    | some e => trivial
    | none => exact ⟨by simp [Submitless], fun _ => trivial⟩

omit [DecidableEq Sha] [Sha256 Sha] in
theorem sum_callPlaces (cfg : StoreConfig) (calls : List (Call Sha)) :
    (calls.map (callPlaces cfg)).sum =
      (cfg.uploadWorkers * calls.countP (fun c => !c.isFree), 0) := by
  induction calls with
  | nil => rfl
  | cons c calls ih =>
    rw [List.map_cons, List.sum_cons, ih, List.countP_cons]
    unfold callPlaces
    cases c.isFree with
    | true => simp
    | false => simp [Nat.mul_add, Nat.add_comm]

/-- The calls of `put_file` that have not come to an end. -/
def busy (c : CallPool Sha) : Nat := c.threads.countP fun th => !th.arg.isFree && !returned th

omit [Sha256 Sha] in
/-- The places that are taken are those of busy calls. -/
theorem places_of_threads {cfg : StoreConfig} {gs : List Places}
    {threads : List (Machine.Thread (Act Sha) Act.Reply (Call Sha) (Except (PyErr Sha) Unit))}
    (h : List.Forall₂ (fun th g => callMachine.Safe (Places.Inv limit) (fun _ => True) th.arg
      (fun _ g' => g' = callPlaces cfg th.arg) th.prog g) threads gs) :
    cfg.uploadWorkers * threads.countP (fun th => !th.arg.isFree) ≤ gs.sum.1 +
      cfg.uploadWorkers * threads.countP fun th => !th.arg.isFree && !returned th := by
  induction h with
  | nil => simp
  | @cons th g threads gs hth _ ih =>
    rw [List.sum_cons, List.countP_cons, List.countP_cons, Prod.fst_add, Nat.mul_add, Nat.mul_add]
    have hone : cfg.uploadWorkers * (if !th.arg.isFree then 1 else 0) ≤ g.1 +
        cfg.uploadWorkers * (if !th.arg.isFree && !returned th then 1 else 0) := by
      obtain ⟨arg, prog, started⟩ := th
      cases prog with
      | act a k => simp [returned]
      | ret r =>
        have hg : g = callPlaces cfg arg := hth
        subst hg
        cases hf : arg.isFree <;> simp [callPlaces, returned, hf]
    omega

/-- However many calls of `put_file` and `free_file` run at once, on whatever inodes and whatever
fails, there are at most `upload_workers` uploads under way for each `put_file` that has not
returned or raised: none is left when the last of the calls has come to its end. -/
theorem run_underWay (cfg : StoreConfig) (index : Meta Sha) (backend : Backend)
    (calls : List (Call Sha)) (ls : List (Machine.Label Tick (FutId × PoolTick))) :
    (callMachine.run ls (startCalls cfg ⟨index, backend, []⟩ calls)).state.underWay ≤
      cfg.uploadWorkers * busy (callMachine.run ls (startCalls cfg ⟨index, backend, []⟩ calls)) := by
  generalize hlimit : cfg.uploadWorkers * calls.countP (fun c => !c.isFree) = limit
  have hstart : callMachine.PoolSafe (Places.Inv limit) (fun _ => True) (callPlaces cfg)
      (fun c _ g' => g' = callPlaces cfg c) (startCalls cfg ⟨index, backend, []⟩ calls) := by
    refine ⟨calls.map (callPlaces cfg), ⟨fun f hf => ?_, ?_⟩, ?_⟩
    · simp [startCalls, settled] at hf
    · rw [sum_callPlaces, ← hlimit]
      exact Nat.le_refl _
    · rw [startCalls, List.forall₂_map_left_iff, List.forall₂_map_right_iff, List.forall₂_same]
      exact fun c _ => ⟨placesSafe_call cfg c, fun _ => rfl⟩
  have henv : ∀ (e : FutId × PoolTick) (s : Store Sha) (g : Places), True →
      Places.Inv limit s g → Places.Inv limit (callMachine.env e s) g :=
    fun e s g _ h => ⟨fun f hf => h.taken f (settled_poolStep e hf), h.room⟩
  have hargs : (callMachine.run ls
      (startCalls cfg ⟨index, backend, []⟩ calls)).threads.map (·.arg) = calls := by
    rw [Machine.args_run, startCalls, List.map_map]
    exact List.map_id calls
  have hrun : callMachine.PoolSafe (Places.Inv limit) (fun _ => True) (callPlaces cfg)
      (fun c _ g' => g' = callPlaces cfg c)
      (callMachine.run ls (startCalls cfg ⟨index, backend, []⟩ calls)) := by
    refine Machine.PoolSafe.run henv (fun l _ => ?_) hstart
    cases l <;> trivial
  obtain ⟨gs, hI, hall⟩ := hrun
  generalize callMachine.run ls (startCalls cfg ⟨index, backend, []⟩ calls) = c at hI hall hargs ⊢
  have hbusy := places_of_threads (hall.imp fun _ _ h => h.1)
  have hcount : calls.countP (fun c => !c.isFree) = c.threads.countP fun th => !th.arg.isFree := by
    rw [← hargs, List.countP_map]
    rfl
  have hle := underWay_le hI
  have hroom := hI.room
  rw [hcount] at hlimit
  unfold busy
  omega

end Store

end Tgfs
