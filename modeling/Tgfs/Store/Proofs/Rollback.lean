import Tgfs.Store.Proofs.Calm
import Tgfs.Store.Proofs.Sequential

/-!
# A rollback whose deletes may raise

Behind the `wait` of the `except` clause of `put_file` no future is in flight, so that its
releases run alone. A delete that raises ends them: what was not given back until then stays in
the refcounts, and it is nothing exactly when the release was the last.
-/

namespace Tgfs

namespace Store

variable {Sha : Type} [DecidableEq Sha]

/-- A delete that raises, and what it replies if it does not. -/
def undeleted : (a : Act Sha) → a.Reply → Option a.Reply
  | .delete _, (e : Option (PyErr Sha)) => e.map fun _ => (none : Option (PyErr Sha))
  | _, _ => none

/-- A reference is given back. -/
def Releases : (a : Act Sha) → a.Reply → Prop
  | .blobDecref _, _ => True
  | _, _ => False

def releasing : Act Sha → Bool
  | .blobDecref _ => true
  | _ => false

omit [DecidableEq Sha] in
theorem releases_iff (a : Act Sha) (r : a.Reply) : releasing a = true ↔ Releases a r := by
  cases a <;> simp [releasing, Releases]

instance Releases.decide (a : Act Sha) (r : a.Reply) : Decidable (Releases a r) :=
  decidable_of_iff _ (releases_iff a r)

variable [Sha256 Sha] {mayFail : Prop} {canFree : Ino → Prop} {src : Src Sha} {ts : Nat → Tick}
  {s : Store Sha} {g : Res Sha} {ow : Owned Sha} {r : Refs Sha} {known : Multiset Sha}
  {dones : Multiset (Sha × FutId)}

/-- References that somebody has not given back yet. -/
def Owes (tasks : List (Task Sha)) (g : Res Sha) : Prop :=
  ∃ h, 0 < g.refs.count h + futRefs tasks (g.futs + g.doomed) h

/-- Nothing is in flight, and `g` is all that is owned. -/
structure Alone (mayFail : Prop) (canFree : Ino → Prop) (s : Store Sha) (g : Res Sha) : Prop where
  inv : Inv mayFail canFree s (g + 0)
  settled : ∀ t ∈ s.tasks, t.phase.settled = true

theorem Alone.readable (h : Alone mayFail canFree s g) : Readable s :=
  ⟨h.settled, h.inv.blobs.stored⟩

theorem Alone.ready (h : Alone mayFail canFree s g) (f : FutId) : s.settled f = true := by
  unfold Store.settled
  cases ht : s.tasks[f]? with
  | none => rfl
  | some t => exact h.settled t (List.mem_of_getElem? ht)

/-- What a release leaves: the reference is given back, whether its delete returns or raises. -/
inductive Released (mayFail : Prop) (canFree : Ino → Prop) (s : Store Sha) (g : Res Sha)
    (refs : Multiset Sha) : Option (PyErr Sha) → Store Sha → Prop where
  | returned {s'} : s'.tasks = s.tasks → Alone mayFail canFree s' { g with refs := refs } →
      Released mayFail canFree s g refs none s'
  | raised {s' hd} : s'.tasks = s.tasks →
      Alone mayFail canFree s' { g with refs := refs, trash := hd ::ₘ g.trash } →
      Released mayFail canFree s g refs (some .deleteFailed) s'

/-- What a release does with the handle that its decref returned. -/
def dropHandle : Option Handle → StoreProg Sha (Option (PyErr Sha))
  | none => pure none
  | some h => perform (.delete h)

section Steps

variable {α : Type} {alarm : (a : Act Sha) → a.Reply → Prop}

omit [Sha256 Sha] in
theorem run_dropHandle {hd : Handle} {n : Nat} (hturn : machine.turn (ts n) (.delete hd) s = s)
    (k : Option (PyErr Sha) → StoreProg Sha α) {e : Option (PyErr Sha)} {s' : Store Sha}
    (hexec : exec src (ts n) (.delete hd) s = (e, s')) :
    machine.seqRun src ts (dropHandle (some hd)) n s = (e, n + 1, s') ∧
      (machine.Missed undeleted alarm src ts ((dropHandle (some hd)).bind k) n s ↔
        (e ≠ none ∧ machine.Alarmed alarm src ts (k none) (n + 1) s') ∨
          machine.Missed undeleted alarm src ts (k e) (n + 1) s') := by
  have hstep : machine.exec src (ts n) (.delete hd) (machine.turn (ts n) (.delete hd) s) =
      (e, s') := (congrArg _ hturn).trans hexec
  refine ⟨machine.seqRun_step hstep, (machine.missed_step hstep).trans ?_⟩
  constructor
  · rintro (⟨r, hr, h⟩ | h)
    · cases e with
      | none => cases hr
      | some e =>
        cases hr
        exact .inl ⟨by simp, h⟩
    · exact .inr h
  · rintro (⟨hne, h⟩ | h)
    · cases e with
      | none => exact absurd rfl hne
      | some e => exact .inl ⟨none, rfl, h⟩
    · exact .inr h

end Steps

/-- A release by itself, and what is missed behind it. -/
theorem run_release (h : Alone mayFail canFree s g) {sha : Sha} {refs : Multiset Sha}
    (hr : g.refs = sha ::ₘ refs) (src : Src Sha) (ts : Nat → Tick) (n : Nat)
    {β : Type} (alarm : (a : Act Sha) → a.Reply → Prop)
    (k : Option (PyErr Sha) → StoreProg Sha β) :
    ∃ e n' s', machine.seqRun src ts (release sha) n s = (e, n', s') ∧
      Released mayFail canFree s g refs e s' ∧
      (machine.Missed undeleted alarm src ts ((release sha).bind k) n s ↔
        (e ≠ none ∧ machine.Alarmed alarm src ts (k none) n' s') ∨
          machine.Missed undeleted alarm src ts (k e) n' s') := by
  have hturn : machine.turn (ts n) (.blobDecref sha) s = s := h.readable.turn rfl
  have hdecref := h.inv.decref hr
  let s₁ : Store Sha := { s with index := (s.index.blobDecref sha).2 }
  have hstep : machine.exec src (ts n) (.blobDecref sha) (machine.turn (ts n) (.blobDecref sha) s) =
      ((s.index.blobDecref sha).1, s₁) := congrArg _ hturn
  have hrun : machine.seqRun src ts (release sha) n s =
      machine.seqRun src ts (dropHandle (s.index.blobDecref sha).1) (n + 1) s₁ :=
    machine.seqRun_step hstep
  have hmissed : machine.Missed undeleted alarm src ts ((release sha).bind k) n s ↔
      machine.Missed undeleted alarm src ts ((dropHandle (s.index.blobDecref sha).1).bind k) (n + 1)
        s₁ := by
    refine (machine.missed_step hstep).trans ⟨fun h => h.resolve_left ?_, .inr⟩
    simp [undeleted]
  rw [hrun, hmissed]
  cases hhd : (s.index.blobDecref sha).1 with
  | none =>
    have halone : Alone mayFail canFree s₁ { g with refs := refs } := by
      refine ⟨?_, h.settled⟩
      simpa [hhd] using hdecref
    refine ⟨none, n + 1, s₁, rfl, .returned rfl halone, ?_⟩
    simp [dropHandle]
  | some hd =>
    have halone : Alone mayFail canFree s₁ { g with refs := refs, trash := hd ::ₘ g.trash } := by
      refine ⟨?_, h.settled⟩
      simpa [hhd] using hdecref
    have hturn' : machine.turn (ts (n + 1)) (.delete hd) s₁ = s₁ := halone.readable.turn rfl
    by_cases hf : (ts (n + 1)).deleteFails = true
    · obtain ⟨hr, hm⟩ := run_dropHandle hturn' k (if_pos hf)
      exact ⟨some .deleteFailed, n + 2, s₁, hr, .raised rfl halone, hm⟩
    · obtain ⟨hr, hm⟩ := run_dropHandle hturn' k (if_neg hf)
      have hdelete := halone.inv.delete (Eq.refl (hd ::ₘ g.trash))
      exact ⟨none, n + 2, _, hr, .returned rfl ⟨hdelete, h.settled⟩, hm⟩

/-! ## The loop of releases -/

/-- How `releaseAcquired` goes on behind a release. -/
def afterRelease (r : Refs Sha) (rest : List Sha) :
    Option (PyErr Sha) → StoreProg Sha (Option (PyErr Sha))
  | some e => pure (some e)
  | none => releaseAcquired r rest

section Equations

omit [Sha256 Sha]

variable {sha : Sha} {rest : List Sha}

theorem releaseAcquired_known (hfut : Refs.fut r sha = none) :
    releaseAcquired r (sha :: rest) = (release sha).bind (afterRelease r rest) := by
  conv_lhs => unfold releaseAcquired
  rw [hfut]
  change (release sha).bind _ = _
  congr 1

theorem releaseAcquired_pending {f : FutId} (hfut : Refs.fut r sha = some f) :
    releaseAcquired r (sha :: rest) = (perform (.failed f)).bind fun skip : Bool =>
      if skip then releaseAcquired r rest else (release sha).bind (afterRelease r rest) := by
  conv_lhs => unfold releaseAcquired
  rw [hfut]
  change (perform (.failed f)).bind _ = _
  congr 1

end Equations

omit [Sha256 Sha] in
/-- Looking at a future changes nothing. -/
theorem exec_failed_snd (src : Src Sha) (t : Tick) (f : FutId) (s : Store Sha) :
    (exec src t (.failed f) s).2 = s := by
  simp only [exec]
  split <;> rfl

/-- Whether the rollback leaves `sha` out: its upload never registered. -/
def leavesOut (r : Refs Sha) (sha : Sha) (s : Store Sha) : Bool :=
  match Refs.fut r sha with
  | none => false
  | some f => (exec (fun _ _ => .ok []) {} (.failed f) s).1

/-- Two ways to see what is owned count the same references. -/
theorem owes_congr {g' : Res Sha} (h : Alone mayFail canFree s g) (h' : Alone mayFail canFree s g')
    (howns : g.owns = g'.owns) : Owes s.tasks g ↔ Owes s.tasks g' := by
  have hsame : ∀ x, g.refs.count x + futRefs s.tasks (g.futs + g.doomed) x =
      g'.refs.count x + futRefs s.tasks (g'.futs + g'.doomed) x := by
    intro x
    have hc := h.inv.counts x
    have hc' := h'.inv.counts x
    simp only [add_zero] at hc hc'
    rw [howns] at hc
    omega
  simp only [Owes, hsame]

/-- What the rollback owns before the next hash `sha`: a reference, or a future that never
registered. -/
theorem RollRes.next {sha : Sha} {rest : List Sha} (h : RollRes ow r (sha :: rest) known dones g)
    (trash : Multiset Handle) (ha : Alone mayFail canFree s { g with trash := trash }) :
    (leavesOut r sha s = false ∧ ∃ (g' : Res Sha) (refs : Multiset Sha) (known' : Multiset Sha)
        (dones' : Multiset (Sha × FutId)), g'.refs = sha ::ₘ refs ∧
        Alone mayFail canFree s { g' with trash := trash } ∧
        RollRes ow r rest known' dones' { g' with refs := refs }) ∨
    (leavesOut r sha s = true ∧ ∃ g' : Res Sha, Alone mayFail canFree s { g' with trash := trash } ∧
      RollRes ow r rest known dones g') := by
  have hcons : sha ::ₘ (rest : Multiset Sha) = known + (dones + g.doomed).map Prod.fst :=
    h.rest
  have hmem : sha ∈ known + (dones + g.doomed).map Prod.fst :=
    hcons ▸ Multiset.mem_cons_self _ _
  unfold leavesOut
  cases hfut : Refs.fut r sha with
  | none =>
    left
    have hno : sha ∉ r.pending.map Prod.fst := fun hm => by
      have := fut_isSome.mpr hm
      rw [hfut] at this
      cases this
    have hk : sha ∈ known := by
      refine (Multiset.mem_add.mp hmem).resolve_right fun hm => hno ?_
      obtain ⟨p, hp, rfl⟩ := Multiset.mem_map.mp hm
      exact List.mem_map_of_mem (h.pending p hp)
    obtain ⟨known, rfl⟩ := Multiset.exists_cons_of_mem hk
    rw [Multiset.cons_add, Multiset.cons_inj_right] at hcons
    exact ⟨rfl, g, _, known, dones, h.refs.trans (Multiset.cons_add _ _ _), ha, { h with
      refs := rfl
      rest := hcons
      fresh := fun s hs => h.fresh s (Multiset.mem_cons_of_mem hs) }⟩
  | some f =>
    have hp := fut_eq_some hfut
    have hup : (sha, f) ∈ dones + g.doomed := by
      obtain hk | hm := Multiset.mem_add.mp hmem
      · exact absurd (List.mem_map_of_mem hp) (h.fresh sha hk)
      · obtain ⟨⟨sha', f'⟩, hq, rfl⟩ := Multiset.mem_map.mp hm
        exact h.unique (h.pending _ hq) hp ▸ hq
    have hquiet : ({} : Tick).QuietAct mayFail := Tick.quiet_default.toQuietAct
    obtain hd | hd := Multiset.mem_add.mp hup
    · left
      obtain ⟨dones, rfl⟩ := Multiset.exists_cons_of_mem hd
      obtain ⟨-, -, hreply, -⟩ := (@safe_failed_done Sha _ _ mayFail canFree (fun _ _ => .ok [])
        { g with trash := trash } _ (h.remembered _ hd)) s {} 0 hquiet (ha.ready f) ha.inv
      have hrefs : g.refs = sha ::ₘ (known + dones.map Prod.fst) := by
        rw [h.refs, Multiset.map_cons, Multiset.add_cons]
      rw [Multiset.cons_add, Multiset.map_cons, Multiset.add_cons,
        Multiset.cons_inj_right] at hcons
      exact ⟨hreply, g, _, known, dones, hrefs, ha, { h with
        refs := rfl
        remembered := fun q hq => h.remembered q (Multiset.mem_cons_of_mem hq)
        pending := fun q hq => h.pending q
          (by rw [Multiset.cons_add]; exact Multiset.mem_cons_of_mem hq)
        rest := hcons }⟩
    · obtain ⟨doomed, hdm⟩ := Multiset.exists_cons_of_mem hd
      rw [hdm, Multiset.add_cons, Multiset.map_cons, Multiset.add_cons,
        Multiset.cons_inj_right] at hcons
      have hpend : ∀ p ∈ dones + doomed, p ∈ r.pending := fun q hq => h.pending q
        (by rw [hdm, Multiset.add_cons]; exact Multiset.mem_cons_of_mem hq)
      obtain ⟨g', hI, hreply⟩ := (@safe_failed Sha _ _ mayFail canFree (fun _ _ => .ok [])
        { g with trash := trash } _ _ hdm) s {} 0 hquiet (ha.ready f) ha.inv
      have hstate : (machine.exec (fun _ _ => .ok []) {} (.failed f) s).2 = s :=
        exec_failed_snd (fun _ _ => .ok []) {} f s
      rw [hstate] at hI
      rcases hreply with ⟨hreply, rfl⟩ | ⟨hreply, rfl⟩
      · right
        exact ⟨hreply, { g with doomed := doomed }, ⟨hI, ha.settled⟩,
          { h with pending := hpend, rest := hcons }⟩
      · left
        exact ⟨hreply, { g with doomed := doomed, refs := sha ::ₘ g.refs }, g.refs, known, dones,
          rfl, ⟨hI, ha.settled⟩, { h with pending := hpend, rest := hcons }⟩

section Loop

variable {sha : Sha} {rest : List Sha}

/-- What the loop does with the next hash. -/
def releaseNext (r : Refs Sha) (sha : Sha) (rest : List Sha) (s : Store Sha) :
    StoreProg Sha (Option (PyErr Sha)) :=
  if leavesOut r sha s then releaseAcquired r rest else (release sha).bind (afterRelease r rest)

variable (r sha rest) in
theorem run_releaseAcquired_cons (ha : Alone mayFail canFree s g) (src : Src Sha) (ts : Nat → Tick)
    (n : Nat) (alarm : (a : Act Sha) → a.Reply → Prop) (hf : ∀ f e, ¬ alarm (.failed f) e) :
    ∃ n', machine.seqRun src ts (releaseAcquired r (sha :: rest)) n s =
        machine.seqRun src ts (releaseNext r sha rest s) n' s ∧
      (machine.Alarmed alarm src ts (releaseAcquired r (sha :: rest)) n s ↔
        machine.Alarmed alarm src ts (releaseNext r sha rest s) n' s) ∧
      (machine.Missed undeleted alarm src ts (releaseAcquired r (sha :: rest)) n s ↔
        machine.Missed undeleted alarm src ts (releaseNext r sha rest s) n' s) := by
  unfold releaseNext leavesOut
  cases hfut : Refs.fut r sha with
  | none =>
    rw [releaseAcquired_known hfut]
    exact ⟨n, rfl, Iff.rfl, Iff.rfl⟩
  | some f =>
    have hturn : machine.turn (ts n) (.failed f) s = s := ha.readable.turn (ha.ready f)
    have hstep : machine.exec src (ts n) (.failed f) (machine.turn (ts n) (.failed f) s) =
        ((exec (fun _ _ => .ok [] : Src Sha) {} (.failed f) s).1, s) :=
      (congrArg _ hturn).trans (Prod.ext rfl (exec_failed_snd src (ts n) f s))
    rw [releaseAcquired_pending hfut]
    refine ⟨n + 1, machine.seqRun_step hstep, ?_, ?_⟩
    · exact (machine.alarmed_step hstep).trans ⟨fun h => h.resolve_left (hf f _), .inr⟩
    · refine (machine.missed_step hstep).trans ⟨fun h => h.resolve_left ?_, .inr⟩
      simp [undeleted]

/-- Nothing is left to give back exactly when no release is to come. -/
theorem releases_iff_owes (trash : Multiset Handle) (h : RollRes ow r rest known dones g)
    (ha : Alone mayFail canFree s { g with trash := trash }) (src : Src Sha) (ts : Nat → Tick)
    (n : Nat) :
    machine.Alarmed Releases src ts (releaseAcquired r rest) n s ↔ Owes s.tasks g := by
  induction rest generalizing known dones g n with
  | nil =>
    have h0 := congrArg Multiset.card h.rest
    simp only [Multiset.coe_card, List.length_nil, Multiset.card_add, Multiset.card_map] at h0
    have hk : known = 0 := Multiset.card_eq_zero.mp (by omega)
    have hd : dones = 0 := Multiset.card_eq_zero.mp (by omega)
    have hdm : g.doomed = 0 := Multiset.card_eq_zero.mp (by omega)
    have hzero : ¬ Owes s.tasks g := by
      rintro ⟨x, hx⟩
      simp [h.refs, hk, hd, hdm, h.futs] at hx
    exact ⟨False.elim, fun h => hzero h⟩
  | cons sha rest ih =>
    obtain ⟨n', -, hal, -⟩ := run_releaseAcquired_cons r sha rest ha src ts n Releases fun _ _ => id
    rw [hal]
    unfold releaseNext
    rcases h.next trash ha with ⟨hleft, g', refs, known', dones', hrefs, ha', h'⟩ | ⟨hleft, g', ha', h'⟩
    · have howes : Owes s.tasks { g' with trash := trash } := by
        refine ⟨sha, ?_⟩
        simp only [hrefs, Multiset.count_cons_self]
        omega
      rw [if_neg (by simp [hleft])]
      exact ⟨fun _ => (owes_congr ha ha' (h.owns.trans h'.owns.symm)).mpr howes,
        fun _ => .inl trivial⟩
    · have hsame : Owes s.tasks { g' with trash := trash } ↔ Owes s.tasks { g with trash := trash } :=
        owes_congr ha' ha (h'.owns.trans h.owns.symm)
      rw [if_pos hleft, ih h' ha']
      exact hsame

/-- Where a rollback ends, whatever its deletes do: it misses a release exactly if it ends with
references that are not given back. -/
theorem run_releaseAcquired (h : RollRes ow r rest known dones g) (ha : Alone mayFail canFree s g)
    (src : Src Sha) (ts : Nat → Tick) (n : Nat) :
    ∃ g', (machine.seqRun src ts (releaseAcquired r rest) n s).2.2.tasks = s.tasks ∧
      Alone mayFail canFree (machine.seqRun src ts (releaseAcquired r rest) n s).2.2 g' ∧
      g'.owns = {ow} ∧
      (machine.Missed undeleted Releases src ts (releaseAcquired r rest) n s ↔
        Owes s.tasks g') := by
  induction rest generalizing known dones g n s with
  | nil =>
    refine ⟨g, rfl, ha, h.owns, ?_⟩
    rw [← releases_iff_owes g.trash h ha src ts n]
    exact Iff.rfl
  | cons sha rest ih =>
    obtain ⟨n', hrun, -, hmiss⟩ := run_releaseAcquired_cons r sha rest ha src ts n Releases fun _ _ => id
    rw [hrun, hmiss]
    unfold releaseNext
    rcases h.next g.trash ha with
      ⟨hleft, g', refs, known', dones', hrefs, ha', h'⟩ | ⟨hleft, g', ha', h'⟩
    · have htrash : { g' with trash := g.trash } = g' :=
        congrArg (fun l => { g' with trash := l }) (h.trash.trans h'.trash.symm)
      rw [htrash] at ha'
      rw [if_neg (by simp [hleft])]
      obtain ⟨e, n₁, s₁, hrel, hout, hmiss'⟩ := run_release ha' hrefs src ts n' Releases
        (afterRelease r rest)
      rw [Machine.seqRun_bind, hrel, hmiss']
      cases hout with
      | returned htasks halone =>
        obtain ⟨g₁, htasks₁, halone₁, howns, hiff⟩ := ih h' halone n₁
        refine ⟨g₁, htasks₁.trans htasks, halone₁, howns, ?_⟩
        rw [← htasks, ← hiff]
        simp [afterRelease]
      | @raised s₁ hd htasks halone =>
        refine ⟨_, htasks, halone, h'.owns, ?_⟩
        have hleft := releases_iff_owes _ h' halone src ts n₁
        rw [htasks] at hleft
        constructor
        · rintro (⟨-, hal⟩ | hnone)
          · exact hleft.mp hal
          · exact hnone.elim
        · exact fun howes => .inl ⟨by simp, hleft.mpr howes⟩
    · have htrash : { g' with trash := g.trash } = g' :=
        congrArg (fun l => { g' with trash := l }) (h.trash.trans h'.trash.symm)
      rw [htrash] at ha'
      rw [if_pos hleft]
      exact ih h' ha' n'

end Loop

end Store

end Tgfs
