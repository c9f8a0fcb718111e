import Tgfs.Transfer.Telegram
import Tgfs.Transfer.Proofs.RoundTrip

/-!
# The Telegram backend

Its retries come to an end, and over any interleaving of its calls it keeps what a store of blobs
promises, whatever the network does.
-/

namespace Tgfs

namespace Telegram

open FastTransfer

variable {Chan Media Out : Type} {c : Client Chan Media Out} {conns : Nat}

/-! ## `_with_retry` -/

/-- A try that ended with a `ConnectionError` or `OSError`. -/
def isLost : Except CallErr Reply → Bool
  | .ok _ => false
  | .error e => e.isOSError

/-- The seconds of a `FloodWaitError`, and one. -/
def floodSeconds : Except CallErr Reply → Nat
  | .error (.client (.floodWait seconds)) => seconds + 1
  | _ => 0

/-- The loop in its attempt number `attempt`, with these tries behind it. -/
structure Going (attempt : Nat) (tries : List (Except CallErr Reply)) (waits : List Nat) : Prop where
  again : ∀ r ∈ tries, isLost r = true ∨ 0 < floodSeconds r
  lost : tries.countP isLost = attempt
  few : attempt < maxRetries
  slept : waits.sum + 2 = (tries.map floodSeconds).sum + 2 ^ (attempt + 1)

/-- What ends the loop: a try that is no reason to go on, or the last one. -/
def Final (attempt : Nat) (r : Except CallErr Reply) : Prop :=
  if isLost r = true then attempt + 1 = maxRetries else floodSeconds r = 0

/-- The tries and the sleeps of a call. -/
def Job.Retried (job : Job Media) : Prop :=
  match job.phase with
  | .trying attempt | .sending attempt _ | .fetching attempt _ => Going attempt job.tries job.waits
  | .finished r => ∃ before attempt, job.tries = before ++ [r] ∧ Going attempt before job.waits ∧
      Final attempt r

variable (Media) in
theorem afterTry_final (attempt : Nat) {r : Except CallErr Reply} (hl : isLost r = false)
    (hf : floodSeconds r = 0) : afterTry Media attempt r = (.finished r, []) := by
  cases r with
  | ok r => rfl
  | error e =>
    cases e with
    | client e =>
      cases e with
      | floodWait seconds => cases hf
      | connection => cases hl
      | other => rfl
    | missing handle => cases hl
    | _ => rfl

variable (Media) in
theorem afterTry_lost (attempt : Nat) {r : Except CallErr Reply} (hl : isLost r = true) :
    floodSeconds r = 0 ∧ afterTry Media attempt r =
      if attempt + 1 ≥ maxRetries then (.finished r, [])
      else (.trying (attempt + 1), [min (2 ^ (attempt + 1)) 30]) := by
  cases r with
  | ok r => cases hl
  | error e =>
    cases e with
    | client e =>
      cases e with
      | connection => exact ⟨rfl, rfl⟩
      | _ => cases hl
    | missing handle => exact ⟨rfl, rfl⟩
    | _ => cases hl

variable (Media) in
theorem afterTry_flood (attempt : Nat) {r : Except CallErr Reply} (hf : 0 < floodSeconds r) :
    isLost r = false ∧
      afterTry Media attempt r = (.trying attempt, [floodSeconds r]) := by
  cases r with
  | ok r => cases hf
  | error e =>
    cases e with
    | client e =>
      cases e with
      | floodWait seconds => exact ⟨rfl, rfl⟩
      | _ => cases hf
    | _ => cases hf

namespace Going

variable {attempt : Nat} {tries : List (Except CallErr Reply)} {waits : List Nat}
  {r : Except CallErr Reply}

theorem zero : Going 0 [] [] := ⟨by simp, rfl, by decide, rfl⟩

theorem concat_flood (h : Going attempt tries waits) (hf : 0 < floodSeconds r)
    (hl : isLost r = false) : Going attempt (tries ++ [r]) (waits ++ [floodSeconds r]) where
  again := by
    intro r' hr'
    rcases List.mem_append.mp hr' with hr' | hr'
    · exact h.again r' hr'
    · rw [List.mem_singleton.mp hr']
      exact .inr hf
  lost := by
    rw [List.countP_append, h.lost, List.countP_singleton, hl]
    rfl
  few := h.few
  slept := by
    have hslept := h.slept
    rw [List.sum_append, List.map_append, List.sum_append, List.map_singleton, List.sum_singleton]
    omega

theorem concat_lost (h : Going attempt tries waits) (hf : floodSeconds r = 0)
    (hl : isLost r = true) (hfew : attempt + 1 < maxRetries) :
    Going (attempt + 1) (tries ++ [r]) (waits ++ [min (2 ^ (attempt + 1)) 30]) where
  again := by
    intro r' hr'
    rcases List.mem_append.mp hr' with hr' | hr'
    · exact h.again r' hr'
    · rw [List.mem_singleton.mp hr']
      exact .inl hl
  lost := by rw [List.countP_append, h.lost, List.countP_singleton, if_pos hl]
  few := hfew
  slept := by
    have hslept := h.slept
    -- the bound of thirty seconds is never reached
    have hpow : 2 ^ (attempt + 1) ≤ 2 ^ 4 := by
      apply Nat.pow_le_pow_right Nat.two_pos
      unfold maxRetries at hfew
      omega
    rw [Nat.min_eq_left (by omega), List.sum_append, List.map_append, List.sum_append,
      List.map_singleton, List.sum_singleton, List.sum_singleton, hf, Nat.pow_succ _ (attempt + 1)]
    omega

end Going

theorem afterTry_retried {call : Call} {attempt : Nat} {tries : List (Except CallErr Reply)}
    {waits : List Nat} (h : Going attempt tries waits) (r : Except CallErr Reply) :
    Job.Retried ⟨call, (afterTry Media attempt r).1, tries ++ [r],
      waits ++ (afterTry Media attempt r).2⟩ := by
  have hover : Final attempt r →
      (⟨call, .finished r, tries ++ [r], waits ++ []⟩ : Job Media).Retried := by
    intro hfinal
    rw [List.append_nil]
    exact ⟨tries, attempt, rfl, h, hfinal⟩
  rcases Nat.eq_zero_or_pos (floodSeconds r) with hf | hf
  · cases hl : isLost r with
    | true =>
      rw [(afterTry_lost Media attempt hl).2]
      have hfew := h.few
      by_cases hlast : attempt + 1 ≥ maxRetries
      · rw [if_pos hlast]
        apply hover
        unfold Final
        rw [if_pos hl]
        omega
      · rw [if_neg hlast]
        exact h.concat_lost hf hl (Nat.lt_of_not_le hlast)
    | false =>
      rw [afterTry_final Media attempt hl hf]
      apply hover
      unfold Final
      rw [hl]
      exact hf
  · obtain ⟨hl, hafter⟩ := afterTry_flood Media attempt hf
    rw [hafter]
    exact h.concat_flood hf hl

/-- The number of the attempt that a coroutine is in. -/
def Phase.attempt : Phase Media → Option Nat
  | .trying attempt | .sending attempt _ | .fetching attempt _ => some attempt
  | .finished _ => none

def Next.attempt : Next Media → Option Nat
  | .within phase => phase.attempt
  | .ended attempt _ => some attempt

theorem go_attempt (connected : Bool) (t : CallTick Out) (call : Call) (phase : Phase Media)
    (chan : Chan) : (go c conns connected t call phase chan).1.attempt = phase.attempt := by
  cases call with
  | upload data =>
    cases phase with
    | trying attempt =>
      unfold go goUpload
      dsimp only
      split <;> rfl
    | sending attempt file =>
      unfold go goUpload
      dsimp only
      split <;> rfl
    | _ => rfl
  | download handle =>
    cases phase with
    | trying attempt =>
      unfold go goDownload
      dsimp only
      split
      · split <;> rfl
      · rfl
    | fetching attempt media =>
      unfold go goDownload
      dsimp only
      split
      · rfl
      · rfl
      · rfl
      · split
        · split <;> rfl
        · rfl
    | _ => rfl
  | delete handle =>
    cases phase with
    | trying attempt =>
      unfold go goDelete
      dsimp only
      split <;> rfl
    | _ => rfl

theorem retried_of_attempt (job : Job Media) {attempt : Nat} (ha : job.phase.attempt = some attempt) :
    job.Retried ↔ Going attempt job.tries job.waits := by
  unfold Job.Retried
  cases hp : job.phase <;> rw [hp] at ha <;> cases ha <;> rfl

theorem Job.after_retried {job : Job Media} (h : job.Retried) (hp : job.phase.isOver = false)
    {next : Next Media} (hnext : next.attempt = job.phase.attempt) : (job.after next).Retried := by
  obtain ⟨attempt, ha⟩ : ∃ attempt, job.phase.attempt = some attempt := by
    cases hphase : job.phase with
    | finished r =>
      rw [hphase] at hp
      cases hp
    | _ => exact ⟨_, rfl⟩
  rw [retried_of_attempt job ha] at h
  rw [ha] at hnext
  cases next with
  | within phase => exact (retried_of_attempt { job with phase := phase } hnext).mpr h
  | ended attempt' r =>
    obtain rfl := Option.some.inj hnext
    exact afterTry_retried h r

/-- The jobs of every state are kept by a step that keeps the one it is about. -/
theorem step_jobs {P : Job Media → Prop} (l : Step Out) {s : State Chan Media}
    (h : ∀ job ∈ s.jobs, P job) (hnew : ∀ call, P ⟨call, .trying 0, [], []⟩)
    (hjob : ∀ job ∈ s.jobs, job.phase.isOver = false → ∀ t,
      P (job.after (go c conns s.connected t job.call job.phase s.chan).1)) :
    ∀ job ∈ (step c conns l s).jobs, P job := by
  intro job hj
  cases l with
  | call call =>
    rcases List.mem_append.mp hj with hj | hj
    · exact h job hj
    · rw [List.mem_singleton.mp hj]
      exact hnew call
  | run k t =>
    unfold step at hj
    dsimp only at hj
    cases hk : s.jobs[k]? with
    | none =>
      rw [hk] at hj
      exact h job hj
    | some old =>
      rw [hk] at hj
      dsimp only at hj
      have hold := List.mem_of_getElem? hk
      by_cases hover : old.phase.isOver = true
      · rw [if_pos hover] at hj
        exact h job hj
      · rw [if_neg hover] at hj
        rcases List.mem_or_eq_of_mem_set hj with hj | rfl
        · exact h job hj
        · exact hjob old hold (Bool.not_eq_true _ ▸ hover) t
  | close => exact h job hj

theorem Going.waits_le {attempt : Nat} {tries : List (Except CallErr Reply)} {waits : List Nat}
    (h : Going attempt tries waits) : waits.sum ≤ (tries.map floodSeconds).sum + 30 := by
  have hslept := h.slept
  have hfew := h.few
  have hpow : 2 ^ (attempt + 1) ≤ 2 ^ 5 := Nat.pow_le_pow_right Nat.two_pos hfew
  omega

theorem Job.Retried.waits_le {job : Job Media} (h : job.Retried) :
    job.waits.sum ≤ (job.tries.map floodSeconds).sum + 30 := by
  cases hp : job.phase with
  | finished r =>
    unfold Job.Retried at h
    rw [hp] at h
    obtain ⟨before, attempt, htries, hgoing, -⟩ := h
    have hle := hgoing.waits_le
    rw [htries, List.map_append, List.sum_append]
    omega
  | _ =>
    unfold Job.Retried at h
    rw [hp] at h
    exact h.waits_le

/-- Over any interleaving of calls, a call goes on after a `FloodWaitError` and after the first
four lost connections, and after nothing else. Beside the `FloodWaitError`s it sleeps for thirty
seconds at most. -/
theorem run_retried (c : Client Chan Media Out) (conns : Nat) (ls : List (Step Out)) (chan : Chan) :
    ∀ job ∈ (run c conns ls (.start chan)).jobs,
      job.Retried ∧ job.waits.sum ≤ (job.tries.map floodSeconds).sum + 30 := by
  have hrun : ∀ job ∈ (run c conns ls (.start chan)).jobs, job.Retried := by
    unfold run
    induction ls using List.reverseRecOn with
    | nil =>
      intro job hj
      cases hj
    | append_singleton ls l ih =>
      rw [List.foldl_append]
      refine step_jobs l ih (fun _ => Going.zero) fun job hj hover t => ?_
      exact Job.after_retried (ih job hj) hover (go_attempt _ _ _ _ _)
  exact fun job hj => ⟨hrun job hj, (hrun job hj).waits_le⟩

/-! ## What the calls store -/

/-- What the backend relies on: `docs` tells which messages are in the channel and the bytes of
their documents, `last` is the newest id so far, `bytes` are those of a message's media. -/
structure Client.Lawful (c : Client Chan Media Out) (docs : Chan → Handle → Option Bytes)
    (last : Chan → Handle) (bytes : Media → Bytes) : Prop where
  old : ∀ chan h d, docs chan h = some d → h ≤ last chan
  /-- A message that is posted has a new id; its answer may get lost. -/
  sendFile : ∀ out file chan,
    (docs (c.sendFile out file chan).2 = docs chan ∧ last (c.sendFile out file chan).2 = last chan ∧
      ∀ h, (c.sendFile out file chan).1 ≠ .ok h) ∨
    (last chan < last (c.sendFile out file chan).2 ∧
      docs (c.sendFile out file chan).2 =
        Function.update (docs chan) (last (c.sendFile out file chan).2) (some file.bytes) ∧
      ∀ h, (c.sendFile out file chan).1 = .ok h → h = last (c.sendFile out file chan).2)
  found : ∀ out h chan media, c.getMessages out h chan = .ok (some (some media)) →
    docs chan h = some (bytes media)
  absent : ∀ out h chan m, c.getMessages out h chan = .ok m → (∀ media, m ≠ some (some media)) →
    docs chan h = none
  size : ∀ media n, c.documentSize media = some n → n = (bytes media).length
  getFile : ∀ out media chan, Answers (bytes media) (c.getFile out media chan)
  downloadMedia : ∀ out media chan d, c.downloadMedia out media chan = .ok (some d) →
    d = bytes media
  /-- A message that is deleted is gone; the answer may get lost here too. -/
  deleteMessages : ∀ out h chan, last (c.deleteMessages out h chan).2 = last chan ∧
    (docs (c.deleteMessages out h chan).2 = docs chan ∨
      docs (c.deleteMessages out h chan).2 = Function.update (docs chan) h none)

/-- The upload requests that are answered have stored their parts. -/
def CallTick.Honest (t : CallTick Out) : Prop :=
  ∀ k out, Label.worker k out ∈ t.upParts → out.Honest

theorem Fast.of_returned {Env α : Type} {f : Parts Env → α} {r : Except TransferErr (Parts Env)}
    {a : α} (h : Fast.of f r = .returned a) : ∃ p, r = .ok p ∧ p.gather = .returned ∧ a = f p := by
  cases r with
  | error e => cases h
  | ok p =>
    unfold Fast.of at h
    dsimp only at h
    cases hg : p.gather with
    | returned =>
      rw [hg] at h
      cases h
      exact ⟨p, rfl, hg, rfl⟩
    | raised e =>
      rw [hg] at h
      cases e <;> cases h
    | _ =>
      rw [hg] at h
      cases h

/-- Big or not, the file that is sent has the bytes of the data. -/
theorem uploadFile_bytes {connected : Bool} {t : CallTick Out} (ht : t.Honest) {data : Bytes}
    {file : InputFile} (h : uploadFile conns connected t data = .returned file) :
    file.bytes = data := by
  unfold uploadFile at h
  split at h
  · rename_i hbig
    split at h
    · cases h
    · obtain ⟨p, hp, hr, rfl⟩ := Fast.of_returned h
      obtain ⟨-, hstored⟩ := uploadBig_returned (Nat.lt_of_succ_lt hbig.1) ht hp hr
      have hparts : (List.range (chunkCount part data.length)).map (fun i => (p.env i).getD []) =
          (List.range (chunkCount part data.length)).map (chunkAt part data) := by
        apply List.map_congr_left
        intro i hi
        rw [hstored i (List.mem_range.mp hi), Option.getD_some]
      unfold InputFile.bytes
      dsimp only
      rw [hparts, flatten_chunks part_pos]
  · cases h

section Kept

variable (docs : Chan → Handle → Option Bytes) (last : Chan → Handle) (bytes : Media → Bytes)

/-- What a coroutine knows where it is. -/
def Knows (chan : Chan) (history : List (BlobEvent Handle Bytes)) : Call → Phase Media → Prop
  | .upload data, .sending _ file => file.bytes = data
  | .download h, .fetching _ media =>
    h ≤ last chan ∧ ∀ d, .stored h d ∈ history → d = bytes media
  | .delete h, _ => .removing h ∈ history
  | _, _ => True

/-- An event that a step from one channel to the other may show. -/
def Allowed (history : List (BlobEvent Handle Bytes)) (chan chan' : Chan) :
    BlobEvent Handle Bytes → Prop
  | .stored h d => last chan < h ∧ h ≤ last chan' ∧ docs chan' h = some d
  | .loaded h d => ∀ d', .stored h d' ∈ history → d' = d
  | .missing h => ∀ d, .stored h d ∈ history → .removing h ∈ history
  | .removing _ => True

/-- The document is in the channel as long as nobody wanted it deleted. -/
def Held (history : List (BlobEvent Handle Bytes)) (chan : Chan) (h : Handle) (d : Bytes) : Prop :=
  docs chan h = some d ∨ (docs chan h = none ∧ .removing h ∈ history)

structure Kept (s : State Chan Media) : Prop where
  fair : BlobEvent.Fair s.history
  old : ∀ h d, .stored h d ∈ s.history → h ≤ last s.chan
  held : ∀ h d, .stored h d ∈ s.history → Held docs s.history s.chan h d
  knows : ∀ job ∈ s.jobs, Knows last bytes s.chan s.history job.call job.phase

/-- What a step within a call does to the channel, and what it shows. -/
structure Moves (history : List (BlobEvent Handle Bytes)) (chan : Chan) (call : Call)
    (next : Next Media) (chan' : Chan) : Prop where
  newer : last chan ≤ last chan'
  kept : ∀ h, h ≤ last chan →
    docs chan' h = docs chan h ∨ (docs chan' h = none ∧ .removing h ∈ history)
  within : ∀ phase, next = .within phase →
    phase.isOver = false ∧ Knows last bytes chan history call phase
  ended : ∀ attempt r, next = .ended attempt r → ∀ e ∈ call.ended r,
    Allowed docs last history chan chan' e

end Kept

section Lawful

variable {docs : Chan → Handle → Option Bytes} {last : Chan → Handle} {bytes : Media → Bytes}
  (hc : c.Lawful docs last bytes)

include hc

theorem downloadFile_eq {connected : Bool} {t : CallTick Out} {media : Media} {chan : Chan}
    {d : Bytes} (h : downloadFile c conns connected t media chan = .returned d) : d = bytes media := by
  unfold downloadFile at h
  cases hsize : c.documentSize media with
  | none =>
    rw [hsize] at h
    cases h
  | some size =>
    rw [hsize] at h
    dsimp only at h
    obtain rfl := hc.size media size hsize
    split at h
    · rename_i hbig
      split at h
      · cases h
      · obtain ⟨p, hp, hr, rfl⟩ := Fast.of_returned h
        exact (downloadDoc_returned (Nat.lt_of_succ_lt hbig.1) (hc.getFile t.out media chan) hp hr).2
    · cases h

omit hc in
theorem Moves.stays {history : List (BlobEvent Handle Bytes)} {chan : Chan} {call : Call}
    {phase : Phase Media} (hover : phase.isOver = false)
    (h : Knows last bytes chan history call phase) :
    Moves docs last bytes history chan call (.within phase) chan where
  newer := Nat.le_refl _
  kept := fun _ _ => .inl rfl
  within := by
    intro phase' he
    cases he
    exact ⟨hover, h⟩
  ended := by
    intro attempt r he
    cases he

omit hc in
theorem Moves.ends {history : List (BlobEvent Handle Bytes)} {chan : Chan} {call : Call}
    (attempt : Nat) {r : Except CallErr Reply}
    (h : ∀ e ∈ call.ended r, Allowed docs last history chan chan e) :
    Moves docs last bytes history chan call (.ended attempt r) chan where
  newer := Nat.le_refl _
  kept := fun _ _ => .inl rfl
  within := by
    intro phase' he
    cases he
  ended := by
    intro attempt' r' he
    cases he
    exact h

theorem goUpload_moves {history : List (BlobEvent Handle Bytes)} {connected : Bool}
    {t : CallTick Out} (ht : t.Honest) {data : Bytes} {phase : Phase Media} {chan : Chan}
    (hover : phase.isOver = false) (hk : Knows last bytes chan history (.upload data) phase) :
    Moves docs last bytes history chan (.upload data)
      (goUpload c conns connected t data phase chan).1
      (goUpload c conns connected t data phase chan).2 := by
  cases phase with
  | trying attempt =>
    unfold goUpload
    dsimp only
    cases hfile : uploadFile conns connected t data with
    | running => exact .stays rfl trivial
    | returned file => exact .stays rfl (uploadFile_bytes ht hfile)
    | failed => exact .stays rfl rfl
    | cancelled =>
      apply Moves.ends
      intro e he
      cases he
  | sending attempt file =>
    unfold goUpload
    dsimp only
    have hbytes : file.bytes = data := hk
    cases connected with
    | false =>
      apply Moves.ends
      intro e he
      cases he
    | true =>
      rw [if_pos rfl]
      rcases hc.sendFile t.out file chan with ⟨hdocs, hlast, hnone⟩ | ⟨hlast, hdocs, hh⟩
      · refine ⟨hlast.ge, fun h _ => .inl (congrFun hdocs h), ?_, ?_⟩
        · intro phase' he
          cases he
        · intro attempt' r he e hm
          cases he
          cases hr : (c.sendFile t.out file chan).1 with
          | ok h => exact absurd hr (hnone h)
          | error err =>
            rw [hr] at hm
            cases hm
      · refine ⟨hlast.le, ?_, ?_, ?_⟩
        · intro h hle
          left
          rw [hdocs, Function.update_of_ne (Nat.ne_of_lt (Nat.lt_of_le_of_lt hle hlast))]
        · intro phase' he
          cases he
        · intro attempt' r he e hm
          cases he
          cases hr : (c.sendFile t.out file chan).1 with
          | ok h =>
            rw [hr] at hm
            obtain rfl := hh h hr
            rw [List.mem_singleton.mp hm]
            refine ⟨hlast, Nat.le_refl _, ?_⟩
            rw [hdocs, Function.update_self, hbytes]
          | error err =>
            rw [hr] at hm
            cases hm
  | fetching attempt media => exact .stays rfl trivial
  | finished r => cases hover

theorem goDownload_moves {history : List (BlobEvent Handle Bytes)} {connected : Bool}
    {t : CallTick Out} {handle : Handle} {phase : Phase Media} {chan : Chan}
    (hheld : ∀ h d, .stored h d ∈ history → Held docs history chan h d)
    (hover : phase.isOver = false) (hk : Knows last bytes chan history (.download handle) phase) :
    Moves docs last bytes history chan (.download handle)
      (goDownload c conns connected t handle phase chan).1
      (goDownload c conns connected t handle phase chan).2 := by
  have habsent : docs chan handle = none → ∀ e ∈ (Call.download handle).ended
      (.error (.missing handle)), Allowed docs last history chan chan e := by
    intro hnone e he
    rw [List.mem_singleton.mp he]
    intro d hd
    rcases hheld handle d hd with hsome | ⟨-, hgone⟩
    · rw [hnone] at hsome
      cases hsome
    · exact hgone
  cases phase with
  | trying attempt =>
    unfold goDownload
    dsimp only
    cases connected with
    | false =>
      apply Moves.ends
      intro e he
      cases he
    | true =>
      rw [if_pos rfl]
      cases hm : c.getMessages t.out handle chan with
      | error err =>
        apply Moves.ends
        intro e he
        cases he
      | ok m =>
        have hnone := hc.absent t.out handle chan m hm
        cases m with
        | none => exact .ends _ (habsent (hnone (by simp)))
        | some media? =>
          cases media? with
          | none => exact .ends _ (habsent (hnone (by simp)))
          | some media =>
            have hdoc := hc.found t.out handle chan media hm
            refine .stays rfl ⟨hc.old _ _ _ hdoc, fun d hd => ?_⟩
            rcases hheld handle d hd with hsome | ⟨hgone, -⟩
            · exact Option.some.inj (hsome.symm.trans hdoc)
            · rw [hdoc] at hgone
              cases hgone
  | sending attempt file => exact .stays rfl trivial
  | fetching attempt media =>
    have hloaded : ∀ d, d = bytes media → ∀ e ∈ (Call.download handle).ended (.ok (.data d)),
        Allowed docs last history chan chan e := by
      rintro d rfl e he
      rw [List.mem_singleton.mp he]
      exact hk.2
    unfold goDownload
    dsimp only
    cases hfile : downloadFile c conns connected t media chan with
    | running => exact .stays rfl hk
    | returned data => exact .ends _ (hloaded data (downloadFile_eq hc hfile))
    | cancelled =>
      apply Moves.ends
      intro e he
      cases he
    | failed =>
      cases connected with
      | false =>
        apply Moves.ends
        intro e he
        cases he
      | true =>
        dsimp only
        rw [if_pos rfl]
        cases hd : c.downloadMedia t.out media chan with
        | error err =>
          apply Moves.ends
          intro e he
          cases he
        | ok data? =>
          cases data? with
          | none =>
            apply Moves.ends
            intro e he
            cases he
          | some data => exact .ends _ (hloaded data (hc.downloadMedia t.out media chan data hd))
  | finished r => cases hover

theorem goDelete_moves {history : List (BlobEvent Handle Bytes)} {connected : Bool}
    {t : CallTick Out} {handle : Handle} {phase : Phase Media} {chan : Chan}
    (hover : phase.isOver = false) (hk : Knows last bytes chan history (.delete handle) phase) :
    Moves docs last bytes history chan (.delete handle)
      (goDelete c connected t handle phase chan).1
      (goDelete c connected t handle phase chan).2 := by
  cases phase with
  | trying attempt =>
    unfold goDelete
    dsimp only
    cases connected with
    | false =>
      apply Moves.ends
      intro e he
      cases he
    | true =>
      rw [if_pos rfl]
      obtain ⟨hlast, hdocs⟩ := hc.deleteMessages t.out handle chan
      refine ⟨hlast.ge, ?_, ?_, ?_⟩
      · intro h _
        rcases hdocs with hdocs | hdocs
        · exact .inl (congrFun hdocs h)
        · rw [hdocs]
          by_cases hh : h = handle
          · subst hh
            exact .inr ⟨Function.update_self _ _ _, hk⟩
          · exact .inl (Function.update_of_ne hh _ _)
      · intro phase' he
        cases he
      · intro attempt' r he e hm
        cases he
        cases hr : (c.deleteMessages t.out handle chan).1 <;> rw [hr] at hm <;> cases hm
  | finished r => cases hover
  | _ => exact .stays rfl hk

variable (conns) in
theorem go_moves {s : State Chan Media} (h : Kept docs last bytes s) {t : CallTick Out}
    (ht : t.Honest) {job : Job Media} (hj : job ∈ s.jobs) (hover : job.phase.isOver = false) :
    Moves docs last bytes s.history s.chan job.call
      (go c conns s.connected t job.call job.phase s.chan).1
      (go c conns s.connected t job.call job.phase s.chan).2 := by
  have hk := h.knows job hj
  revert hk
  cases job.call with
  | upload data => exact goUpload_moves hc ht hover
  | download handle => exact goDownload_moves hc h.held hover
  | delete handle => exact goDelete_moves hc hover

omit hc in
variable (Media) in
theorem afterTry_phase (attempt : Nat) (r : Except CallErr Reply) :
    (afterTry Media attempt r).1 = .finished r ∨
      ∃ attempt', (afterTry Media attempt r).1 = .trying attempt' := by
  unfold afterTry
  split
  · exact .inl rfl
  · exact .inr ⟨_, rfl⟩
  · split
    · split
      · exact .inl rfl
      · exact .inr ⟨_, rfl⟩
    · exact .inl rfl

omit hc in
/-- An event that a step shows. -/
theorem Moves.event {history : List (BlobEvent Handle Bytes)} {chan chan' : Chan} {job : Job Media}
    {next : Next Media} (h : Moves docs last bytes history chan job.call next chan') :
    (job.after next).phase.events job.call = [] ∨
      ∃ e, (job.after next).phase.events job.call = [e] ∧ Allowed docs last history chan chan' e := by
  cases next with
  | within phase =>
    left
    have hover := (h.within phase rfl).1
    change phase.events job.call = []
    cases phase with
    | finished r => cases hover
    | _ => rfl
  | ended attempt r =>
    have hended := h.ended attempt r rfl
    have hone : job.call.ended r = [] ∨ ∃ e, job.call.ended r = [e] := by
      unfold Call.ended
      split
      · exact .inr ⟨_, rfl⟩
      · exact .inr ⟨_, rfl⟩
      · exact .inr ⟨_, rfl⟩
      · exact .inl rfl
    change (afterTry _ attempt r).1.events job.call = [] ∨ ∃ e, (afterTry _ attempt r).1.events job.call = [e] ∧ _
    rcases afterTry_phase Media attempt r with hphase | ⟨attempt', hphase⟩
    · rw [hphase]
      rcases hone with hone | ⟨e, hone⟩
      · exact .inl hone
      · refine .inr ⟨e, hone, hended e ?_⟩
        rw [hone]
        exact List.mem_singleton_self e
    · rw [hphase]
      exact .inl rfl

omit hc in
theorem Knows.mono {history es : List (BlobEvent Handle Bytes)} {chan chan' : Chan} {call : Call}
    {phase : Phase Media} (h : Knows last bytes chan history call phase)
    (hlast : last chan ≤ last chan') (hes : ∀ k d, .stored k d ∈ es → last chan < k) :
    Knows last bytes chan' (history ++ es) call phase := by
  cases call with
  | upload data => cases phase <;> exact h
  | download handle =>
    cases phase with
    | fetching attempt media =>
      refine ⟨h.1.trans hlast, fun d hd => ?_⟩
      rcases List.mem_append.mp hd with hd | hd
      · exact h.2 d hd
      · exact absurd (hes handle d hd) (Nat.not_lt_of_le h.1)
    | _ => trivial
  | delete handle => cases phase <;> exact List.mem_append_left _ h

omit hc in
theorem Knows.afterTry {history : List (BlobEvent Handle Bytes)} {chan : Chan} {call : Call}
    {phase : Phase Media} (h : Knows last bytes chan history call phase) (attempt : Nat)
    (r : Except CallErr Reply) : Knows last bytes chan history call (afterTry _ attempt r).1 := by
  rcases afterTry_phase Media attempt r with hphase | ⟨attempt', hphase⟩
  · rw [hphase]
    cases call with
    | delete handle => cases phase <;> exact h
    | _ => trivial
  · rw [hphase]
    cases call with
    | delete handle => cases phase <;> exact h
    | _ => trivial

omit hc in
theorem Held.mono {history es : List (BlobEvent Handle Bytes)} {chan chan' : Chan} {h : Handle}
    {d : Bytes} (hh : Held docs history chan h d)
    (hdocs : docs chan' h = docs chan h ∨ (docs chan' h = none ∧ .removing h ∈ history)) :
    Held docs (history ++ es) chan' h d := by
  rcases hdocs with hdocs | ⟨hnone, hgone⟩
  · rcases hh with hsome | ⟨hnone, hgone⟩
    · exact .inl (hdocs.trans hsome)
    · exact .inr ⟨hdocs.trans hnone, List.mem_append_left _ hgone⟩
  · exact .inr ⟨hnone, List.mem_append_left _ hgone⟩

omit hc in
theorem Kept.fair_concat {s : State Chan Media} (h : Kept docs last bytes s) {chan' : Chan}
    {e : BlobEvent Handle Bytes} (he : Allowed docs last s.history s.chan chan' e) :
    BlobEvent.Fair (s.history ++ [e]) := by
  cases e with
  | stored k d =>
    refine .stored h.fair fun d' hd' => ?_
    exact absurd (h.old k d' hd') (Nat.not_le_of_lt he.1)
  | loaded k d => exact .loaded h.fair he
  | missing k => exact .missing h.fair he
  | removing k => exact .removing h.fair

omit hc in
/-- A step that moves the channel and shows these events. -/
theorem Kept.extend {s : State Chan Media} (h : Kept docs last bytes s) {chan' : Chan}
    {connected : Bool} {jobs : List (Job Media)} {es : List (BlobEvent Handle Bytes)}
    (hlast : last s.chan ≤ last chan')
    (hdocs : ∀ k, k ≤ last s.chan →
      docs chan' k = docs s.chan k ∨ (docs chan' k = none ∧ .removing k ∈ s.history))
    (hes : es = [] ∨ ∃ e, es = [e] ∧ Allowed docs last s.history s.chan chan' e)
    (hjobs : (∀ k d, .stored k d ∈ es → last s.chan < k) →
      ∀ job ∈ jobs, Knows last bytes chan' (s.history ++ es) job.call job.phase) :
    Kept docs last bytes ⟨chan', connected, jobs, s.history ++ es⟩ := by
  have hnew : ∀ k d, .stored k d ∈ es →
      last s.chan < k ∧ k ≤ last chan' ∧ docs chan' k = some d := by
    intro k d hd
    rcases hes with rfl | ⟨e, rfl, he⟩
    · cases hd
    · rw [← List.mem_singleton.mp hd] at he
      exact he
  refine ⟨?_, ?_, ?_, hjobs fun k d hd => (hnew k d hd).1⟩
  · rcases hes with rfl | ⟨e, rfl, he⟩
    · exact (List.append_nil s.history).symm ▸ h.fair
    · exact h.fair_concat he
  · intro k d hd
    rcases List.mem_append.mp hd with hd | hd
    · exact (h.old k d hd).trans hlast
    · exact (hnew k d hd).2.1
  · intro k d hd
    rcases List.mem_append.mp hd with hd | hd
    · exact (h.held k d hd).mono (hdocs k (h.old k d hd))
    · exact .inl (hnew k d hd).2.2

theorem Kept.step {s : State Chan Media} (h : Kept docs last bytes s) (l : Step Out)
    (hl : ∀ k t, l = .run k t → t.Honest) : Kept docs last bytes (step c conns l s) := by
  cases l with
  | call call =>
    refine h.extend (Nat.le_refl _) (fun k _ => .inl rfl) ?_ fun hes => ?_
    · cases call with
      | delete handle => exact .inr ⟨_, rfl, trivial⟩
      | _ => exact .inl rfl
    · intro job hj
      rcases List.mem_append.mp hj with hj | hj
      · exact (h.knows job hj).mono (Nat.le_refl _) hes
      · rw [List.mem_singleton.mp hj]
        cases call with
        | delete handle => exact List.mem_append_right _ (List.mem_singleton_self _)
        | _ => trivial
  | run k t =>
    unfold Telegram.step
    dsimp only
    cases hk : s.jobs[k]? with
    | none => exact h
    | some job =>
      dsimp only
      have hj := List.mem_of_getElem? hk
      by_cases hover : job.phase.isOver = true
      · rw [if_pos hover]
        exact h
      · rw [if_neg hover]
        have hm := go_moves conns hc h (hl k t rfl) hj (Bool.not_eq_true _ ▸ hover)
        refine h.extend hm.newer hm.kept hm.event fun hes => ?_
        intro job' hj'
        rcases List.mem_or_eq_of_mem_set hj' with hj' | rfl
        · exact (h.knows job' hj').mono hm.newer hes
        · -- the coroutine itself: it is where the step left it, or in its next attempt
          refine Knows.mono ?_ hm.newer hes
          have hknows := h.knows job hj
          generalize (go c conns s.connected t job.call job.phase s.chan).1 = next at hm
          cases next with
          | within phase => exact (hm.within phase rfl).2
          | ended attempt r => exact hknows.afterTry attempt r
  | close => exact ⟨h.fair, h.old, h.held, h.knows⟩

variable (conns) in
theorem run_kept (ls : List (Step Out)) (hls : ∀ k t, .run k t ∈ ls → t.Honest) (chan : Chan) :
    Kept docs last bytes (run c conns ls (.start chan)) := by
  unfold run
  induction ls using List.reverseRecOn with
  | nil => exact ⟨.nil, by simp [State.start], by simp [State.start], by simp [State.start]⟩
  | append_singleton ls l ih =>
    rw [List.foldl_append]
    refine (ih fun k t ht => hls k t (List.mem_append_left _ ht)).step hc l ?_
    rintro k t rfl
    exact hls k t (List.mem_append_right _ (List.mem_singleton_self _))

/-- Whatever the network does, and however calls interleave: no two uploads return the same
handle, a download returns what was uploaded under its handle, it misses nothing that nobody
wanted deleted, and neither does the channel. -/
theorem run_blobs (ls : List (Step Out)) (hls : ∀ k t, .run k t ∈ ls → t.Honest) (chan : Chan) :
    (BlobEvent.keys (run c conns ls (.start chan)).history).Nodup ∧
    (∀ l h d l', (run c conns ls (.start chan)).history = l ++ .loaded h d :: l' →
      ∀ d', .stored h d' ∈ l → d' = d) ∧
    (∀ l h l', (run c conns ls (.start chan)).history = l ++ .missing h :: l' →
      ∀ d, .stored h d ∈ l → .removing h ∈ l) ∧
    (∀ h d, .stored h d ∈ (run c conns ls (.start chan)).history →
      .removing h ∉ (run c conns ls (.start chan)).history →
      docs (run c conns ls (.start chan)).chan h = some d) := by
  have hkept := run_kept conns hc ls hls chan
  refine ⟨hkept.fair.keys_nodup, ?_, ?_, ?_⟩
  · intro l h d l' hl d' hd'
    exact (hl ▸ hkept.fair).loaded_eq hd'
  · intro l h l' hl d hd
    exact (hl ▸ hkept.fair).missing_removing hd
  · intro h d hd hgone
    rcases hkept.held h d hd with hsome | ⟨-, hgone'⟩
    · exact hsome
    · exact absurd hgone' hgone

end Lawful

/-! ## A channel in memory -/

/-- The messages of a channel. -/
structure Channel where
  docs : Handle → Option Bytes
  last : Handle
  old : ∀ h d, docs h = some d → h ≤ last

namespace Channel

def empty : Channel := ⟨fun _ => none, 0, by simp⟩

def post (chan : Channel) (data : Bytes) : Channel where
  docs := Function.update chan.docs (chan.last + 1) (some data)
  last := chan.last + 1
  old := by
    intro h d hd
    by_cases hh : h = chan.last + 1
    · exact hh.le
    · rw [Function.update_of_ne hh] at hd
      exact (chan.old h d hd).trans (Nat.le_succ _)

def delete (chan : Channel) (h : Handle) : Channel where
  docs := Function.update chan.docs h none
  last := chan.last
  old := by
    intro k d hd
    by_cases hk : k = h
    · subst hk
      rw [Function.update_self] at hd
      cases hd
    · rw [Function.update_of_ne hk] at hd
      exact chan.old k d hd

/-- A client whose answers get lost where the network says so. -/
def client : Client Channel Bytes Bool where
  sendFile answered file chan :=
    (if answered then .ok (chan.last + 1) else .error .connection, chan.post file.bytes)
  getMessages _ h chan := .ok ((chan.docs h).map some)
  documentSize media := some media.length
  getFile _ media _ off limit := .file (pread media off limit)
  downloadMedia _ media _ := .ok (some media)
  deleteMessages answered h chan :=
    (if answered then .ok () else .error .connection, chan.delete h)

theorem client_lawful : client.Lawful docs last id where
  old chan := chan.old
  sendFile := by
    intro answered file chan
    right
    refine ⟨Nat.lt_succ_self _, rfl, fun h hh => ?_⟩
    cases answered with
    | true => exact (Except.ok.inj hh).symm
    | false => cases hh
  found := by
    intro answered h chan media hm
    cases hd : chan.docs h with
    | none => simp [client, hd] at hm
    | some d => simpa [client, hd] using hm
  absent := by
    intro answered h chan m hm hne
    cases hd : chan.docs h with
    | none => rfl
    | some d =>
      refine absurd ?_ (hne d)
      simpa [client, hd] using hm.symm
  size := by
    intro media n hn
    exact (Option.some.inj hn).symm
  getFile := fun _ _ _ _ _ => rfl
  downloadMedia := by
    intro answered media chan d hd
    exact (Option.some.inj (Except.ok.inj hd)).symm
  deleteMessages := fun _ _ _ => ⟨rfl, .inr rfl⟩

end Channel

/-- An upload whose first answer is lost, so that its message is there twice; then a download, and
the message is deleted. -/
def lostAnswer : List (Step Bool) :=
  [.call (.upload [1, 2, 3]), .run 0 ⟨true, false, [], []⟩, .run 0 ⟨false, false, [], []⟩,
    .run 0 ⟨true, false, [], []⟩, .run 0 ⟨true, false, [], []⟩,
    .call (.download 2), .run 1 ⟨true, false, [], []⟩, .run 1 ⟨true, false, [], []⟩,
    .call (.delete 2), .run 2 ⟨true, false, [], []⟩]

theorem run_retried_lostAnswer :
    ∃ job ∈ (run Channel.client 4 lostAnswer (.start Channel.empty)).jobs,
      job.tries = [.error (.client .connection), .ok (.handle 2)] ∧
        job.Retried ∧ job.waits.sum ≤ (job.tries.map floodSeconds).sum + 30 :=
  have hmem : ⟨.upload [1, 2, 3], .finished (.ok (.handle 2)),
      [.error (.client .connection), .ok (.handle 2)], [2]⟩ ∈
      (run Channel.client 4 lostAnswer (.start Channel.empty)).jobs := List.mem_cons_self
  ⟨_, hmem, rfl, run_retried Channel.client 4 lostAnswer Channel.empty _ hmem⟩

/-- A call, or a step in which no parts are moved, with an answer that comes or is lost. -/
def plain : Call ⊕ Nat × Bool → Step Bool
  | .inl call => .call call
  | .inr (k, answered) => .run k ⟨answered, false, [], []⟩

theorem plain_honest (script : List (Call ⊕ Nat × Bool)) (k : Nat) (t : CallTick Bool)
    (ht : .run k t ∈ script.map plain) : t.Honest := by
  obtain ⟨s, -, hs⟩ := List.mem_map.mp ht
  cases s with
  | inl call => cases hs
  | inr step =>
    cases hs
    intro j out hout
    cases hout

/-- Two uploads beside each other, the first with a lost answer, and two downloads beside each
other; the second message is deleted, and asked for until the retries are used up. -/
def twoUploads : List (Step Bool) :=
  List.map plain <|
    [.inl (.upload [1, 2, 3]), .inl (.upload [4]), .inr (0, true), .inr (1, true), .inr (0, false),
      .inr (1, true), .inr (0, true), .inr (0, true), .inl (.download 3), .inl (.download 2),
      .inr (3, true), .inr (2, true), .inr (3, true), .inr (2, true), .inl (.delete 2),
      .inr (4, true), .inl (.download 2)] ++ List.replicate 5 (.inr (5, true))

theorem run_blobs_twoUploads :
    (run Channel.client 4 twoUploads (.start Channel.empty)).history =
      [.stored 2 [4], .stored 3 [1, 2, 3], .loaded 2 [4], .loaded 3 [1, 2, 3], .removing 2,
        .missing 2] ∧
    (BlobEvent.keys (run Channel.client 4 twoUploads (.start Channel.empty)).history).Nodup ∧
    (run Channel.client 4 twoUploads (.start Channel.empty)).chan.docs 3 = some [1, 2, 3] := by
  have hhistory : (run Channel.client 4 twoUploads (.start Channel.empty)).history =
      [.stored 2 [4], .stored 3 [1, 2, 3], .loaded 2 [4], .loaded 3 [1, 2, 3], .removing 2,
        .missing 2] := by decide +kernel
  obtain ⟨hnodup, -, -, hheld⟩ :=
    run_blobs Channel.client_lawful twoUploads (plain_honest _) Channel.empty
  refine ⟨hhistory, hnodup, hheld 3 [1, 2, 3] ?_ ?_⟩ <;> rw [hhistory] <;> decide

end Telegram

end Tgfs
