import Tgfs.Transfer.Proofs.Parts

/-!
# What `upload_big` and `download_doc` move

`do_part` of the upload stores the chunk of the data at its index, that of the download writes the
chunk it received into the buffer; both are a `PartSpec`.
-/

namespace Tgfs

namespace FastTransfer

theorem part_pos : 0 < part := Nat.mul_pos (Nat.succ_pos _) (Nat.succ_pos _)

/-- An upload request that is answered has stored its part. -/
def UploadOut.Honest (out : UploadOut) : Prop :=
  ∀ r, out.sent = .reply r → r = true ∧ out.stored = true

/-- The parts that are stored are those of `data`. -/
def Holding (data : Bytes) (server : Nat → Option Bytes) : Prop :=
  ∀ i, server i = none ∨
    (i < chunkCount part data.length ∧ server i = some (chunkAt part data i))

theorem uploadPart_spec (data : Bytes) :
    PartSpec (uploadPart data) UploadOut.Honest (chunkCount part data.length) (Holding data)
      (fun i server => server i = some (chunkAt part data i)) where
  good := by
    intro i out server hi _ hgood j
    simp only [uploadPart]
    split
    · by_cases hji : j = i
      · subst hji
        right
        rw [Function.update_self]
        exact ⟨hi, rfl⟩
      · rw [Function.update_of_ne hji]
        exact hgood j
    · exact hgood j
  kept := by
    intro i j out server _ _ _ hdone
    simp only [uploadPart]
    split
    · by_cases hji : j = i
      · subst hji
        rw [Function.update_self]
        rfl
      · rw [Function.update_of_ne hji]
        exact hdone
    · exact hdone
  returns := by
    intro i out server _ hout _ hr
    have hsent : out.sent = .reply true := by
      cases hs : out.sent with
      | reply r =>
        rw [(hout r hs).1]
      | floodWait => simp [uploadPart, hs] at hr
      | lost => simp [uploadPart, hs] at hr
    simp only [uploadPart, (hout true hsent).2, if_true, Function.update_self]
    rfl

/-- A server that answers with the bytes of `doc`. -/
def Answers (doc : Bytes) (serve : Nat → Nat → FileReply) : Prop :=
  ∀ off limit, serve off limit = .file (pread doc off limit)

/-- The buffer has the size of `doc`. -/
def Sized (doc out : Bytes) : Prop := out.length = doc.length

theorem sized_replicate {doc : Bytes} : Sized doc (List.replicate doc.length 0) :=
  List.length_replicate

theorem downloadPart_reply {doc : Bytes} {serve : Nat → Nat → FileReply} (hserve : Answers doc serve)
    (i : Nat) (out : Bytes) :
    downloadPart serve doc.length i (.reply ()) out =
      (.reply none, pwrite out (i * part) (chunkAt part doc i)) := by
  have hchunk : serve (i * part) part = .file (chunkAt part doc i) := hserve _ _
  have hlen : (chunkAt part doc i).length = min part (doc.length - i * part) := length_chunkAt
  simp only [downloadPart, hchunk, hlen, ne_eq, not_true_eq_false, if_false]

theorem downloadPart_spec {doc : Bytes} {serve : Nat → Nat → FileReply} (hserve : Answers doc serve) :
    PartSpec (downloadPart serve doc.length) (fun _ => True) (chunkCount part doc.length)
      (Sized doc) (fun i out => chunkAt part out i = chunkAt part doc i) := by
  have hlen : ∀ i, (chunkAt part doc i).length = min part (doc.length - i * part) :=
    fun _ => length_chunkAt
  refine ⟨?_, ?_, ?_⟩
  · intro i sent out hi _ hgood
    have hlt := (lt_chunkCount part_pos).mp hi
    cases sent with
    | reply r =>
      rw [downloadPart_reply hserve]
      exact (length_pwrite_chunk part_pos hgood hlt).trans hgood
    | floodWait => exact hgood
    | lost => exact hgood
  · intro i j sent out hi _ hgood hdone
    have hlt := (lt_chunkCount part_pos).mp hi
    cases sent with
    | reply r =>
      rw [downloadPart_reply hserve]
      by_cases hji : j = i
      · subst hji
        exact chunkAt_pwrite_self part_pos hgood hlt
      · rw [chunkAt_pwrite (chunkAt_ne_nil part_pos hlt), hdone]
        · rw [hlen, show out.length = doc.length from hgood]
          omega
        · -- another part lies before or behind
          rw [hlen]
          rcases Nat.lt_or_gt_of_ne hji with hlo | hhi
          · left
            have := Nat.mul_le_mul_right part (Nat.succ_le_of_lt hlo)
            rw [Nat.succ_mul] at this
            exact this
          · right
            have := Nat.mul_le_mul_right part (Nat.succ_le_of_lt hhi)
            rw [Nat.succ_mul] at this
            omega
    | floodWait => exact hdone
    | lost => exact hdone
  · intro i sent out hi _ hgood hr
    have hlt := (lt_chunkCount part_pos).mp hi
    cases sent with
    | reply r =>
      rw [downloadPart_reply hserve]
      exact chunkAt_pwrite_self part_pos hgood hlt
    | floodWait => simp [downloadPart] at hr
    | lost => simp [downloadPart] at hr

variable {Out Env : Type}

section Ends

variable {Good : Env → Prop} {Done : Nat → Env → Prop} {p : Parts Env}

/-- When `_run_parts` returns, each index was handed out once and is finished. -/
theorem Held.returned_all (h : Held Good Done p) (hws : p.workers ≠ [])
    (hr : p.gather = .returned) :
    p.handed.map Prod.snd = List.range p.count ∧ ∀ i, i < p.count → i ∈ p.finished := by
  have hdone := h.returned hr
  obtain ⟨w, hm⟩ := List.exists_mem_of_ne_nil _ hws
  obtain ⟨k, hk⟩ := List.getElem?_of_mem hm
  rw [hdone w hm] at hk
  have hcount := h.done hk
  refine ⟨hcount ▸ h.handed, ?_⟩
  intro i hi
  have hint : Intact p.workers := by
    intro u hu
    rw [hdone u hu]
    simp
  rcases h.held hint i (hcount ▸ hi) with hf | ⟨j, attempt, hj⟩
  · exact hf
  · have := hdone _ (List.mem_of_getElem? hj)
    cases this

theorem Gather.raised_of_over {g : Gather} (hover : g.over) (hne : g ≠ .returned) :
    ∃ e, g = .raised e := by
  cases g with
  | waiting => cases hover
  | cancelling e => cases hover
  | returned => exact absurd rfl hne
  | raised e => exact ⟨e, rfl⟩

theorem step_workers_length (doPart : DoPart Out Env) (l : Label Out) (p : Parts Env) :
    (step doPart l p).workers.length = p.workers.length := by
  cases l <;> simp only [step] <;> repeat' split
  all_goals simp

theorem run_workers_length (doPart : DoPart Out Env) (ls : List (Label Out)) (p : Parts Env) :
    (run doPart ls p).workers.length = p.workers.length := by
  induction ls generalizing p with
  | nil => rfl
  | cons l ls ih => exact (ih _).trans (step_workers_length doPart l p)

theorem run_count (doPart : DoPart Out Env) (ls : List (Label Out)) (p : Parts Env) :
    (run doPart ls p).count = p.count := by
  induction ls generalizing p with
  | nil => rfl
  | cons l ls ih => exact (ih _).trans (step_count l p)

end Ends

theorem upload_held (senders : Nat) (data : Bytes) {ls : List (Label UploadOut)}
    (hls : ∀ k out, .worker k out ∈ ls → out.Honest) :
    Held (Holding data) (fun i server => server i = some (chunkAt part data i))
      (run (uploadPart data) ls (start senders (chunkCount part data.length) fun _ => none)) :=
  held_run (uploadPart_spec data) (held_start fun _ => Or.inl rfl) hls

theorem download_held (senders : Nat) {doc : Bytes} {serve : Nat → Nat → FileReply}
    (hserve : Answers doc serve) {ls : List (Label (Sent Unit))} :
    Held (Sized doc) (fun i out => chunkAt part out i = chunkAt part doc i)
      (run (downloadPart serve doc.length) ls
        (start senders (chunkCount part doc.length) (List.replicate doc.length 0))) :=
  held_run (downloadPart_spec hserve) (held_start sized_replicate) fun _ _ _ => trivial

theorem run_start_workers {doPart : DoPart Out Env} {ls : List (Label Out)} {senders count : Nat}
    {env : Env} (hs : 0 < senders) : (run doPart ls (start senders count env)).workers ≠ [] := by
  apply List.ne_nil_of_length_pos
  rw [run_workers_length]
  simpa [start] using hs

/-- What the server has when `upload_big` returns. -/
theorem uploadBig_returned {senders : Nat} (hs : 0 < senders) {data : Bytes}
    {ls : List (Label UploadOut)} {p : Parts (Nat → Option Bytes)}
    (hls : ∀ k out, .worker k out ∈ ls → out.Honest) (hp : uploadBig senders data ls = .ok p)
    (hr : p.gather = .returned) :
    p.handed.map Prod.snd = List.range (chunkCount part data.length) ∧
      ∀ i, i < chunkCount part data.length → p.env i = some (chunkAt part data i) := by
  simp only [uploadBig] at hp
  split at hp
  · cases hp
  · cases hp
    have hheld := upload_held senders data hls
    obtain ⟨hhanded, hfin⟩ := hheld.returned_all (run_start_workers hs) hr
    rw [run_count] at hhanded hfin
    exact ⟨hhanded, fun i hi => hheld.finished i (hfin i hi)⟩

/-- What the buffer has when `download_doc` returns. -/
theorem downloadDoc_returned {senders : Nat} (hs : 0 < senders) {doc : Bytes} {sameDc : Bool}
    {serve : Nat → Nat → FileReply} (hserve : Answers doc serve) {ls : List (Label (Sent Unit))}
    {p : Parts Bytes} (hp : downloadDoc senders sameDc serve doc.length ls = .ok p)
    (hr : p.gather = .returned) :
    (∀ i, i < chunkCount part doc.length → i ∈ p.finished) ∧ p.env = doc := by
  simp only [downloadDoc] at hp
  split at hp
  · cases hp
  · split at hp
    · next hempty =>
      cases hp
      have hnil := List.length_eq_zero_iff.mp hempty
      subst hnil
      refine ⟨?_, rfl⟩
      intro i hi
      exact absurd ((lt_chunkCount part_pos).mp hi) (Nat.not_lt_zero _)
    · cases hp
      have hheld : Held _ _ (run (downloadPart serve doc.length) ls _) :=
        download_held senders hserve
      obtain ⟨_, hfin⟩ := hheld.returned_all (run_start_workers hs) hr
      rw [run_count] at hfin
      refine ⟨hfin, ?_⟩
      exact eq_of_chunks part_pos hheld.good fun i hi => hheld.finished i (hfin i hi)

end FastTransfer

open FastTransfer in
/-- Big files go over several connections and back, whatever the schedule. -/
theorem parts_roundtrip {senders : Nat} (hs : 0 < senders) (data : Bytes) :
    (∀ ls p, (∀ k out, Label.worker k out ∈ ls → out.Honest) →
      uploadBig senders data ls = .ok p →
      (p.gather = .returned →
        p.handed.map Prod.snd = List.range (chunkCount part data.length) ∧
        (∀ i, i + 1 < chunkCount part data.length → (p.env i).map List.length = some part) ∧
        ((List.range (chunkCount part data.length)).map fun i => (p.env i).getD []).flatten
          = data) ∧
      (p.gather.over → (∃ i, i < chunkCount part data.length ∧ p.env i = none) →
        ∃ e, p.gather = .raised e)) ∧
    (∀ sched, (∀ n k out, sched n = Label.worker k out → out.Honest) →
      chunkCount part data.length ≤ maxParts →
      Pursued (uploadPart data) sched
        (start senders (chunkCount part data.length) fun _ => none) →
      ∃ n p, uploadBig senders data (upTo sched n) = .ok p ∧ p.gather.over) ∧
    (∀ serve, Answers data serve → ∀ sameDc ls p,
      downloadDoc senders sameDc serve data.length ls = .ok p →
      (p.gather = .returned → p.env = data) ∧
      (p.gather.over → (∃ i, i < chunkCount part data.length ∧ i ∉ p.finished) →
        ∃ e, p.gather = .raised e)) ∧
    (∀ serve, Answers data serve → ∀ sched,
      Pursued (downloadPart serve data.length) sched
        (start senders (chunkCount part data.length) (List.replicate data.length 0)) →
      ∃ n p, downloadDoc senders true serve data.length (upTo sched n) = .ok p ∧
        p.gather.over) := by
  refine ⟨?_, ?_, ?_, ?_⟩
  · intro ls p hls hp
    constructor
    · intro hr
      obtain ⟨hhanded, hstored⟩ := uploadBig_returned hs hls hp hr
      refine ⟨hhanded, ?_, ?_⟩
      · intro i hi
        rw [hstored i (Nat.lt_of_succ_lt hi), Option.map_some, length_chunkAt_of_next part_pos hi]
      · have hparts : (List.range (chunkCount part data.length)).map (fun i => (p.env i).getD []) =
            (List.range (chunkCount part data.length)).map (chunkAt part data) := by
          apply List.map_congr_left
          intro i hi
          rw [hstored i (List.mem_range.mp hi), Option.getD_some]
        rw [hparts, flatten_chunks part_pos]
    · rintro hover ⟨i, hi, hnone⟩
      apply Gather.raised_of_over hover
      intro hr
      rw [(uploadBig_returned hs hls hp hr).2 i hi] at hnone
      cases hnone
  · intro sched hout hfit hgo
    obtain ⟨n, hover⟩ := run_ends (uploadPart_spec data) (held_start fun _ => Or.inl rfl) hout hgo
    refine ⟨n, _, ?_, hover⟩
    simp only [uploadBig]
    rw [if_neg (Nat.not_lt_of_le hfit)]
  · intro serve hserve sameDc ls p hp
    constructor
    · intro hr
      exact (downloadDoc_returned hs hserve hp hr).2
    · rintro hover ⟨i, hi, hmiss⟩
      apply Gather.raised_of_over hover
      intro hr
      exact hmiss ((downloadDoc_returned hs hserve hp hr).1 i hi)
  · intro serve hserve sched hgo
    by_cases hempty : data.length = 0
    · refine ⟨0, { start senders 0 [] with gather := .returned }, ?_, rfl⟩
      simp [downloadDoc, hempty]
    · obtain ⟨n, hover⟩ := run_ends (downloadPart_spec hserve) (held_start sized_replicate)
        (fun _ _ _ _ => trivial) hgo
      refine ⟨n, _, ?_, hover⟩
      simp [downloadDoc, hempty]

namespace FastTransfer

/-- Two workers upload a part each. The answer for the second part is lost after the server had it,
and the first part has to wait. -/
def upTwo : List (Label UploadOut) :=
  [.worker 0 ⟨false, .lost⟩, .worker 1 ⟨false, .lost⟩, .worker 1 ⟨true, .lost⟩,
    .worker 0 ⟨false, .floodWait⟩, .worker 1 ⟨true, .reply true⟩, .worker 0 ⟨true, .reply true⟩,
    .worker 1 ⟨false, .lost⟩, .worker 0 ⟨false, .lost⟩, .finish]

/-- They download them, the second part first. -/
def downTwo : List (Label (Sent Unit)) :=
  [.worker 0 .lost, .worker 1 .lost, .worker 0 .lost, .worker 1 (.reply ()), .worker 1 .lost,
    .worker 0 (.reply ()), .worker 0 .lost, .finish]

/-- A byte more than one part. -/
def twoParts : Bytes := List.replicate (part + 1) 7

theorem chunkCount_twoParts : chunkCount part twoParts.length = 2 := by
  rw [twoParts, List.length_replicate]
  decide +kernel

theorem upTwo_honest : ∀ k out, Label.worker k out ∈ upTwo → out.Honest := by
  intro k out hm r hr
  simp only [upTwo, List.mem_cons, Label.worker.injEq, List.not_mem_nil, or_false,
    reduceCtorEq] at hm
  rcases hm with ⟨-, rfl⟩ | ⟨-, rfl⟩ | ⟨-, rfl⟩ | ⟨-, rfl⟩ | ⟨-, rfl⟩ | ⟨-, rfl⟩ | ⟨-, rfl⟩ | ⟨-, rfl⟩
    <;> cases hr
  all_goals exact ⟨rfl, rfl⟩

/-- Whatever the bytes of the two parts are, the workers come to the end of them. -/
theorem downTwo_returned {doc : Bytes} {serve : Nat → Nat → FileReply} (hserve : Answers doc serve)
    (out : Bytes) : (run (downloadPart serve doc.length) downTwo (start 2 2 out)).gather =
      .returned := by
  have hlost : ∀ i out, downloadPart serve doc.length i .lost out = (.lost, out) := fun _ _ => rfl
  simp [downTwo, run, start, step, downloadPart_reply hserve, hlost, afterSend, partRetries]

end FastTransfer

open FastTransfer in
theorem parts_roundtrip_two :
    (∃ p, uploadBig 2 twoParts upTwo = .ok p ∧ p.gather = .returned ∧
      ((List.range 2).map fun i => (p.env i).getD []).flatten = twoParts) ∧
    ∃ p, downloadDoc 2 true (fun off limit => .file (pread twoParts off limit)) twoParts.length
        downTwo = .ok p ∧ p.gather = .returned ∧ p.env = twoParts := by
  have hboth := parts_roundtrip Nat.zero_lt_two twoParts
  have hserve : Answers twoParts fun off limit => .file (pread twoParts off limit) := fun _ _ => rfl
  constructor
  · have hup : ∃ p, uploadBig 2 twoParts upTwo = .ok p ∧ p.gather = .returned := by
      simp only [uploadBig, chunkCount_twoParts]
      exact ⟨_, rfl, rfl⟩
    obtain ⟨p, hp, hr⟩ := hup
    have hstored := ((hboth.1 upTwo p upTwo_honest hp).1 hr).2.2
    rw [chunkCount_twoParts] at hstored
    exact ⟨p, hp, hr, hstored⟩
  · have hdown : ∃ p, downloadDoc 2 true (fun off limit => .file (pread twoParts off limit))
        twoParts.length downTwo = .ok p ∧ p.gather = .returned := by
      have hlen : twoParts.length ≠ 0 := by
        rw [twoParts, List.length_replicate]
        exact Nat.succ_ne_zero _
      simp only [downloadDoc, chunkCount_twoParts, Bool.not_true, Bool.false_eq_true, if_false,
        if_neg hlen]
      exact ⟨_, rfl, downTwo_returned hserve _⟩
    obtain ⟨p, hp, hr⟩ := hdown
    exact ⟨p, hp, hr, (hboth.2.2.1 _ hserve true downTwo p hp).1 hr⟩

end Tgfs
