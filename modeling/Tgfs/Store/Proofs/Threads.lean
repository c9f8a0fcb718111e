import Tgfs.Store.Proofs.PutFile

/-!
# `put_file` and `free_file` from several threads

Any number of calls on pairwise different inodes run on one store, and their actions and the
steps of the upload pool interleave in any order. `Accounted` is the exact bookkeeping that
holds when no call is running; it is where a run starts and where it ends. In between, the
rows of an inode that nobody has begun to free never dangle.
-/

namespace Tgfs

/-- A call of `put_file` or `free_file` by one thread. -/
inductive Call (Sha : Type) where
  | putFile (ino : Ino) (size : Nat) (dirty : Option (Finset Nat)) (src : Src Sha)
  | freeFile (ino : Ino)

namespace Call

variable {Sha : Type}

def ino : Call Sha → Ino
  | .putFile ino _ _ _ | .freeFile ino => ino

def src : Call Sha → Src Sha
  | .putFile _ _ _ src => src
  | .freeFile _ => fun _ _ => .ok []

def isFree : Call Sha → Bool
  | .putFile _ _ _ _ => false
  | .freeFile _ => true

def prog [DecidableEq Sha] [Sha256 Sha] (cfg : StoreConfig) :
    Call Sha → StoreProg Sha (Except (PyErr Sha) Unit)
  | .putFile ino size dirty _ => Store.putFile cfg ino size dirty
  | .freeFile ino => Store.freeFile ino

end Call

namespace Store

variable {Sha : Type} [DecidableEq Sha] [Sha256 Sha]

/-- Every blobs row counts something. No step ever leaves a row that does not. -/
def Counting (s : Store Sha) : Prop := ∀ h b, s.index.blobs h = some b → 0 < b.refcount

section Counting

variable {s : Store Sha}

omit [Sha256 Sha] in
theorem counting_putBlob {m : Meta Sha} (hs : ∀ h b, m.blobs h = some b → 0 < b.refcount)
    {sha : Sha} {o : Option Blob} (ho : ∀ b, o = some b → 0 < b.refcount) :
    ∀ h b, (m.putBlob sha o).blobs h = some b → 0 < b.refcount := by
  intro h b hb
  by_cases hh : h = sha
  · rw [hh, Meta.putBlob_self] at hb
    exact ho b hb
  · rw [Meta.putBlob_ne hh] at hb
    exact hs h b hb

omit [Sha256 Sha] in
theorem counting_blobIncref {m : Meta Sha} (hs : ∀ h b, m.blobs h = some b → 0 < b.refcount)
    (sha : Sha) : ∀ h b, (m.blobIncref sha).blobs h = some b → 0 < b.refcount := by
  apply counting_putBlob hs
  intro b hb
  obtain ⟨b₀, -, rfl⟩ := Option.map_eq_some_iff.mp hb
  exact Nat.succ_pos _

omit [Sha256 Sha] in
theorem counting_exec (src : Src Sha) (t : Tick) (a : Act Sha) (s : Store Sha) (hs : Counting s) :
    Counting (exec src t a s).2 := by
  cases a with
  | claimKnown sha =>
    simp only [exec]
    split
    · exact counting_blobIncref hs sha
    · exact hs
  | blobIncref sha => exact counting_blobIncref hs sha
  | blobDecref sha =>
    change ∀ h b, (s.index.blobDecref sha).2.blobs h = some b → 0 < b.refcount
    rcases s.index.blobDecref_cases sha with ⟨-, he⟩ | ⟨b, -, -, he⟩ | ⟨b, -, hlt, he⟩
    · rw [he]
      exact hs
    · rw [he]
      exact counting_putBlob hs (by simp)
    · rw [he]
      apply counting_putBlob hs
      rintro b' ⟨⟩
      exact Nat.sub_pos_of_lt hlt
  | download sha | delete sha => simp only [exec]; split <;> first | exact hs | (split <;> exact hs)
  | result f | cancel f | failed f => simp only [exec]; split <;> exact hs
  | _ => exact hs

omit [Sha256 Sha] in
theorem counting_poolStep (e : FutId × PoolTick) (s : Store Sha) (hs : Counting s) :
    Counting (poolStep e s) := by
  unfold poolStep
  split
  · exact hs
  · split
    case h_3 =>
      split
      · apply counting_putBlob hs
        rintro b ⟨⟩
        exact Nat.one_pos
      · exact counting_blobIncref hs _
    all_goals first | exact hs | (split <;> exact hs)

omit [Sha256 Sha] in
theorem seqRun_counting {α : Type} (src : Src Sha) (ts : Nat → Tick) (p : StoreProg Sha α) (n : Nat)
    (hs : Counting s) : Counting (machine.seqRun src ts p n s).2.2 :=
  Machine.seqRun_stable counting_exec counting_poolStep src ts p n hs

end Counting

/-- The exact bookkeeping of a store on which nothing is running. -/
structure Accounted (s : Store Sha) : Prop where
  /-- A blobs row exists exactly for the hashes that rows name, and counts them. -/
  refcount : ∀ h, s.index.refcount h = s.index.rowCount h
  stored : ∀ h b, s.index.blobs h = some b → Stored s.backend h b
  held : ∀ hd data, s.backend.blobs hd = some data → ∃ h b, s.index.blobs h = some b ∧ b.handle = hd
  fresh : ∀ hd, s.backend.next ≤ hd → s.backend.blobs hd = none
  tasks : ∀ t ∈ s.tasks, t.phase.settled = true ∧ sha256 t.data = t.sha

omit [DecidableEq Sha] [Sha256 Sha] in
theorem Phase.settled_not {p : Phase Sha} (h : p.settled = true) (hd : Handle) :
    p ≠ .uploaded hd ∧ p ≠ .dropCopy hd := by
  constructor <;> rintro rfl <;> cases h

theorem Accounted.inv {s : Store Sha} (h : Accounted s) {mayFail : Prop} {canFree : Ino → Prop} :
    Inv mayFail canFree s 0 where
  counts x := by
    rw [h.refcount, show freeing (0 : Res Sha).owns = 0 from rfl, Meta.liveRows_zero]
    simp
  tasks := by
    refine ⟨fun f t ht => (h.tasks t (List.mem_of_getElem? ht)).2, by simp, fun f t ht hs => ?_,
      by simp, by simp, by simp, by simp⟩
    rw [(h.tasks t (List.mem_of_getElem? ht)).1] at hs
    cases hs
  blobs := by
    have hup : ∀ hd f data, ¬ UploadedBy s.tasks hd f data := by
      rintro hd f data ⟨t, ht, hp, -⟩
      exact (Phase.settled_not (h.tasks t (List.mem_of_getElem? ht)).1 hd).1 hp
    have hdrop : ∀ hd, ¬ Dropping s.tasks hd := by
      rintro hd ⟨f, t, ht, hp⟩
      exact (Phase.settled_not (h.tasks t (List.mem_of_getElem? ht)).1 hd).2 hp
    refine ⟨fun x b hb => (h.stored x b hb).2, fun hd f data hu => absurd hu (hup hd f data), fun hd hw => ?_, h.fresh,
      fun hd data hdata => .inl (h.held hd data hdata)⟩
    obtain hw | hw := hw
    · cases hw
    · exact absurd hw (hdrop hd)
  owns := ⟨by simp, by simp, by simp⟩

theorem Accounted.counting {s : Store Sha} (h : Accounted s) : Counting s :=
  fun x b hb => (h.stored x b hb).1

/-- When nobody owns anything, the books are exact. -/
theorem Inv.accounted {mayFail : Prop} {canFree : Ino → Prop} {s : Store Sha}
    (hi : Inv mayFail canFree s 0) (hc : Counting s) : Accounted s := by
  have hset : ∀ (f : FutId) (t : Task Sha), s.tasks[f]? = some t → t.phase.settled = true := by
    intro f t ht
    by_contra hs
    simpa using hi.tasks.owned f t ht (by simpa using hs)
  refine ⟨fun x => ?_, fun x b hb => ⟨hc x b hb, hi.blobs.stored x b hb⟩, fun hd data hdata => ?_,
    hi.blobs.fresh, fun t ht => ?_⟩
  · have := hi.counts x
    rwa [show freeing (0 : Res Sha).owns = 0 from rfl, Meta.liveRows_zero, Res.zero_refs,
      Res.zero_futs, Res.zero_doomed, Multiset.count_zero, add_zero, add_zero, futRefs_zero,
      add_zero] at this
  · obtain h₁ | ⟨f, data', t, ht, hp, -⟩ | ⟨f, t, ht, hp⟩ | h₄ := hi.blobs.held hd data hdata
    · exact h₁
    · exact absurd hp (Phase.settled_not (hset f t ht) hd).1
    · exact absurd hp (Phase.settled_not (hset f t ht) hd).2
    · cases h₄
  · obtain ⟨f, ht⟩ := List.getElem?_of_mem ht
    exact ⟨hset f t ht, hi.tasks.data_sha f t ht⟩

theorem empty_accounted (now : Time) (uid gid : Nat) :
    Accounted (empty now uid gid : Store Sha) := by
  refine ⟨fun h => ?_, ?_, ?_, fun _ _ => rfl, ?_⟩ <;>
    simp [empty, Meta.fresh, Meta.refcount, Meta.rowCount, Backend.empty]

/-! ## A pool of calls -/

/-- The machine as several calls use it. -/
abbrev callMachine : Machine (Act Sha) Act.Reply (Store Sha) Tick (FutId × PoolTick) (Call Sha) :=
  (machine : Machine _ _ (Store Sha) _ _ _).comap Call.src

abbrev CallPool (Sha : Type) : Type :=
  Machine.Pool (Act Sha) Act.Reply (Store Sha) (Call Sha) (Except (PyErr Sha) Unit)

/-- All calls are about to take their first step. -/
def startCalls (cfg : StoreConfig) (s : Store Sha) (calls : List (Call Sha)) : CallPool Sha :=
  ⟨s, calls.map fun c => ⟨c, c.prog cfg, false⟩⟩

/-- Whether a call of `free_file` on the inode has taken a step. -/
def freeStarted (c : CallPool Sha) (ino : Ino) : Bool :=
  c.threads.any fun th => th.arg.isFree && decide (th.arg.ino = ino) && th.started

def returned (th : Machine.Thread (Act Sha) Act.Reply (Call Sha) (Except (PyErr Sha) Unit)) :
    Bool :=
  match th.prog with
  | .ret _ => true
  | .act _ _ => false

/-- `backend.delete` does not raise in this step. -/
def NoDeleteFails : Machine.Label Tick (FutId × PoolTick) → Prop
  | .main _ t => t.deleteFails = false
  | .env e => e.2.deleteFails = false

/-! ## Every call is safe -/

/-- What a call owns before its first step. -/
def share (s : Store Sha) (c : Call Sha) : Res Sha := { owns := {Inv.own s c.ino} }

/-- It owns no more when it has returned. -/
def CallPost (c : Call Sha) : Except (PyErr Sha) Unit → Res Sha → Prop :=
  Over c.ino fun _ _ => True

theorem safe_call {canFree : Ino → Prop} (cfg : StoreConfig) (s : Store Sha) (c : Call Sha)
    (hcan : c.isFree = true → canFree c.ino) :
    callMachine.Safe (Inv True canFree) (Tick.QuietAct True) c (CallPost c) (c.prog cfg)
      (share s c) := by
  apply Machine.Safe.comap
  have hown : (Inv.own s c.ino).freeing = false := rfl
  have hweaken : ∀ {post : Except (PyErr Sha) Unit → Owned Sha → Prop} r g,
      Over c.ino post r g → CallPost c r g :=
    fun _ _ ⟨ow, _, hrest⟩ => ⟨ow, trivial, hrest⟩
  cases c with
  | putFile ino size dirty src => exact Machine.Safe.mono (safe_putFile hown) hweaken
  | freeFile ino => exact Machine.Safe.mono (safe_freeFile hown (hcan rfl)) hweaken

theorem share_sum_inv {mayFail : Prop} {canFree : Ino → Prop} {s : Store Sha} (hs : Accounted s)
    {calls : List (Call Sha)} (hn : (calls.map Call.ino).Nodup) :
    Inv mayFail canFree s (calls.map (share s)).sum ∧
      (calls.map (share s)).sum.owns.map (·.ino) = (calls.map Call.ino : List Ino) := by
  induction calls with
  | nil => exact ⟨hs.inv, rfl⟩
  | cons c calls ih =>
    obtain ⟨hc, hn'⟩ := List.nodup_cons.mp hn
    obtain ⟨hi, hown⟩ := ih hn'
    rw [List.map_cons, List.sum_cons]
    refine ⟨hi.take ?_, ?_⟩
    · rw [hown]
      exact hc
    · rw [Res.add_owns, Multiset.map_add, hown]
      rfl

/-- The inodes that some call frees. -/
def freed (calls : List (Call Sha)) (ino : Ino) : Prop :=
  ∃ c ∈ calls, c.isFree = true ∧ c.ino = ino

theorem poolSafe_start (cfg : StoreConfig) {s : Store Sha} (hs : Accounted s)
    {calls : List (Call Sha)} (hn : (calls.map Call.ino).Nodup) :
    callMachine.PoolSafe (Inv True (freed calls)) (Tick.QuietAct True) (share s) CallPost
      (startCalls cfg s calls) := by
  refine ⟨calls.map (share s), (share_sum_inv hs hn).1, ?_⟩
  rw [startCalls, List.forall₂_map_left_iff, List.forall₂_map_right_iff, List.forall₂_same]
  exact fun c hc => ⟨safe_call cfg s c fun hf => ⟨c, hc, hf, rfl⟩, fun _ => rfl⟩

theorem poolSafe_run (cfg : StoreConfig) {s : Store Sha} (hs : Accounted s)
    {calls : List (Call Sha)} (hn : (calls.map Call.ino).Nodup)
    {ls : List (Machine.Label Tick (FutId × PoolTick))} (hls : ∀ l ∈ ls, NoDeleteFails l) :
    callMachine.PoolSafe (Inv True (freed calls)) (Tick.QuietAct True) (share s) CallPost
      (callMachine.run ls (startCalls cfg s calls)) := by
  have henv : ∀ (e : FutId × PoolTick) (s : Store Sha) (g : Res Sha), e.2.Quiet True →
      Inv True (freed calls) s g → Inv True (freed calls) (callMachine.env e s) g := env_inv
  refine Machine.PoolSafe.run henv (fun l hl => ?_) (poolSafe_start cfg hs hn)
  have := hls l hl
  cases l with
  | main i t => exact ⟨this, fun _ => trivial⟩
  | env e => exact ⟨this, fun _ => trivial⟩

/-! ## What holds in between and at the end -/

/-- An inode whose rows' references have been taken over belongs to a call that has started. -/
theorem freeStarted_of_freeing {s : Store Sha} {calls : List (Call Sha)} {c : CallPool Sha}
    {gs : List (Res Sha)} (hI : Inv True (freed calls) c.state gs.sum)
    (hargs : c.threads.map (·.arg) = calls)
    (hall : List.Forall₂ (fun th g => callMachine.Safe (Inv True (freed calls))
      (Tick.QuietAct True) th.arg (CallPost th.arg) th.prog g ∧
        (th.started = false → g = share s th.arg)) c.threads gs)
    {ino : Ino} (hino : ino ∈ freeing gs.sum.owns) : freeStarted c ino = true := by
  obtain ⟨ow, how, rfl⟩ := Multiset.mem_map.mp hino
  obtain ⟨how, hfree⟩ := Multiset.mem_filter.mp how
  obtain ⟨call, hcall, hisFree, hcino⟩ := hI.owns.canFree ow how hfree
  rw [← hargs] at hcall
  obtain ⟨th, hth, rfl⟩ := List.mem_map.mp hcall
  refine List.any_eq_true.mpr ⟨th, hth, ?_⟩
  by_contra hns
  have hst : th.started = false := by simpa [hisFree, hcino] using hns
  -- the thread still has its initial share, in which the inode is not being freed
  obtain ⟨g, hg, hgth⟩ : ∃ g ∈ gs, g = share s th.arg := by
    obtain ⟨i, hi, rfl⟩ := List.getElem_of_mem hth
    have hi' : i < gs.length := hall.length_eq ▸ hi
    exact ⟨gs[i], List.getElem_mem hi', (List.Forall₂.get hall hi hi').2 hst⟩
  have hmem : Inv.own s th.arg.ino ∈ gs.sum.owns := by
    obtain ⟨pre, suf, rfl⟩ := List.append_of_mem hg
    rw [List.sum_append, List.sum_cons, hgth]
    simp [share]
  have : ow = Inv.own s th.arg.ino :=
    Multiset.inj_on_of_nodup_map hI.owns.nodup _ how _ hmem hcino.symm
  rw [this] at hfree
  cases hfree

/-- The rows that name a hash, apart from those of inodes that somebody has begun to free. -/
def keptRows (c : CallPool Sha) (h : Sha) : Nat :=
  c.state.index.chunks.countP fun r => r.2.sha = h ∧ freeStarted c r.1 = false

/-- A row of an inode that nobody has begun to free has its blob, in the index and in the
backend, and the blob counts all such rows. -/
def NoDangling (c : CallPool Sha) : Prop :=
  ∀ r ∈ c.state.index.chunks, freeStarted c r.1 = false →
    ∃ b data, c.state.index.blobs r.2.sha = some b ∧
      c.state.backend.blobs b.handle = some data ∧ sha256 data = r.2.sha ∧
        keptRows c r.2.sha ≤ b.refcount

theorem noDangling_of_inv {calls : List (Call Sha)} {c : CallPool Sha} {g : Res Sha}
    (hI : Inv True (freed calls) c.state g)
    (hst : ∀ ino ∈ freeing g.owns, freeStarted c ino = true) : NoDangling c := by
  intro r hr hns
  have hno : ∀ ino, freeStarted c ino = false → ino ∉ freeing g.owns := fun ino h hm => by
    rw [hst ino hm] at h
    cases h
  obtain ⟨b, hb⟩ := hI.blob_of_row (hno r.1 hns) (Meta.mem_getChunks.mpr hr)
  obtain ⟨data, hdata, hsha, -⟩ := hI.blobs.stored _ b hb
  refine ⟨b, data, hb, hdata, hsha, ?_⟩
  have hle : keptRows c r.2.sha ≤ c.state.index.liveRows (freeing g.owns) r.2.sha :=
    List.countP_mono_left fun x _ hx => by
      simp only [decide_eq_true_eq] at hx ⊢
      exact ⟨hx.1, hno x.1 hx.2⟩
  have hc := hI.counts r.2.sha
  rw [Meta.refcount_of_blob hb] at hc
  omega

/-- Calls that have returned hold nothing together. -/
theorem leave_all {canFree : Ino → Prop} {s : Store Sha} {gs : List (Res Sha)}
    (hidle : ∀ g ∈ gs, ∃ ow, ow.freeing = false ∧ Idle ow g) {o : Res Sha}
    (hI : Inv True canFree s (gs.sum + o)) : Inv True canFree s o := by
  induction gs generalizing o with
  | nil => simpa using hI
  | cons g gs ih =>
    obtain ⟨ow, hf, h⟩ := hidle g List.mem_cons_self
    rw [List.sum_cons, add_assoc] at hI
    refine ih (fun g' hg' => hidle g' (List.mem_cons_of_mem _ hg')) (hI.leave h.refs h.futs
      h.doomed h.trash fun ow' ho => ?_)
    rw [h.owns, Multiset.mem_singleton] at ho
    exact ho ▸ hf

/-- From exact books, in every state that calls on different inodes reach together, nothing
dangles; and when all of them have returned, the books are exact again. -/
theorem calls_noDangling (cfg : StoreConfig) {s : Store Sha} (hs : Accounted s)
    {calls : List (Call Sha)} (hn : (calls.map Call.ino).Nodup)
    {ls : List (Machine.Label Tick (FutId × PoolTick))} (hls : ∀ l ∈ ls, NoDeleteFails l) :
    NoDangling (callMachine.run ls (startCalls cfg s calls)) ∧
      ((∀ th ∈ (callMachine.run ls (startCalls cfg s calls)).threads, returned th = true) →
        Accounted (callMachine.run ls (startCalls cfg s calls)).state) := by
  obtain ⟨gs, hI, hall⟩ := poolSafe_run cfg hs hn hls
  have hargs : (callMachine.run ls (startCalls cfg s calls)).threads.map (·.arg) = calls := by
    rw [Machine.args_run, startCalls, List.map_map]
    exact List.map_id calls
  refine ⟨noDangling_of_inv hI fun ino => freeStarted_of_freeing hI hargs hall, fun hret => ?_⟩
  have hleft := (add_zero gs.sum).symm ▸ hI
  have hcount : Counting (callMachine.run ls (startCalls cfg s calls)).state :=
    Machine.run_stable (fun x => counting_exec x.src) counting_poolStep ls hs.counting
  refine (leave_all (fun g hg => ?_) hleft).accounted hcount
  obtain ⟨i, hi, rfl⟩ := List.getElem_of_mem hg
  have hi' := hall.length_eq ▸ hi
  have hsafe := (List.Forall₂.get hall hi' hi).1
  have hr := hret _ (List.getElem_mem hi')
  rw [List.get_eq_getElem] at hsafe
  unfold returned at hr
  split at hr
  case h_2 => cases hr
  case h_1 r hprog =>
    rw [hprog] at hsafe
    obtain ⟨ow, -, -, hf, hidle⟩ := hsafe
    exact ⟨ow, hf, hidle⟩

/-- Two files that were just created. -/
def newFiles : Store Bytes :=
  { (empty 0 0 0 : Store Bytes) with
    index := (Meta.create 0 rootIno [98] 0o100644 .file 0 0 none
      (Meta.create 0 rootIno [97] 0o100644 .file 0 0 none (Meta.fresh 0 0 0)).2).2 }

theorem newFiles_accounted : Accounted newFiles := by
  have h : Accounted (empty 0 0 0 : Store Bytes) := empty_accounted 0 0 0
  exact ⟨h.refcount, h.stored, h.held, h.fresh, h.tasks⟩

/-- Two calls and the first tasks take turns. -/
def turns (rounds : Nat) : List (Machine.Label Tick (FutId × PoolTick)) :=
  (List.replicate rounds
    ([.main 0 {}, .main 1 {}] ++ (List.range 7).map fun f => .env (f, {}))).flatten

theorem turns_quiet (rounds : Nat) : ∀ l ∈ turns rounds, NoDeleteFails l := by
  intro l hl
  obtain ⟨round, hround, hl⟩ := List.mem_flatten.mp hl
  rw [(List.mem_replicate.mp hround).2, List.mem_append] at hl
  rcases hl with hmain | henv
  · simp only [List.mem_cons, List.not_mem_nil, or_false] at hmain
    rcases hmain with rfl | rfl <;> rfl
  · obtain ⟨f, -, rfl⟩ := List.mem_map.mp henv
    rfl

/-- What the calls have done after some rounds. -/
def afterTurns (rounds : Nat) (s : Store Bytes) (calls : List (Call Bytes)) : CallPool Bytes :=
  callMachine.run (turns rounds) (startCalls ⟨2, 1, Nat.two_pos, Nat.one_pos⟩ s calls)

def putBytes (ino : Ino) (data : Bytes) : Call Bytes :=
  .putFile ino data.length none fun pos want => .ok (pread data pos want)

/-- Two files whose first chunks are one blob: two calls have stored them together. -/
def sharers : CallPool Bytes :=
  afterTurns 20 newFiles [putBytes 2 [1, 2, 3], putBytes 3 [1, 2, 4]]

/-- The first file is stored anew while the other one is freed. Nothing dangles halfway, and the
shared blob, counted twice before, is left with the one row that still names it. -/
theorem calls_noDangling_two :
    NoDangling (afterTurns 5 sharers.state [putBytes 2 [1, 2, 9], .freeFile 3]) ∧
      Accounted (afterTurns 20 sharers.state [putBytes 2 [1, 2, 9], .freeFile 3]).state ∧
      sharers.state.index.refcount [1, 2] = 2 ∧
      (afterTurns 20 sharers.state [putBytes 2 [1, 2, 9], .freeFile 3]).state.index.refcount
        [1, 2] = 1 := by
  have hfirst : ([putBytes 2 [1, 2, 3], putBytes 3 [1, 2, 4]].map Call.ino).Nodup := by decide
  have hsharers : Accounted sharers.state :=
    (calls_noDangling ⟨2, 1, Nat.two_pos, Nat.one_pos⟩ newFiles_accounted hfirst
      (turns_quiet 20)).2 (by decide +kernel)
  have hcalls : ([putBytes 2 [1, 2, 9], .freeFile 3].map Call.ino).Nodup := by decide
  have hhalf : NoDangling (afterTurns 5 sharers.state [putBytes 2 [1, 2, 9], .freeFile 3]) :=
    (calls_noDangling _ hsharers hcalls (turns_quiet 5)).1
  have hend : Accounted
      (afterTurns 20 sharers.state [putBytes 2 [1, 2, 9], .freeFile 3]).state := by
    apply (calls_noDangling _ hsharers hcalls (turns_quiet 20)).2
    decide +kernel
  exact ⟨hhalf, hend, by decide +kernel, by decide +kernel⟩

end Store

end Tgfs
