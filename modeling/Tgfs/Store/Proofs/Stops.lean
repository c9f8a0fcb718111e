import Tgfs.Store.Proofs.Actions
import Tgfs.Store.Proofs.Scan
import Tgfs.Store.Proofs.Threads

/-!
# Where a stop may leave a file

The database holds what the last commit made of it. `put_file` commits the rows of its inode
and the size in two separate calls, `set_chunks` and `set_size`; everything else it does leaves
both alone. The proof rule is used with the pair of them as the resource.
-/

namespace Tgfs

namespace Store

variable {Sha : Type} [DecidableEq Sha]

/-! ## Actions that leave the rows and the size alone -/

/-- The action commits neither rows nor a size. -/
def Plain : Act Sha → Prop
  | .setChunks _ _ | .setSize _ _ => False
  | _ => True

theorem exec_plain {src : Src Sha} {t : Tick} {a : Act Sha} {s : Store Sha} (ha : Plain a) :
    (exec src t a s).2.index.chunks = s.index.chunks ∧
      (exec src t a s).2.index.inodes = s.index.inodes := by
  cases a with
  | setChunks ino rows | setSize ino size => exact ha.elim
  | blobDecref sha => exact ⟨s.index.blobDecref_chunks sha, s.index.blobDecref_inodes sha⟩
  | claimKnown sha | download sha | delete sha =>
    simp only [exec]
    split
    · exact ⟨rfl, rfl⟩
    · first | exact ⟨rfl, rfl⟩ | (split <;> exact ⟨rfl, rfl⟩)
  | result f | cancel f | failed f =>
    simp only [exec]
    split <;> exact ⟨rfl, rfl⟩
  | _ => exact ⟨rfl, rfl⟩

theorem poolStep_plain (e : FutId × PoolTick) (s : Store Sha) :
    (poolStep e s).index.chunks = s.index.chunks ∧
      (poolStep e s).index.inodes = s.index.inodes := by
  unfold poolStep
  split
  · exact ⟨rfl, rfl⟩
  · split <;> first | exact ⟨rfl, rfl⟩ | (split <;> exact ⟨rfl, rfl⟩)

theorem seqRun_plain {α : Type} {p : StoreProg Sha α} (hp : p.All Plain) (src : Src Sha)
    (ts : Nat → Tick) (n : Nat) (s : Store Sha) :
    (machine.seqRun src ts p n s).2.2.index.chunks = s.index.chunks ∧
      (machine.seqRun src ts p n s).2.2.index.inodes = s.index.inodes := by
  apply Machine.seqRun_all (P := fun s' : Store Sha => s'.index.chunks = s.index.chunks ∧
    s'.index.inodes = s.index.inodes) _ _ hp n ⟨rfl, rfl⟩
  · intro e s' h
    obtain ⟨hc, hi⟩ := poolStep_plain e s'
    exact ⟨hc.trans h.1, hi.trans h.2⟩
  · intro a ha t s' h
    obtain ⟨hc, hi⟩ := @exec_plain Sha _ src t a s' ha
    exact ⟨hc.trans h.1, hi.trans h.2⟩

/-! ## The rule, with the rows and the size as the resource -/

/-- What the database says about an inode. -/
abbrev Saved (Sha : Type) : Type := List (Chunk Sha) × Option Nat

def saved (s : Store Sha) (ino : Ino) : Saved Sha :=
  (s.index.getChunks ino, (s.index.inodes ino).map (·.size))

omit [DecidableEq Sha] in
theorem saved_congr {s s' : Store Sha} (hc : s'.index.chunks = s.index.chunks)
    (hi : s'.index.inodes = s.index.inodes) (ino : Ino) : s'.saved ino = s.saved ino := by
  unfold saved
  rw [Meta.getChunks_congr hc, hi]

/-! The two commits. -/

theorem saved_setChunks {src : Src Sha} {t : Tick} {ino : Ino} {rows : List (Chunk Sha)}
    (h : IdxSorted rows) (s : Store Sha) :
    (exec src t (.setChunks ino rows) s).2.saved ino = (rows, (s.saved ino).2) :=
  Prod.ext (Meta.getChunks_setChunks_self h) rfl

theorem saved_setSize {src : Src Sha} {t : Tick} {ino : Ino} {size : Nat} (s : Store Sha) :
    (exec src t (.setSize ino size) s).2.saved ino =
      ((s.saved ino).1, (s.saved ino).2.map fun _ => size) := by
  refine Prod.ext rfl ?_
  change ((s.index.setSize t.now ino size).inodes ino).map _ = ((s.index.inodes ino).map _).map _
  rw [Meta.setSize_inodes_self, Option.map_map, Option.map_map]
  rfl

/-- The resource is what is saved, and it is good. -/
def SavedInv (ino : Ino) (good : Saved Sha → Prop) (s : Store Sha) (g : Multiset (Saved Sha)) :
    Prop :=
  g = {s.saved ino} ∧ good (s.saved ino)

variable {ino : Ino} {good : Saved Sha → Prop} {src : Src Sha} {w : Saved Sha}

/-- `StoreSafe` for `SavedInv`. -/
abbrev SavedSafe (ino : Ino) (good : Saved Sha → Prop) (src : Src Sha) {α : Type}
    (post : α → Multiset (Saved Sha) → Prop) (p : StoreProg Sha α) (g : Multiset (Saved Sha)) :
    Prop :=
  machine.Safe (SavedInv ino good) (fun _ => True) src post p g

omit [DecidableEq Sha] in
theorem savedInv_congr {s s' : Store Sha} (hc : s'.index.chunks = s.index.chunks)
    (hi : s'.index.inodes = s.index.inodes) {g : Multiset (Saved Sha)}
    (h : SavedInv ino good s g) : SavedInv ino good s' g := by
  unfold SavedInv
  rw [saved_congr hc hi]
  exact h

theorem saved_plain {α : Type} {p : StoreProg Sha α} (hp : p.All Plain)
    (g : Multiset (Saved Sha)) : SavedSafe ino good src (fun _ g' => g' = g) p g :=
  Machine.Safe.ofAll (fun _ ha _ _ _ hI => savedInv_congr (exec_plain ha).1 (exec_plain ha).2 hI) hp

/-- The reply of a plain action is what the machine makes it. -/
theorem saved_perform {a : Act Sha} (ha : Plain a) (g : Multiset (Saved Sha)) :
    SavedSafe ino good src (fun r g' => g' = g ∧ ∃ t s, r = (exec src t a s).1) (perform a) g :=
  fun s t _ _ _ hI => ⟨g, savedInv_congr (exec_plain ha).1 (exec_plain ha).2 hI, rfl, t, s, rfl⟩

omit [DecidableEq Sha] in
/-- The resource is all there is. -/
theorem savedInv_alone {s : Store Sha} {o : Multiset (Saved Sha)}
    (h : SavedInv ino good s ({w} + o)) : o = 0 ∧ s.saved ino = w := by
  have hcard := congrArg Multiset.card h.1
  simp only [Multiset.card_add, Multiset.card_singleton] at hcard
  have ho : o = 0 := Multiset.card_eq_zero.mp (by omega)
  have hw := h.1
  rw [ho, add_zero] at hw
  exact ⟨ho, (Multiset.singleton_inj.mp hw).symm⟩

/-- A commit takes one good pair to another. -/
theorem saved_commit {a : Act Sha} {w' : Saved Sha}
    (heff : ∀ t s, s.saved ino = w → (exec src t a s).2.saved ino = w') (hgood : good w') :
    SavedSafe ino good src (fun _ g' => g' = {w'}) (perform a) {w} := by
  intro s t o _ _ hI
  obtain ⟨rfl, hw⟩ := savedInv_alone hI
  refine ⟨{w'}, ⟨?_, ?_⟩, rfl⟩
  · rw [add_zero]
    exact congrArg _ (heff t s hw).symm
  · change good ((exec src t a s).2.saved ino)
    rw [heff t s hw]
    exact hgood

/-! ## `put_file` -/

variable [Sha256 Sha] {cfg : StoreConfig} {size : Nat} {dirty : Option (Finset Nat)}
  {old : List (Chunk Sha)} {sz : Option Nat}

/-- What the loop keeps of its local variables. -/
structure LoopRows (cfg : StoreConfig) (size : Nat) (dirty : Option (Finset Nat))
    (old : List (Chunk Sha)) (src : Src Sha) (st : PutState Sha) : Prop where
  idx : st.idx = st.new.length
  pos : st.pos = st.off
  scanned : Scanned cfg size dirty old src st.new st.off

theorem saved_putLoop (st : PutState Sha) (hl : LoopRows cfg size dirty old src st)
    (g : Multiset (Saved Sha)) :
    SavedSafe ino good src (fun p g' => g' = g ∧ (p.2 = none →
      LoopRows cfg size dirty old src p.1 ∧ ScanEnd cfg size src p.1.off))
      (putLoop cfg ino size dirty old st) g := by
  induction hk : size - st.off using Nat.strong_induction_on generalizing st with
  | _ k ih =>
    subst hk
    unfold putLoop
    split
    case isFalse hoff => exact ⟨rfl, fun _ => ⟨hl, .inl (Nat.le_of_not_lt hoff)⟩⟩
    case isTrue hoff =>
      have hwant := want_pos cfg hoff
      split
      case h_1 row hrow =>
        refine Machine.Safe.bind (p := perform (.claimKnown row.sha))
          (saved_perform (a := .claimKnown row.sha) trivial g) ?_
        rintro (known : Bool) g' ⟨rfl, -⟩
        cases known with
        | false => exact ⟨rfl, by simp⟩
        | true =>
          refine ih (size - (st.off + min cfg.chunkSize (size - st.off))) (by omega) _ ⟨?_, rfl, ?_⟩
            rfl
          · simp [hl.idx]
          · rw [hl.idx] at hrow ⊢
            exact hl.scanned.clean hoff hrow
      case h_2 hrow =>
        refine Machine.Safe.bind (p := perform (.read st.pos _))
          (saved_perform (a := .read st.pos _) trivial g) ?_
        rintro (got : Except (PyErr Sha) Bytes) g' ⟨rfl, t, s, hgot⟩
        have hdata : src st.off (min cfg.chunkSize (size - st.off)) = got := hl.pos ▸ hgot.symm
        cases got with
        | error e => exact ⟨rfl, by simp⟩
        | ok data =>
          dsimp only
          split
          case isTrue hnil =>
            subst hnil
            exact ⟨rfl, fun _ => ⟨hl, .inr hdata⟩⟩
          case isFalse hne =>
            have hlen := List.length_pos_iff.mpr hne
            refine Machine.Safe.bind (saved_plain (all_acquire (fun _ => trivial)
              (fun _ => trivial) (fun _ => trivial) _ trivial _) _) ?_
            rintro ⟨refs, e⟩ g'' rfl
            cases e with
            | some x => exact ⟨rfl, by simp⟩
            | none =>
              refine ih (size - (st.off + data.length)) (by omega) _
                ⟨?_, congrArg (· + data.length) hl.pos, ?_⟩ rfl
              · simp [hl.idx]
              · rw [hl.idx] at hrow ⊢
                exact hl.scanned.fresh hoff hrow hdata hne

/-- Through all of `put_file`: the saved pair is the old one, then the new rows with the old size,
then the new rows with the new size. -/
theorem saved_putFile (hold : good (old, sz))
    (hmid : ∀ new off, Scanned cfg size dirty old src new off → ScanEnd cfg size src off →
      good (new, sz) ∧ good (new, sz.map fun _ => off)) :
    SavedSafe ino good src (fun _ _ => True) (putFile cfg ino size dirty) {(old, sz)} := by
  have hget : SavedSafe ino good src (fun rows g => rows = old ∧ g = {(old, sz)})
      (perform (.getChunks ino)) {(old, sz)} := by
    intro s t o _ _ hI
    obtain ⟨rfl, hw⟩ := savedInv_alone hI
    exact ⟨_, hI, congrArg Prod.fst hw, rfl⟩
  refine Machine.Safe.bind hget ?_
  rintro rows g ⟨rfl, rfl⟩
  have hbody : SavedSafe ino good src (fun p g' => g' = {(rows, sz)} ∧ (p.2 = none →
      Scanned cfg size dirty rows src p.1.new p.1.off ∧ ScanEnd cfg size src p.1.off))
      (putBody cfg ino size dirty rows) {(rows, sz)} := by
    refine Machine.Safe.bind (saved_putLoop {} ⟨rfl, rfl, .nil⟩ _) ?_
    rintro ⟨st, e⟩ g ⟨rfl, hst⟩
    cases e with
    | some e => exact ⟨rfl, nofun⟩
    | none =>
      obtain ⟨hl, hend⟩ := hst rfl
      refine Machine.Safe.bind (saved_plain (all_results (fun _ => trivial) _) _) ?_
      rintro e g rfl
      cases e with
      | some e => exact ⟨rfl, nofun⟩
      | none =>
        refine Machine.Safe.bind (saved_plain (all_increfAll (fun _ => trivial) _) _) ?_
        rintro _ g rfl
        exact ⟨rfl, fun _ => ⟨hl.scanned, hend⟩⟩
  refine Machine.Safe.bind hbody ?_
  rintro ⟨st, e⟩ g ⟨rfl, hst⟩
  cases e with
  | some e =>
    refine Machine.Safe.bind (saved_plain (all_rollback (fun _ => trivial)
      (fun _ => trivial) (fun _ => trivial) (fun _ => trivial) (fun _ => trivial) _) _) ?_
    rintro e' g rfl
    cases e' <;> exact trivial
  | none =>
    obtain ⟨hscan, hend⟩ := hst rfl
    obtain ⟨hrows, hsize⟩ := hmid _ _ hscan hend
    have hset : SavedSafe ino good src (fun _ g' => g' = {(st.new, sz)})
        (perform (.setChunks ino st.new)) {(rows, sz)} := by
      refine saved_commit (fun t s hw => ?_) hrows
      rw [saved_setChunks hscan.idxSorted, hw]
    refine Machine.Safe.bind hset ?_
    rintro _ g rfl
    have hsz : SavedSafe ino good src (fun _ g' => g' = {(st.new, sz.map fun _ => st.off)})
        (perform (.setSize ino st.off)) {(st.new, sz)} := by
      refine saved_commit (fun t s hw => ?_) hsize
      rw [saved_setSize, hw]
    refine Machine.Safe.bind hsz ?_
    rintro _ g rfl
    refine Machine.Safe.bind (saved_plain (all_releaseAll (fun _ => trivial)
      (fun _ => trivial) _) _) ?_
    rintro e g rfl
    cases e <;> exact trivial

/-! ## Stopping `put_file` -/

/-- What is saved is what was saved in `s`, or what the call stores if it comes to its end; in
either case the size is the sum of the lengths of the rows. -/
def OldOrNew (cfg : StoreConfig) (dirty : Option (Finset Nat)) (src : Src Sha) (content : Bytes)
    (s : Store Sha) (ino : Ino) (w : Saved Sha) : Prop :=
  w.2 = some (w.1.map (·.len)).sum ∧
    (w = s.saved ino ∨
      (Scanned cfg content.length dirty (s.index.getChunks ino) src w.1 content.length ∧
        w.2 = some content.length))

/-- A call of `put_file` that replaces a content by one of the same length may stop at any
point. -/
theorem putFile_stops (cfg : StoreConfig) {s : Store Sha} {n : Inode}
    (hn : s.index.inodes ino = some n) (hsum : n.size = ((s.index.getChunks ino).map (·.len)).sum)
    {content : Bytes} (hsrc : Src.Serves src content) (dirty : Option (Finset Nat))
    (hlen : content.length = n.size) (ls : List (Machine.Label Tick (FutId × PoolTick))) :
    OldOrNew cfg dirty src content s ino ((callMachine.run ls
      (startCalls cfg s [.putFile ino content.length dirty src])).state.saved ino) := by
  have hsaved : s.saved ino = (s.index.getChunks ino, some n.size) :=
    Prod.ext rfl (by simp [saved, hn])
  have hold : OldOrNew cfg dirty src content s ino (s.index.getChunks ino, some n.size) :=
    ⟨by rw [hsum], .inl hsaved.symm⟩
  have hsafe : SavedSafe ino (OldOrNew cfg dirty src content s ino) src (fun _ _ => True)
      (putFile cfg ino content.length dirty) {(s.index.getChunks ino, some n.size)} := by
    apply saved_putFile hold
    intro new off hscan hend
    obtain rfl := hscan.off_eq hsrc hend
    have hnew : OldOrNew cfg dirty src content s ino (new, some content.length) :=
      ⟨by rw [hscan.sum_len], .inr ⟨hscan, rfl⟩⟩
    rw [← hlen]
    exact ⟨hnew, hnew⟩
  · have hstart : callMachine.PoolSafe (SavedInv ino (OldOrNew cfg dirty src content s ino))
        (fun _ => True) (fun _ => {s.saved ino}) (fun _ _ _ => True)
        (startCalls cfg s [.putFile ino content.length dirty src]) := by
      refine ⟨[{s.saved ino}], ⟨by simp [startCalls], hsaved ▸ hold⟩, ?_⟩
      refine List.Forall₂.cons ⟨?_, fun _ => rfl⟩ .nil
      rw [hsaved]
      exact Machine.Safe.comap hsafe
    have henv : ∀ (e : FutId × PoolTick) (s' : Store Sha) g, True →
        SavedInv ino (OldOrNew cfg dirty src content s ino) s' g →
        SavedInv ino (OldOrNew cfg dirty src content s ino) (callMachine.env e s') g :=
      fun e s' _ _ h => savedInv_congr (poolStep_plain e s').1 (poolStep_plain e s').2 h
    obtain ⟨gs, hI, -⟩ := Machine.PoolSafe.run henv
      (fun l _ => by cases l <;> exact trivial) hstart
    exact hI.2

/-- A file that was just created. -/
def newFile : Store Bytes :=
  { (empty 0 0 0 : Store Bytes) with
    index := (Meta.create 0 rootIno [97] 0o100644 .file 0 0 none (Meta.fresh 0 0 0)).2 }

/-- The file with one byte in it. -/
def oneByteFile (byte : UInt8) : Store Bytes :=
  (machine.seqRun (fun pos want => .ok (pread [byte] pos want)) (fun _ => {})
    (putFile ⟨4, 1, by decide, Nat.one_pos⟩ 2 1 none) 0 newFile).2.2

/-- A stop before the commits, one between them and one behind them. -/
theorem putFile_stops_replace :
    let stop (rounds : Nat) : Saved Bytes :=
      (afterTurns rounds (oneByteFile 7) [putBytes 2 [8]]).state.saved 2
    let Ok : Saved Bytes → Prop := OldOrNew ⟨2, 1, Nat.two_pos, Nat.one_pos⟩ none
      (fun pos want => .ok (pread [8] pos want)) [8] (oneByteFile 7) 2
    (Ok (stop 7) ∧ stop 7 = ([⟨0, 0, 1, [7]⟩], some 1)) ∧
      (Ok (stop 8) ∧ stop 8 = ([⟨0, 0, 1, [8]⟩], some 1)) ∧
      (Ok (stop 12) ∧ stop 12 = ([⟨0, 0, 1, [8]⟩], some 1)) := by
  intro stop Ok
  have hn : (oneByteFile 7).index.inodes 2 = some ⟨2, .file, 0o100644, 0, 0, 1, 0, 0, 0, 1, none⟩ := by
    decide +kernel
  have hsum : 1 = (((oneByteFile 7).index.getChunks 2).map (·.len)).sum := by decide +kernel
  have hstop : ∀ rounds, Ok (stop rounds) := fun rounds =>
    putFile_stops _ hn hsum (serves_pread [8]) none rfl (turns rounds)
  exact ⟨⟨hstop 7, by decide +kernel⟩, ⟨hstop 8, by decide +kernel⟩, hstop 12, by decide +kernel⟩

/-- A stop between the two commits leaves the new rows with the old size. -/
theorem putFile_stops_mixed :
    newFile.saved 2 = ([], some 0) ∧
      (callMachine.run [.main 0 {}, .main 0 {}, .main 0 {}, .main 0 {}, .env (0, {}), .env (0, {}),
        .env (0, {}), .main 0 {}, .main 0 {}] (startCalls ⟨4, 1, by decide, by decide⟩ newFile
          [.putFile 2 1 none fun pos want => .ok (pread [7] pos want)])).state.saved 2 =
        ([⟨0, 0, 1, [7]⟩], some 0) ∧
      ¬ OldOrNew ⟨4, 1, by decide, by decide⟩ none (fun pos want => .ok (pread [7] pos want)) [7]
        newFile 2 ([⟨0, 0, 1, [7]⟩], some 0) := by
  refine ⟨by decide +kernel, by decide +kernel, fun h => ?_⟩
  exact absurd h.1 (by decide)

end Store

end Tgfs
