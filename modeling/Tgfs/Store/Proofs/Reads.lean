import Tgfs.Store.Proofs.Actions
import Tgfs.Store.Proofs.Scan
import Tgfs.Store.Proofs.Stops

/-!
# Which chunks `put_file` reads

Over a source that returns all that is asked for, the loop is at the start of a chunk whenever it
goes on. It reads that chunk, and submits nothing but what it has read, only where it takes no
stored row for clean.
-/

namespace Tgfs

namespace Store

variable {Sha : Type} [DecidableEq Sha]

/-- The loop comes to chunk `i` and takes no stored row for it. -/
def Fresh (cs : Nat) (dirty : Option (Finset Nat)) (old : List (Chunk Sha)) (content : Bytes)
    (i : Nat) : Prop :=
  i * cs < content.length ∧
    cleanRow dirty old i (i * cs) (min cs (content.length - i * cs)) = none

variable [Sha256 Sha]

/-- Only fresh chunks are read, and only they are submitted. -/
def FreshOnly (cs : Nat) (dirty : Option (Finset Nat)) (old : List (Chunk Sha)) (content : Bytes) :
    Act Sha → Prop
  | .read pos want =>
    ∃ i, Fresh cs dirty old content i ∧ pos = i * cs ∧ want = min cs (content.length - i * cs)
  | .submit sha data =>
    ∃ i, Fresh cs dirty old content i ∧ sha = sha256 data ∧ data = chunkAt cs content i
  | _ => True

/-- The loop is at the start of its next chunk, unless it is at the end. -/
structure AtChunk (cs : Nat) (content : Bytes) (st : PutState Sha) : Prop where
  pos : st.pos = st.off
  off : st.off < content.length → st.off = st.idx * cs

variable {cfg : StoreConfig} {ino : Ino} {dirty : Option (Finset Nat)} {old : List (Chunk Sha)}
  {content : Bytes} {ts : Nat → Tick}

omit [DecidableEq Sha] [Sha256 Sha] in
theorem AtChunk.next {cs : Nat} {st : PutState Sha} (h : AtChunk cs content st)
    (hoff : st.off < content.length) {new : List (Chunk Sha)} {refs : Refs Sha} :
    AtChunk cs content
      { idx := st.idx + 1, off := st.off + min cs (content.length - st.off)
        pos := st.pos + min cs (content.length - st.off), new := new, refs := refs } := by
  refine ⟨by rw [h.pos], fun hlt => ?_⟩
  have := h.off hoff
  simp only at hlt ⊢
  rw [Nat.succ_mul]
  omega

theorem acts_putLoop {st : PutState Sha} (hst : AtChunk cfg.chunkSize content st) {n : Nat}
    {s : Store Sha} :
    ∀ a ∈ machine.acts (Src.whole content) ts (putLoop cfg ino content.length dirty old st) n s,
      FreshOnly cfg.chunkSize dirty old content a := by
  induction hk : content.length - st.off using Nat.strong_induction_on generalizing st n s with
  | _ k ih =>
    subst hk
    have hcs := cfg.chunkSize_pos
    unfold putLoop
    split
    case isFalse => simp [Machine.acts]
    case isTrue hoff =>
      have hidx := hst.off hoff
      split
      case h_1 row hrow =>
        rintro a (_ | ⟨_, ha⟩)
        · trivial
        simp only at ha
        split at ha
        · have hnext := @AtChunk.next _ _ _ _ hst hoff
            (st.new ++ [⟨st.idx, st.off, min cfg.chunkSize (content.length - st.off), row.sha⟩])
            { st.refs with acquired := st.refs.acquired ++ [row.sha] }
          rw [hst.pos] at hnext
          exact ih _ (by simp only; omega) hnext rfl a ha
        · cases ha
      case h_2 hrow =>
        have hfresh : Fresh cfg.chunkSize dirty old content st.idx :=
          ⟨hidx ▸ hoff, by rw [← hidx]; exact hrow⟩
        have hdata : pread content st.pos (min cfg.chunkSize (content.length - st.off)) =
            chunkAt cfg.chunkSize content st.idx := by
          rw [hst.pos, hidx]
          exact pread_chunk
        rintro a (_ | ⟨_, ha⟩)
        · exact ⟨st.idx, hfresh, hst.pos.trans hidx, by rw [hidx]⟩
        change a ∈ machine.acts (Src.whole content) ts
          (if _ : pread content st.pos (min cfg.chunkSize (content.length - st.off)) = [] then _
            else _) _ _ at ha
        split at ha
        case isTrue => cases ha
        case isFalse hne =>
          rw [Machine.acts_bind] at ha
          rcases List.mem_append.mp ha with ha | ha
          · refine Machine.acts_of_all machine (all_acquire (fun _ => trivial) (fun _ => trivial)
              (fun _ => trivial) _ ?_ _) a ha
            exact ⟨st.idx, hfresh, rfl, hdata⟩
          · split at ha
            · cases ha
            · rename_i refs _
              have hlen : (pread content st.pos
                  (min cfg.chunkSize (content.length - st.off))).length =
                    min cfg.chunkSize (content.length - st.off) := by
                rw [length_pread, hst.pos]
                omega
              refine ih _ ?_ ?_ rfl a ha
              · simp only [hlen]
                omega
              · rw [hlen]
                exact hst.next hoff

theorem acts_putBody (n : Nat) (s : Store Sha) :
    ∀ a ∈ machine.acts (Src.whole content) ts (putBody cfg ino content.length dirty old) n s,
      FreshOnly cfg.chunkSize dirty old content a := by
  intro a ha
  rw [putBody, Prog.bind_eq, Machine.acts_bind] at ha
  rcases List.mem_append.mp ha with ha | ha
  · exact acts_putLoop ⟨rfl, fun _ => (Nat.zero_mul _).symm⟩ a ha
  · refine Machine.acts_of_all machine ?_ a ha
    split
    · trivial
    · apply (all_results (fun _ => trivial) _).bind
      intro e
      cases e with
      | some e => trivial
      | none => exact (all_increfAll (fun _ => trivial) _).bind fun _ => trivial

/-- Every chunk that `put_file` reads or submits is one it takes no stored row for. -/
theorem acts_putFile (n : Nat) (s : Store Sha) :
    ∀ a ∈ machine.acts (Src.whole content) ts (putFile cfg ino content.length dirty) n s,
      FreshOnly cfg.chunkSize dirty (s.index.getChunks ino) content a := by
  have hold : (machine.turn (ts n) (.getChunks ino) s).index.getChunks ino =
      s.index.getChunks ino := by
    have henv : ∀ (e : FutId × PoolTick) (s' : Store Sha),
        s'.index.getChunks ino = s.index.getChunks ino →
          (machine.env e s').index.getChunks ino = s.index.getChunks ino := fun e s' h =>
      (Meta.getChunks_congr (poolStep_plain e s').1 ino).trans h
    exact Machine.turn_stable henv _ _ rfl
  rintro a (_ | ⟨_, ha⟩)
  · trivial
  change a ∈ machine.acts (Src.whole content) ts
    ((putBody cfg ino content.length dirty
      ((machine.turn (ts n) (.getChunks ino) s).index.getChunks ino)).bind _) _ _ at ha
  rw [hold, Machine.acts_bind] at ha
  rcases List.mem_append.mp ha with ha | ha
  · exact acts_putBody _ _ a ha
  · refine Machine.acts_of_all machine ?_ a ha
    split
    · apply (all_rollback (fun _ => trivial) (fun _ => trivial) (fun _ => trivial)
        (fun _ => trivial) (fun _ => trivial) _).bind
      intro e
      cases e <;> trivial
    · refine ⟨trivial, fun _ => ⟨trivial, fun _ => ?_⟩⟩
      apply (all_releaseAll (fun _ => trivial) (fun _ => trivial) _).bind
      intro e
      cases e <;> trivial

end Store

end Tgfs
