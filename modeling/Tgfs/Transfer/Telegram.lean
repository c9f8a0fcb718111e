import Mathlib.Data.List.GetD
import Tgfs.Meta
import Tgfs.Misc.Blobs
import Tgfs.Transfer.FastTransfer

/-!
# The Telegram backend (`tgfs/telegram.py`)

The threads of tgfs call `upload`, `download` and `delete`, each of which runs a coroutine on the
one event loop and waits for it. A coroutine is `_with_retry` around a `go()`, and the coroutines
interleave at their `await`s. A step here is what a coroutine does up to the next answer of the
client; the parts that `upload_big` and `download_doc` move are one step, since no two transfers
share a file id or a buffer.

The client is Telethon's, with Telegram's servers behind it, and a parameter.
-/

namespace Tgfs

namespace Telegram

open FastTransfer

/-- `_MAX_RETRIES`. -/
def maxRetries : Nat := 5

def mib : Nat := 1024 * 1024

/-- `fasttransfer.BIG_FILE`. -/
def bigFile : Nat := 10 * mib

/-- What the client raises. -/
inductive ClientErr where
  | floodWait (seconds : Nat)
  /-- `ConnectionError` or `OSError`. -/
  | connection
  | other
  deriving DecidableEq, Repr

/-- What a `go()` raises. -/
inductive CallErr where
  | client (e : ClientErr)
  /-- `FileNotFoundError("blob message … missing")`. -/
  | missing (handle : Handle)
  /-- `RuntimeError("Telegram client not connected")`. -/
  | notConnected
  /-- The `assert` of `_download`. -/
  | noBytes
  | cancelled
  deriving DecidableEq, Repr

/-- `isinstance(ex, (ConnectionError, OSError))`. -/
def CallErr.isOSError : CallErr → Bool
  | .client .connection | .missing _ => true
  | _ => false

/-! ## The client -/

/-- The `file` of `send_file`. -/
inductive InputFile where
  /-- `InputFileBig(file_id, count, name)`, with the parts stored under the id. -/
  | big (parts : Nat → Option Bytes) (count : Nat)
  /-- `io.BytesIO(data)`. -/
  | stock (data : Bytes)

/-- The bytes of the document that `send_file` makes of a file. -/
def InputFile.bytes : InputFile → Bytes
  | .big parts count => ((List.range count).map fun i => (parts i).getD []).flatten
  | .stock data => data

/-- The client's calls. `Out` is what the network decides, `Media` what `msg.media` may be. -/
structure Client (Chan Media Out : Type) where
  sendFile : Out → InputFile → Chan → Except ClientErr Handle × Chan
  /-- The message, and its media. -/
  getMessages : Out → Handle → Chan → Except ClientErr (Option (Option Media))
  /-- `msg.document.size`. -/
  documentSize : Media → Option Nat
  /-- How a `GetFileRequest` for the media's location is answered. -/
  getFile : Out → Media → Chan → Nat → Nat → FileReply
  /-- `download_media(msg, file=bytes)`, which may give nothing. -/
  downloadMedia : Out → Media → Chan → Except ClientErr (Option Bytes)
  deleteMessages : Out → Handle → Chan → Except ClientErr Unit × Chan

/-! ## The coroutines -/

inductive Call where
  | upload (data : Bytes)
  | download (handle : Handle)
  | delete (handle : Handle)
  deriving DecidableEq, Repr

inductive Reply where
  | handle (h : Handle)
  | data (d : Bytes)
  | done
  deriving DecidableEq, Repr

/-- Where a coroutine is. -/
inductive Phase (Media : Type) where
  /-- About to run `go()`, with `attempt` of `_with_retry`. -/
  | trying (attempt : Nat)
  /-- `go()` of `_upload` has its file. -/
  | sending (attempt : Nat) (file : InputFile)
  /-- `go()` of `_download` has its message. -/
  | fetching (attempt : Nat) (media : Media)
  | finished (r : Except CallErr Reply)

/-- What the surroundings decide about one step. -/
structure CallTick (Out : Type) where
  out : Out
  /-- `pool.get()` raises, or `upload_big` or `download_doc` do for another reason than below. -/
  poolFails : Bool := false
  /-- The steps of `_run_parts`. -/
  upParts : List (Label UploadOut) := []
  downParts : List (Label (Sent Unit)) := []

/-- How the parallel transfer ends, behind its `except Exception`. -/
inductive Fast (α : Type) where
  | running
  | returned (a : α)
  | failed
  /-- A `CancelledError`, which is no `Exception`. -/
  | cancelled

def Fast.of {Env α : Type} (f : Parts Env → α) : Except TransferErr (Parts Env) → Fast α
  | .error _ => .failed
  | .ok p =>
    match p.gather with
    | .waiting | .cancelling _ => .running
    | .returned => .returned (f p)
    | .raised .cancelled => .cancelled
    | .raised _ => .failed

/-- What a step makes of a `go()`: it is within it, or through with it. -/
inductive Next (Media : Type) where
  | within (phase : Phase Media)
  | ended (attempt : Nat) (r : Except CallErr Reply)

/-- What an answer of the client is for `go()`. -/
def answer {α : Type} (f : α → Reply) : Except ClientErr α → Except CallErr Reply
  | .ok a => .ok (f a)
  | .error e => .error (.client e)

section Go

variable {Chan Media Out : Type} (c : Client Chan Media Out) (conns : Nat) (connected : Bool)
  (t : CallTick Out)

/-- The file that `go()` of `_upload` sends. -/
def uploadFile (data : Bytes) : Fast InputFile :=
  if conns > 1 ∧ data.length > bigFile then
    if t.poolFails || !connected then .failed
    else
      Fast.of (fun p => .big p.env (chunkCount part data.length)) (uploadBig conns data t.upParts)
  else .failed

/-- `go()` of `_upload`. -/
def goUpload (data : Bytes) : Phase Media → Chan → Next Media × Chan
  | .trying attempt, chan =>
    match uploadFile conns connected t data with
    | .running => (.within (.trying attempt), chan)
    | .returned file => (.within (.sending attempt file), chan)
    | .failed => (.within (.sending attempt (.stock data)), chan)
    | .cancelled => (.ended attempt (.error .cancelled), chan)
  | .sending attempt file, chan =>
    if connected then
      (.ended attempt (answer .handle (c.sendFile t.out file chan).1),
        (c.sendFile t.out file chan).2)
    else (.ended attempt (.error .notConnected), chan)
  | phase, chan => (.within phase, chan)

/-- What `download_doc` gives for the media. -/
def downloadFile (media : Media) (chan : Chan) : Fast Bytes :=
  match c.documentSize media with
  | none => .failed
  | some size =>
    if conns > 1 ∧ size > 4 * mib then
      if t.poolFails || !connected then .failed
      else Fast.of (·.env) (downloadDoc conns true (c.getFile t.out media chan) size t.downParts)
    else .failed

/-- `go()` of `_download`. -/
def goDownload (handle : Handle) : Phase Media → Chan → Next Media × Chan
  | .trying attempt, chan =>
    if connected then
      match c.getMessages t.out handle chan with
      | .error e => (.ended attempt (.error (.client e)), chan)
      | .ok (some (some media)) => (.within (.fetching attempt media), chan)
      | .ok _ => (.ended attempt (.error (.missing handle)), chan)
    else (.ended attempt (.error .notConnected), chan)
  | .fetching attempt media, chan =>
    match downloadFile c conns connected t media chan with
    | .running => (.within (.fetching attempt media), chan)
    | .returned data => (.ended attempt (.ok (.data data)), chan)
    | .cancelled => (.ended attempt (.error .cancelled), chan)
    | .failed =>
      if connected then
        match c.downloadMedia t.out media chan with
        | .error e => (.ended attempt (.error (.client e)), chan)
        | .ok (some data) => (.ended attempt (.ok (.data data)), chan)
        | .ok none => (.ended attempt (.error .noBytes), chan)
      else (.ended attempt (.error .notConnected), chan)
  | phase, chan => (.within phase, chan)

/-- `go()` of `_delete`. -/
def goDelete (handle : Handle) : Phase Media → Chan → Next Media × Chan
  | .trying attempt, chan =>
    if connected then
      (.ended attempt (answer (fun _ => .done) (c.deleteMessages t.out handle chan).1),
        (c.deleteMessages t.out handle chan).2)
    else (.ended attempt (.error .notConnected), chan)
  | phase, chan => (.within phase, chan)

def go : Call → Phase Media → Chan → Next Media × Chan
  | .upload data => goUpload c conns connected t data
  | .download handle => goDownload c conns connected t handle
  | .delete handle => goDelete c connected t handle

end Go

/-- `_with_retry` at the end of a `go()`: where the coroutine goes on, and how long it sleeps
before. -/
def afterTry (Media : Type) (attempt : Nat) : Except CallErr Reply → Phase Media × List Nat
  | .ok r => (.finished (.ok r), [])
  | .error (.client (.floodWait seconds)) => (.trying attempt, [seconds + 1])
  | .error e =>
    if e.isOSError then
      if attempt + 1 ≥ maxRetries then (.finished (.error e), [])
      else (.trying (attempt + 1), [min (2 ^ (attempt + 1)) 30])
    else (.finished (.error e), [])

/-! ## The backend -/

/-- A call under way; `tries` and `waits` only record how its `go()`s ended and its sleeps. -/
structure Job (Media : Type) where
  call : Call
  phase : Phase Media
  tries : List (Except CallErr Reply)
  waits : List Nat

/-- The event of a call that begins. -/
def Call.begun : Call → List (BlobEvent Handle Bytes)
  | .delete handle => [.removing handle]
  | _ => []

/-- The event of a call that ends with `r`. -/
def Call.ended : Call → Except CallErr Reply → List (BlobEvent Handle Bytes)
  | .upload data, .ok (.handle h) => [.stored h data]
  | .download handle, .ok (.data d) => [.loaded handle d]
  | .download _, .error (.missing h) => [.missing h]
  | _, _ => []

def Phase.events {Media : Type} (call : Call) : Phase Media → List (BlobEvent Handle Bytes)
  | .finished r => call.ended r
  | _ => []

/-- The state of `TelegramBackend`; `history` only records what its callers see. -/
structure State (Chan Media : Type) where
  chan : Chan
  /-- `self._client is not None`. -/
  connected : Bool
  jobs : List (Job Media)
  history : List (BlobEvent Handle Bytes)

inductive Step (Out : Type) where
  | call (call : Call)
  /-- The coroutine of call `k` takes a step. -/
  | run (k : Nat) (t : CallTick Out)
  | close

section Step

variable {Chan Media Out : Type}

/-- The channel, with no calls yet. -/
def State.start (chan : Chan) : State Chan Media := ⟨chan, true, [], []⟩

def Job.after (job : Job Media) : Next Media → Job Media
  | .within phase => { job with phase := phase }
  | .ended attempt r =>
    { job with
      phase := (afterTry Media attempt r).1
      tries := job.tries ++ [r]
      waits := job.waits ++ (afterTry Media attempt r).2 }

def Phase.isOver : Phase Media → Bool
  | .finished _ => true
  | _ => false

def step (c : Client Chan Media Out) (conns : Nat) (l : Step Out) (s : State Chan Media) :
    State Chan Media :=
  match l with
  | .call call =>
    { s with
      jobs := s.jobs ++ [⟨call, .trying 0, [], []⟩]
      history := s.history ++ call.begun }
  | .run k t =>
    match s.jobs[k]? with
    | none => s
    | some job =>
      if job.phase.isOver then s
      else
        let next := go c conns s.connected t job.call job.phase s.chan
        { s with
          chan := next.2
          jobs := s.jobs.set k (job.after next.1)
          history := s.history ++ (job.after next.1).phase.events job.call }
  | .close => { s with connected := false }

def run (c : Client Chan Media Out) (conns : Nat) (ls : List (Step Out)) (s : State Chan Media) :
    State Chan Media :=
  ls.foldl (fun s l => step c conns l s) s

end Step

end Telegram

end Tgfs
