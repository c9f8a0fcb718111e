import Mathlib.Algebra.GroupWithZero.Nat
import Mathlib.Logic.Function.Basic
import Tgfs.Misc.Grid

/-!
# Parts over several connections (`tgfs/fasttransfer.py`)

`_run_parts` starts one worker for each sender. The workers take indexes from one iterator and
run `do_part`, which sends one request with `_call` until it is answered. They are coroutines of
one event loop: taking an index is a step and so is the end of a `send` with what follows it, and
the steps of different workers interleave in any order. The task that called `_run_parts` waits in
`gather`.
-/

namespace Tgfs

namespace FastTransfer

/-- `PART`, `MAX_PARTS` and `_PART_RETRIES`. -/
def part : Nat := 512 * 1024
def maxParts : Nat := 8000
def partRetries : Nat := 4

/-- How one `await sender.send(request)` ends. -/
inductive Sent (Reply : Type) where
  | reply (r : Reply)
  | floodWait
  /-- `ConnectionError`, `OSError` or `asyncio.TimeoutError`. -/
  | lost
  deriving DecidableEq, Repr

/-- What the functions raise. -/
inductive TransferErr where
  /-- `ValueError("… bytes exceeds the … limit")`. -/
  | tooManyParts (length limit : Nat)
  /-- `RuntimeError("document lives on a different DC than the pool")`. -/
  | otherDc
  /-- The error of the last attempt. -/
  | lost
  /-- `ConnectionError("part transfer failed")`. -/
  | partTransferFailed
  /-- `RuntimeError("Telegram rejected upload part …")`. -/
  | rejected (i : Nat)
  /-- `RuntimeError("CDN redirect; use stock downloader")`. -/
  | cdnRedirect
  /-- `IOError("short part …: got … of …")`. -/
  | shortPart (i got want : Nat)
  | cancelled
  deriving DecidableEq, Repr

/-! ## The workers of `_run_parts` -/

inductive Worker where
  /-- About to take an index. -/
  | ready
  /-- Within `_call` for part `i`, in the given attempt. -/
  | sending (i attempt : Nat)
  | done
  | failed (e : TransferErr)
  | cancelled
  deriving DecidableEq, Repr

/-- The task that awaits `_run_parts`. -/
inductive Gather where
  | waiting
  /-- In the `except` clause: the tasks were cancelled and are waited for. -/
  | cancelling (e : TransferErr)
  | returned
  | raised (e : TransferErr)
  deriving DecidableEq, Repr

/-- `_run_parts` has returned or raised. -/
def Gather.over : Gather → Bool
  | .waiting | .cancelling _ => false
  | .returned | .raised _ => true

/-- The state of one `_run_parts`; `env` is what the parts work on. `handed` and `finished` only
record which worker was given which index, and for which indexes `do_part` returned. -/
structure Parts (Env : Type) where
  count : Nat
  next : Nat
  workers : List Worker
  gather : Gather
  handed : List (Nat × Nat)
  finished : List Nat
  env : Env

/-- One `send` of `do_part(sender, i)`: how the request ends, and for an answered one whether
`do_part` returns or raises. `Out` is what the surroundings decide. -/
abbrev DoPart (Out Env : Type) : Type := Nat → Out → Env → Sent (Option TransferErr) × Env

inductive Label (Out : Type) where
  /-- Worker `k` takes a step. -/
  | worker (k : Nat) (out : Out)
  /-- `gather` sees that worker `k` raised. -/
  | failure (k : Nat)
  /-- The awaiting task is cancelled. -/
  | cancel
  /-- `gather` is through with all workers. -/
  | finish

variable {Out Env : Type}

/-- What an attempt of `_call` makes of a worker. -/
def afterSend (i attempt : Nat) : Sent (Option TransferErr) → Worker
  | .reply none => .ready
  | .reply (some e) => .failed e
  | .floodWait =>
    if attempt + 1 < partRetries then .sending i (attempt + 1) else .failed .partTransferFailed
  | .lost => if attempt = partRetries - 1 then .failed .lost else .sending i (attempt + 1)

namespace Worker

/-- The worker has come to an end. -/
def ended : Worker → Bool
  | .ready | .sending _ _ => false
  | .done | .failed _ | .cancelled => true

end Worker

def step (doPart : DoPart Out Env) (l : Label Out) (p : Parts Env) : Parts Env :=
  match l with
  | .worker k out =>
    match p.gather, p.workers[k]? with
    | .waiting, some .ready =>
      if p.next < p.count then
        { p with
          next := p.next + 1
          workers := p.workers.set k (.sending p.next 0)
          handed := p.handed ++ [(k, p.next)] }
      else { p with workers := p.workers.set k .done }
    | .waiting, some (.sending i attempt) =>
      let sent := doPart i out p.env
      { p with
        workers := p.workers.set k (afterSend i attempt sent.1)
        finished := if sent.1 = .reply none then p.finished ++ [i] else p.finished
        env := sent.2 }
    | .cancelling _, some .ready | .cancelling _, some (.sending _ _) =>
      { p with workers := p.workers.set k .cancelled }
    | _, _ => p
  | .failure k =>
    match p.gather, p.workers[k]? with
    | .waiting, some (.failed e) => { p with gather := .cancelling e }
    | _, _ => p
  | .cancel =>
    match p.gather with
    | .waiting => { p with gather := .cancelling .cancelled }
    -- the `gather` of the `except` clause is interrupted
    | .cancelling _ => { p with gather := .raised .cancelled }
    | _ => p
  | .finish =>
    match p.gather with
    | .waiting => if p.workers.all (· = .done) then { p with gather := .returned } else p
    | .cancelling e => if p.workers.all (·.ended) then { p with gather := .raised e } else p
    | _ => p

def run (doPart : DoPart Out Env) (ls : List (Label Out)) (p : Parts Env) : Parts Env :=
  ls.foldl (fun p l => step doPart l p) p

/-- `_run_parts` with `senders` connections, before any worker ran. -/
def start (senders count : Nat) (env : Env) : Parts Env :=
  ⟨count, 0, List.replicate senders .ready, .waiting, [], [], env⟩

/-! ## `upload_big` -/

/-- What becomes of one upload request: whether the server stored the part, and its answer. -/
structure UploadOut where
  stored : Bool
  sent : Sent Bool
  deriving DecidableEq, Repr

/-- `do_part` of `upload_big`; `server` holds the parts stored under the file's id. -/
def uploadPart (data : Bytes) : DoPart UploadOut (Nat → Option Bytes) := fun i out server =>
  (match out.sent with
    | .reply true => .reply none
    | .reply false => .reply (some (.rejected i))
    | .floodWait => .floodWait
    | .lost => .lost,
    if out.stored then Function.update server i (some (pread data (i * part) part)) else server)

/-- `upload_big` after the steps `ls`. -/
def uploadBig (senders : Nat) (data : Bytes) (ls : List (Label UploadOut)) :
    Except TransferErr (Parts (Nat → Option Bytes)) :=
  let count := chunkCount part data.length
  if count > maxParts then .error (.tooManyParts data.length maxParts)
  else .ok (run (uploadPart data) ls (start senders count fun _ => none))

/-! ## `download_doc` -/

/-- An answer to a `GetFileRequest`. -/
inductive FileReply where
  | file (bytes : Bytes)
  | cdnRedirect
  deriving DecidableEq, Repr

/-- `do_part` of `download_doc`; `out` is the buffer, `serve` answers a request for an offset and
a limit. -/
def downloadPart (serve : Nat → Nat → FileReply) (size : Nat) : DoPart (Sent Unit) Bytes :=
  fun i sent out =>
    match sent with
    | .floodWait => (.floodWait, out)
    | .lost => (.lost, out)
    | .reply () =>
      match serve (i * part) part with
      | .cdnRedirect => (.reply (some .cdnRedirect), out)
      | .file b =>
        let want := min part (size - i * part)
        if b.length ≠ want then (.reply (some (.shortPart i b.length want)), out)
        else (.reply none, pwrite out (i * part) b)

/-- `download_doc` after the steps `ls`. -/
def downloadDoc (senders : Nat) (sameDc : Bool) (serve : Nat → Nat → FileReply) (size : Nat)
    (ls : List (Label (Sent Unit))) : Except TransferErr (Parts Bytes) :=
  if !sameDc then .error .otherDc
  else if size = 0 then .ok { start senders 0 [] with gather := .returned }
  else
    .ok (run (downloadPart serve size) ls
      (start senders (chunkCount part size) (List.replicate size 0)))

end FastTransfer

end Tgfs
