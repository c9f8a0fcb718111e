import Mathlib.Data.List.Basic

/-!
# `iter_chunks` (`tgfs/store.py`)

The generator submits the chunks to the pool `_down`, `download_workers` ahead, and yields their
contents in order. When the pool runs which task is left open, and so is when the caller goes on
and whether it closes the generator.
-/

namespace Tgfs

namespace IterChunks

variable {Sha ε α : Type}

inductive Future (ε α : Type) where
  | pending
  | running
  | cancelled
  | finished (r : Except ε α)

/-- `cancel` has no effect on a task that the pool has begun. -/
def Future.cancel : Future ε α → Future ε α
  | .pending => .cancelled
  | f => f

inductive Place (ε : Type) where
  /-- At the head of one of the two loops. -/
  | loop
  /-- In `result()` of the future that it has just popped. -/
  | waiting (k : Nat)
  /-- At a `yield`. -/
  | suspended
  | returned
  | raised (e : ε)
  | closed

structure Gen (Sha ε α : Type) where
  workers : Nat
  /-- What is left of `it`. -/
  it : List Sha
  /-- What was submitted, in this order. -/
  futures : List (Sha × Future ε α)
  window : List Nat
  place : Place ε
  /-- What was yielded. -/
  out : List α

inductive Label where
  /-- The generator goes on. -/
  | go
  /-- The caller asks for the next chunk. -/
  | next
  /-- The caller closes the generator, or drops it. -/
  | close
  /-- A worker begins with task `k`. -/
  | start (k : Nat)
  | finish (k : Nat)

/-- `window.popleft().result()`, as far as the wait; without a window the last loop is over. -/
def Gen.popleft (g : Gen Sha ε α) : Gen Sha ε α :=
  match g.window with
  | [] => { g with place := .returned }
  | k :: window => { g with window := window, place := .waiting k }

/-- The generator is left, by way of the `finally`. -/
def Gen.leave (g : Gen Sha ε α) (place : Place ε) : Gen Sha ε α :=
  { g with
    futures := g.window.foldl (fun fs k => fs.modify k fun p => (p.1, p.2.cancel)) g.futures
    place := place }

/-- The steps; `answer k` is what `read_chunk` returns or raises in task `k`. -/
def step (answer : Nat → Except ε α) (l : Label) (g : Gen Sha ε α) : Gen Sha ε α :=
  match l with
  | .go =>
    match g.place with
    | .loop =>
      match g.it with
      | [] => g.popleft
      | sha :: it =>
        let g' := { g with
          it := it
          futures := g.futures ++ [(sha, .pending)]
          window := g.window ++ [g.futures.length] }
        if g.workers ≤ g'.window.length then g'.popleft else g'
    | .waiting k =>
      match g.futures[k]? with
      | some (_, .finished (.ok a)) => { g with place := .suspended, out := g.out ++ [a] }
      | some (_, .finished (.error e)) => g.leave (.raised e)
      | _ => g
    | _ => g
  | .next =>
    match g.place with
    | .suspended => { g with place := .loop }
    | _ => g
  | .close =>
    match g.place with
    | .suspended => g.leave .closed
    | _ => g
  | .start k =>
    match g.futures[k]? with
    | some (sha, .pending) => { g with futures := g.futures.set k (sha, .running) }
    | _ => g
  | .finish k =>
    match g.futures[k]? with
    | some (sha, .running) => { g with futures := g.futures.set k (sha, .finished (answer k)) }
    | _ => g

def run (answer : Nat → Except ε α) (ls : List Label) (g : Gen Sha ε α) : Gen Sha ε α :=
  ls.foldl (fun g l => step answer l g) g

def start (downloadWorkers : Nat) (shas : List Sha) : Gen Sha ε α :=
  ⟨max 1 downloadWorkers, shas, [], [], .loop, []⟩

/-- What comes of reading the chunks one after the other: what is yielded, and how it ends. -/
def plain : List (Except ε α) → List α × Except ε Unit
  | [] => ([], .ok ())
  | .ok a :: rs => (a :: (plain rs).1, (plain rs).2)
  | .error e :: _ => ([], .error e)

end IterChunks

end Tgfs
