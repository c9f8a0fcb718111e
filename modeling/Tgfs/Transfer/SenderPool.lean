import Mathlib.Data.List.Basic

/-!
# The pool of connections (`SenderPool` of `tgfs/fasttransfer.py`)

Several transfers share a pool: each one calls `get` first, and `reset` when it failed. The calls
are coroutines of one event loop, which interleave where they wait: for the pool's `asyncio.Lock`,
for `_make()` and for a `disconnect()`. Which of those that wait for the lock is next is left
open.
-/

namespace Tgfs

namespace SenderPool

/-- A connection, by its number in the order in which they were made. -/
abbrev Conn : Type := Nat

inductive Task where
  /-- `get` waits for the lock. -/
  | getting
  /-- `get` has the lock and awaits `_make()`. -/
  | making
  | got (senders : List Conn)
  /-- `reset` waits for the lock. -/
  | resetting
  /-- `reset` awaits the `disconnect()` of the first of these. -/
  | dropping (dead : List Conn)
  | reset
  /-- `_make()` raised, or the task was cancelled. -/
  | raised
  deriving DecidableEq, Repr

/-- The pool; `made`, `dropped` and `left` only record how many connections were made, which
were disconnected, and which a cancelled `reset` forgot. -/
structure Pool where
  size : Nat
  senders : List Conn
  locked : Bool
  tasks : List Task
  made : Nat
  dropped : List Conn
  left : List Conn

inductive Label where
  | get
  | reset
  /-- What task `k` waits for has come, and it goes on; `ok` tells whether a `_make()` succeeded. -/
  | run (k : Nat) (ok : Bool)
  | cancel (k : Nat)

/-- `for s in dead`. -/
def afterDrop : List Conn → Task
  | [] => .reset
  | dead => .dropping dead

def step (l : Label) (p : Pool) : Pool :=
  match l with
  | .get => { p with tasks := p.tasks ++ [.getting] }
  | .reset => { p with tasks := p.tasks ++ [.resetting] }
  | .run k ok =>
    match p.tasks[k]? with
    | some .getting =>
      if p.locked then p
      else if p.senders.length < p.size then
        { p with locked := true, tasks := p.tasks.set k .making }
      else { p with tasks := p.tasks.set k (.got p.senders) }
    | some .making =>
      if ok then
        let senders := p.senders ++ [p.made]
        if senders.length < p.size then { p with senders := senders, made := p.made + 1 }
        else
          { p with
            senders := senders
            made := p.made + 1
            locked := false
            tasks := p.tasks.set k (.got senders) }
      else { p with locked := false, tasks := p.tasks.set k .raised }
    | some .resetting =>
      if p.locked then p
      else { p with senders := [], tasks := p.tasks.set k (afterDrop p.senders) }
    | some (.dropping (s :: dead)) =>
      -- an exception of `disconnect()` is passed over
      { p with dropped := p.dropped ++ [s], tasks := p.tasks.set k (afterDrop dead) }
    | _ => p
  | .cancel k =>
    match p.tasks[k]? with
    | some .getting | some .resetting => { p with tasks := p.tasks.set k .raised }
    | some .making => { p with locked := false, tasks := p.tasks.set k .raised }
    | some (.dropping dead) =>
      { p with left := p.left ++ dead, tasks := p.tasks.set k .raised }
    | _ => p

def run (ls : List Label) (p : Pool) : Pool := ls.foldl (fun p l => step l p) p

def start (size : Nat) : Pool := ⟨size, [], false, [], 0, [], []⟩

end SenderPool

end Tgfs
