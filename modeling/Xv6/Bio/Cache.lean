import Xv6.Foundations.Runs
import Xv6.Params

/-!
# Buffer cache - The cache and its users

The buffers of `bio.c` with the list of the most recently used ones, the disk behind
them, and the processes that go through `bread`, `log_write` or `bwrite`, and `brelse`.
A step is one section that runs with `bcache.lock` held, the taking or the release of a
buffer's sleep-lock, or one access to the buffer by its holder; an interleaving is a
list of such steps.

A process that uses several buffers at a time counts as one user for each of them.
`iderw` is one step that does what its comment says.  Blocks may hold values of any
type, and the cache has any number of buffers.  There are far fewer users than a `uint`
can count, so {lit}`refcnt` is a natural number.

Main definitions:

- {lit}`Buf`, {lit}`CacheState`: buffers, list, disk and program points.
- {lit}`bget`, {lit}`iderw`, {lit}`brelse`: the parts of the calls.
- {lit}`CacheAction`, {lit}`cacheStep`: the steps.
-/

namespace Xv6.Bio

open Foundations

/-! ## Buffers -/

/-- A device and a block number on it. -/
structure BlockId where
  dev : UInt32
  blockno : UInt32
deriving DecidableEq

/-- `struct buf`; `valid` and `dirty` are the bits `B_VALID` and `B_DIRTY` of `flags`. -/
structure Buf (β : Type) where
  id : BlockId
  valid : Bool
  dirty : Bool
  lock : Option Nat
  refcnt : Nat
  data : β

/-- Program point of a user of the cache. -/
inductive Pc (n : Nat)
  /-- Uses no buffer. -/
  | idle
  /-- `bread(id)`: `bget` found or recycled `b` and is about to take its lock. -/
  | want (b : Fin n) (id : BlockId)
  /-- `bread(id)`: back from `bget`, with the lock of `b`. -/
  | locked (b : Fin n) (id : BlockId)
  /-- Back from `bread`; `changed` when the data was modified and neither logged nor
  written since. -/
  | has (b : Fin n) (changed : Bool)
  /-- `brelse(b)`: the lock of `b` is released, its reference is not yet. -/
  | releasing (b : Fin n)
deriving DecidableEq

/-- `bcache`, the disk and the users.  `order` is the list from `head.next` on. -/
structure CacheState (n : Nat) (β : Type) where
  buf : Fin n → Buf β
  order : List (Fin n)
  disk : BlockId → β
  pc : Nat → Pc n

/-- The state after `binit`: each buffer was put at the front of the list in turn. -/
def cacheInit (n : Nat) {β : Type} (zero : β) (disk : BlockId → β) : CacheState n β where
  buf _ := ⟨⟨0, 0⟩, false, false, none, 0, zero⟩
  order := (List.finRange n).reverse
  disk := disk
  pc _ := .idle

/-! ## The calls -/

namespace CacheState

variable {n : Nat} {β : Type}

/-- Change one buffer. -/
def setBuf (s : CacheState n β) (b : Fin n) (x : Buf β) : CacheState n β :=
  { s with buf := Function.update s.buf b x }

/-- User `u` goes to the program point `k`. -/
def goto (s : CacheState n β) (u : Nat) (k : Pc n) : CacheState n β :=
  { s with pc := Function.update s.pc u k }

/-- The first loop of `bget`. -/
def lookup (s : CacheState n β) (id : BlockId) : Option (Fin n) :=
  s.order.find? fun b => (s.buf b).id = id

/-- The second loop of `bget`, from the end of the list. -/
def victim (s : CacheState n β) : Option (Fin n) :=
  s.order.reverse.find? fun b => (s.buf b).refcnt = 0 ∧ (s.buf b).dirty = false

/-- `bget` up to `acquiresleep`; undefined where it panics. -/
def bget (s : CacheState n β) (id : BlockId) : Option (Fin n × CacheState n β) :=
  match s.lookup id with
  | some b => some (b, s.setBuf b { s.buf b with refcnt := (s.buf b).refcnt + 1 })
  | none =>
    s.victim.map fun b =>
      (b, s.setBuf b { s.buf b with id := id, valid := false, dirty := false, refcnt := 1 })

/-- `iderw`: write the buffer if it is dirty, read it if it is not valid; undefined where
it panics. -/
def iderw (s : CacheState n β) (b : Fin n) : Option (CacheState n β) :=
  if (s.buf b).dirty then
    some { s.setBuf b { s.buf b with valid := true, dirty := false } with
      disk := Function.update s.disk (s.buf b).id (s.buf b).data }
  else if (s.buf b).valid = false then
    some (s.setBuf b { s.buf b with valid := true, data := s.disk (s.buf b).id })
  else none

/-- `bread` after `bget`. -/
def breadRest (s : CacheState n β) (b : Fin n) : Option (CacheState n β) :=
  if (s.buf b).valid = false then s.iderw b else some s

/-- `b->flags |= B_DIRTY`. -/
def setDirty (s : CacheState n β) (b : Fin n) : CacheState n β :=
  s.setBuf b { s.buf b with dirty := true }

theorem setDirty_self (s : CacheState n β) (b : Fin n) :
    (s.setDirty b).buf b = { s.buf b with dirty := true } :=
  Function.update_self ..

/-- `bwrite`. -/
def bwrite (s : CacheState n β) (b : Fin n) : Option (CacheState n β) :=
  (s.setDirty b).iderw b

/-- The part of `brelse` under `bcache.lock`. -/
def brelse (s : CacheState n β) (b : Fin n) : CacheState n β :=
  { s.setBuf b { s.buf b with refcnt := (s.buf b).refcnt - 1 } with
    order := if (s.buf b).refcnt - 1 = 0 then b :: s.order.erase b else s.order }

/-- `acquiresleep` and `releasesleep` of a buffer's lock. -/
def setLock (s : CacheState n β) (b : Fin n) (holder : Option Nat) : CacheState n β :=
  s.setBuf b { s.buf b with lock := holder }

end CacheState

/-! ## Steps -/

/-- A step of user `u`. -/
inductive CacheAction (β : Type)
  | bget (u : Nat) (id : BlockId)
  | acquiresleep (u : Nat)
  | bread (u : Nat)
  | modify (u : Nat) (x : β)
  | logWrite (u : Nat)
  | bwrite (u : Nat)
  | releasesleep (u : Nat)
  | brelse (u : Nat)

/-- One step.  The buffer may be given back once its changes are logged or written. -/
def cacheStep {n : Nat} {β : Type} (s : CacheState n β) :
    CacheAction β → Option (CacheState n β)
  | .bget u id =>
    if s.pc u = .idle then (s.bget id).map fun r => r.2.goto u (.want r.1 id) else none
  | .acquiresleep u =>
    match s.pc u with
    | .want b id =>
      if (s.buf b).lock = none then some ((s.setLock b (some u)).goto u (.locked b id))
      else none
    | _ => none
  | .bread u =>
    match s.pc u with
    | .locked b _ => (s.breadRest b).map fun t => t.goto u (.has b false)
    | _ => none
  | .modify u x =>
    match s.pc u with
    | .has b _ => some ((s.setBuf b { s.buf b with data := x }).goto u (.has b true))
    | _ => none
  | .logWrite u =>
    match s.pc u with
    | .has b _ => some ((s.setDirty b).goto u (.has b false))
    | _ => none
  | .bwrite u =>
    match s.pc u with
    | .has b _ => (s.bwrite b).map fun t => t.goto u (.has b false)
    | _ => none
  | .releasesleep u =>
    match s.pc u with
    | .has b false => some ((s.setLock b none).goto u (.releasing b))
    | _ => none
  | .brelse u =>
    match s.pc u with
    | .releasing b => some ((s.brelse b).goto u .idle)
    | _ => none

/-! ## The flat store -/

/-- What is observed: the data that `bread` returns, and the data stored by `log_write` or
`bwrite`. -/
inductive StoreEvent (β : Type)
  | read (id : BlockId) (x : β)
  | write (id : BlockId) (x : β)

/-- The abstract store: a map from blocks to contents.  A read sees the contents. -/
def storeStep {β : Type} [DecidableEq β] (d : BlockId → β) :
    StoreEvent β → Option (BlockId → β)
  | .read id x => if d id = x then some d else none
  | .write id x => some (Function.update d id x)

/-- The events of a step. -/
def cacheEvents {n : Nat} {β : Type} (s : CacheState n β) : CacheAction β → List (StoreEvent β)
  | .bread u =>
    match s.pc u with
    | .locked b id =>
      match s.breadRest b with
      | some t => [.read id (t.buf b).data]
      | none => []
    | _ => []
  | .logWrite u | .bwrite u =>
    match s.pc u with
    | .has b _ => [.write (s.buf b).id (s.buf b).data]
    | _ => []
  | _ => []

end Xv6.Bio
