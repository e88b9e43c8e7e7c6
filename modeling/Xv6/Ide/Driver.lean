import Xv6.Foundations.LinkedList
import Xv6.Foundations.Runs
import Xv6.Params

/-!
# IDE - The queued driver and the in-memory disk

The driver of {lit}`ide.c` keeps the requests in a linked queue of buffers and has the disk
work on the first one; the interrupt that says it is done takes the request off the queue and
starts the next.  The driver of {lit}`memide.c` carries a request out at once.

The sections between taking and giving back {lit}`idelock` are the steps of a system of any
number of processes, with the locks of the buffers and with the disk as a device that is
given commands through its registers.

Main results:

- Theorem {lit}`Registers.decode`: the device finds the block and the disk that `idestart`
  wrote to its registers.
-/

namespace Xv6.Ide

open Foundations

/-- {lit}`FSSIZE` -/
def fssize : Nat := 1000

/-- The fields of {lit}`struct buf` that the drivers work on, apart from the queue. -/
structure Buf (β : Type) where
  valid : Bool
  dirty : Bool
  dev : UInt32
  blockno : UInt32
  data : β

namespace Buf

variable {β : Type}

/-- The test {lit}`(b->flags & (B_VALID|B_DIRTY)) == B_VALID`. -/
def synced (x : Buf β) : Bool :=
  x.valid && !x.dirty

/-- Whether the buffer is for disk 1. -/
def disk1 (x : Buf β) : Bool :=
  x.dev &&& 1 == 1

/-- Set {lit}`B_VALID` and clear {lit}`B_DIRTY`. -/
def sync (x : Buf β) : Buf β :=
  { x with valid := true, dirty := false }

end Buf

/-! ## The device -/

/-- The registers that `idestart` writes. -/
structure Registers where
  count : UInt8
  low : UInt8
  mid : UInt8
  high : UInt8
  drive : UInt8

namespace Registers

/-- The values `idestart` writes for a sector; a block is one sector. -/
def encode (dev sector : UInt32) : Registers where
  count := 1
  low := (sector &&& 0xff).toUInt8
  mid := ((sector >>> 8) &&& 0xff).toUInt8
  high := ((sector >>> 16) &&& 0xff).toUInt8
  drive := (0xe0 : UInt8) ||| ((dev &&& 1) <<< 4).toUInt8 ||| ((sector >>> 24) &&& 0x0f).toUInt8

/-- The sector that the device works on. -/
def sector (r : Registers) : Nat :=
  r.low.toNat + 256 * r.mid.toNat + 65536 * r.high.toNat + 16777216 * (r.drive &&& 0x0f).toNat

/-- The disk that is selected. -/
def disk1 (r : Registers) : Bool :=
  (r.drive >>> 4) &&& 1 == 1

theorem decode_bit :
    ∀ (bit : Bool) (k : Fin fssize),
      (encode bit.toUInt32 (UInt32.ofNat k)).sector = k ∧
        (encode bit.toUInt32 (UInt32.ofNat k)).disk1 = bit := by
  decide +kernel

/-- Only the lowest bit of the device number reaches the registers. -/
theorem encode_disk1 {β : Type} (x : Buf β) (sector : UInt32) :
    encode x.dev sector = encode x.disk1.toUInt32 sector := by
  have hbit : x.dev &&& 1 = x.disk1.toUInt32 &&& 1 := by
    have hlt : (x.dev &&& 1).toNat = 0 ∨ (x.dev &&& 1).toNat = 1 := by
      rw [UInt32.toNat_and]
      have hmod := Nat.and_two_pow_sub_one_eq_mod x.dev.toNat 1
      have hone : (1 : UInt32).toNat = 2 ^ 1 - 1 := rfl
      rw [hone, hmod]
      omega
    rcases hlt with hzero | hone
    · have heq : x.dev &&& 1 = 0 := UInt32.toNat_inj.mp hzero
      rw [Buf.disk1, heq]
      rfl
    · have heq : x.dev &&& 1 = 1 := UInt32.toNat_inj.mp hone
      rw [Buf.disk1, heq]
      rfl
  simp only [encode, hbit]

/-- The device finds the block and the disk that were written to its registers. -/
theorem decode {β : Type} (x : Buf β) (h : x.blockno.toNat < fssize) :
    (encode x.dev x.blockno).sector = x.blockno.toNat ∧
      (encode x.dev x.blockno).disk1 = x.disk1 := by
  have hbit := decode_bit x.disk1 ⟨x.blockno.toNat, h⟩
  rw [UInt32.ofNat_toNat] at hbit
  rw [encode_disk1]
  exact hbit

end Registers

/-- The device: nothing to do, a command with the data of a write, or a command carried out
whose interrupt is not handled yet, with the data of a read. -/
inductive Device (β : Type) where
  | idle
  | working (regs : Registers) (write : Option β)
  | finished (read : Option β)

/-! ## The queued driver -/

/-- Where a process is in `iderw`: not in it, {lit}`SLEEPING` on the buffer, or woken. -/
inductive Pc (n : Nat) where
  | idle
  | asleep (b : Fin n)
  | awake (b : Fin n)
  deriving DecidableEq

/-- The panics, and a walk along the queue that does not end. -/
inductive Stop where
  | notLocked
  | nothingToDo
  | noDisk1
  | incorrectBlockno
  | endless
  deriving DecidableEq

/-- The driver with `n` buffers, the disks and the processes.  The last three fields are the
requests so far in the order in which they were submitted, started and completed. -/
structure IdeState (ι : Type) (n : Nat) (β : Type) where
  bufs : Fin n → Buf β
  holder : Fin n → Option ι
  qnext : Fin n → Option (Fin n)
  idequeue : Option (Fin n)
  device : Device β
  disk : Bool → Nat → β
  havedisk1 : Bool
  pc : ι → Pc n
  stop : Option Stop
  submitted : List (Fin n)
  started : List (Fin n)
  completed : List (Fin n)

/-- The sections.  `edit` is anything that is done to a buffer nobody has in `iderw`: its
holder changes it, or it is recycled for another block. -/
inductive IdeAct (ι : Type) (n : Nat) (β : Type) where
  | acquiresleep (i : ι) (b : Fin n)
  | releasesleep (i : ι) (b : Fin n)
  | edit (b : Fin n) (x : Buf β)
  | iderw (i : ι) (b : Fin n)
  | resume (i : ι)
  | kill (i : ι)
  | device
  | ideintr

namespace Pc

variable {n : Nat}

/-- {lit}`wakeup(b)` as seen by one process. -/
def wakeup (b : Fin n) : Pc n → Pc n
  | .asleep c => if c = b then .awake c else .asleep c
  | pc => pc

/-- `kill` as seen by the process: the loop around the sleep tests the flags again. -/
def kill : Pc n → Pc n
  | .asleep b => .awake b
  | pc => pc

end Pc

section Driver

variable {ι : Type} [DecidableEq ι] {n : Nat} {β : Type}

/-- The driver before the first request. -/
def ideinit (bufs : Fin n → Buf β) (qnext : Fin n → Option (Fin n)) (disk : Bool → Nat → β)
    (havedisk1 : Bool) : IdeState ι n β where
  bufs := bufs
  holder := fun _ => none
  qnext := qnext
  idequeue := none
  device := .idle
  disk := disk
  havedisk1 := havedisk1
  pc := fun _ => .idle
  stop := none
  submitted := []
  started := []
  completed := []

/-- The command of `idestart` for a buffer. -/
def command (x : Buf β) : Device β :=
  .working (.encode x.dev x.blockno) (if x.dirty then some x.data else none)

/-- `idestart` -/
def idestart (s : IdeState ι n β) (b : Fin n) : Except Stop (IdeState ι n β) :=
  if fssize ≤ (s.bufs b).blockno.toNat then .error .incorrectBlockno
  else .ok { s with device := command (s.bufs b), started := s.started ++ [b] }

/-- The loop of `iderw` to the end of the queue, and the store through {lit}`pp`. -/
def enqueue (s : IdeState ι n β) (b : Fin n) : Except Stop (IdeState ι n β) :=
  match s.idequeue with
  | none => .ok { s with idequeue := some b }
  | some first =>
    match lastCell s.qnext (n + 1) first with
    | none => .error .endless
    | some last => .ok { s with qnext := Function.update s.qnext last (some b) }

/-- The loop at the end of `iderw` up to its return or its next sleep. -/
def await (s : IdeState ι n β) (i : ι) (b : Fin n) : IdeState ι n β :=
  { s with pc := Function.update s.pc i (if (s.bufs b).synced then .idle else .asleep b) }

/-- `iderw` of the queued driver, up to its return or its first sleep. -/
def iderw (s : IdeState ι n β) (i : ι) (b : Fin n) : Except Stop (IdeState ι n β) :=
  let x := s.bufs b
  if s.holder b ≠ some i then .error .notLocked
  else if x.synced then .error .nothingToDo
  else if x.dev ≠ 0 ∧ s.havedisk1 = false then .error .noDisk1
  else do
    let s := { s with
      qnext := Function.update s.qnext b none
      submitted := s.submitted ++ [b] }
    let s ← enqueue s b
    let s ← if s.idequeue = some b then idestart s b else .ok s
    .ok (await s i b)

/-- The device carries out its command and raises the interrupt. -/
def deviceDone (s : IdeState ι n β) : Option (IdeState ι n β) :=
  match s.device with
  | .working regs (some data) =>
    some { s with
      disk := Function.update s.disk regs.disk1
        (Function.update (s.disk regs.disk1) regs.sector data)
      device := .finished none }
  | .working regs none =>
    some { s with device := .finished (some (s.disk regs.disk1 regs.sector)) }
  | _ => none

/-- The first part of `ideintr`: the request of `b`, the first of the queue, is completed. -/
def complete (s : IdeState ι n β) (b : Fin n) (read : Option β) : IdeState ι n β :=
  let x := s.bufs b
  let x := if x.dirty then x else { x with data := read.getD x.data }
  { s with
    idequeue := s.qnext b
    bufs := Function.update s.bufs b x.sync
    pc := fun i => (s.pc i).wakeup b
    completed := s.completed ++ [b]
    device := .idle }

/-- `ideintr`, when the device has finished a command. -/
def ideintr (s : IdeState ι n β) (read : Option β) : Except Stop (IdeState ι n β) :=
  match s.idequeue with
  | none => .ok { s with device := .idle }
  | some b =>
    match s.qnext b with
    | none => .ok (complete s b read)
    | some c => idestart (complete s b read) c

/-- A panic stops the machine in the state before the section. -/
def settle (s : IdeState ι n β) : Except Stop (IdeState ι n β) → IdeState ι n β
  | .ok t => t
  | .error stop => { s with stop := some stop }

/-- Whether nobody has the buffer in `iderw`. -/
def free (s : IdeState ι n β) (b : Fin n) : Bool :=
  match s.holder b with
  | none => true
  | some i => s.pc i = .idle

/-- One section. -/
def ideStep (s : IdeState ι n β) (a : IdeAct ι n β) : Option (IdeState ι n β) :=
  if s.stop ≠ none then none
  else
    match a with
    | .acquiresleep i b =>
      if s.pc i = .idle ∧ s.holder b = none then
        some { s with holder := Function.update s.holder b (some i) }
      else none
    | .releasesleep i b =>
      if s.pc i = .idle ∧ s.holder b = some i then
        some { s with holder := Function.update s.holder b none }
      else none
    | .edit b x => if free s b then some { s with bufs := Function.update s.bufs b x } else none
    | .iderw i b => if s.pc i = .idle then some (settle s (iderw s i b)) else none
    | .resume i =>
      match s.pc i with
      | .awake b => some (await s i b)
      | _ => none
    | .kill i => some { s with pc := Function.update s.pc i (s.pc i).kill }
    | .device => deviceDone s
    | .ideintr =>
      match s.device with
      | .finished read => some (settle s (ideintr s read))
      | _ => none

/-! ## The in-memory disk -/

/-- The state of the driver of {lit}`memide.c`. -/
structure MemDisk (n : Nat) (β : Type) where
  memdisk : Nat → β
  bufs : Fin n → Buf β

/-- What the two drivers have in common: changes to buffers, and requests carried out. -/
inductive DiskEvent (n : Nat) (β : Type) where
  | edit (b : Fin n) (x : Buf β)
  | done (b : Fin n)

/-- `iderw` of the in-memory disk; undefined when it panics.  The image has
{lit}`FSSIZE` blocks. -/
def memIderw (d : MemDisk n β) (b : Fin n) : Option (MemDisk n β) :=
  let x := d.bufs b
  if x.synced then none
  else if x.dev ≠ 1 then none
  else if fssize ≤ x.blockno.toNat then none
  else if x.dirty then
    some
      { memdisk := Function.update d.memdisk x.blockno.toNat x.data
        bufs := Function.update d.bufs b x.sync }
  else
    some { d with
      bufs := Function.update d.bufs b { x with data := d.memdisk x.blockno.toNat }.sync }

/-- One event with the in-memory disk. -/
def memStep (d : MemDisk n β) : DiskEvent n β → Option (MemDisk n β)
  | .edit b x => some { d with bufs := Function.update d.bufs b x }
  | .done b => memIderw d b

/-- The events of a section of the queued driver: a request is carried out when its interrupt
is handled. -/
def ideEvents (s : IdeState ι n β) : IdeAct ι n β → List (DiskEvent n β)
  | .edit b x => [.edit b x]
  | .ideintr =>
    match s.device, s.idequeue with
    | .finished read, some b =>
      match ideintr s read with
      | .ok _ => [.done b]
      | .error _ => []
    | _, _ => []
  | _ => []

end Driver

end Xv6.Ide
