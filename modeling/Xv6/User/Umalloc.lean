import Xv6.Foundations.CircularList
import Xv6.Foundations.Runs

/-!
# User heap - The functions of umalloc.c

Addresses are byte addresses, and a header at an address has a pointer and a size in units of
16 bytes, a 32-bit number.  What `sbrk` returns is an input: null for {lit}`-1`, or the start
of a region above all earlier ones.  The searches along the free list are given a number of
rounds; a search that does not end in them marks the heap as stuck.

Main definitions:

- Definition {lit}`insertFree`: `free` on a header.
- Definition {lit}`mallocLoop`: the search of `malloc` with its calls of `morecore`.
- Definition {lit}`heapStep`: one call.
-/

namespace Xv6.Umalloc

open Foundations

/-- A block that `malloc` returned and that is not freed: its header, its units with the
header, and the bytes that were asked for. -/
structure Alloc where
  bp : Nat
  units : Nat
  bytes : Nat
  deriving DecidableEq

/-- The headers and the globals of the allocator, and what happened so far: the end of the
memory obtained from `sbrk`, its regions with their units, the live allocations, the number of
blocks put on the free list, and whether a search did not end. -/
structure Heap where
  ptr : Nat → Nat
  size : Nat → UInt32
  base : Nat
  freep : Nat
  brk : Nat
  regions : List (Nat × Nat)
  live : List Alloc
  inserts : Nat
  stuck : Bool

namespace Heap

/-- The address {lit}`p + p->s.size` behind a block. -/
def stop (h : Heap) (p : Nat) : Nat :=
  p + 16 * (h.size p).toNat

/-- Whether the search of `free` ends at `p`: the block `bp` belongs between `p` and its
successor, or `p` is where the list wraps around and `bp` is outside. -/
def place (h : Heap) (bp p : Nat) : Bool :=
  (p < bp && bp < h.ptr p) || (h.ptr p ≤ p && (p < bp || bp < h.ptr p))

/-- The first test of `free`: join `bp` with the block behind it, or link it there. -/
def joinNext (h : Heap) (bp p : Nat) : Heap :=
  let nxt := h.ptr p
  if h.stop bp = nxt then
    { h with
      size := Function.update h.size bp (h.size bp + h.size nxt)
      ptr := Function.update h.ptr bp (h.ptr nxt) }
  else { h with ptr := Function.update h.ptr bp nxt }

/-- The second test of `free`: join `bp` with the block before it, or link it there. -/
def joinPrev (h : Heap) (bp p : Nat) : Heap :=
  if h.stop p = bp then
    { h with
      size := Function.update h.size p (h.size p + h.size bp)
      ptr := Function.update h.ptr p (h.ptr bp) }
  else { h with ptr := Function.update h.ptr p bp }

/-- `free` on the header `bp`; undefined when the search does not end. -/
def insertFree (h : Heap) (bp : Nat) : Option Heap :=
  (seek h.ptr (h.place bp) (h.inserts + 1) h.freep).map fun p =>
    { (h.joinNext bp p).joinPrev bp p with freep := p, inserts := h.inserts + 1 }

/-- The units that `morecore` asks `sbrk` for. -/
def coreUnits (nunits : UInt32) : UInt32 :=
  if nunits < 4096 then 4096 else nunits

/-- `morecore` when `sbrk` returned `p`. -/
def morecore (h : Heap) (nunits : UInt32) (p : Nat) : Option Heap :=
  let nu := coreUnits nunits
  insertFree
    { h with
      size := Function.update h.size p nu
      regions := h.regions ++ [(p, nu.toNat)]
      brk := p + 16 * nu.toNat } p

/-- Take `nunits` from the block `p` behind `prevp`, all of it or its tail: the heap and the
address that `malloc` returns. -/
def allocate (h : Heap) (nunits : UInt32) (bytes prevp p : Nat) : Heap × Nat :=
  if h.size p = nunits then
    ({ h with
        ptr := Function.update h.ptr prevp (h.ptr p)
        freep := prevp
        live := h.live ++ [⟨p, nunits.toNat, bytes⟩] }, p + 16)
  else
    let left := h.size p - nunits
    let q := p + 16 * left.toNat
    ({ h with
        size := Function.update (Function.update h.size p left) q nunits
        freep := prevp
        live := h.live ++ [⟨q, nunits.toNat, bytes⟩] }, q + 16)

/-- The search of `malloc` from {lit}`freep` on: the block before the first one that is large
enough, or before {lit}`freep` if there is none. -/
def search (h : Heap) (nunits : UInt32) : Option Nat :=
  seek h.ptr (fun q => nunits ≤ h.size (h.ptr q) || h.ptr q == h.freep) (h.inserts + 1) h.freep

/-- The loop of `malloc`.  After `morecore` it goes on from the new {lit}`freep`, as it
started.  The answers of `sbrk` are used one by one; there is no step without one or with one
that is not above the earlier regions. -/
def mallocLoop (nunits : UInt32) (bytes : Nat) (answers : List (Option Nat)) (h : Heap) :
    Option (Heap × Nat) :=
  match h.search nunits with
  | none => some ({ h with stuck := true }, 0)
  | some prevp =>
    if nunits ≤ h.size (h.ptr prevp) then some (h.allocate nunits bytes prevp (h.ptr prevp))
    else
      match answers with
      | [] => none
      | none :: _ => some (h, 0)
      | some p :: answers =>
        if h.brk ≤ p then
          match h.morecore nunits p with
          | none => some ({ h with stuck := true }, 0)
          | some h => mallocLoop nunits bytes answers h
        else none

/-- The units for `nbytes` and a header. -/
def unitsFor (nbytes : UInt32) : UInt32 :=
  UInt32.ofNat ((nbytes.toNat + 15) / 16 + 1)

/-- The first call of `malloc` sets up the empty list. -/
def init (h : Heap) : Heap :=
  if h.freep = 0 then
    { h with
      ptr := Function.update h.ptr h.base h.base
      size := Function.update h.size h.base 0
      freep := h.base }
  else h

/-- `malloc`: the heap and the address returned, 0 for null. -/
def malloc (h : Heap) (nbytes : UInt32) (answers : List (Option Nat)) : Option (Heap × Nat) :=
  mallocLoop (unitsFor nbytes) nbytes.toNat answers h.init

/-- `free` on an address that `malloc` returned. -/
def free (h : Heap) (ap : Nat) : Option Heap :=
  (h.live.find? fun a => a.bp + 16 = ap).map fun a =>
    ((insertFree { h with live := h.live.erase a } a.bp).getD { h with stuck := true })

end Heap

/-- A program that has not called `malloc` yet. -/
def heapInit (base brk : Nat) (ptr : Nat → Nat) (size : Nat → UInt32) : Heap where
  ptr := ptr
  size := size
  base := base
  freep := 0
  brk := brk
  regions := []
  live := []
  inserts := 0
  stuck := false

/-- What the program does: calls, and stores into memory that it was given, here as the
header that would be at the address. -/
inductive HeapAct where
  | malloc (nbytes : UInt32) (answers : List (Option Nat))
  | free (ap : Nat)
  | store (addr ptr : Nat) (size : UInt32)

/-- One call or store. -/
def heapStep (h : Heap) (a : HeapAct) : Option Heap :=
  if h.stuck then none
  else
    match a with
    | .malloc nbytes answers => (h.malloc nbytes answers).map Prod.fst
    | .free ap => h.free ap
    | .store addr ptr size =>
      if h.live.any fun a => a.bp + 16 ≤ addr && addr + 16 ≤ a.bp + 16 * a.units then
        some { h with
          ptr := Function.update h.ptr addr ptr
          size := Function.update h.size addr size }
      else none

end Xv6.Umalloc
