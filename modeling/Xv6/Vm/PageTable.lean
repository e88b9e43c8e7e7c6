import Xv6.Vm.Machine

/-!
# Virtual memory - Page tables

The functions of `vm.c` that build, change and free page tables.  A table is named by
its page number.  Addresses and sizes are natural numbers below `2^64`, with the
remainder taken where a sum may wrap; entries are 64-bit words.

The loops over the addresses from one page boundary to another run over the list of
these addresses.

Main definitions:

- {lit}`walkpgdir`: the entry for an address.
- {lit}`mappages`, {lit}`allocuvm`, {lit}`deallocuvm`: changes of the map.
- {lit}`setupkvm`, {lit}`copyuvm`, {lit}`freevm`: whole address spaces.
- {lit}`copyout`, {lit}`loaduvm`: what the kernel stores in user pages.
-/

namespace Xv6.Vm

open Foundations

attribute [local instance] neZero_index

/-! ## Addresses -/

/-- The nine bits of an address from bit `s` on. -/
def px (s : Nat) (va : Nat) : Index :=
  ⟨va / 2 ^ s % 512, Nat.mod_lt _ (by decide)⟩

/-- `PMX`. -/
def pmx : Nat → Index :=
  px 39

/-- `PDPX`. -/
def pdpx : Nat → Index :=
  px 30

/-- `PDX`. -/
def pdx : Nat → Index :=
  px 21

/-- `PTX`. -/
def ptx : Nat → Index :=
  px 12

/-- `PGROUNDDOWN`. -/
def pgrounddown (a : Nat) : Nat :=
  a / pgsize * pgsize

/-- `PGROUNDUP`. -/
def pgroundup (sz : Nat) : Nat :=
  (sz + (pgsize - 1)) % 2 ^ 64 / pgsize * pgsize

/-- `n` page addresses from `a` on. -/
def pagesFrom (a n : Nat) : List Nat :=
  (List.range n).map fun k => a + k * pgsize

/-- The addresses that a loop `for(; a < limit; a += PGSIZE)` goes through. -/
def pagesBelow (a limit : Nat) : List Nat :=
  pagesFrom a ((limit - a + (pgsize - 1)) / pgsize)

/-! ## The map -/

/-- One level of `walkpgdir`: the table that entry `i` of table `t` points to, which is
made if there is none and `alloc` is set. -/
def descend (t : Nat) (i : Index) (alloc : Bool) : VmM (Option Nat) := do
  let m ← Exec.get
  if present (m.pte t i) then
    pure (some (frame (m.pte t i)))
  else if alloc = false then
    pure none
  else
    match ← kalloc with
    | none => pure none
    | some f => do
      Exec.modify fun m => m.setPage f (Bytes.zero pgsize)
      Exec.modify fun m => m.setPte t i (physAddr f ||| (pteP ||| pteW ||| pteU))
      pure (some f)

/-- `walkpgdir`: the table and the index of the entry for `va`. -/
def walkpgdir (pml4 : Nat) (va : Nat) (alloc : Bool) : VmM (Option (Nat × Index)) := do
  match ← descend pml4 (pmx va) alloc with
  | none => pure none
  | some pdp =>
    match ← descend pdp (pdpx va) alloc with
    | none => pure none
    | some pd =>
      match ← descend pd (pdx va) alloc with
      | none => pure none
      | some pgtab => pure (some (pgtab, ptx va))

/-- One round of the loop of `mappages`. -/
def mapPage (pgdir a : Nat) (pa perm : UInt64) : VmM Int := do
  match ← walkpgdir pgdir a true with
  | none => pure (-1)
  | some (t, i) => do
    let m ← Exec.get
    if present (m.pte t i) then
      Exec.stop .remap
    else do
      Exec.modify fun m => m.setPte t i (pa ||| perm ||| pteP)
      pure 0

/-- The loop of `mappages`, with `n` more pages to go after `a`. -/
def mappagesLoop (pgdir : Nat) (perm : UInt64) : Nat → Nat → UInt64 → VmM Int
  | 0, a, pa => mapPage pgdir a pa perm
  | n + 1, a, pa => do
    let r ← mapPage pgdir a pa perm
    if r < 0 then
      pure (-1)
    else
      mappagesLoop pgdir perm n ((a + pgsize) % 2 ^ 64) (pa + 4096)

/-- `mappages`. -/
def mappages (pgdir va size : Nat) (pa perm : UInt64) : VmM Int :=
  let a := pgrounddown va
  let last := pgrounddown ((va + size + (2 ^ 64 - 1)) % 2 ^ 64)
  mappagesLoop pgdir perm ((last + (2 ^ 64 - a)) % 2 ^ 64 / pgsize) a pa

/-- The body of the loop of `deallocuvm`. -/
def deallocPage (pgdir a : Nat) : VmM Unit := do
  match ← walkpgdir pgdir a false with
  | none => pure ()
  | some (t, i) => do
    let m ← Exec.get
    if present (m.pte t i) then do
      let pa := frame (m.pte t i)
      if pa = 0 then
        Exec.stop .kfree
      else do
        kfree pa
        Exec.modify fun m => m.setPte t i 0
    else
      pure ()

/-- `deallocuvm`. -/
def deallocuvm (pgdir oldsz newsz : Nat) : VmM Nat := do
  if newsz ≥ oldsz then
    pure oldsz
  else do
    Exec.forEach (deallocPage pgdir) (pagesBelow (pgroundup newsz) oldsz)
    pure newsz

/-- One round of the loop of `allocuvm`: whether it goes on. -/
def allocPage (pgdir oldsz newsz a : Nat) : VmM Bool := do
  match ← kalloc with
  | none => do
    let _ ← deallocuvm pgdir newsz oldsz
    pure false
  | some f => do
    Exec.modify fun m => m.setPage f (Bytes.zero pgsize)
    let r ← mappages pgdir a pgsize (physAddr f) (pteW ||| pteU)
    if r < 0 then do
      let _ ← deallocuvm pgdir newsz oldsz
      kfree f
      pure false
    else
      pure true

/-- The loop of `allocuvm`, with the given addresses to go. -/
def allocuvmLoop (pgdir oldsz newsz : Nat) : List Nat → VmM Nat
  | [] => pure newsz
  | a :: as => do
    let more ← allocPage pgdir oldsz newsz a
    if more then allocuvmLoop pgdir oldsz newsz as else pure 0

/-- `allocuvm`. -/
def allocuvm (pgdir oldsz newsz : Nat) : VmM Nat :=
  if newsz ≥ kernbase then pure 0
  else if newsz < oldsz then pure oldsz
  else allocuvmLoop pgdir oldsz newsz (pagesBelow (pgroundup oldsz) newsz)

/-! ## Address spaces -/

/-- `setupkvm`, which clears the page without a test for null. -/
def setupkvm : VmM Nat := do
  match ← kalloc with
  | none => Exec.stop .nullPointer
  | some f => do
    Exec.modify fun m => m.setPage f (Bytes.zero pgsize)
    Exec.modify fun m => m.setPte f 256 (physAddr m.kpdpt ||| (pteP ||| pteW))
    pure f

/-- Free what the entries of table `t` at the given indices point to, then the table. -/
def freeTable (free : Nat → VmM Unit) (indices : List Index) (t : Nat) : VmM Unit := do
  Exec.forEach (fun i => do
    let m ← Exec.get
    if present (m.pte t i) then free (frame (m.pte t i)) else pure ()) indices
  kfree t

/-- The loops of `freevm` below the root: free the pages that are `d` levels below `t`,
and those between. -/
def freeTree : Nat → Nat → VmM Unit
  | 0 => kfree
  | d + 1 => freeTable (freeTree d) (List.finRange 512)

/-- The indices of the user half. -/
def userIndices : List Index :=
  (List.finRange 512).filter fun i => i.val < 256

/-- `freevm`. -/
def freevm : Option Nat → VmM Unit
  | none => Exec.stop .freevmNoPgdir
  | some pml4 => freeTable (freeTree 3) userIndices pml4

/-- `clearpteu`. -/
def clearpteu (pgdir uva : Nat) : VmM Unit := do
  match ← walkpgdir pgdir uva false with
  | none => Exec.stop .clearpteu
  | some (t, i) => Exec.modify fun m => m.setPte t i (m.pte t i &&& ~~~pteU)

/-- One round of the loop of `copyuvm`: whether it goes on. -/
def copyPage (d pgdir i : Nat) : VmM Bool := do
  match ← walkpgdir pgdir i false with
  | none => Exec.stop .copyuvmPteShouldExist
  | some (t, k) => do
    let m ← Exec.get
    if present (m.pte t k) then
      match ← kalloc with
      | none => pure false
      | some f => do
        Exec.modify fun m => m.setPage f (m.mem (frame (m.pte t k)))
        let r ← mappages d i pgsize (physAddr f) (m.pte t k &&& 0xfff)
        pure (decide (0 ≤ r))
    else
      Exec.stop .copyuvmPageNotPresent

/-- The loop of `copyuvm`, with the given addresses to go. -/
def copyPages (d pgdir : Nat) : List Nat → VmM Bool
  | [] => pure true
  | i :: is => do
    let more ← copyPage d pgdir i
    if more then copyPages d pgdir is else pure false

/-- `copyuvm`; its size is an `uint`. -/
def copyuvm (pgdir sz : Nat) : VmM (Option Nat) := do
  let d ← setupkvm
  let done ← copyPages d pgdir (pagesBelow pgsize (sz % 2 ^ 32))
  if done then
    pure (some d)
  else do
    freevm (some d)
    pure none

/-! ## User memory -/

/-- `uva2ka`: the page that holds `uva`; there is no test whether there is an entry. -/
def uva2ka (pgdir uva : Nat) : VmM (Option Nat) := do
  match ← walkpgdir pgdir uva false with
  | none => Exec.stop .nullPointer
  | some (t, i) => do
    let m ← Exec.get
    if present (m.pte t i) ∧ m.pte t i &&& pteU ≠ 0 then
      pure (some (frame (m.pte t i)))
    else
      pure none

/-- The loop of `copyout`, for at most `fuel` rounds. -/
def copyoutLoop (pgdir : Nat) : Nat → Nat → List UInt8 → VmM Int
  | 0, _, _ => pure 0
  | fuel + 1, va, buf => do
    if buf = [] then
      pure 0
    else do
      let va0 := pgrounddown va
      match ← uva2ka pgdir va0 with
      | none => pure (-1)
      | some f => do
        let n := min (pgsize - (va - va0)) buf.length
        Exec.modify fun m => m.setPage f ((m.mem f).overwrite (va - va0) (buf.take n))
        copyoutLoop pgdir fuel ((va0 + pgsize) % 2 ^ 64) (buf.drop n)

/-- `copyout`; each round copies at least one byte. -/
def copyout (pgdir va : Nat) (buf : List UInt8) : VmM Int :=
  copyoutLoop pgdir buf.length va buf

/-- What `readi` reads from a regular file, for `uint` arguments. -/
def readFile (file : List UInt8) (off n : Nat) : Option (List UInt8) :=
  if file.length < off ∨ 2 ^ 32 ≤ off + n then none else some ((file.drop off).take n)

/-- One round of the loop of `loaduvm`: whether it goes on.  The entry is not tested for
`PTE_P`. -/
def loadPage (pgdir addr : Nat) (file : List UInt8) (offset sz i : Nat) : VmM Bool := do
  match ← walkpgdir pgdir ((addr + i) % 2 ^ 64) false with
  | none => Exec.stop .loaduvmAddressShouldExist
  | some (t, k) => do
    let m ← Exec.get
    let n := min (sz - i) pgsize
    match readFile file ((offset + i) % 2 ^ 32) n with
    | none => pure false
    | some bytes => do
      Exec.modify fun m' => m'.setPage (frame (m.pte t k))
        ((m'.mem (frame (m.pte t k))).overwrite 0 bytes)
      pure (decide (bytes.length = n))

/-- The loop of `loaduvm`, with the given offsets to go. -/
def loadPages (page : Nat → VmM Bool) : List Nat → VmM Bool
  | [] => pure true
  | i :: is => do
    let more ← page i
    if more then loadPages page is else pure false

/-- How a segment is loaded: page table, address, file, offset and size. -/
abbrev Loader := Nat → Nat → List UInt8 → Nat → Nat → VmM Bool

/-- `loaduvm` with the given body of the loop; offset and size are an `uint`. -/
def loadWith (page : Nat → Nat → List UInt8 → Nat → Nat → Nat → VmM Bool) : Loader :=
  fun pgdir addr file offset sz =>
    if addr % pgsize ≠ 0 then Exec.stop .loaduvmNotAligned
    else loadPages (page pgdir addr file (offset % 2 ^ 32) (sz % 2 ^ 32))
      (pagesBelow 0 (sz % 2 ^ 32))

/-- `loaduvm`. -/
def loaduvm : Loader :=
  loadWith loadPage

end Xv6.Vm
