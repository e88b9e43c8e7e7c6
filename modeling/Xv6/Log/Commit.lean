import Xv6.Params
import Xv6.Foundations.CrashWrites

/-!
# Log - Commit and recovery of one transaction

The part of `log.c` that moves blocks between the buffer cache, the log area and
their home locations.  A {lit}`LogState` holds the in-memory header, the data of
every buffer as `bread` would return it, and the sequence of block writes issued
so far; each `bwrite` appends one atomic write.

Main results:

- Theorem {lit}`readHead_writeHead`: the header block reads back as written.
- Theorems {lit}`writeLog_writes` and {lit}`installTrans_writes`: the exact
  block writes of the two copy loops.
- Theorems {lit}`commit_writes` and {lit}`recoverFromLog_writes`: the exact
  write sequences of a commit and of a recovery.
-/

namespace Xv6.Log

open Foundations

/-- `struct logheader`: the block numbers `block[0..n)` of a transaction.  The
array has `LOGSIZE` entries, so no header names more blocks. -/
structure LogHeader where
  block : List UInt32
  fits : block.length ≤ logsize

namespace LogHeader

/-- The field `n`. -/
def n (lh : LogHeader) : Nat :=
  lh.block.length

/-- The header after `lh.n = 0`. -/
def empty : LogHeader where
  block := []
  fits := by simp

/-- Home location of the `tail`-th block. -/
def home (lh : LogHeader) (tail : Nat) : Nat :=
  (lh.block.getD tail 0).toNat

/-- All home locations. -/
def homes (lh : LogHeader) : List Nat :=
  lh.block.map UInt32.toNat

@[simp]
theorem empty_n : empty.n = 0 :=
  rfl

@[simp]
theorem empty_homes : empty.homes = [] :=
  rfl

theorem ext_block {lh lh' : LogHeader} (h : lh.block = lh'.block) : lh = lh' := by
  cases lh
  cases lh'
  simpa using h

theorem n_le (lh : LogHeader) : lh.n ≤ 30 := by
  simpa [n] using lh.fits

/-- The home blocks are those of the entries in use. -/
theorem mem_homes {lh : LogHeader} {b : Nat} :
    b ∈ lh.homes ↔ ∃ i, i < lh.n ∧ lh.home i = b := by
  unfold homes home n
  rw [List.mem_map]
  constructor
  · rintro ⟨x, hx, rfl⟩
    obtain ⟨i, hi, rfl⟩ := List.mem_iff_getElem.mp hx
    exact ⟨i, hi, by simp [List.getD_eq_getElem?_getD, hi]⟩
  · rintro ⟨i, hi, rfl⟩
    refine ⟨lh.block[i], List.getElem_mem hi, ?_⟩
    simp [List.getD_eq_getElem?_getD, hi]

theorem home_mem {lh : LogHeader} {i : Nat} (hi : i < lh.n) : lh.home i ∈ lh.homes :=
  mem_homes.mpr ⟨i, hi, rfl⟩

end LogHeader

/-! ## The header block -/

/-- The count of an on-disk header, an `int`: a negative count runs no loop. -/
def headCount (blk : Block) : Nat :=
  (blk.read Layout.u32 0).toInt32.toInt.toNat

/-- `read_head`: the header stored in a block.  Copying stops at the `LOGSIZE`
entries that the in-memory array has. -/
def readHead (blk : Block) : LogHeader where
  block := ((List.range (headCount blk)).map fun i =>
    blk.read Layout.u32 (4 + 4 * i)).take logsize
  fits := by simp

/-- The entries that `read_head` reads. -/
theorem readHead_block (blk : Block) :
    (readHead blk).block =
      ((List.range (headCount blk)).map fun i =>
        blk.read Layout.u32 (4 + 4 * i)).take logsize :=
  rfl

/-- One iteration of the loop of `write_head`. -/
def putEntry (lh : LogHeader) (hb : Block) (i : Nat) : Block :=
  hb.write Layout.u32 (4 + 4 * i) (lh.block.getD i 0)

/-- `write_head` on the header buffer: the count, then the entries below it.
Stale entries above the count stay in the block. -/
def fillHead (lh : LogHeader) (hb : Block) : Block :=
  (List.range lh.n).foldl (putEntry lh) (hb.write Layout.u32 0 (UInt32.ofNat lh.n))

theorem foldl_putEntry_count (lh : LogHeader) (hb : Block) (m : Nat) :
    ((List.range m).foldl (putEntry lh) hb).read Layout.u32 0 = hb.read Layout.u32 0 := by
  induction m with
  | zero => rfl
  | succ m ih =>
    rw [List.range_succ, List.foldl_append]
    simp only [List.foldl_cons, List.foldl_nil, putEntry]
    rw [Bytes.read_write_disjoint (Or.inl (by simp [Layout.u32])), ih]

/-- The loop of `write_head` stores every entry. -/
theorem foldl_putEntry_entry (lh : LogHeader) (hb : Block) {m i : Nat}
    (hm : m ≤ 30) (hi : i < m) :
    ((List.range m).foldl (putEntry lh) hb).read Layout.u32 (4 + 4 * i) =
      lh.block.getD i 0 := by
  induction m with
  | zero => omega
  | succ m ih =>
    rw [List.range_succ, List.foldl_append]
    simp only [List.foldl_cons, List.foldl_nil, putEntry]
    by_cases him : i = m
    · subst him
      exact Bytes.read_write_same (by simp [Layout.u32]; omega)
    · have hlt : i < m := by omega
      rw [Bytes.read_write_disjoint (Or.inl (by simp [Layout.u32]; omega))]
      exact ih (by omega) hlt

/-- The count field after `write_head`. -/
theorem headCount_fillHead (lh : LogHeader) (hb : Block) :
    headCount (fillHead lh hb) = lh.n := by
  have hfit := lh.n_le
  unfold headCount fillHead
  rw [foldl_putEntry_count, Bytes.read_write_same (by simp [Layout.u32])]
  -- at most `LOGSIZE`, so the count is the same as a signed number
  exact toNat_toInt_toInt32_ofNat (by omega)

/-- What `write_head` stores, `read_head` returns. -/
theorem readHead_fillHead (lh : LogHeader) (hb : Block) :
    readHead (fillHead lh hb) = lh := by
  apply LogHeader.ext_block
  rw [readHead_block, headCount_fillHead,
    List.take_of_length_le (by simpa [LogHeader.n] using lh.fits)]
  apply List.ext_getElem
  · simp [LogHeader.n]
  · intro i hi hi'
    simp only [List.getElem_map, List.getElem_range]
    unfold fillHead
    rw [foldl_putEntry_entry lh _ lh.n_le hi']
    simp [List.getD_eq_getElem?_getD, hi']

/-- A header whose count is zero names no block. -/
theorem readHead_of_headCount_zero {blk : Block} (h : headCount blk = 0) :
    readHead blk = LogHeader.empty := by
  apply LogHeader.ext_block
  simp [readHead_block, h, LogHeader.empty]

/-! ## State and primitive steps -/

/-- `struct log`: the log area is the blocks `start, ..., start + size - 1`. -/
structure LogArea where
  start : Nat
  size : Nat

/-- Blocks of the log area. -/
def LogArea.Contains (log : LogArea) (b : Nat) : Prop :=
  log.start ≤ b ∧ b < log.start + log.size

/-- The part of the kernel state that `log.c` works on. -/
structure LogState where
  lh : LogHeader
  cache : Nat → Block
  writes : List (Nat × Block)

/-- `bwrite`: the buffer of block `b` goes to disk. -/
def bwrite (s : LogState) (b : Nat) : LogState :=
  { s with writes := s.writes ++ [(b, s.cache b)] }

/-- `memmove` into the buffer of block `b`. -/
def setData (s : LogState) (b : Nat) (data : Block) : LogState :=
  { s with cache := Function.update s.cache b data }

/-- Body of the loop of `write_log`: copy a cache block to its log block. -/
def writeLogStep (log : LogArea) (s : LogState) (tail : Nat) : LogState :=
  let dst := log.start + tail + 1
  bwrite (setData s dst (s.cache (s.lh.home tail))) dst

/-- `write_log`. -/
def writeLog (log : LogArea) (s : LogState) : LogState :=
  (List.range s.lh.n).foldl (writeLogStep log) s

/-- Body of the loop of `install_trans`: copy a log block to its home. -/
def installStep (log : LogArea) (s : LogState) (tail : Nat) : LogState :=
  let dst := s.lh.home tail
  bwrite (setData s dst (s.cache (log.start + tail + 1))) dst

/-- `install_trans`. -/
def installTrans (log : LogArea) (s : LogState) : LogState :=
  (List.range s.lh.n).foldl (installStep log) s

/-- `write_head`: the true point at which the transaction commits. -/
def writeHead (log : LogArea) (s : LogState) : LogState :=
  bwrite (setData s log.start (fillHead s.lh (s.cache log.start))) log.start

/-- `lh.n = 0`. -/
def clearHead (s : LogState) : LogState :=
  { s with lh := LogHeader.empty }

/-- `commit`. -/
def commit (log : LogArea) (s : LogState) : LogState :=
  if 0 < s.lh.n then
    writeHead log (clearHead (installTrans log (writeHead log (writeLog log s))))
  else s

/-- `recover_from_log`. -/
def recoverFromLog (log : LogArea) (s : LogState) : LogState :=
  let s := { s with lh := readHead (s.cache log.start) }
  writeHead log (clearHead (installTrans log s))

/-- State in which recovery starts: nothing is cached, so every `bread` returns
the disk contents.  The in-memory header is overwritten by `read_head`. -/
def boot (d : Disk) : LogState where
  lh := LogHeader.empty
  cache := d
  writes := []

/-- State in which `commit` starts: the buffers of the logged blocks hold the
new contents, all others agree with the disk. -/
def beginCommit (d : Disk) (lh : LogHeader) (new : Nat → Block) : LogState where
  lh := lh
  cache b := if b ∈ lh.homes then new b else d b
  writes := []

theorem beginCommit_cache_home {d : Disk} {lh : LogHeader} {new : Nat → Block} {b : Nat}
    (h : b ∈ lh.homes) : (beginCommit d lh new).cache b = new b := by
  simp [beginCommit, h]

theorem beginCommit_cache_other {d : Disk} {lh : LogHeader} {new : Nat → Block} {b : Nat}
    (h : b ∉ lh.homes) : (beginCommit d lh new).cache b = d b := by
  simp [beginCommit, h]

/-! ## What the copy loops write -/

section Loops

variable {log : LogArea}

@[simp]
theorem writeHead_lh (s : LogState) : (writeHead log s).lh = s.lh :=
  rfl

/-- A transaction that fits the log area and stays outside it. -/
def Fits (log : LogArea) (lh : LogHeader) : Prop :=
  lh.n + 1 ≤ log.size ∧ ∀ b ∈ lh.homes, ¬log.Contains b

theorem Fits.contains_log {lh : LogHeader} (h : Fits log lh) {i : Nat} (hi : i < lh.n) :
    log.Contains (log.start + i + 1) := by
  have := h.1
  constructor <;> omega

theorem Fits.contains_start {lh : LogHeader} (h : Fits log lh) :
    log.Contains log.start := by
  have := h.1
  constructor <;> omega

/-- Home blocks are not in the log. -/
theorem Fits.home_ne_log {lh : LogHeader} (h : Fits log lh) {i j : Nat}
    (hi : i < lh.n) (hj : j < lh.n) : lh.home i ≠ log.start + j + 1 := by
  intro heq
  exact h.2 _ (lh.home_mem hi) (heq ▸ h.contains_log hj)

theorem Fits.home_ne_start {lh : LogHeader} (h : Fits log lh) {i : Nat}
    (hi : i < lh.n) : lh.home i ≠ log.start := by
  intro heq
  exact h.2 _ (lh.home_mem hi) (heq ▸ h.contains_start)

/-- State of the loop of `write_log` after `m` iterations: the header is kept,
home buffers are untouched, the first `m` log buffers hold their copies, and one
write per iteration was issued. -/
theorem writeLog_prefix {s : LogState} (hfits : Fits log s.lh) {m : Nat} (hm : m ≤ s.lh.n) :
    let t := (List.range m).foldl (writeLogStep log) s
    t.lh = s.lh ∧
      (∀ b, (∀ i < m, b ≠ log.start + i + 1) → t.cache b = s.cache b) ∧
      (∀ i < m, t.cache (log.start + i + 1) = s.cache (s.lh.home i)) ∧
      t.writes = s.writes ++
        (List.range m).map fun i => (log.start + i + 1, s.cache (s.lh.home i)) := by
  induction m with
  | zero => simp
  | succ m ih =>
    obtain ⟨hlh, hkeep, hcopy, hwrites⟩ := ih (by omega)
    rw [List.range_succ, List.foldl_append]
    set t := (List.range m).foldl (writeLogStep log) s with ht
    have hsrc : t.cache (s.lh.home m) = s.cache (s.lh.home m) :=
      hkeep _ fun i hi => hfits.home_ne_log (by omega) (by omega)
    simp only [List.foldl_cons, List.foldl_nil, writeLogStep, bwrite, setData, hlh, hsrc]
    refine ⟨trivial, ?_, ?_, ?_⟩
    · intro b hb
      have hbm : b ≠ log.start + m + 1 := hb m (by omega)
      rw [Function.update_of_ne hbm]
      exact hkeep b fun i hi => hb i (by omega)
    · intro i hi
      by_cases him : i = m
      · subst him
        rw [Function.update_self]
      · have hne : log.start + i + 1 ≠ log.start + m + 1 := by omega
        rw [Function.update_of_ne hne]
        exact hcopy i (by omega)
    · simp [hwrites]

/-- State of the loop of `install_trans` after `m` iterations. -/
theorem installTrans_prefix {s : LogState} (hfits : Fits log s.lh) {m : Nat}
    (hm : m ≤ s.lh.n) :
    let t := (List.range m).foldl (installStep log) s
    t.lh = s.lh ∧ (∀ b, log.Contains b → t.cache b = s.cache b) ∧
      t.writes = s.writes ++
        (List.range m).map fun i => (s.lh.home i, s.cache (log.start + i + 1)) := by
  induction m with
  | zero => simp
  | succ m ih =>
    obtain ⟨hlh, hkeep, hwrites⟩ := ih (by omega)
    rw [List.range_succ, List.foldl_append]
    set t := (List.range m).foldl (installStep log) s with ht
    have hsrc : t.cache (log.start + m + 1) = s.cache (log.start + m + 1) :=
      hkeep _ (hfits.contains_log (by omega))
    simp only [List.foldl_cons, List.foldl_nil, installStep, bwrite, setData, hlh, hsrc]
    refine ⟨trivial, ?_, ?_⟩
    · intro b hb
      have hbm : b ≠ s.lh.home m := by
        rintro rfl
        exact hfits.2 _ (s.lh.home_mem (by omega)) hb
      rw [Function.update_of_ne hbm]
      exact hkeep b hb
    · simp [hwrites]

/-- The writes of `write_log`. -/
def logWrites (log : LogArea) (lh : LogHeader) (cache : Nat → Block) : List (Nat × Block) :=
  (List.range lh.n).map fun i => (log.start + i + 1, cache (lh.home i))

/-- The writes of `install_trans`. -/
def homeWrites (log : LogArea) (lh : LogHeader) (cache : Nat → Block) : List (Nat × Block) :=
  (List.range lh.n).map fun i => (lh.home i, cache (log.start + i + 1))

@[simp]
theorem logWrites_length (lh : LogHeader) (cache : Nat → Block) :
    (logWrites log lh cache).length = lh.n := by
  simp [logWrites]

/-- The write sequence of a recovery: home blocks, then the cleared header. -/
theorem recoverFromLog_writes {d : Disk} (hfits : Fits log (readHead (d log.start))) :
    (recoverFromLog log (boot d)).writes =
      homeWrites log (readHead (d log.start)) d ++
        [(log.start, fillHead LogHeader.empty (d log.start))] := by
  obtain ⟨-, hkeep, hwrites⟩ :=
    installTrans_prefix (s := { boot d with lh := readHead (d log.start) }) hfits le_rfl
  have hstart := hkeep _ hfits.contains_start
  simp only [boot] at hstart hwrites
  simp only [recoverFromLog, writeHead, bwrite, setData, clearHead, installTrans, boot,
    Function.update_self, hstart, hwrites, List.nil_append, homeWrites]

/-- State of a commit after `write_log`: every log buffer holds the new contents
of its block and the header buffer is still the one on disk. -/
theorem writeLog_beginCommit (d : Disk) {lh : LogHeader} (new : Nat → Block)
    (hfits : Fits log lh) :
    let u := writeLog log (beginCommit d lh new)
    u.lh = lh ∧ u.cache log.start = d log.start ∧
      (∀ i < lh.n, u.cache (log.start + i + 1) = new (lh.home i)) ∧
      u.writes = logWrites log lh new := by
  obtain ⟨hlh, hkeep, hcopy, hwrites⟩ :=
    writeLog_prefix (s := beginCommit d lh new) hfits le_rfl
  have hstart : log.start ∉ lh.homes := fun hmem => hfits.2 _ hmem hfits.contains_start
  refine ⟨hlh, ?_, ?_, ?_⟩
  · have hkept := hkeep log.start fun i _ => by omega
    exact hkept.trans (beginCommit_cache_other hstart)
  · intro i hi
    exact (hcopy i hi).trans (beginCommit_cache_home (lh.home_mem hi))
  · unfold writeLog
    rw [hwrites]
    apply List.map_congr_left
    intro i hi
    exact Prod.ext rfl (beginCommit_cache_home (lh.home_mem (List.mem_range.mp hi)))

/-- The write sequence of a commit: log blocks, header, home blocks, cleared
header.  The contents installed are those that were copied to the log. -/
theorem commit_writes (d : Disk) {lh : LogHeader} (new : Nat → Block)
    (hfits : Fits log lh) (hpos : 0 < lh.n) :
    ∃ hdr, (commit log (beginCommit d lh new)).writes =
      logWrites log lh new ++ ([(log.start, fillHead lh (d log.start))] ++
        ((List.range lh.n).map (fun i => (lh.home i, new (lh.home i))) ++
          [(log.start, fillHead LogHeader.empty hdr)])) := by
  obtain ⟨hulh, hstart, hcopy, hwrites⟩ := writeLog_beginCommit d new hfits
  set u := writeLog log (beginCommit d lh new) with hu
  -- `v` is the state after the committing `write_head`
  set v := writeHead log u with hv
  have hvlh : v.lh = lh := by rw [hv, writeHead_lh, hulh]
  have hvlog : ∀ i < lh.n, v.cache (log.start + i + 1) = new (lh.home i) := by
    intro i hi
    have hne : log.start + i + 1 ≠ log.start := by omega
    simpa [hv, writeHead, bwrite, setData, hne] using hcopy i hi
  have hvwrites : v.writes =
      logWrites log lh new ++ [(log.start, fillHead lh (d log.start))] := by
    simp only [hv, writeHead, bwrite, setData, Function.update_self, hulh, hstart, hwrites]
  obtain ⟨-, -, hinstall⟩ :=
    installTrans_prefix (s := v) (m := v.lh.n) (hvlh ▸ hfits) le_rfl
  have hhomes : ((List.range lh.n).map fun i => (lh.home i, v.cache (log.start + i + 1))) =
      (List.range lh.n).map fun i => (lh.home i, new (lh.home i)) := by
    apply List.map_congr_left
    intro i hi
    rw [hvlog i (List.mem_range.mp hi)]
  have hrun : commit log (beginCommit d lh new) =
      writeHead log (clearHead (installTrans log v)) := by
    have hpos' : 0 < (beginCommit d lh new).lh.n := hpos
    rw [commit, if_pos hpos']
  refine ⟨(installTrans log v).cache log.start, ?_⟩
  rw [hrun]
  simp only [writeHead, bwrite, setData, clearHead, Function.update_self, installTrans]
  rw [hinstall, hvwrites, hvlh, hhomes]
  simp only [List.append_assoc]

end Loops

end Xv6.Log
