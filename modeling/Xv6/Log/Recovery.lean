import Xv6.Log.Commit

/-!
# Log - Crash atomicity

A crash lets some prefix of the block writes of `commit` reach the disk.
Recovery then runs from `read_head`, may itself be cut any number of times, and
finally completes.  Two disk predicates carry the argument: {lit}`Clean` (the
header is clear and the home blocks are as given) and {lit}`Committed` (the
header names the transaction and the log blocks hold its contents).  Every cut
of a commit or of a recovery leaves the disk in one of them.

Main results:

- Theorem {lit}`crashAt_commit`: where a cut commit leaves the disk.
- Theorems {lit}`Clean.crashAt_recover` and {lit}`Committed.crashAt_recover`:
  where a cut recovery leaves it.
- Theorem {lit}`commit_crash_atomic`: after recovery the home blocks hold all of
  the transaction or none of it.
-/

namespace Xv6.Log

open Foundations

/-- The disk after a crash that let the first `k` writes through. -/
def crashAt (d : Disk) (s : LogState) (k : Nat) : Disk :=
  applyWrites d (s.writes.take k)

/-- Recoveries that are cut by a crash and restarted any number of times, and
finally one that completes. -/
inductive Recovers (log : LogArea) : Disk → Disk → Prop
  | done (d : Disk) :
      Recovers log d (applyWrites d (recoverFromLog log (boot d)).writes)
  | cut {d d' : Disk} (k : Nat) :
      Recovers log (crashAt d (recoverFromLog log (boot d)) k) d' → Recovers log d d'

/-- The on-disk header has `n = 0`. -/
def HeadClear (blk : Block) : Prop :=
  blk.read Layout.u32 0 = 0

/-- Contents of the disk once the transaction is installed. -/
def installed (d : Disk) (lh : LogHeader) (new : Nat → Block) : Disk :=
  fun b => if b ∈ lh.homes then new b else d b

/-- No transaction is in the log and the blocks outside it are those of `home`. -/
def Clean (log : LogArea) (home d : Disk) : Prop :=
  HeadClear (d log.start) ∧ ∀ b, ¬log.Contains b → d b = home b

/-- The transaction is in the log.  Its home blocks may hold anything: recovery
overwrites them. -/
def Committed (log : LogArea) (lh : LogHeader) (new : Nat → Block) (home d : Disk) : Prop :=
  readHead (d log.start) = lh ∧
    (∀ i < lh.n, d (log.start + i + 1) = new (lh.home i)) ∧
    ∀ b, ¬log.Contains b → b ∉ lh.homes → d b = home b

theorem HeadClear.readHead {blk : Block} (h : HeadClear blk) :
    readHead blk = LogHeader.empty := by
  apply readHead_of_headCount_zero
  unfold headCount
  rw [h]
  rfl

theorem headClear_fillHead_empty (hb : Block) : HeadClear (fillHead LogHeader.empty hb) := by
  unfold HeadClear fillHead
  rw [foldl_putEntry_count, Bytes.read_write_same (by simp [Layout.u32])]
  rfl

section Crash

variable {log : LogArea} {lh : LogHeader} {new : Nat → Block} {home d : Disk}

/-! ## Single writes -/

/-- Clearing the header keeps a clean disk clean. -/
theorem Clean.clear (h : Clean log home d) (hstart : log.Contains log.start) (hb : Block) :
    Clean log home (Function.update d log.start (fillHead LogHeader.empty hb)) := by
  refine ⟨by simpa using headClear_fillHead_empty hb, ?_⟩
  intro b hbout
  have hne : b ≠ log.start := fun heq => hbout (heq ▸ hstart)
  rw [Function.update_of_ne hne]
  exact h.2 b hbout

/-- Writes to the log blocks, the header apart, keep a clean disk clean. -/
theorem Clean.logBlock (h : Clean log home d) {i : Nat}
    (hi : log.Contains (log.start + i + 1)) (v : Block) :
    Clean log home (Function.update d (log.start + i + 1) v) := by
  refine ⟨?_, ?_⟩
  · have hne : log.start ≠ log.start + i + 1 := by omega
    rw [Function.update_of_ne hne]
    exact h.1
  · intro b hbout
    have hne : b ≠ log.start + i + 1 := fun heq => hbout (heq ▸ hi)
    rw [Function.update_of_ne hne]
    exact h.2 b hbout

/-- Installing one block keeps the transaction committed. -/
theorem Committed.homeBlock (hfits : Fits log lh) (h : Committed log lh new home d) {i : Nat}
    (hi : i < lh.n) (v : Block) :
    Committed log lh new home (Function.update d (lh.home i) v) := by
  refine ⟨?_, ?_, ?_⟩
  · rw [Function.update_of_ne (hfits.home_ne_start hi).symm]
    exact h.1
  · intro j hj
    rw [Function.update_of_ne (hfits.home_ne_log hi hj).symm]
    exact h.2.1 j hj
  · intro b hbout hbhome
    have hne : b ≠ lh.home i := fun heq => hbhome (heq ▸ lh.home_mem hi)
    rw [Function.update_of_ne hne]
    exact h.2.2 b hbout hbhome

/-- The committing `write_head`: once the log blocks hold the new contents,
writing the header commits. -/
theorem Clean.commitHead (hfits : Fits log lh) (h : Clean log home d)
    (hlog : ∀ i < lh.n, d (log.start + i + 1) = new (lh.home i)) (hb : Block) :
    Committed log lh new home (Function.update d log.start (fillHead lh hb)) := by
  refine ⟨by simpa using readHead_fillHead lh hb, ?_, ?_⟩
  · intro i hi
    have hne : log.start + i + 1 ≠ log.start := by omega
    rw [Function.update_of_ne hne]
    exact hlog i hi
  · intro b hbout _
    have hne : b ≠ log.start := fun heq => hbout (heq ▸ hfits.contains_start)
    rw [Function.update_of_ne hne]
    exact h.2 b hbout

/-! ## Installing and clearing -/

/-- The writes of `install_trans` for contents `new`. -/
def installs (lh : LogHeader) (new : Nat → Block) : List (Nat × Block) :=
  (List.range lh.n).map fun i => (lh.home i, new (lh.home i))

@[simp]
theorem installs_length (lh : LogHeader) (new : Nat → Block) :
    (installs lh new).length = lh.n := by
  simp [installs]

theorem mem_installs {w : Nat × Block} :
    w ∈ installs lh new ↔ ∃ i < lh.n, w = (lh.home i, new (lh.home i)) := by
  unfold installs
  rw [List.mem_map]
  constructor
  · rintro ⟨i, hi, rfl⟩
    exact ⟨i, List.mem_range.mp hi, rfl⟩
  · rintro ⟨i, hi, rfl⟩
    exact ⟨i, List.mem_range.mpr hi, rfl⟩

theorem Committed.installs_take (hfits : Fits log lh) (h : Committed log lh new home d)
    (k : Nat) : Committed log lh new home (applyWrites d ((installs lh new).take k)) := by
  apply applyWrites_take_invariant _ h
  intro d hd w hw
  obtain ⟨i, hi, rfl⟩ := mem_installs.mp hw
  exact hd.homeBlock hfits hi _

/-- After all installs every block outside the log is the installed one. -/
theorem Committed.installs_home (h : Committed log lh new home d) {b : Nat}
    (hb : ¬log.Contains b) :
    applyWrites d (installs lh new) b = installed home lh new b := by
  unfold installed
  split
  · rename_i hmem
    obtain ⟨i, hi, rfl⟩ := LogHeader.mem_homes.mp hmem
    apply applyWrites_of_mem (mem_installs.mpr ⟨i, hi, rfl⟩)
    intro w hw hkey
    obtain ⟨j, -, rfl⟩ := mem_installs.mp hw
    exact congrArg new hkey
  · rename_i hmem
    rw [applyWrites_of_not_mem]
    · exact h.2.2 b hb hmem
    · intro w hw heq
      obtain ⟨j, hj, rfl⟩ := mem_installs.mp hw
      exact hmem (heq ▸ lh.home_mem hj)

/-- Any cut of the installs followed by the clearing `write_head` leaves the
transaction committed, or, once the header is cleared, installed. -/
theorem Committed.installs_clear (hfits : Fits log lh) (h : Committed log lh new home d)
    (hb : Block) (k : Nat) :
    let d' := applyWrites d
      ((installs lh new ++ [(log.start, fillHead LogHeader.empty hb)]).take k)
    (k ≤ lh.n → Committed log lh new home d') ∧
      (lh.n < k → Clean log (installed home lh new) d') := by
  intro d'
  have hsplit : d' = applyWrites (applyWrites d ((installs lh new).take k))
      ([(log.start, fillHead LogHeader.empty hb)].take (k - lh.n)) := by
    have happend := applyWrites_take_append d (installs lh new)
      [(log.start, fillHead LogHeader.empty hb)] k
    rwa [installs_length] at happend
  constructor
  · intro hk
    have hzero : k - lh.n = 0 := by omega
    rw [hsplit, hzero]
    exact h.installs_take hfits k
  · intro hk
    obtain ⟨m, hm⟩ : ∃ m, k - lh.n = m + 1 := ⟨k - lh.n - 1, by omega⟩
    rw [hsplit, hm, List.take_of_length_le (by simpa using hk.le)]
    refine ⟨by simpa [applyWrites] using headClear_fillHead_empty hb, ?_⟩
    intro b hbout
    have hne : b ≠ log.start := fun heq => hbout (heq ▸ hfits.contains_start)
    simpa [applyWrites, hne] using h.installs_home hbout

/-! ## Recovery -/

/-- Recovering a clean disk, cut anywhere, leaves it clean. -/
theorem Clean.crashAt_recover (hstart : log.Contains log.start) (h : Clean log home d)
    (k : Nat) : Clean log home (crashAt d (recoverFromLog log (boot d)) k) := by
  have hhead := h.1.readHead
  have hfits : Fits log (readHead (d log.start)) := by
    rw [hhead]
    exact ⟨by have := hstart.2; simp; omega, by simp⟩
  unfold crashAt
  rw [recoverFromLog_writes hfits, hhead]
  apply applyWrites_take_invariant _ h
  intro d hd w hw
  simp only [homeWrites, LogHeader.empty_n, List.range_zero, List.map_nil, List.nil_append,
    List.mem_singleton] at hw
  subst hw
  exact hd.clear hstart _

/-- The writes of recovery on a committed disk. -/
theorem Committed.recover_writes (hfits : Fits log lh) (h : Committed log lh new home d) :
    (recoverFromLog log (boot d)).writes =
      installs lh new ++ [(log.start, fillHead LogHeader.empty (d log.start))] := by
  rw [recoverFromLog_writes (h.1.symm ▸ hfits), h.1]
  congr 1
  apply List.map_congr_left
  intro i hi
  rw [h.2.1 i (List.mem_range.mp hi)]

/-- Recovering a committed disk, cut anywhere, leaves the transaction committed
or installed. -/
theorem Committed.crashAt_recover (hfits : Fits log lh) (h : Committed log lh new home d)
    (k : Nat) :
    let d' := crashAt d (recoverFromLog log (boot d)) k
    Committed log lh new home d' ∨ Clean log (installed home lh new) d' := by
  intro d'
  have hcut := h.installs_clear hfits (d log.start) k
  have hd' : d' = applyWrites d ((installs lh new ++
      [(log.start, fillHead LogHeader.empty (d log.start))]).take k) := by
    rw [← h.recover_writes hfits]
    rfl
  rw [← hd'] at hcut
  rcases Nat.lt_or_ge lh.n k with hk | hk
  · exact Or.inr (hcut.2 hk)
  · exact Or.inl (hcut.1 hk)

/-- A completed recovery is one that is cut after its last write. -/
theorem crashAt_recover_full (d : Disk) :
    applyWrites d (recoverFromLog log (boot d)).writes =
      crashAt d (recoverFromLog log (boot d)) (recoverFromLog log (boot d)).writes.length := by
  unfold crashAt
  rw [List.take_length]

/-- However often recovery is cut, a clean disk ends clean. -/
theorem Recovers.clean {d' : Disk} (hrun : Recovers log d d')
    (hstart : log.Contains log.start) (h : Clean log home d) : Clean log home d' := by
  induction hrun with
  | done d =>
    rw [crashAt_recover_full]
    exact h.crashAt_recover hstart _
  | cut k _ ih => exact ih (h.crashAt_recover hstart k)

/-- However often recovery is cut, a committed transaction ends installed. -/
theorem Recovers.committed {d' : Disk} (hrun : Recovers log d d') (hfits : Fits log lh)
    (h : Committed log lh new home d) : Clean log (installed home lh new) d' := by
  induction hrun with
  | done d =>
    have hcut := h.installs_clear hfits (d log.start) (lh.n + 1)
    rw [List.take_of_length_le (by simp), ← h.recover_writes hfits] at hcut
    exact hcut.2 (by omega)
  | cut k hrest ih =>
    rcases h.crashAt_recover hfits k with hcommitted | hclean
    · exact ih hcommitted
    · exact hrest.clean hfits.contains_start hclean

/-! ## Commit -/

theorem Clean.logWrites_take (hfits : Fits log lh) (h : Clean log home d)
    (new : Nat → Block) (k : Nat) :
    Clean log home (applyWrites d ((logWrites log lh new).take k)) := by
  apply applyWrites_take_invariant _ h
  intro d hd w hw
  obtain ⟨i, hi, rfl⟩ := List.mem_map.mp hw
  exact hd.logBlock (hfits.contains_log (List.mem_range.mp hi)) _

/-- After `write_log` each log block holds the contents of its home block. -/
theorem applyWrites_logWrites {i : Nat} (hi : i < lh.n) :
    applyWrites d (logWrites log lh new) (log.start + i + 1) = new (lh.home i) := by
  apply applyWrites_of_mem
  · exact List.mem_map.mpr ⟨i, List.mem_range.mpr hi, rfl⟩
  · intro w hw hkey
    obtain ⟨j, -, rfl⟩ := List.mem_map.mp hw
    have hij : j = i := by
      simp only at hkey
      omega
    rw [hij]

/-- Where a cut commit leaves the disk: untouched outside the log while the
header has not been written, committed or installed afterwards. -/
theorem crashAt_commit (hfits : Fits log lh) (hclear : HeadClear (d log.start))
    (new : Nat → Block) (k : Nat) :
    let d' := crashAt d (commit log (beginCommit d lh new)) k
    (Clean log d d' ∧
      ∀ v, (log.start, v) ∉ (commit log (beginCommit d lh new)).writes.take k) ∨
    ((∃ v, (log.start, v) ∈ (commit log (beginCommit d lh new)).writes.take k) ∧
      (Committed log lh new d d' ∨ Clean log (installed d lh new) d')) := by
  intro d'
  have hclean : Clean log d d := ⟨hclear, fun _ _ => rfl⟩
  by_cases hpos : 0 < lh.n
  · obtain ⟨hdr, hwrites⟩ := commit_writes d new hfits hpos
    have hd' : d' = applyWrites d ((commit log (beginCommit d lh new)).writes.take k) := rfl
    rw [hwrites, applyWrites_take_append, logWrites_length] at hd'
    rcases Nat.lt_or_ge lh.n k with hk | hk
    · -- the header has been written
      obtain ⟨m, hm⟩ : ∃ m, k - lh.n = m + 1 := ⟨k - lh.n - 1, by omega⟩
      rw [hm, List.take_of_length_le (by simpa using hk.le), List.singleton_append,
        List.take_succ_cons, applyWrites] at hd'
      have hbefore : Clean log d (applyWrites d (logWrites log lh new)) := by
        have htake := hclean.logWrites_take hfits new lh.n
        rwa [List.take_of_length_le (by simp)] at htake
      have hlog : ∀ i < lh.n, applyWrites d (logWrites log lh new) (log.start + i + 1) =
          new (lh.home i) := fun i hi => applyWrites_logWrites hi
      have hcommitted := hbefore.commitHead hfits hlog (d log.start)
      have hcut := hcommitted.installs_clear hfits hdr m
      simp only [installs] at hcut
      rw [← hd'] at hcut
      refine Or.inr ⟨⟨fillHead lh (d log.start), ?_⟩, ?_⟩
      · rw [hwrites, List.take_append, logWrites_length, hm]
        simp
      · rcases Nat.lt_or_ge lh.n m with hm | hm
        · exact Or.inr (hcut.2 hm)
        · exact Or.inl (hcut.1 hm)
    · -- only log blocks have been written
      left
      have hzero : k - lh.n = 0 := by omega
      rw [hzero, List.take_zero, applyWrites_nil] at hd'
      refine ⟨hd' ▸ hclean.logWrites_take hfits new k, ?_⟩
      intro v hv
      rw [hwrites, List.take_append, logWrites_length, hzero, List.take_zero,
        List.append_nil] at hv
      obtain ⟨i, -, heq⟩ := List.mem_map.mp (List.mem_of_mem_take hv)
      have hkey := congrArg Prod.fst heq
      simp only at hkey
      omega
  · -- an empty transaction writes nothing
    left
    have hidle : (commit log (beginCommit d lh new)).writes = [] := by
      have hpos' : ¬0 < (beginCommit d lh new).lh.n := hpos
      rw [commit, if_neg hpos']
      rfl
    have hd' : d' = d := by
      simp only [d', crashAt, hidle, List.take_nil, applyWrites_nil]
    exact ⟨hd' ▸ hclean, by simp [hidle]⟩

/-- Where any number of recoveries leave the disk after a cut commit: as it was while the header
has not been written, and with all blocks installed afterwards. -/
theorem Recovers.commit {d' : Disk} (hfits : Fits log lh) (hclear : HeadClear (d log.start))
    {k : Nat} (hrun : Recovers log (crashAt d (commit log (beginCommit d lh new)) k) d') :
    HeadClear (d' log.start) ∧
    ((∀ v, (log.start, v) ∉ (commit log (beginCommit d lh new)).writes.take k) ∧
        (∀ b, ¬log.Contains b → d' b = d b) ∨
      (∃ v, (log.start, v) ∈ (commit log (beginCommit d lh new)).writes.take k) ∧
        ∀ b, ¬log.Contains b → d' b = installed d lh new b) := by
  rcases crashAt_commit hfits hclear new k with ⟨hclean, hnohead⟩ | ⟨hhead, hcommitted | hdone⟩
  · have hend := hrun.clean hfits.contains_start hclean
    exact ⟨hend.1, Or.inl ⟨hnohead, hend.2⟩⟩
  · have hend := hrun.committed hfits hcommitted
    exact ⟨hend.1, Or.inr ⟨hhead, hend.2⟩⟩
  · have hend := hrun.clean hfits.contains_start hdone
    exact ⟨hend.1, Or.inr ⟨hhead, hend.2⟩⟩

end Crash

/-- Crash atomicity of the redo log.  From a disk whose log header has `n = 0`,
a commit of any transaction that fits the log and stays outside it is cut after
`k` block writes, and recovery is then cut and restarted any number of times
before it completes.  The header ends with `n = 0`; the blocks outside the log
all have their old contents or all have their new contents, and they have the new
ones once the first `write_head` has reached the disk. -/
theorem commit_crash_atomic (log : LogArea) (d d' : Disk) (lh : LogHeader)
    (new : Nat → Block) (k : Nat)
    (hclear : HeadClear (d log.start))
    (hroom : lh.n + 1 ≤ log.size)
    (hout : ∀ b ∈ lh.homes, ¬log.Contains b)
    (hrun : Recovers log (crashAt d (commit log (beginCommit d lh new)) k) d') :
    HeadClear (d' log.start) ∧
    ((∀ b, ¬log.Contains b → d' b = d b) ∨
      (∀ b, ¬log.Contains b → d' b = installed d lh new b)) ∧
    ((∃ v, (log.start, v) ∈ (commit log (beginCommit d lh new)).writes.take k) →
      ∀ b, ¬log.Contains b → d' b = installed d lh new b) := by
  obtain ⟨hend, ⟨hnohead, hold⟩ | ⟨-, hnew⟩⟩ := hrun.commit ⟨hroom, hout⟩ hclear
  · exact ⟨hend, Or.inl hold, fun ⟨v, hv⟩ => absurd hv (hnohead v)⟩
  · exact ⟨hend, Or.inr hnew, fun _ => hnew⟩

/-- A transaction of two blocks on the log that `mkfs` lays out, cut after the committing
`write_head`; the recovery is cut as well, after the first block, and done again. -/
theorem commit_crash_atomic_two_blocks :
    let log : LogArea := ⟨2, 30⟩
    let d : Disk := fun _ => Bytes.zero _
    let lh : LogHeader := ⟨[60, 61], by decide⟩
    let new : Nat → Block := fun b _ => if b = 60 then 1 else 2
    let crashed := crashAt d (commit log (beginCommit d lh new)) 3
    let again := crashAt crashed (recoverFromLog log (boot crashed)) 1
    let d' := applyWrites again (recoverFromLog log (boot again)).writes
    HeadClear (d log.start) ∧ lh.n + 1 ≤ log.size ∧ (∀ b ∈ lh.homes, ¬log.Contains b) ∧
      Recovers log crashed d' ∧ d' 60 = new 60 ∧ d' 61 = new 61 := by
  intro log d lh new crashed again d'
  have hclear : HeadClear (d log.start) := by
    unfold HeadClear
    decide
  have hout : ∀ b ∈ lh.homes, ¬log.Contains b := by
    simp [lh, log, LogHeader.homes, LogArea.Contains]
  have hrun : Recovers log crashed d' := Recovers.cut 1 (Recovers.done again)
  have hatomic := commit_crash_atomic log d d' lh new 3 hclear (by decide) hout hrun
  have hforced := hatomic.2.2
    ⟨_, List.mem_cons_of_mem _ (List.mem_cons_of_mem _ List.mem_cons_self)⟩
  exact ⟨hclear, by decide, hout, hrun, hforced 60 (by simp [log, LogArea.Contains]),
    hforced 61 (by simp [log, LogArea.Contains])⟩

end Xv6.Log
