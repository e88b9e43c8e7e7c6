import Xv6.Fs.OpBudget

/-!
# File system - Files are arrays of bytes

`writei` makes one file longer or overwrites bytes of it, and `readi` reads them back; the
inodes, the contents and the block maps of all other files stay as they are.  `writei` does not
split a long write into several transactions, its callers do: when the blocks of the write do
not fit into the log, it panics.

Main results:

- Theorem {lit}`readi_writei_bytes`: reading, refusing and writing.
-/

namespace Xv6.Fs

open Foundations

/-- The state after `src` was written at `off`: `readi` returns the new contents, and everything
else is as before. -/
structure FileWritten (s : FsState) (ip : Fin ninode) (off : Nat) (src : List UInt8)
    (t : FsState) : Prop where
  cached : Cached t ip
  size : (t.icache ip).copy.size.toNat = max (s.icache ip).copy.size.toNat (off + src.length)
  read : ∀ off' n', readi ip off' n' t =
    .ok (readData ((contents s.disk (s.icache ip).copy).take off ++ src ++
      (contents s.disk (s.icache ip).copy).drop (off + src.length)) off' n', t)
  inodes : ∀ j, j ≠ (s.icache ip).inum → inodeTable s.sb t.disk j = inodeTable s.sb s.disk j
  maps : ∀ j, j ≠ (s.icache ip).inum → ∀ k,
    (inodeTable s.sb t.disk j).ref t.disk k = (inodeTable s.sb s.disk j).ref s.disk k
  contents : ∀ j, j ≠ (s.icache ip).inum → (inodeTable s.sb s.disk j).type ≠ 0 →
    contents t.disk (inodeTable s.sb t.disk j) = contents s.disk (inodeTable s.sb s.disk j)
  others : ∀ jp, jp ≠ ip → t.icache jp = s.icache jp

section Bytes

variable {s : FsState} {ip : Fin ninode}

theorem Cached.readi (h : Cached s ip) (hdev : (s.icache ip).copy.type ≠ tDev) (off n : UInt32) :
    Fs.readi ip off n s = .ok (readData (contents s.disk (s.icache ip).copy) off n, s) :=
  readi_spec h.type hdev h.mapped off n

/-- A write that finds its blocks and its space in the log. -/
theorem writei_bytes (h : Cached s ip) (hdev : (s.icache ip).copy.type ≠ tDev)
    (hout : 1 ≤ s.outstanding) {off : UInt32} (src : List UInt8)
    (hoff : off.toNat ≤ (s.icache ip).copy.size.toNat)
    (hfit : off.toNat + src.length ≤ maxfile * bsize)
    (hcomplete : (s.writeLog ip off.toNat src.length).complete = true)
    (hroom : s.HasRoom (s.writeCalls ip off.toNat src.length)) :
    ∃ t, writei ip src off s = .ok (some (UInt32.ofNat src.length), t) ∧
      FileWritten s ip off.toNat src t := by
  have hmax : maxfile * bsize < 2 ^ 32 := by decide
  have hdata : writeData (contents s.disk (s.icache ip).copy) off src =
      some ((contents s.disk (s.icache ip).copy).take off.toNat ++ src ++
        (contents s.disk (s.icache ip).copy).drop (off.toNat + src.length)) := by
    unfold writeData
    rw [contents_length, if_neg (by omega), if_neg (by omega)]
  have hspec := writei_spec h hout hdev (by omega) hdata
  obtain ⟨r, t, hrun, hr, -⟩ := wp_never.mp (wp_mono (writei_follows h hout hdev src hoff hfit)
    (fun _ _ hpost => hpost) fun _ => not_stops hcomplete hroom)
  rw [wp_of_ok hrun] at hspec
  obtain ⟨-, d, l, x, rfl, hchanged⟩ := hspec
  obtain ⟨hcached, htype, hcontents⟩ := Changed.cached (l := l) h hchanged
  have hcopy := worked_copy s ip d l x
  refine ⟨_, by rw [hrun, hr], hcached, ?_, ?_, ?_, ?_, ?_, ?_⟩
  · rw [hcopy, ← contents_length d x, hcontents, List.length_append, List.length_append,
      List.length_take, List.length_drop, contents_length]
    omega
  · intro off' n'
    have hread := hcached.readi (by rw [hcopy, htype]; exact hdev) off' n'
    rw [hread, hcopy]
    exact congrArg (fun c => Except.ok (readData c off' n', _)) hcontents
  · intro j hj
    exact (congrFun hchanged.table j).trans (Function.update_of_ne hj _ _)
  · intro j hj k
    exact hchanged.maps j hj k
  · intro j hj hne
    exact hchanged.contents_eq hj hne
  · intro jp hjp
    exact Function.update_of_ne hjp _ _

/-- Files are arrays of bytes: what `readi` returns, when `writei` refuses, and what it does
otherwise, provided that it runs inside an operation, that there are enough free blocks and that
the log has room for each call of {lit}`log_write`. -/
theorem readi_writei_bytes (h : Cached s ip)
    (htype : (s.icache ip).copy.type = tFile ∨ (s.icache ip).copy.type = tDir)
    (off n : UInt32) (src : List UInt8) (hsrc : src.length = n.toNat) :
    readi ip off n s = .ok (readData (contents s.disk (s.icache ip).copy) off n, s) ∧
    ((s.icache ip).copy.size.toNat < off.toNat ∨ 2 ^ 32 ≤ off.toNat + n.toNat ∨
        maxfile * bsize < off.toNat + n.toNat →
      writei ip src off s = .ok (none, s)) ∧
    (off.toNat ≤ (s.icache ip).copy.size.toNat → off.toNat + n.toNat ≤ maxfile * bsize →
      1 ≤ s.outstanding →
      taken ((s.icache ip).copy.ref s.disk) (chunkBlocks off.toNat n.toNat) ≤
        (freeBlocks s.sb s.disk).length →
      s.HasRoom (s.writeCalls ip off.toNat n.toNat) →
      ∃ t, writei ip src off s = .ok (some n, t) ∧ FileWritten s ip off.toNat src t) := by
  have hdev : (s.icache ip).copy.type ≠ tDev := by
    rcases htype with hfile | hdir
    · rw [hfile]
      decide
    · rw [hdir]
      decide
  have hlt : n.toNat < 2 ^ 32 := n.toNat_lt
  refine ⟨h.readi hdev off n, ?_, ?_⟩
  · intro hrefuse
    apply writei_refuses hdev (by omega)
    have hmax : maxfile * bsize < 2 ^ 32 := by decide
    unfold writeData
    rw [contents_length, hsrc]
    by_cases hbad : (s.icache ip).copy.size.toNat < off.toNat ∨ 2 ^ 32 ≤ off.toNat + n.toNat
    · rw [if_pos hbad]
    · rw [if_neg hbad, if_pos (by omega)]
  · intro hoff hfit hout hfree hroom
    have hwrite := writei_bytes h hdev hout src hoff (by rw [hsrc]; exact hfit)
      (by rw [hsrc]; exact h.writeLog_complete.mpr hfree) (by rw [hsrc]; exact hroom)
    rw [hsrc, UInt32.ofNat_toNat] at hwrite
    exact hwrite

end Bytes

/-- Three bytes written to the empty file of the small file system. -/
theorem readi_writei_three :
    ∃ t, writei ⟨0, by decide⟩ [1, 2, 3] 0 smallOp = .ok (some 3, t) ∧
      FileWritten smallOp ⟨0, by decide⟩ 0 [1, 2, 3] t :=
  (readi_writei_bytes smallOp_open.cached (Or.inl rfl) 0 3 [1, 2, 3] rfl).2.2
    (by decide +kernel) (by decide +kernel) (by decide +kernel) (by decide +kernel)
    (by decide +kernel)

/-- The empty file of the small file system is consistent and has free blocks for 29 blocks of
data, but `writei` of so many bytes panics, because their blocks do not fit into the log. -/
theorem writei_too_big :
    Cached smallOp ⟨0, by decide⟩ ∧ (smallOp.icache ⟨0, by decide⟩).copy.type = tFile ∧
    taken ((smallOp.icache ⟨0, by decide⟩).copy.ref smallOp.disk) (chunkBlocks 0 14848) ≤
      (freeBlocks smallOp.sb smallOp.disk).length ∧
    ¬ ∃ r t, writei ⟨0, by decide⟩ (List.replicate 14848 1) 0 smallOp = .ok (r, t) := by
  refine ⟨smallOp_open.cached, rfl, by decide +kernel, ?_⟩
  rintro ⟨r, t, hrun⟩
  have hfull : ¬ smallOp.HasRoom (smallOp.writeCalls ⟨0, by decide⟩ 0 14848) := by
    decide +kernel
  generalize hsrc : List.replicate 14848 (1 : UInt8) = src at hrun
  have hlen : src.length = 14848 := by
    rw [← hsrc]
    exact List.length_replicate
  have hpost : wp (writei ⟨0, by decide⟩ src 0) _ _ smallOp :=
    writei_follows smallOp_open.cached (le_refl 1) (by decide) _ (Nat.zero_le _)
      (by rw [hlen]; decide)
  rw [wp_of_ok hrun, hlen] at hpost
  exact hfull hpost.2.2.2

end Xv6.Fs
