import Xv6.Fs.Contents

/-!
# File system - Log space of a write

Which blocks `writei` passes to `log_write`, as a function of the state before it: the blocks
of the file that it writes to, the free blocks that it takes, the blocks of the free map that
mark them, and the indirect block when an entry of it is new.  The plan knows of an inode
only its references and of the disk only the list of free blocks; `bmap` and the loop of
`writei` follow it.

Main results:

- Theorem {lit}`freeBlock_eq_head`: `balloc` takes the first free block.
- Theorem {lit}`bmap_plan`: {lit}`bmap` follows the plan.
- Theorem {lit}`writei_follows`: {lit}`writei` makes the calls of {lit}`log_write` of the plan, and
  stops only if the log has no room for them or the free blocks run out.
-/

namespace Xv6.Fs

open Foundations

/-! ## Free blocks -/

/-- The free blocks in order. -/
def freeBlocks (sb : Superblock) (d : Disk) : List Nat :=
  (List.range sb.size).filter fun b => bitSet sb d b = false

/-- A search through the rows of a table is a search through the table. -/
theorem findSome_rows (p : Nat → Bool) (w n : Nat) :
    ((List.range n).findSome? fun k =>
      ((List.range w).find? fun i => p (k * w + i)).map fun i => k * w + i) =
        (List.range (n * w)).find? p := by
  induction n with
  | zero => simp
  | succ n ih =>
    have hrow : (List.map (n * w + ·) (List.range w)).find? p =
        ((List.range w).find? fun i => p (n * w + i)).map fun i => n * w + i := by
      rw [List.find?_map]
      rfl
    rw [List.range_succ, List.findSome?_append, ih, Nat.succ_mul, List.range_add,
      List.find?_append, hrow]
    simp

/-- `balloc` takes the first free block. -/
theorem freeBlock_eq_head (sb : Superblock) (d : Disk) :
    freeBlock sb d = (freeBlocks sb d).head? := by
  have hrows := findSome_rows (fun b => b < sb.size ∧ bitSet sb d b = false) bpb
    ((sb.size + bpb - 1) / bpb)
  have hcover : sb.size ≤ (sb.size + bpb - 1) / bpb * bpb := by
    simp only [bpb_eq]
    omega
  obtain ⟨r, hr⟩ := Nat.exists_eq_add_of_le hcover
  have hfilter : (List.range ((sb.size + bpb - 1) / bpb * bpb)).filter
      (fun b => decide (b < sb.size ∧ bitSet sb d b = false)) = freeBlocks sb d := by
    rw [hr, List.range_add, List.filter_append]
    have hin : (List.range sb.size).filter
        (fun b => decide (b < sb.size ∧ bitSet sb d b = false)) = freeBlocks sb d := by
      refine List.filter_congr ?_
      intro b hb
      simp [List.mem_range.mp hb]
    have hout : ((List.range r).map (sb.size + ·)).filter
        (fun b => decide (b < sb.size ∧ bitSet sb d b = false)) = [] := by
      refine List.filter_eq_nil_iff.mpr ?_
      intro b hb
      obtain ⟨i, -, rfl⟩ := List.mem_map.mp hb
      simp
    rw [hin, hout, List.append_nil]
  rw [freeBlock, hrows, ← hfilter, List.head?_filter]

/-- The free blocks after one is taken. -/
theorem freeBlocks_allocated {sb : Superblock} {d : Disk} {b : Nat} {fs : List Nat}
    (hb : sb.nmeta ≤ b) (hfree : freeBlocks sb d = b :: fs) :
    freeBlocks sb (allocated sb d b) = fs := by
  have hnodup : (freeBlocks sb d).Nodup := List.nodup_range.filter _
  have hfilter : freeBlocks sb (allocated sb d b) = (freeBlocks sb d).filter (· ≠ b) := by
    unfold freeBlocks
    rw [List.filter_filter]
    refine List.filter_congr ?_
    intro c hc
    rw [bitSet_allocated hb (List.mem_range.mp hc)]
    by_cases hbc : b = c
    · simp [hbc]
    · simp [hbc, Ne.symm hbc]
  rw [hfree] at hnodup hfilter
  obtain ⟨hnot, -⟩ := List.nodup_cons.mp hnodup
  rw [hfilter, List.filter_cons_of_neg (by simp)]
  refine List.filter_eq_self.mpr ?_
  intro c hc
  simp only [ne_eq, decide_not, Bool.not_eq_true', decide_eq_false_iff_not]
  rintro rfl
  exact hnot hc

/-- The free blocks are data blocks. -/
theorem Work.nmeta_le {sb : Superblock} {i : Nat} {d : Disk} {x : Dinode} (h : Work sb i d x)
    {b : Nat} (hb : b ∈ freeBlocks sb d) : sb.nmeta ≤ b ∧ b < sb.size ∧ bitSet sb d b = false := by
  obtain ⟨hlt, hfree⟩ := List.mem_filter.mp hb
  have hfree' : bitSet sb d b = false := by simpa using hfree
  have hlt' := List.mem_range.mp hlt
  exact ⟨h.owned.le_of_unused hfree' hlt', hlt', hfree'⟩

/-! ## The plan -/

/-- References of one inode and free blocks, as `bmap` changes them, with the blocks that it
passes to `log_write`. -/
structure Planned where
  refs : Nat → Nat
  free : List Nat
  log : List Nat

/-- Block `bn` of the file is needed: `bmap` takes the blocks that are missing.  The free map
block of `b` is `bb b`.  When free blocks run out, the result is what was logged before. -/
def planBlock (bb : Nat → Nat) (refs : Nat → Nat) (free : List Nat) (bn : Nat) :
    Except (List Nat) Planned :=
  if refs (place bn) ≠ 0 then .ok ⟨refs, free, []⟩
  else if bn < ndirect then
    match free with
    | b :: free => .ok ⟨Function.update refs (place bn) b, free, [bb b, b]⟩
    | [] => .error []
  else if refs ndirect ≠ 0 then
    match free with
    | c :: free => .ok ⟨Function.update refs (place bn) c, free, [bb c, c, refs ndirect]⟩
    | [] => .error []
  else
    match free with
    | b :: c :: free =>
      .ok ⟨Function.update (Function.update refs ndirect b) (place bn) c, free,
        [bb b, b, bb c, c, b]⟩
    | [b] => .error [bb b, b]
    | [] => .error []

/-- What the loop of `writei` passes to `log_write`, and whether the free blocks last. -/
structure WriteLog where
  calls : List Nat
  complete : Bool

/-- The plan for the blocks `bns` of a file. -/
def plan (bb : Nat → Nat) : (Nat → Nat) → List Nat → List Nat → WriteLog
  | _, _, [] => ⟨[], true⟩
  | refs, free, bn :: bns =>
    match planBlock bb refs free bn with
    | .error log => ⟨log, false⟩
    | .ok q =>
      let rest := plan bb q.refs q.free bns
      ⟨q.log ++ [q.refs (place bn)] ++ rest.calls, rest.complete⟩

section Plan

variable {bb refs : Nat → Nat} {free bns : List Nat} {bn : Nat}

theorem plan_cons_ok {q : Planned} (h : planBlock bb refs free bn = .ok q) :
    plan bb refs free (bn :: bns) =
      ⟨q.log ++ [q.refs (place bn)] ++ (plan bb q.refs q.free bns).calls,
        (plan bb q.refs q.free bns).complete⟩ := by
  simp only [plan, h]

theorem plan_cons_error {log : List Nat} (h : planBlock bb refs free bn = .error log) :
    plan bb refs free (bn :: bns) = ⟨log, false⟩ := by
  simp only [plan, h]

end Plan

/-- The blocks of a file that `n` bytes from `off` on lie in. -/
def chunkBlocks (off n : Nat) : List Nat :=
  if n = 0 then [] else List.range' (off / bsize) ((off + n - 1) / bsize - off / bsize + 1)

/-- One round of the loops of `readi` and `writei`. -/
theorem chunkBlocks_step {off n m : Nat} (hn : 0 < n) (hm : m = min n (bsize - off % bsize)) :
    chunkBlocks off n = off / bsize :: chunkBlocks (off + m) (n - m) := by
  have hmod : off % bsize < bsize := Nat.mod_lt _ (by decide)
  simp only [bsize_eq] at *
  unfold chunkBlocks
  simp only [bsize_eq]
  rw [if_neg (by omega), List.range'_succ]
  congr 1
  by_cases hlast : n - m = 0
  · rw [if_pos hlast]
    have hsame : (off + n - 1) / 512 = off / 512 := by omega
    rw [hsame, Nat.sub_self]
    rfl
  · rw [if_neg hlast]
    have hnext : (off + m) / 512 = off / 512 + 1 := by omega
    have hstop : off + m + (n - m) - 1 = off + n - 1 := by omega
    rw [hnext, hstop]
    congr 1
    omega

/-! ## Log space -/

/-- The blocks logged since the last commit. -/
def FsState.logged (s : FsState) : Finset Nat :=
  s.lh.toFinset

/-- The number of blocks at which `log_write` panics. -/
def logCap (sb : Superblock) : Nat :=
  min logsize (sb.nlog - 1)

/-- `log_write` absorbs a block that is in the log. -/
def absorb (l : List Nat) (b : Nat) : List Nat :=
  if b ∈ l then l else l ++ [b]

/-- Calls of `log_write` that begin with the log `l` return: fewer than `cap` blocks are logged
before each of them. -/
def Fits (cap : Nat) : List Nat → List Nat → Prop
  | _, [] => True
  | l, b :: bs => l.length < cap ∧ Fits cap (absorb l b) bs

instance Fits.decidable (cap : Nat) : ∀ l bs, Decidable (Fits cap l bs)
  | _, [] => inferInstanceAs (Decidable True)
  | l, b :: bs => @instDecidableAnd _ _ _ (Fits.decidable cap (absorb l b) bs)

theorem fits_append {cap : Nat} {l as bs : List Nat} :
    Fits cap l (as ++ bs) ↔ Fits cap l as ∧ Fits cap (as.foldl absorb l) bs := by
  induction as generalizing l with
  | nil => simp [Fits]
  | cons a as ih => simp only [List.cons_append, Fits, List.foldl_cons, ih, and_assoc]

theorem absorb_length (l : List Nat) (b : Nat) : l.length ≤ (absorb l b).length := by
  unfold absorb
  split_ifs
  · exact le_refl _
  · simp

theorem foldl_absorb_length (l bs : List Nat) : l.length ≤ (bs.foldl absorb l).length := by
  induction bs generalizing l with
  | nil => exact le_refl _
  | cons b bs ih => exact (absorb_length l b).trans (ih _)

/-- The last call is the one that can fail. -/
theorem fits_concat {cap : Nat} {l bs : List Nat} {b : Nat} :
    Fits cap l (bs ++ [b]) ↔ (bs.foldl absorb l).length < cap := by
  induction bs generalizing l with
  | nil => simp [Fits]
  | cons a bs ih =>
    rw [List.cons_append, Fits, ih, List.foldl_cons]
    have hle := (absorb_length l a).trans (foldl_absorb_length _ bs)
    omega

theorem absorb_nodup {l : List Nat} (h : l.Nodup) (b : Nat) : (absorb l b).Nodup := by
  unfold absorb
  split_ifs with hmem
  · exact h
  · exact List.nodup_append.mpr ⟨h, List.nodup_singleton b, by
      intro a ha c hc
      rw [List.mem_singleton.mp hc]
      rintro rfl
      exact hmem ha⟩

theorem foldl_absorb_nodup {l : List Nat} (h : l.Nodup) (bs : List Nat) :
    (bs.foldl absorb l).Nodup := by
  induction bs generalizing l with
  | nil => exact h
  | cons b bs ih => exact ih (absorb_nodup h b)

/-- The log holds the blocks that were passed to `log_write`. -/
theorem toFinset_foldl_absorb (l bs : List Nat) :
    (bs.foldl absorb l).toFinset = l.toFinset ∪ bs.toFinset := by
  induction bs generalizing l with
  | nil => simp
  | cons b bs ih =>
    have hb : (absorb l b).toFinset = l.toFinset ∪ {b} := by
      unfold absorb
      split_ifs with hmem
      · rw [Finset.union_eq_left.mpr]
        simpa using hmem
      · rw [List.toFinset_append]
        rfl
    rw [List.foldl_cons, ih, hb, Finset.union_assoc, List.toFinset_cons, Finset.insert_eq]

/-- The number of logged blocks. -/
theorem length_foldl_absorb {l : List Nat} (h : l.Nodup) (bs : List Nat) :
    (bs.foldl absorb l).length = (l.toFinset ∪ bs.toFinset).card := by
  rw [← toFinset_foldl_absorb, List.toFinset_card_of_nodup (foldl_absorb_nodup h bs)]

/-- The log after the blocks `bs` were passed to `log_write`. -/
def FsState.after (s : FsState) (bs : List Nat) : List Nat :=
  bs.foldl absorb s.lh

/-- The log has room for the calls `bs` of `log_write`. -/
def FsState.HasRoom (s : FsState) (bs : List Nat) : Prop :=
  Fits (logCap s.sb) s.lh bs

instance (s : FsState) (bs : List Nat) : Decidable (s.HasRoom bs) :=
  Fits.decidable ..

/-- The log was too small for the blocks `bs`. -/
def Full (s : FsState) (bs : List Nat) (e : Stop) : Prop :=
  e = .tooBigATransaction ∧ ¬ s.HasRoom bs

section Room

variable {s t : FsState} {a b : List Nat} {e : Stop}

theorem after_append (hlh : t.lh = s.after a) : t.after b = s.after (a ++ b) := by
  rw [FsState.after, hlh, FsState.after, FsState.after, List.foldl_append]

theorem FsState.HasRoom.append (h : s.HasRoom a) (h' : t.HasRoom b) (hsb : t.sb = s.sb)
    (hlh : t.lh = s.after a) : s.HasRoom (a ++ b) := by
  rw [FsState.HasRoom, hsb, hlh] at h'
  exact fits_append.mpr ⟨h, h'⟩

theorem Full.append (h : Full s a e) : Full s (a ++ b) e :=
  ⟨h.1, fun hroom => h.2 (fits_append.mp hroom).1⟩

/-- The log was too small later. -/
theorem Full.later (h : Full t b e) (hsb : t.sb = s.sb) (hlh : t.lh = s.after a) :
    Full s (a ++ b) e := by
  refine ⟨h.1, fun hroom => h.2 ?_⟩
  rw [FsState.HasRoom, hsb, hlh]
  exact (fits_append.mp hroom).2

end Room

theorem logWrite_plan {s : FsState} (b : Nat) (hout : 1 ≤ s.outstanding) :
    wp (logWrite b) (fun _ t => t = s.wrote s.disk (s.after [b]) ∧ s.HasRoom [b])
      (Full s [b]) s := by
  have hroom : s.HasRoom [b] ↔
      ¬ (logsize ≤ s.lh.length ∨ (s.sb.nlog : Int) - 1 ≤ (s.lh.length : Int)) := by
    simp only [FsState.HasRoom, Fits, and_true, logCap]
    omega
  unfold logWrite
  simp only [wp_bind, wp_get]
  split
  · rename_i hfull
    exact ⟨rfl, fun h => hroom.mp h hfull⟩
  · rename_i hnot
    rw [if_neg (by omega)]
    exact ⟨rfl, hroom.mpr hnot⟩

section Blocks

variable {s : FsState} {ip : Fin ninode} {i : Nat}

/-- `balloc` takes the first free block and logs its block of the free map and it. -/
theorem balloc_plan (hout : 1 ≤ s.outstanding) {b : Nat} {fs : List Nat}
    (hfree : freeBlocks s.sb s.disk = b :: fs) :
    wp balloc (fun c t => c = b ∧
      t = s.wrote (allocated s.sb s.disk b) (s.after [bblock s.sb b, b]) ∧
      s.HasRoom [bblock s.sb b, b]) (Full s [bblock s.sb b, b]) s := by
  have hhead : freeBlock s.sb s.disk = some b := by rw [freeBlock_eq_head, hfree]; rfl
  unfold balloc bzero bmodify
  simp only [wp_bind, wp_get, hhead, wp_modify]
  refine wp_mono (logWrite_plan _ hout) ?_ fun e he => Full.append (s := s) (b := [b]) he
  rintro _ _ ⟨rfl, hroom⟩
  refine wp_mono (logWrite_plan _ hout) ?_ fun e he =>
    he.later (s := s) (a := [bblock s.sb b]) rfl rfl
  rintro _ _ ⟨rfl, hroom'⟩
  exact ⟨rfl, rfl, FsState.HasRoom.append (s := s) (a := [bblock s.sb b]) hroom hroom' rfl rfl⟩

/-- There is no free block. -/
theorem balloc_short (hfree : freeBlocks s.sb s.disk = []) :
    balloc s = .error (.ballocOutOfBlocks s.lh) := by
  have hnone : freeBlock s.sb s.disk = none := by rw [freeBlock_eq_head, hfree]; rfl
  unfold balloc
  rw [bind_ok (a := s) (t := s) rfl, hnone]
  rfl

/-- The references after a block is stored in the inode. -/
theorem Work.ref_storeAddr {sb : Superblock} {d : Disk} {x : Dinode} (h : Work sb i d x)
    {k b : Nat} (hb : bitSet sb d b = false) (hlt : b < sb.size) (hk : k < 13)
    (haddr : x.addr k = 0) :
    (x.setAddr k (UInt32.ofNat b)).ref (allocated sb d b) = Function.update (x.ref d) k b := by
  have hsize := h.geo.blocks
  have hframe : x.ref (allocated sb d b) = x.ref d := by
    funext l
    refine ref_congr (fun h0 => ?_) l
    have hself := refs_allocated h.owned hb hlt (q := (i, 12)) (by rwa [refs_self])
    rwa [refs_self] at hself
  rw [ref_setAddr h.type hk (by omega) fun hk12 => ⟨hk12 ▸ haddr, allocated_self⟩, hframe]

/-- The references after a block is stored in the indirect block. -/
theorem Work.ref_storeEntry {sb : Superblock} {d : Disk} {x : Dinode} (h : Work sb i d x)
    {j c : Nat} (hc : bitSet sb d c = false) (hlt : c < sb.size) (hj : j < 128)
    (hind : x.addr 12 ≠ 0) :
    x.ref (Function.update (allocated sb d c) (x.addr 12).toNat
      ((allocated sb d c (x.addr 12).toNat).write Layout.u32 (4 * j) (UInt32.ofNat c))) =
        Function.update (x.ref d) (13 + j) c := by
  have hsize := h.geo.blocks
  have hframe : x.ref (allocated sb d c) = x.ref d := by
    funext l
    refine ref_congr (fun h0 => ?_) l
    have hself := refs_allocated h.owned hc hlt (q := (i, 12)) (by rwa [refs_self])
    rwa [refs_self] at hself
  rw [ref_writeEntry h.type hind hj (by omega), hframe]

/-- `mapAddr` takes a block that is missing. -/
theorem mapAddr_plan (hout : 1 ≤ s.outstanding) {k b : Nat} {fs : List Nat}
    (hfree : freeBlocks s.sb s.disk = b :: fs) (haddr : (s.icache ip).copy.addr k = 0) :
    wp (mapAddr ip k) (fun c t => c = b ∧
      t = s.worked ip (allocated s.sb s.disk b) (s.after [bblock s.sb b, b])
        ((s.icache ip).copy.setAddr k (UInt32.ofNat b)) ∧
      s.HasRoom [bblock s.sb b, b]) (Full s [bblock s.sb b, b]) s := by
  unfold mapAddr
  simp only [wp_bind, wp_get]
  rw [if_pos haddr]
  refine wp_bind_of (balloc_plan hout hfree) ?_
  rintro c _ ⟨rfl, rfl, hroom⟩
  simp only [wp_bind, setCopy, setInode, wp_modify, wp_pure]
  exact ⟨trivial, rfl, hroom⟩

theorem mapAddr_short {k : Nat} (hfree : freeBlocks s.sb s.disk = [])
    (haddr : (s.icache ip).copy.addr k = 0) :
    mapAddr ip k s = .error (.ballocOutOfBlocks s.lh) := by
  unfold mapAddr
  rw [bind_ok (a := s) (t := s) rfl, if_pos haddr, bind_error (balloc_short hfree)]

/-- `mapEntry` takes a block that is missing, and logs the indirect block. -/
theorem mapEntry_plan (hout : 1 ≤ s.outstanding) {a j c : Nat} {fs : List Nat}
    (hfree : freeBlocks s.sb s.disk = c :: fs) (hentry : indirectEntry (s.disk a) j = 0) :
    wp (mapEntry a j) (fun c' t => c' = c ∧
      t = s.wrote (Function.update (allocated s.sb s.disk c) a
        ((allocated s.sb s.disk c a).write Layout.u32 (4 * j) (UInt32.ofNat c)))
        (s.after [bblock s.sb c, c, a]) ∧
      s.HasRoom [bblock s.sb c, c, a]) (Full s [bblock s.sb c, c, a]) s := by
  unfold mapEntry
  simp only [wp_bind, wp_get]
  rw [if_pos hentry]
  refine wp_bind_of (wp_mono (balloc_plan hout hfree) (fun _ _ h => h) fun e he =>
    he.append (b := [a])) ?_
  rintro b _ ⟨rfl, rfl, hroom⟩
  simp only [wp_bind, bmodify, wp_modify]
  refine wp_mono (logWrite_plan _ hout) ?_ fun e he =>
    he.later (s := s) (a := [bblock s.sb b, b]) rfl rfl
  rintro _ _ ⟨rfl, hroom'⟩
  exact ⟨rfl, rfl,
    FsState.HasRoom.append (s := s) (a := [bblock s.sb b, b]) hroom hroom' rfl rfl⟩

theorem mapEntry_short {a j : Nat} (hfree : freeBlocks s.sb s.disk = [])
    (hentry : indirectEntry (s.disk a) j = 0) :
    mapEntry a j s = .error (.ballocOutOfBlocks s.lh) := by
  unfold mapEntry
  rw [bind_ok (a := s) (t := s) rfl, if_pos hentry, bind_error (balloc_short hfree)]

/-- What `bmap` does when it follows the plan for one block. -/
def Follows (s : FsState) (ip : Fin ninode) (bn : Nat) (q : Planned) (b : Nat) (t : FsState) :
    Prop :=
  ∃ d x, t = s.worked ip d (s.after q.log) x ∧ x.ref d = q.refs ∧ freeBlocks s.sb d = q.free ∧
    b = q.refs (place bn) ∧ s.HasRoom q.log

/-- The free blocks ran out after the blocks `bs` were logged, or the log was full before. -/
def OutOfBlocks (s : FsState) (bs : List Nat) (e : Stop) : Prop :=
  Full s bs e ∨ s.HasRoom bs ∧ e = .ballocOutOfBlocks (s.after bs)

theorem OutOfBlocks.later {t : FsState} {as bs : List Nat} {e : Stop} (h : OutOfBlocks t bs e)
    (hsb : t.sb = s.sb) (hlh : t.lh = s.after as) (hroom : s.HasRoom as) :
    OutOfBlocks s (as ++ bs) e := by
  rcases h with hfull | ⟨hfits, he⟩
  · exact Or.inl (hfull.later hsb hlh)
  · exact Or.inr ⟨hroom.append hfits hsb hlh, by rw [he, after_append hlh]⟩

theorem bmap_plan_direct (hw : Work s.sb i s.disk (s.icache ip).copy) (hout : 1 ≤ s.outstanding)
    {bn : Nat} (hbn : bn < 12) (haddr : (s.icache ip).copy.addr bn = 0) {b : Nat} {fs : List Nat}
    (hfree : freeBlocks s.sb s.disk = b :: fs) :
    wp (bmap ip bn) (Follows s ip bn ⟨Function.update ((s.icache ip).copy.ref s.disk) (place bn) b,
      fs, [bblock s.sb b, b]⟩) (Full s [bblock s.sb b, b]) s := by
  have hplace : place bn = bn := if_pos hbn
  obtain ⟨hle, hlt, hbit⟩ := hw.nmeta_le (b := b) (by rw [hfree]; simp)
  rw [bmap_direct ip hbn]
  refine wp_mono (mapAddr_plan hout hfree haddr) ?_ fun _ he => he
  rintro c _ ⟨rfl, rfl, hroom⟩
  refine ⟨_, _, rfl, ?_, freeBlocks_allocated hle hfree, ?_, hroom⟩
  · simp only [hplace]
    exact hw.ref_storeAddr hbit hlt (by omega) haddr
  · simp only [Function.update_self]

/-- The free blocks do not depend on data blocks. -/
theorem freeBlocks_update {sb : Superblock} (d : Disk) {b : Nat} (hb : sb.nmeta ≤ b)
    (block : Block) : freeBlocks sb (Function.update d b block) = freeBlocks sb d := by
  refine List.filter_congr ?_
  intro c hc
  rw [Geometry.bitSet_update d (Or.inr hb) (List.mem_range.mp hc)]

/-- The indirect block of the inode is a data block. -/
theorem Work.nmeta_le_indirect {sb : Superblock} {d : Disk} {x : Dinode} (h : Work sb i d x)
    (hind : x.addr 12 ≠ 0) : sb.nmeta ≤ (x.addr 12).toNat := by
  have hself : refs d (view sb d i x) (i, 12) = (x.addr 12).toNat := by
    rw [refs_self, ref_addr h.type (by omega)]
  have hrange := h.owned.range (i, 12) (by
    rw [hself]
    simpa [← UInt32.toNat_inj] using hind)
  rw [hself] at hrange
  exact hrange.1

theorem place_indirect {bn : Nat} (h : ¬ bn < 12) : place bn = 13 + (bn - 12) := by
  rw [place, if_neg h]
  omega

-- the goals below mention these, and must not be evaluated
attribute [local irreducible] mapAddr mapEntry

/-- An entry of the indirect block is missing. -/
theorem mapEntry_follows (hw : Work s.sb i s.disk (s.icache ip).copy) (hout : 1 ≤ s.outstanding)
    {bn : Nat} (hbn : ¬ bn < 12) (hin : bn < 140) (hind : (s.icache ip).copy.addr 12 ≠ 0)
    (hentry : indirectEntry (s.disk ((s.icache ip).copy.addr 12).toNat) (bn - 12) = 0)
    {c : Nat} {fs : List Nat} (hfree : freeBlocks s.sb s.disk = c :: fs) :
    wp (mapEntry ((s.icache ip).copy.addr 12).toNat (bn - 12)) (Follows s ip bn
      ⟨Function.update ((s.icache ip).copy.ref s.disk) (place bn) c, fs,
        [bblock s.sb c, c, ((s.icache ip).copy.addr 12).toNat]⟩)
      (Full s [bblock s.sb c, c, ((s.icache ip).copy.addr 12).toNat]) s := by
  have hplace := place_indirect hbn
  obtain ⟨hle, hlt, hbit⟩ := hw.nmeta_le (b := c) (by rw [hfree]; simp)
  refine wp_mono (mapEntry_plan hout hfree hentry) ?_ fun _ he => he
  rintro b _ ⟨rfl, rfl, hroom⟩
  refine ⟨_, _, wrote_eq_worked s ip _ _, ?_, ?_, ?_, hroom⟩
  · simp only [hplace]
    exact hw.ref_storeEntry hbit hlt (by omega) hind
  · rw [freeBlocks_update _ (hw.nmeta_le_indirect hind)]
    exact freeBlocks_allocated hle hfree
  · simp only [Function.update_self]

/-- The indirect block and the entry are missing. -/
theorem bmap_plan_both (hw : Work s.sb i s.disk (s.icache ip).copy) (hout : 1 ≤ s.outstanding)
    {bn : Nat} (hbn : ¬ bn < 12) (hin : bn < 140) (hind : (s.icache ip).copy.addr 12 = 0)
    {b c : Nat} {fs : List Nat} (hfree : freeBlocks s.sb s.disk = b :: c :: fs) :
    wp (bmap ip bn) (Follows s ip bn
      ⟨Function.update (Function.update ((s.icache ip).copy.ref s.disk) 12 b) (place bn) c, fs,
        [bblock s.sb b, b, bblock s.sb c, c, b]⟩)
      (Full s [bblock s.sb b, b, bblock s.sb c, c, b]) s := by
  obtain ⟨hle, hlt, hbit⟩ := hw.nmeta_le (b := b) (by rw [hfree]; simp)
  have hsize := hw.geo.blocks
  have htwo := hw.geo.two_lt_nmeta
  have hbn' : (UInt32.ofNat b).toNat = b := UInt32.toNat_ofNat_of_lt' (by omega : b < 2 ^ 32)
  rw [bmap_indirect ip hbn (by omega)]
  refine wp_bind_of (wp_mono (mapAddr_plan hout hfree hind) (fun _ _ h => h) fun _ he =>
    he.append (b := [bblock s.sb c, c, b])) ?_
  rintro a _ ⟨rfl, rfl, hroom⟩
  generalize hx : (s.icache ip).copy.setAddr 12 (UInt32.ofNat a) = x
  generalize ht : s.worked ip (allocated s.sb s.disk a) (s.after [bblock s.sb a, a]) x = t
  have hcopy : (t.icache ip).copy = x := by
    rw [← ht]
    exact worked_copy s ip _ _ x
  have hdisk : t.disk = allocated s.sb s.disk a := by rw [← ht]; rfl
  have hsb : t.sb = s.sb := by rw [← ht]; rfl
  have hlh : t.lh = s.after [bblock s.sb a, a] := by rw [← ht]; rfl
  have haddr : x.addr 12 = UInt32.ofNat a := by
    rw [← hx]
    exact addr_setAddr_same _ (by omega) _
  have href : x.ref (allocated s.sb s.disk a) =
      Function.update ((s.icache ip).copy.ref s.disk) 12 a := by
    rw [← hx]
    exact hw.ref_storeAddr hbit hlt (by omega) hind
  have hadd := (hw.storeAddr hbit hlt (by omega) hind).work
  rw [hx] at hadd
  have hind' : x.addr 12 ≠ 0 := by
    rw [haddr, Ne, ← UInt32.toNat_inj, hbn']
    exact (by omega : a ≠ 0)
  have hfollows := mapEntry_follows (s := t) (i := i) (c := c)
    (by rw [hcopy, hdisk, hsb]; exact hadd) (by rw [← ht]; exact hout) hbn hin
    (by rw [hcopy]; exact hind')
    (by rw [hcopy, hdisk, haddr, hbn', allocated_self]; exact indirectEntry_zero _)
    (by rw [hsb, hdisk]; exact freeBlocks_allocated hle hfree)
  rw [hcopy, haddr, hbn', hdisk, href, hsb] at hfollows
  refine wp_mono hfollows ?_ fun e he => he.later (a := [bblock s.sb a, a]) hsb hlh
  rintro b' _ ⟨d, x', rfl, hrefs, hfree', hb', hroom'⟩
  refine ⟨d, x', ?_, hrefs, by rwa [hsb] at hfree', hb',
    FsState.HasRoom.append (a := [bblock s.sb a, a]) hroom hroom' hsb hlh⟩
  rw [after_append hlh, ← ht, worked_worked]
  rfl

/-- The indirect block takes the last free block. -/
theorem bmap_short_both (hw : Work s.sb i s.disk (s.icache ip).copy) (hout : 1 ≤ s.outstanding)
    {bn : Nat} (hbn : ¬ bn < 12) (hin : bn < 140) (hind : (s.icache ip).copy.addr 12 = 0)
    {b : Nat} (hfree : freeBlocks s.sb s.disk = [b]) {Q : Nat → FsState → Prop} :
    wp (bmap ip bn) Q (OutOfBlocks s [bblock s.sb b, b]) s := by
  obtain ⟨hle, -, -⟩ := hw.nmeta_le (b := b) (by rw [hfree]; simp)
  rw [bmap_indirect ip hbn (by omega)]
  refine wp_bind_of (wp_mono (mapAddr_plan hout hfree hind) (fun _ _ h => h) fun _ => Or.inl) ?_
  rintro c _ ⟨rfl, rfl, hroom⟩
  have hentry : indirectEntry (allocated s.sb s.disk c c) (bn - 12) = 0 := by
    rw [allocated_self]
    exact indirectEntry_zero _
  have hstop := mapEntry_short (s := s.worked ip (allocated s.sb s.disk c)
    (s.after [bblock s.sb c, c]) ((s.icache ip).copy.setAddr 12 (UInt32.ofNat c)))
    (freeBlocks_allocated hle hfree) hentry
  rw [wp_of_error hstop]
  exact Or.inr ⟨hroom, rfl⟩

/-- How `bmap` stops. -/
def BlockStops (s : FsState) (r : Except (List Nat) Planned) (e : Stop) : Prop :=
  (∃ q, r = .ok q ∧ Full s q.log e) ∨ ∃ log, r = .error log ∧ OutOfBlocks s log e

/-- A program that follows a plan. -/
theorem wp_follows {bn : Nat} {q : Planned} {m : FsM Nat}
    (h : wp m (Follows s ip bn q) (Full s q.log) s) :
    wp m (fun b t => ∃ q', (Except.ok q : Except (List Nat) Planned) = .ok q' ∧
      Follows s ip bn q' b t) (BlockStops s (.ok q)) s :=
  wp_mono h (fun _ _ hq => ⟨q, rfl, hq⟩) fun _ he => Or.inl ⟨q, rfl, he⟩

/-- A program that finds no free block. -/
theorem wp_short {log : List Nat} {m : FsM Nat} {Q : Nat → FsState → Prop}
    (h : wp m Q (OutOfBlocks s log) s) : wp m Q (BlockStops s (.error log)) s :=
  wp_mono h (fun _ _ hq => hq) fun _ he => Or.inr ⟨log, rfl, he⟩

/-- `bmap` follows the plan. -/
theorem bmap_plan (hw : Work s.sb i s.disk (s.icache ip).copy) (hout : 1 ≤ s.outstanding)
    {bn : Nat} (hbn : bn < maxfile) :
    wp (bmap ip bn) (fun b t => ∃ q, planBlock (bblock s.sb) ((s.icache ip).copy.ref s.disk)
        (freeBlocks s.sb s.disk) bn = .ok q ∧ Follows s ip bn q b t)
      (BlockStops s (planBlock (bblock s.sb) ((s.icache ip).copy.ref s.disk)
        (freeBlocks s.sb s.disk) bn)) s := by
  simp only [maxfile_eq] at hbn
  have hempty : s.HasRoom [] := trivial
  unfold planBlock
  by_cases hmapped : (s.icache ip).copy.ref s.disk (place bn) ≠ 0
  · simp only [if_pos hmapped]
    rw [wp_of_ok (bmap_mapped hw.type hmapped)]
    exact ⟨_, rfl, s.disk, _, (worked_self s ip).symm, rfl, rfl, rfl, hempty⟩
  · simp only [if_neg hmapped]
    have hhole : (s.icache ip).copy.ref s.disk (place bn) = 0 := not_not.mp hmapped
    by_cases hdirect : bn < ndirect
    · simp only [if_pos hdirect]
      have haddr : (s.icache ip).copy.addr bn = 0 := by
        have hlt : bn < 12 := hdirect
        rw [place, if_pos hlt, ref_addr hw.type (by omega)] at hhole
        exact UInt32.toNat_inj.mp hhole
      cases hfree : freeBlocks s.sb s.disk with
      | cons b fs => exact wp_follows (bmap_plan_direct hw hout hdirect haddr hfree)
      | nil =>
        refine wp_short ?_
        rw [bmap_direct ip hdirect, wp_of_error (mapAddr_short hfree haddr)]
        exact Or.inr ⟨hempty, rfl⟩
    · simp only [if_neg hdirect]
      have href12 : (s.icache ip).copy.ref s.disk ndirect = ((s.icache ip).copy.addr 12).toNat :=
        ref_addr hw.type (by decide)
      by_cases hind : (s.icache ip).copy.addr 12 = 0
      · have hzero : ¬ (s.icache ip).copy.ref s.disk ndirect ≠ 0 := by
          rw [href12, hind]
          simp
        simp only [if_neg hzero]
        rcases hfree : freeBlocks s.sb s.disk with _ | ⟨b, _ | ⟨c, fs⟩⟩
        · refine wp_short ?_
          rw [bmap_indirect ip hdirect (by omega), wp_bind,
            wp_of_error (mapAddr_short hfree hind)]
          exact Or.inr ⟨hempty, rfl⟩
        · exact wp_short (bmap_short_both hw hout hdirect hbn hind hfree)
        · exact wp_follows (bmap_plan_both hw hout hdirect hbn hind hfree)
      · have hpresent : (s.icache ip).copy.ref s.disk ndirect ≠ 0 := by
          rw [href12]
          simpa [← UInt32.toNat_inj] using hind
        simp only [if_pos hpresent]
        have hentry : indirectEntry (s.disk ((s.icache ip).copy.addr 12).toNat) (bn - 12) = 0 := by
          rw [place_indirect hdirect, ref_entry hw.type hind (by omega)] at hhole
          exact UInt32.toNat_inj.mp hhole
        have haddr : mapAddr ip 12 s = .ok (((s.icache ip).copy.addr 12).toNat, s) := by
          unfold mapAddr
          rw [bind_ok (a := s) (t := s) rfl, if_neg hind]
          rfl
        rw [bmap_indirect ip hdirect (by omega), wp_bind, wp_of_ok haddr, href12]
        cases hfree : freeBlocks s.sb s.disk with
        | cons c fs => exact wp_follows (mapEntry_follows hw hout hdirect hbn hind hentry hfree)
        | nil =>
          refine wp_short ?_
          rw [wp_of_error (mapEntry_short hfree hentry)]
          exact Or.inr ⟨hempty, rfl⟩

theorem worked_inj {d d' : Disk} {l l' : List Nat} {x x' : Dinode}
    (h : s.worked ip d l x = s.worked ip d' l' x') : d' = d ∧ l' = l ∧ x' = x := by
  refine ⟨congrArg FsState.disk h.symm, congrArg FsState.lh h.symm, ?_⟩
  have hcopy := congrArg (fun t : FsState => (t.icache ip).copy) h
  simp only [worked_copy] at hcopy
  exact hcopy.symm

/-- Writing to a data block of the file changes no reference and no free block. -/
theorem Work.overwrite {sb : Superblock} {d : Disk} {x : Dinode} (h : Work sb i d x) {bn : Nat}
    (hne : x.ref d (place bn) ≠ 0) (block : Block) :
    x.ref (Function.update d (x.ref d (place bn)) block) = x.ref d ∧
      freeBlocks sb (Function.update d (x.ref d (place bn)) block) = freeBlocks sb d := by
  have hself : ∀ k, refs d (view sb d i x) (i, k) = x.ref d k := refs_self sb d d i x
  constructor
  · funext k
    refine ref_congr (fun h12 => Function.update_of_ne ?_ _ _) k
    have hptr := h.owned.ptr_ne (p := (i, 12)) (q := (i, place bn)) (by rw [hself]; exact h12)
      (fun heq => place_ne bn (congrArg Prod.snd heq).symm)
    rwa [hself, hself] at hptr
  · have hrange := h.owned.range (i, place bn) (by rw [hself]; exact hne)
    rw [hself] at hrange
    exact freeBlocks_update d hrange.1 block

/-- One round of the loop of `writei` follows the plan for one block; `k` is the rest of the
loop. -/
theorem writeRound_plan (hw : Work s.sb i s.disk (s.icache ip).copy) (hout : 1 ≤ s.outstanding)
    {off m : Nat} {src : List UInt8} (hpos : 0 < src.length)
    (hfit : off + src.length ≤ maxfile * bsize) (hm : m = min src.length (bsize - off % bsize))
    {k : FsM Unit} {Q : Unit → FsState → Prop} {E : Stop → Prop}
    (hshort : ∀ log, planBlock (bblock s.sb) ((s.icache ip).copy.ref s.disk)
      (freeBlocks s.sb s.disk) (off / bsize) = .error log → ∀ e, OutOfBlocks s log e → E e)
    (hfull : ∀ q, planBlock (bblock s.sb) ((s.icache ip).copy.ref s.disk)
      (freeBlocks s.sb s.disk) (off / bsize) = .ok q →
      ∀ e, Full s (q.log ++ [q.refs (place (off / bsize))]) e → E e)
    (hk : ∀ q, planBlock (bblock s.sb) ((s.icache ip).copy.ref s.disk)
      (freeBlocks s.sb s.disk) (off / bsize) = .ok q →
      ∀ d x, Work s.sb i d x → x.ref d = q.refs → freeBlocks s.sb d = q.free →
      s.HasRoom (q.log ++ [q.refs (place (off / bsize))]) →
      wp k Q E (s.worked ip d (s.after (q.log ++ [q.refs (place (off / bsize))])) x)) :
    wp (do let b ← bmap ip (off / bsize)
           bmodify b fun block => block.overwrite (off % bsize) (src.take m)
           logWrite b
           k) Q E s := by
  have hmod : off % bsize < bsize := Nat.mod_lt _ (by decide)
  have hbn : off / bsize < maxfile := by
    rw [Nat.div_lt_iff_lt_mul (by decide)]
    omega
  refine wp_bind_of (wp_and_right (bmap_spec hw hout hbn) (wp_mono (bmap_plan hw hout hbn)
    (fun _ _ h => h) ?_)) ?_
  · rintro e (⟨q, hq, he⟩ | ⟨log, hlog, he⟩)
    · exact hfull q hq e he.append
    · exact hshort log hlog e he
  rintro b _ ⟨⟨d, l, x, rfl, hadd, rfl, hne, hsame⟩, q, hq, d', x', heq, href, hfree, hb, hroom⟩
  obtain ⟨rfl, rfl, rfl⟩ := worked_inj heq
  have hlen : (src.take m).length = m := List.length_take_of_le (by omega)
  have hchunk := Wrote.chunk hadd hne hsame
    (by omega : (src.take m).length ≤ bsize - off % bsize) (by omega)
  obtain ⟨href', hfree'⟩ := hadd.work.overwrite hne
    ((d' (x'.ref d' (place (off / bsize)))).overwrite (off % bsize) (src.take m))
  simp only [wp_bind, bmodify, wp_modify]
  rw [hb] at href' hfree' hchunk ⊢
  refine wp_mono (logWrite_plan _ hout) ?_ fun e he => hfull q hq e (he.later rfl rfl)
  rintro _ _ ⟨rfl, hroom'⟩
  have hafter := after_append (s := s) (t := s.worked ip d' (s.after q.log) x')
    (b := [q.refs (place (off / bsize))]) rfl
  have hnext := hk q hq _ x' hchunk.work (href'.trans href) (hfree'.trans hfree)
    (FsState.HasRoom.append hroom hroom' rfl rfl)
  rw [← hafter] at hnext
  exact hnext

/-- How the loop of `writei` stops. -/
def Stops (s : FsState) (p : WriteLog) (e : Stop) : Prop :=
  Full s p.calls e ∨ p.complete = false ∧ OutOfBlocks s p.calls e

theorem not_stops {p : WriteLog} {e : Stop} (hcomplete : p.complete = true)
    (hroom : s.HasRoom p.calls) : ¬ Stops s p e := by
  rintro (hfull | ⟨hshort, -⟩)
  · exact hfull.2 hroom
  · exact absurd (hcomplete.symm.trans hshort) (by simp)

/-- The loop of `writei` follows the plan. -/
theorem writeLoop_plan {fuel : Nat} :
    ∀ {s : FsState} {off : Nat} {src : List UInt8} {p : WriteLog},
      Work s.sb i s.disk (s.icache ip).copy → 1 ≤ s.outstanding →
      off + src.length ≤ maxfile * bsize → src.length ≤ fuel →
      p = plan (bblock s.sb) ((s.icache ip).copy.ref s.disk) (freeBlocks s.sb s.disk)
        (chunkBlocks off src.length) →
      wp (writeLoop ip fuel off src) (fun _ t => p.complete = true ∧ s.HasRoom p.calls ∧
        ∃ d x, t = s.worked ip d (s.after p.calls) x) (Stops s p) s := by
  induction fuel with
  | zero =>
    intro s off src p hw _ _ hfuel hp
    have hsrc : src = [] := List.eq_nil_of_length_eq_zero (by omega)
    subst hsrc hp
    exact ⟨rfl, trivial, s.disk, (s.icache ip).copy, (worked_self s ip).symm⟩
  | succ fuel ih =>
    intro s off src p hw hout hfit hfuel hp
    unfold writeLoop
    by_cases hsrc : src = []
    · subst hsrc hp
      rw [if_pos rfl]
      exact ⟨rfl, trivial, s.disk, (s.icache ip).copy, (worked_self s ip).symm⟩
    · rw [if_neg hsrc]
      have hpos : 0 < src.length := List.length_pos_of_ne_nil hsrc
      have hmod : off % bsize < bsize := Nat.mod_lt _ (by decide)
      generalize hm : min src.length (bsize - off % bsize) = m
      rw [chunkBlocks_step hpos hm.symm] at hp
      refine writeRound_plan hw hout hpos hfit hm.symm ?_ ?_ ?_
      · intro log hlog e he
        rw [hp, plan_cons_error hlog]
        exact Or.inr ⟨rfl, he⟩
      · intro q hq e he
        rw [hp, plan_cons_ok hq]
        exact Or.inl he.append
      · intro q hq d x hwork href hfree hroom
        rw [plan_cons_ok hq] at hp
        generalize hbs : q.log ++ [q.refs (place (off / bsize))] = bs at hp hroom ⊢
        have hcopy := worked_copy s ip d (s.after bs) x
        refine wp_mono (ih (s := s.worked ip d (s.after bs) x)
          (p := plan (bblock s.sb) q.refs q.free (chunkBlocks (off + m) (src.length - m)))
          (by rw [hcopy]; exact hwork) hout (by rw [List.length_drop]; omega)
          (by rw [List.length_drop]; omega) ?_) ?_ ?_
        · rw [hcopy, List.length_drop, ← href, ← hfree]
          rfl
        · rintro _ _ ⟨hcomplete, hroom', d', x', rfl⟩
          subst hp
          refine ⟨hcomplete, FsState.HasRoom.append hroom hroom' rfl rfl, d', x', ?_⟩
          rw [after_append (s := s) (t := s.worked ip d (s.after bs) x) rfl, worked_worked]
        · rintro e (he | ⟨hcomplete, he⟩)
          · subst hp
            exact Or.inl (he.later rfl rfl)
          · subst hp
            exact Or.inr ⟨hcomplete, he.later rfl rfl hroom⟩

/-- What the loop of `writei` of `n` bytes at `off` passes to `log_write`. -/
def FsState.writeLog (s : FsState) (ip : Fin ninode) (off n : Nat) : WriteLog :=
  plan (bblock s.sb) ((s.icache ip).copy.ref s.disk) (freeBlocks s.sb s.disk) (chunkBlocks off n)

/-- The blocks that `writei` of `n` bytes at `off` logs besides the inode, if the free blocks
last. -/
def FsState.writePlan (s : FsState) (ip : Fin ninode) (off n : Nat) : Option (List Nat) :=
  if (s.writeLog ip off n).complete then some (s.writeLog ip off n).calls else none

/-- `writei` makes the file longer. -/
def FsState.grows (s : FsState) (ip : Fin ninode) (off n : Nat) : Prop :=
  0 < n ∧ (s.icache ip).copy.size.toNat < off + n

instance (s : FsState) (ip : Fin ninode) (off n : Nat) : Decidable (s.grows ip off n) :=
  inferInstanceAs (Decidable (_ ∧ _))

/-- What `writei` passes to `log_write`: the blocks of the plan, and the inode if the file
becomes longer. -/
def FsState.writeCalls (s : FsState) (ip : Fin ninode) (off n : Nat) : List Nat :=
  (s.writeLog ip off n).calls ++
    if (s.writeLog ip off n).complete = true ∧ s.grows ip off n then
      [iblock s.sb (s.icache ip).inum]
    else []

theorem iupdate_plan (hout : 1 ≤ s.outstanding) :
    wp (iupdate ip) (fun _ t => t.lh = s.after [iblock s.sb (s.icache ip).inum] ∧
      s.HasRoom [iblock s.sb (s.icache ip).inum]) (Full s [iblock s.sb (s.icache ip).inum]) s := by
  unfold iupdate
  simp only [wp_bind, wp_get, wp_modify]
  refine wp_mono (logWrite_plan _ hout) ?_ fun e he => he
  rintro _ _ ⟨rfl, hroom⟩
  exact ⟨rfl, hroom⟩

/-- `writei` makes the calls of `log_write` that are planned, and stops only if the log has no
room for them or the free blocks do not last. -/
theorem writei_follows (h : Cached s ip) (hout : 1 ≤ s.outstanding)
    (hdev : (s.icache ip).copy.type ≠ tDev) (src : List UInt8) {off : UInt32}
    (hoff : off.toNat ≤ (s.icache ip).copy.size.toNat)
    (hfit : off.toNat + src.length ≤ maxfile * bsize) :
    wp (writei ip src off) (fun r t => r = some (UInt32.ofNat src.length) ∧
        (s.writeLog ip off.toNat src.length).complete = true ∧
        t.lh = s.after (s.writeCalls ip off.toNat src.length) ∧
        s.HasRoom (s.writeCalls ip off.toNat src.length))
      (Stops s ⟨s.writeCalls ip off.toNat src.length,
        (s.writeLog ip off.toNat src.length).complete⟩) s := by
  simp only [maxfile_eq, bsize_eq] at hfit
  have hn : (UInt32.ofNat src.length).toNat = src.length :=
    UInt32.toNat_ofNat_of_lt' (by omega : src.length < 2 ^ 32)
  have hsum : (off + UInt32.ofNat src.length).toNat = off.toNat + src.length := by
    rw [UInt32.toNat_add, hn]
    omega
  have hgrow : (UInt32.ofNat src.length > 0 ∧
      off + UInt32.ofNat src.length > (s.icache ip).copy.size) ↔
        s.grows ip off.toNat src.length := by
    rw [gt_iff_lt, gt_iff_lt, UInt32.lt_iff_toNat_lt, UInt32.lt_iff_toNat_lt, hsum, hn]
    rfl
  unfold writei FsState.writeCalls
  simp only [wp_bind, wp_get]
  rw [if_neg hdev, if_neg, if_neg]
  · refine wp_bind_of (wp_mono (writeLoop_plan h.work hout
      (by simp only [maxfile_eq, bsize_eq]; omega) (le_refl _) rfl) (fun _ _ h => h) ?_) ?_
    · rintro e (he | ⟨hshort, he⟩)
      · exact Or.inl (Full.append he)
      · refine Or.inr ⟨hshort, ?_⟩
        rw [FsState.writeLog, hshort, if_neg (by simp), List.append_nil]
        exact he
    rintro _ _ ⟨hcomplete, hroom, d, x, rfl⟩
    change (s.writeLog ip off.toNat src.length).complete = true at hcomplete
    change s.HasRoom (s.writeLog ip off.toNat src.length).calls at hroom
    by_cases hgrows : s.grows ip off.toNat src.length
    · rw [if_pos (hgrow.mpr hgrows), if_pos ⟨hcomplete, hgrows⟩]
      simp only [wp_bind, setCopy, setInode, wp_modify]
      generalize hu : FsState.mk _ _ _ _ _ _ _ _ = u
      have hsb : u.sb = s.sb := by rw [← hu]; rfl
      have hlh : u.lh = s.after (s.writeLog ip off.toNat src.length).calls := by rw [← hu]; rfl
      have hinum : (u.icache ip).inum = (s.icache ip).inum := by
        rw [← hu]
        simp [FsState.worked]
      have hend : wp (iupdate ip) _ _ u := iupdate_plan (by rw [← hu]; exact hout)
      rw [hsb, hinum] at hend
      refine wp_mono hend ?_ fun e he => Or.inl (he.later hsb hlh)
      rintro _ t ⟨hlh', hroom'⟩
      exact ⟨rfl, hcomplete, hlh'.trans (after_append hlh), hroom.append hroom' hsb hlh⟩
    · rw [if_neg (fun hbad => hgrows (hgrow.mp hbad)), if_neg (fun hbad => hgrows hbad.2),
        List.append_nil]
      exact ⟨rfl, hcomplete, rfl, hroom⟩
  · rw [hsum]
    simp only [maxfile_eq, bsize_eq]
    omega
  · rw [gt_iff_lt, UInt32.lt_iff_toNat_lt, UInt32.lt_iff_toNat_lt, hsum]
    omega

/-- `writei` of bytes at the end of a file returns exactly if the log has space for the
blocks of the plan, and one more for the inode. -/
theorem writei_plan (h : Cached s ip) (hout : 1 ≤ s.outstanding) (hnodup : s.lh.Nodup)
    (hdev : (s.icache ip).copy.type ≠ tDev) {src : List UInt8} (hsrc : src ≠ []) {off : UInt32}
    (hoff : off = (s.icache ip).copy.size) (hfit : off.toNat + src.length ≤ maxfile * bsize)
    {log : List Nat} (hplan : s.writePlan ip off.toNat src.length = some log) :
    wp (writei ip src off) (fun r t => r = some (UInt32.ofNat src.length) ∧ t.lh.Nodup ∧
        (s.logged ∪ log.toFinset).card < logCap s.sb)
      (fun _ => ¬ (s.logged ∪ log.toFinset).card < logCap s.sb) s := by
  have hpos : 0 < src.length := List.length_pos_of_ne_nil hsrc
  have hgrows : s.grows ip off.toNat src.length := by
    rw [hoff]
    exact ⟨hpos, by omega⟩
  obtain ⟨hcomplete, hlog⟩ := Option.ite_none_right_eq_some.mp hplan
  cases hlog
  have hcalls : s.writeCalls ip off.toNat src.length =
      (s.writeLog ip off.toNat src.length).calls ++ [iblock s.sb (s.icache ip).inum] := by
    rw [FsState.writeCalls, if_pos ⟨hcomplete, hgrows⟩]
  have hroom : s.HasRoom (s.writeCalls ip off.toNat src.length) ↔
      (s.logged ∪ (s.writeLog ip off.toNat src.length).calls.toFinset).card < logCap s.sb := by
    rw [hcalls, FsState.HasRoom, fits_concat, length_foldl_absorb hnodup, FsState.logged]
  refine wp_mono (writei_follows h hout hdev _ (by rw [hoff]) hfit) ?_ ?_
  · rintro r t ⟨hr, -, hlh, hfits⟩
    refine ⟨hr, ?_, hroom.mp hfits⟩
    rw [hlh]
    exact foldl_absorb_nodup hnodup _
  · rintro e (he | ⟨hshort, -⟩)
    · exact fun hlt => he.2 (hroom.mpr hlt)
    · exact absurd (hcomplete.symm.trans hshort) (by simp)

end Blocks

end Xv6.Fs
