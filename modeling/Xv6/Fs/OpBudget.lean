import Xv6.Fs.PlanCost
import Xv6.Fs.SharedWrite

/-!
# File system - The budget of a write

`begin_op` reserves {lit}`maxopblocks` blocks of the log for an operation.  A section of
`filewrite` writes at most {lit}`filewriteMax` bytes, a number that was computed from the size
of the log instead; so it can log more blocks than were reserved for it.

Main results:

- Theorem {lit}`chunkSection_logs`: the blocks that a section logs, also when {lit}`balloc` panics.
- Theorem {lit}`section_budget_iff`: when they stay within the budget.
-/

namespace Xv6.Fs

open Foundations

/-! ## The blocks of a section -/

/-- The blocks that a write of `n` bytes at `off` passes to {lit}`log_write`: none if `writei`
refuses, otherwise those of the plan, up to the panic if free blocks run out. -/
def FsState.sectionBlocks (s : FsState) (ip : Fin ninode) (off n : Nat) : Finset Nat :=
  if (s.icache ip).copy.size.toNat < off ∨ maxfile * bsize < off + n then ∅
  else (s.writeCalls ip off n).toFinset

/-- The write stays within the budget: `writei` refuses, or not too many blocks are logged.
These are the blocks of the file that are there and are reached before free blocks run out,
the blocks taken, the blocks of the free map that mark them, the indirect block if it is there
and an entry of it is new, and the inode if the file grows and the free blocks last. -/
def FsState.WithinBudget (s : FsState) (ip : Fin ninode) (off n : Nat) : Prop :=
  let refs := (s.icache ip).copy.ref s.disk
  let bns := chunkBlocks off n
  let free := freeBlocks s.sb s.disk
  let r := reached refs free.length bns
  let T := free.take (taken refs bns)
  (s.icache ip).copy.size.toNat < off ∨ maxfile * bsize < off + n ∨
    (r.filter fun bn => refs (place bn) ≠ 0).length +
      (if newEntry refs r = true ∧ refs 12 ≠ 0 then 1 else 0) + T.length +
      (T.map (bblock s.sb)).toFinset.card +
      (if taken refs bns ≤ free.length ∧ s.grows ip off n then 1 else 0) ≤ maxopblocks

instance (s : FsState) (ip : Fin ninode) (off n : Nat) : Decidable (s.WithinBudget ip off n) :=
  inferInstanceAs (Decidable (_ ∨ _ ∨ _))

section Budget

variable {s : FsState} {f : Fin nfile} {ip : Fin ninode} {p : Fin nproc}

/-- The number of blocks that `writei` logs. -/
theorem writeCalls_card (h : Cached s ip) {off n : Nat} {refs : Nat → Nat}
    {bns free r T : List Nat} (hrefs : refs = (s.icache ip).copy.ref s.disk)
    (hbns : bns = chunkBlocks off n) (hfree : free = freeBlocks s.sb s.disk)
    (hr : r = reached refs free.length bns) (hT : T = free.take (taken refs bns)) :
    (s.writeCalls ip off n).toFinset.card =
      (r.filter fun bn => refs (place bn) ≠ 0).length +
        (if newEntry refs r = true ∧ refs 12 ≠ 0 then 1 else 0) + T.length +
        (T.map (bblock s.sb)).toFinset.card +
        (if taken refs bns ≤ free.length ∧ s.grows ip off n then 1 else 0) := by
  have hw := h.work
  have hself := refs_self s.sb s.disk s.disk (s.icache ip).inum (s.icache ip).copy
  rw [← hrefs] at hself
  have hmeta := hw.geo.two_lt_nmeta
  have hdata : ∀ b ∈ free, s.sb.nmeta ≤ b ∧ b < s.sb.size ∧ bitSet s.sb s.disk b = false := by
    rw [hfree]
    exact fun b hb => hw.nmeta_le hb
  have hpos : ∀ b ∈ free, b ≠ 0 := by
    intro b hb
    have hge := (hdata b hb).1
    omega
  have hnodup : bns.Nodup := by
    rw [hbns]
    exact chunkBlocks_nodup off n
  have hrange : ∀ k, refs k ≠ 0 → s.sb.nmeta ≤ refs k := by
    intro k hk
    have hr := hw.owned.range ((s.icache ip).inum, k) (by rwa [hself])
    rw [hself] at hr
    exact hr.1
  have hcard := plan_card (bblock s.sb) hnodup hpos
    (by rw [hfree]; exact List.nodup_range.filter _) ?_ ?_ ?_ hT hr
  · have hinode : iblock s.sb (s.icache ip).inum ∉ (plan (bblock s.sb) refs free bns).calls := by
      intro hmem
      have hlt := hw.geo.iblock_lt hw.inum
      have hle := Geometry.bmapstart_lt s.sb
      rcases (mem_plan _ hnodup hpos _).mp hmem with
        ⟨bn, -, hne, heq⟩ | hin | ⟨b, -, heq⟩ | ⟨-, hne, heq⟩
      · have hge := hrange _ hne
        omega
      · have hge := (hdata _ (List.mem_of_mem_take hin)).1
        omega
      · have hge := Geometry.le_bblock s.sb b
        omega
      · have hge := hrange _ hne
        omega
    have hlog : s.writeLog ip off n = plan (bblock s.sb) refs free bns := by
      rw [FsState.writeLog, ← hrefs, ← hfree, ← hbns]
    have hcomplete : (plan (bblock s.sb) refs free bns).complete = true ↔ _ :=
      plan_complete_iff _ hnodup hpos
    unfold FsState.writeCalls
    simp only [hlog, hcomplete, List.toFinset_append, ← hcard]
    split_ifs with hlast
    · rw [Finset.card_union_of_disjoint (by simpa using hinode)]
      rfl
    · simp
  · intro j k hj heq
    have hinj := hw.owned.inj (p := ((s.icache ip).inum, j)) (q := ((s.icache ip).inum, k))
      (by rwa [hself]) (by rwa [hself, hself])
    exact congrArg Prod.snd hinj
  · intro k hk hmem
    have hused := hw.owned.used_ptr (p := ((s.icache ip).inum, k)) (by rwa [hself])
    rw [hself, (hdata _ hmem).2.2] at hused
    exact absurd hused Bool.false_ne_true
  · intro b hb
    have hlt := Geometry.bblock_lt (hdata b hb).2.1
    refine ⟨fun hmem => ?_, fun k hk heq => ?_⟩
    · have hge := (hdata _ hmem).1
      omega
    · have hge := hrange k hk
      omega

/-- The set of blocks has at most {lit}`maxopblocks` elements exactly within the budget. -/
theorem sectionBlocks_card_le (h : Cached s ip) (off n : Nat) :
    (s.sectionBlocks ip off n).card ≤ maxopblocks ↔ s.WithinBudget ip off n := by
  unfold FsState.sectionBlocks FsState.WithinBudget
  by_cases hrefuse : (s.icache ip).copy.size.toNat < off ∨ maxfile * bsize < off + n
  · rw [if_pos hrefuse]
    refine iff_of_true (Nat.zero_le _) ?_
    rcases hrefuse with hoff | hbig
    · exact Or.inl hoff
    · exact Or.inr (Or.inl hbig)
  · rw [if_neg hrefuse, writeCalls_card h rfl rfl rfl rfl rfl]
    obtain ⟨hoff, hbig⟩ := not_or.mp hrefuse
    constructor
    · exact fun hle => Or.inr (Or.inr hle)
    · exact fun hor => (hor.resolve_left hoff).resolve_left hbig

/-- The end of a section logs nothing. -/
theorem release_logged {r : Option UInt32} (hlock : (s.icache ip).lock = some p)
    (hheld : 1 ≤ (s.icache ip).ref) :
    wp (do advance f r; iunlock p ip; return r) (fun _ t => t.lh = s.lh) (fun _ => False) s := by
  have hadvance : ∃ t, advance f r s = .ok ((), t) ∧ t.icache = s.icache ∧ t.lh = s.lh := by
    cases r with
    | none => exact ⟨s, rfl, rfl, rfl⟩
    | some n =>
      have hif : advance f (some n) = if n > 0 then setFile f fun x => { x with off := x.off + n }
          else pure () := rfl
      by_cases hn : n > 0
      · rw [hif, if_pos hn]
        exact ⟨_, rfl, rfl, rfl⟩
      · rw [hif, if_neg hn]
        exact ⟨s, rfl, rfl, rfl⟩
  obtain ⟨t, ht, hicache, hlh⟩ := hadvance
  rw [wp_bind, wp_of_ok ht]
  simp only [iunlock, wp_bind, wp_get]
  rw [hicache, if_neg (by rw [hlock]; simp; omega)]
  exact hlh

/-- How a section stops: the log is full, or {lit}`balloc` panics when the blocks `B` are
logged. -/
def SectionStops (s : FsState) (B : Finset Nat) (e : Stop) : Prop :=
  e = .tooBigATransaction ∨ ∃ l, e = .ballocOutOfBlocks l ∧ l.toFinset = s.logged ∪ B

/-- What `writei` logs. -/
theorem writei_logs (h : Cached s ip) (hout : 1 ≤ s.outstanding)
    (hdev : (s.icache ip).copy.type ≠ tDev) {src : List UInt8} (hlen : src.length < 2 ^ 32)
    (off : UInt32) :
    wp (writei ip src off) (fun _ t =>
      t.logged = s.logged ∪ s.sectionBlocks ip off.toNat src.length ∧
      ∃ d l x, t = s.worked ip d l x)
      (SectionStops s (s.sectionBlocks ip off.toNat src.length)) s := by
  have hmax : maxfile * bsize < 2 ^ 32 := by decide
  unfold FsState.sectionBlocks
  by_cases hrefuse : (s.icache ip).copy.size.toNat < off.toNat ∨
      maxfile * bsize < off.toNat + src.length
  · have hnone : writeData (contents s.disk (s.icache ip).copy) off src = none := by
      unfold writeData
      rw [contents_length]
      by_cases hbad : (s.icache ip).copy.size.toNat < off.toNat ∨ 2 ^ 32 ≤ off.toNat + src.length
      · rw [if_pos hbad]
      · rw [if_neg hbad, if_pos (hrefuse.resolve_left fun hoff => hbad (Or.inl hoff))]
    rw [if_pos hrefuse, Finset.union_empty, wp_of_ok (writei_refuses hdev hlen hnone)]
    exact ⟨rfl, s.disk, s.lh, (s.icache ip).copy, (worked_self s ip).symm⟩
  · rw [if_neg hrefuse]
    obtain ⟨hoff, hfit⟩ := not_or.mp hrefuse
    have hdata : writeData (contents s.disk (s.icache ip).copy) off src =
        some ((contents s.disk (s.icache ip).copy).take off.toNat ++ src ++
          (contents s.disk (s.icache ip).copy).drop (off.toNat + src.length)) := by
      unfold writeData
      rw [contents_length, if_neg (by omega), if_neg hfit]
    refine wp_mono (wp_and_right (writei_spec h hout hdev hlen hdata)
      (writei_follows h hout hdev _ (by omega) (by omega))) ?_ ?_
    · rintro r t ⟨⟨-, d, l, x, rfl, -⟩, -, -, hlh, -⟩
      refine ⟨?_, d, l, x, rfl⟩
      rw [FsState.logged, hlh]
      exact toFinset_foldl_absorb _ _
    · rintro e (⟨he, -⟩ | ⟨-, ⟨he, -⟩ | ⟨-, he⟩⟩)
      · exact Or.inl he
      · exact Or.inl he
      · exact Or.inr ⟨_, he, toFinset_foldl_absorb _ _⟩

/-- What a section logs. -/
theorem chunkSection_logs (h : OpenFile s f ip) (hout : 1 ≤ s.outstanding)
    {src : List UInt8} (hlen : src.length < 2 ^ 32) :
    wp (chunkSection p f ip src) (fun _ t =>
      t.logged = s.logged ∪ s.sectionBlocks ip (s.ftable f).off.toNat src.length)
      (SectionStops s (s.sectionBlocks ip (s.ftable f).off.toNat src.length)) s := by
  have hentry := lockedBy_icache s ip (some p)
  have hcached := h.cached.lockedBy (some p)
  have hblocks : (s.lockedBy ip (some p)).sectionBlocks ip (s.ftable f).off.toNat src.length =
      s.sectionBlocks ip (s.ftable f).off.toNat src.length := by
    simp only [FsState.sectionBlocks, FsState.writeCalls, FsState.writeLog, FsState.grows, hentry]
    rfl
  have hwrite := writei_logs (s := s.lockedBy ip (some p)) hcached hout
    (h.not_dev (some p)) hlen (s.ftable f).off
  rw [hblocks] at hwrite
  unfold chunkSection
  rw [wp_bind, wp_of_ok h.ilock, wp_bind, wp_get]
  refine wp_bind_of hwrite ?_
  rintro r _ ⟨hlogged, d, l, x, rfl⟩
  have hworked : ((s.lockedBy ip (some p)).worked ip d l x).icache ip =
      { s.icache ip with lock := some p, copy := x } := by
    simp [FsState.worked, FsState.lockedBy]
  refine wp_mono (release_logged (by rw [hworked]) (by rw [hworked]; exact h.held)) ?_
    fun _ he => he.elim
  intro _ t hlh
  show t.lh.toFinset = _
  rw [hlh]
  exact hlogged

/-- A section of `filewrite` passes the same blocks to {lit}`log_write` whatever the log holds
before it, unless it finds the log full, and these are at most {lit}`maxopblocks` exactly within
the budget. -/
theorem section_budget_iff (h : OpenFile s f ip) (hout : 1 ≤ s.outstanding)
    (rest : List UInt8) :
    (∀ l : List Nat, wp (chunkSection p f ip (rest.take filewriteMax))
      (fun _ t => t.logged = l.toFinset ∪
        s.sectionBlocks ip (s.ftable f).off.toNat (rest.take filewriteMax).length)
      (SectionStops { s with lh := l }
        (s.sectionBlocks ip (s.ftable f).off.toNat (rest.take filewriteMax).length))
      { s with lh := l }) ∧
    ((s.sectionBlocks ip (s.ftable f).off.toNat (rest.take filewriteMax).length).card ≤
        maxopblocks ↔
      s.WithinBudget ip (s.ftable f).off.toNat (rest.take filewriteMax).length) := by
  refine ⟨?_, sectionBlocks_card_le h.cached _ _⟩
  intro l
  have hlen : (rest.take filewriteMax).length < 2 ^ 32 := by
    have hmax : filewriteMax < 2 ^ 32 := by decide
    rw [List.length_take]
    omega
  exact chunkSection_logs (p := p) (h.setLog l s.outstanding) hout hlen

end Budget

/-! ## A section over the budget -/

/-- The file of the small file system is open, inside an operation. -/
def smallOp : FsState :=
  { smallFs with outstanding := 1 }

theorem smallOp_open : OpenFile smallOp ⟨0, by decide⟩ ⟨0, by decide⟩ :=
  smallFs_open.toOpenFile.setLog smallFs.lh 1

/-- The number of blocks that a section logs when it returns. -/
def sectionCost (n : Nat) : Option Nat :=
  (chunkSection ⟨0, nproc_pos⟩ ⟨0, nfile_pos⟩ ⟨0, ninode_pos⟩
    ((List.replicate n 1).take filewriteMax) smallOp).toOption.map fun q => q.2.logged.card

theorem sectionCost_some {n k : Nat} (h : sectionCost n = some k) :
    ∃ r t, chunkSection ⟨0, by decide⟩ ⟨0, by decide⟩ ⟨0, by decide⟩
      ((List.replicate n 1).take filewriteMax) smallOp = .ok (r, t) ∧ t.logged.card = k := by
  obtain ⟨⟨r, t⟩, hok, hcard⟩ := Option.map_eq_some_iff.mp h
  refine ⟨r, t, ?_, hcard⟩
  cases hcase : chunkSection ⟨0, by decide⟩ ⟨0, by decide⟩ ⟨0, by decide⟩
      ((List.replicate n 1).take filewriteMax) smallOp with
  | ok q =>
    rw [hcase] at hok
    exact congrArg Except.ok (Option.some.inj hok)
  | error e =>
    rw [hcase] at hok
    exact absurd hok (by simp [Except.toOption])

/-- Two blocks of data are within the budget: with the free map and the inode, four blocks are
logged. -/
theorem section_budget_twoBlocks :
    (∃ r t, chunkSection ⟨0, by decide⟩ ⟨0, by decide⟩ ⟨0, by decide⟩
      ((List.replicate 600 1).take filewriteMax) smallOp = .ok (r, t) ∧
      t.logged = smallOp.sectionBlocks ⟨0, by decide⟩ 0 600 ∧ t.logged.card = 4) ∧
    smallOp.WithinBudget ⟨0, by decide⟩ 0 600 := by
  obtain ⟨hblocks, hbudget⟩ := section_budget_iff (p := ⟨0, by decide⟩) smallOp_open (le_refl 1)
    (List.replicate 600 1)
  obtain ⟨r, t, hrun, hcard⟩ := sectionCost_some (n := 600) (k := 4) (by decide +kernel)
  have hlen : ((List.replicate 600 (1 : UInt8)).take filewriteMax).length = 600 := by
    rw [List.length_take, List.length_replicate]
    decide
  generalize hsrc : (List.replicate 600 (1 : UInt8)).take filewriteMax = src at *
  rw [hlen] at hblocks hbudget
  have hlogged := (wp_of_ok hrun).mp (hblocks [])
  have hset : t.logged = smallOp.sectionBlocks ⟨0, by decide⟩ 0 600 :=
    hlogged.trans (Finset.empty_union _)
  refine ⟨⟨r, t, hrun, hset, hcard⟩, hbudget.mp ?_⟩
  change (smallOp.sectionBlocks ⟨0, by decide⟩ 0 600).card ≤ maxopblocks
  rw [← hset, hcard]
  decide

/-- A write of 6656 bytes to the empty file is one section, and it logs 16 blocks. -/
theorem section_over_budget :
    OpenFile smallOp ⟨0, by decide⟩ ⟨0, by decide⟩ ∧
    ∃ r t, chunkSection ⟨0, by decide⟩ ⟨0, by decide⟩ ⟨0, by decide⟩
      ((List.replicate 6656 1).take filewriteMax) smallOp = .ok (r, t) ∧
      ¬ t.logged.card ≤ maxopblocks := by
  obtain ⟨r, t, hrun, hcard⟩ := sectionCost_some (n := 6656) (k := 16) (by decide +kernel)
  refine ⟨smallOp_open, r, t, hrun, ?_⟩
  rw [hcard]
  decide

end Xv6.Fs
