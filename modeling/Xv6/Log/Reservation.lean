import Xv6.Log.GroupCommit

/-!
# Log - Reservation of log space

`begin_op` admits an operation only when the blocks already logged and ten more
for each operation under way fit into `LOGSIZE`.  The module shows what this
reservation buys when every operation keeps to its ten blocks: the header never
holds more than `LOGSIZE` blocks.  `log_write` however gives up one block
earlier, because its test also compares with `log.size - 1`, and `mkfs` makes the
log exactly `LOGSIZE` blocks long.

Main results:

- Theorem {lit}`effect_of_step`: what a step can do to the operations and to the
  header.
- Theorem {lit}`Reserved.step`: the reservation invariant.
- Theorem {lit}`log_write_panics_iff`: a run stays free of the panic exactly when
  no `log_write` is called after `LOGSIZE - 1` distinct blocks.
-/

namespace Xv6.Log

open Foundations

/-! ## What a step does to the header -/

/-- The block a `log_write` under way is about to record. -/
def Pc.writing : Pc → Option Nat
  | .writeWant b | .writeHeld b => some b
  | _ => none

/-- The operations, their blocks and the header are as before. -/
structure SameLog (s t : GroupState) : Prop where
  op : t.op = s.op
  nextOp : t.nextOp = s.nextOp
  logged : t.logged = s.logged
  lh : t.lh = s.lh

/-- The effect of one step on operations, logged blocks and header. -/
inductive Effect (s : GroupState) (a : GroupAction) (t : GroupState) : Prop
  /-- The same operations are active and no further block is underway. -/
  | quiet (same : SameLog s t) (active : ∀ q, (t.pc q).active = (s.pc q).active)
      (writing : ∀ q b, (t.pc q).writing = some b → (s.pc q).writing = some b)
  /-- `log_write` passes its tests. -/
  | write (p b : Nat) (act : a = .logWrite p b) (same : SameLog s t)
      (active : ∀ q, (t.pc q).active = (s.pc q).active)
      (writing : ∀ q c, (t.pc q).writing = some c → q = p ∧ c = b ∨ (s.pc q).writing = some c)
  /-- `begin_op` admits an operation. -/
  | enroll (p : Nat) (idle : (s.pc p).active = false) (admits : s.Admits)
      (state : t = (s.enroll p).goto p .beginDone)
  /-- `log_write` records its block. -/
  | record (p b : Nat) (held : s.pc p = .writeHeld b)
      (state : t = (s.record p b).goto p .writeDone)
  /-- `end_op` discounts an operation. -/
  | leave (p : Nat) (k : Pc) (out : k.active = false)
      (writing : k.writing = none) (same : SameLog s t) (pc : t.pc = Function.update s.pc p k)
  /-- `commit` empties the header. -/
  | clear (p : Nat) (held : s.pc p = .commitWritten) (state : t = s.clear.goto p .eraseHead)

/-- A process outside `log_write` is about to write no block. -/
theorem Pc.not_writing {pc : Pc} {P : Nat → Prop} (h : pc.writing = none) :
    ∀ b, pc.writing = some b → P b := by
  intro b hb
  rw [h] at hb
  cases hb

namespace Effect

variable {s t : GroupState} {a : GroupAction} {p : Nat} {j k : Pc}

/-- A step that moves one process within the same region. -/
theorem move (hpc : s.pc p = j) (k : Pc) (ht : t.pc = Function.update s.pc p k)
    (hsame : SameLog s t) (hactive : k.active = j.active)
    (hwriting : ∀ b, k.writing = some b → j.writing = some b) : Effect s a t := by
  subst hpc
  refine .quiet hsame ?_ ?_
  · intro q
    by_cases hq : q = p
    · simp [ht, hq, hactive]
    · simp [ht, hq]
  · intro q b hb
    by_cases hq : q = p
    · subst hq
      exact hwriting b (by simpa [ht] using hb)
    · simpa [ht, hq] using hb

theorem acquireLog (hst : s.acquireLog p k = some t) (hpc : s.pc p = j)
    (hactive : k.active = j.active) (hwriting : ∀ b, k.writing = some b → j.writing = some b) :
    Effect s a t := by
  unfold GroupState.acquireLog at hst
  split at hst
  · cases hst
    exact move hpc k rfl ⟨rfl, rfl, rfl, rfl⟩ hactive hwriting
  · cases hst

theorem acquirePtable (hst : s.acquirePtable p k = some t) (hpc : s.pc p = j)
    (hactive : k.active = j.active) (hwriting : ∀ b, k.writing = some b → j.writing = some b) :
    Effect s a t := by
  unfold GroupState.acquirePtable at hst
  split at hst
  · cases hst
    exact move hpc k rfl ⟨rfl, rfl, rfl, rfl⟩ hactive hwriting
  · cases hst

theorem halt (m : LogPanic) : Effect s a (s.halt m) :=
  .quiet ⟨rfl, rfl, rfl, rfl⟩ (fun _ => rfl) (fun _ _ h => h)

theorem wakeup1 (hpc : s.pc p = .wakeBoth) : Effect s a (s.wakeup1.releasePtable p .wakeDone) := by
  refine .quiet ⟨rfl, rfl, rfl, rfl⟩ ?_ ?_
  · intro q
    by_cases hq : q = p
    · simp [GroupState.releasePtable, GroupState.move, hq, hpc, Pc.active]
    · simp [GroupState.releasePtable, GroupState.move, GroupState.wakeup1, hq, Pc.wake_active]
  · intro q b hb
    by_cases hq : q = p
    · simp [GroupState.releasePtable, GroupState.move, hq, Pc.writing] at hb
    · simp only [GroupState.releasePtable, GroupState.move, GroupState.wakeup1,
        Function.update_of_ne hq] at hb
      cases hk : s.pc q <;> rw [hk] at hb <;> exact hb

theorem endOp (hnot : s.committing = false) :
    Effect s a (s.leave p) := by
  unfold GroupState.leave
  rw [hnot]
  split
  · rename_i hc
    cases hc
  · split
    · exact .leave p .endCommit rfl rfl ⟨rfl, rfl, rfl, rfl⟩ rfl
    · exact .leave p .wakeWant rfl rfl ⟨rfl, rfl, rfl, rfl⟩ rfl

theorem logWriteTests (hpc : s.pc p = .inOp) (size : Int) (b : Nat) :
    Effect s (.logWrite p b) (s.logWriteTests size p b) := by
  unfold GroupState.logWriteTests
  split
  · exact halt _
  · split
    · exact halt _
    · refine .write p b rfl ⟨rfl, rfl, rfl, rfl⟩ ?_ ?_
      · intro q
        by_cases hq : q = p
        · simp [GroupState.goto, GroupState.move, hq, hpc, Pc.active]
        · simp [GroupState.goto, GroupState.move, hq]
      · intro q c hc
        by_cases hq : q = p
        · left
          simp only [GroupState.goto, GroupState.move, hq, Function.update_self, Pc.writing,
            Option.some.injEq] at hc
          exact ⟨hq, hc.symm⟩
        · right
          simpa [GroupState.goto, GroupState.move, hq] using hc

/-- Steps inside a function. -/
theorem advance (h : GroupInv s) (hpc : s.pc p = j) (hst : s.advance p j = some t) :
    Effect s a t := by
  cases j with
  | idle | inOp | asleep => cases hst
  | beginWant | endWant | commitWant => exact acquireLog hst hpc rfl (Pc.not_writing rfl)
  | sleepWant | woken | wakeWant => exact acquirePtable hst hpc rfl (Pc.not_writing rfl)
  | writeWant b => exact acquireLog hst hpc rfl (fun _ hb => hb)
  | beginHeld =>
    simp only [GroupState.advance] at hst
    split at hst
    · rename_i hadmits
      cases hst
      exact .enroll p (by rw [hpc]; rfl) hadmits rfl
    · cases hst
      exact move hpc .sleepWant rfl ⟨rfl, rfl, rfl, rfl⟩ rfl (Pc.not_writing rfl)
  | writeHeld b =>
    simp only [GroupState.advance] at hst
    split at hst
    · cases hst
      exact .record p b hpc rfl
    · cases hst
      exact halt _
  | endHeld =>
    cases hst
    exact endOp (h.not_committing (p := p) (by rw [hpc]; rfl))
  | commitRun | writeLog tail | install tail =>
    simp only [GroupState.advance] at hst
    split at hst <;> cases hst <;>
      exact move hpc _ rfl ⟨rfl, rfl, rfl, rfl⟩ rfl (Pc.not_writing rfl)
  | commitWritten =>
    cases hst
    exact .clear p hpc rfl
  | wakeBoth =>
    cases hst
    exact wakeup1 hpc
  | beginDone | sleepBoth | sleepMark | wokenHeld | writeDone | endCommit | writeHead | eraseHead
  | commitHeld | wakeDone =>
    cases hst
    exact move hpc _ rfl ⟨rfl, rfl, rfl, rfl⟩ rfl (Pc.not_writing rfl)

end Effect

/-- Every step is of one of the six kinds. -/
theorem effect_of_step {s t : GroupState} {a : GroupAction} (size : Int) (h : GroupInv s)
    (hst : groupStep size s a = some t) : Effect s a t := by
  unfold groupStep at hst
  split at hst
  · cases hst
  · cases a with
    | beginOp p =>
      dsimp only at hst
      split at hst
      · rename_i hpc
        cases hst
        exact .move hpc .beginWant rfl ⟨rfl, rfl, rfl, rfl⟩ rfl nofun
      · cases hst
    | logWrite p b =>
      dsimp only at hst
      split at hst
      · rename_i hpc
        cases hst
        exact .logWriteTests hpc size b
      · cases hst
    | endOp p =>
      dsimp only at hst
      split at hst
      · rename_i hpc
        cases hst
        exact .move hpc .endWant rfl ⟨rfl, rfl, rfl, rfl⟩ rfl nofun
      · cases hst
    | advance p => exact .advance h rfl hst
    | kill p =>
      dsimp only at hst
      split at hst
      · rename_i hpc
        cases hst
        exact .move hpc.1 .woken rfl ⟨rfl, rfl, rfl, rfl⟩ rfl nofun
      · cases hst

/-! ## The budget of an operation -/

namespace GroupState

/-- The distinct blocks the operation `o` logged since the previous commit. -/
def blocksOf (s : GroupState) (o : Nat) : Finset Nat :=
  ((s.logged.filter (fun w => w.1 = o)).map Prod.snd).toFinset

/-- The distinct blocks logged since the previous commit. -/
def groupBlocks (s : GroupState) : Finset Nat :=
  (s.logged.map Prod.snd).toFinset

theorem mem_blocksOf {s : GroupState} {o b : Nat} : b ∈ s.blocksOf o ↔ (o, b) ∈ s.logged := by
  simp [blocksOf]

theorem mem_groupBlocks {s : GroupState} {b : Nat} :
    b ∈ s.groupBlocks ↔ ∃ o, (o, b) ∈ s.logged := by
  simp [groupBlocks]

theorem blocksOf_record (s : GroupState) (p b o : Nat) :
    (s.record p b).blocksOf o =
      if o = s.op p then insert b (s.blocksOf o) else s.blocksOf o := by
  ext c
  rw [mem_blocksOf]
  split
  · rename_i ho
    simp [record, mem_blocksOf, ho]
  · rename_i ho
    simp [record, mem_blocksOf, ho]

end GroupState

/-- The header holds the distinct blocks of the transaction. -/
theorem GroupInv.length_lh {s : GroupState} (h : GroupInv s) :
    s.lh.length = s.groupBlocks.card := by
  have heq : s.lh.toFinset = s.groupBlocks := by
    ext b
    rw [List.mem_toFinset, h.blocks b, GroupState.mem_groupBlocks]
  rw [← heq, List.toFinset_card_of_nodup h.nodup]

/-- A call of `log_write` keeps the operation within `MAXOPBLOCKS` blocks. -/
def Budget (s : GroupState) : GroupAction → Prop
  | .logWrite p b => (insert b (s.blocksOf (s.op p))).card ≤ maxopblocks
  | _ => True

instance decidableBudget (s : GroupState) : ∀ a, Decidable (Budget s a)
  | .logWrite _ _ => inferInstanceAs (Decidable (_ ≤ _))
  | .beginOp _ | .endOp _ | .advance _ | .kill _ => .isTrue trivial

/-! ## The reservation -/

/-- Blocks the operation of `p` may still add. -/
def GroupState.remaining (s : GroupState) (p : Nat) : Nat :=
  maxopblocks - (s.blocksOf (s.op p)).card

/-- Operations are numbered apart, a `log_write` under way is within its budget,
and what the header holds together with what the active operations may still add
fits. -/
structure Reserved (s : GroupState) : Prop where
  older : ∀ w ∈ s.logged, w.1 < s.nextOp
  newer : ∀ p, (s.pc p).active = true → s.op p < s.nextOp
  distinct : ∀ p q, (s.pc p).active = true → (s.pc q).active = true → s.op p = s.op q → p = q
  writing : ∀ p b, (s.pc p).writing = some b →
    (insert b (s.blocksOf (s.op p))).card ≤ maxopblocks
  room : ∃ A : Finset Nat, (∀ p, p ∈ A ↔ (s.pc p).active = true) ∧
    s.lh.length + ∑ p ∈ A, s.remaining p ≤ logsize

theorem groupInit_reserved : Reserved groupInit := by
  refine ⟨nofun, nofun, nofun, nofun, ∅, ?_, ?_⟩
  · intro p
    simp [groupInit, Pc.active]
  · simp [groupInit]

theorem Pc.active_of_writing {k : Pc} {b : Nat} (h : k.writing = some b) : k.active = true := by
  cases k <;> first | rfl | cases h

namespace SameLog

variable {s t : GroupState}

theorem blocksOf (h : SameLog s t) (o : Nat) : t.blocksOf o = s.blocksOf o := by
  unfold GroupState.blocksOf
  rw [h.logged]

theorem remaining (h : SameLog s t) (p : Nat) : t.remaining p = s.remaining p := by
  unfold GroupState.remaining
  rw [h.blocksOf, h.op]

end SameLog

namespace Reserved

variable {s t : GroupState} {p : Nat}

/-- A step after which the same operations are active. -/
theorem same (h : Reserved s) (hsame : SameLog s t)
    (hactive : ∀ q, (t.pc q).active = (s.pc q).active)
    (hwriting : ∀ q b, (t.pc q).writing = some b →
      (insert b (s.blocksOf (s.op q))).card ≤ maxopblocks) : Reserved t := by
  refine ⟨?_, ?_, ?_, ?_, ?_⟩
  · rw [hsame.logged, hsame.nextOp]
    exact h.older
  · intro q hq
    rw [hactive] at hq
    rw [hsame.op, hsame.nextOp]
    exact h.newer q hq
  · intro q r hq hr hop
    rw [hactive] at hq hr
    rw [hsame.op] at hop
    exact h.distinct q r hq hr hop
  · intro q b hb
    rw [hsame.blocksOf, hsame.op]
    exact hwriting q b hb
  · rcases h.room with ⟨A, hA, hroom⟩
    refine ⟨A, ?_, ?_⟩
    · intro q
      rw [hactive]
      exact hA q
    · rw [hsame.lh, Finset.sum_congr rfl fun q _ => hsame.remaining q]
      exact hroom

/-- `begin_op` reserves ten blocks for the operation it admits. -/
theorem enroll (h : Reserved s) (hinv : GroupInv s) (hidle : (s.pc p).active = false)
    (hadmits : s.Admits) : Reserved ((s.enroll p).goto p .beginDone) := by
  have hother : ∀ q, (s.pc q).active = true → q ≠ p := by
    intro q hq hqp
    rw [hqp, hidle] at hq
    cases hq
  have hcases : ∀ q, (((s.enroll p).goto p .beginDone).pc q).active = true ↔
      q = p ∨ (s.pc q).active = true := by
    intro q
    by_cases hq : q = p
    · simp [GroupState.goto, GroupState.move, hq, Pc.active]
    · simp [GroupState.goto, GroupState.move, GroupState.enroll, hq]
  have hop : ∀ q, q ≠ p → ((s.enroll p).goto p .beginDone).op q = s.op q := by
    intro q hq
    exact Function.update_of_ne hq _ _
  have hself : ((s.enroll p).goto p .beginDone).op p = s.nextOp :=
    Function.update_self ..
  refine ⟨?_, ?_, ?_, ?_, ?_⟩
  · intro w hw
    exact Nat.lt_succ_of_lt (h.older w hw)
  · intro q hq
    rcases (hcases q).mp hq with rfl | hold
    · rw [hself]
      exact Nat.lt_succ_self _
    · rw [hop q (hother q hold)]
      exact Nat.lt_succ_of_lt (h.newer q hold)
  · intro q r hq hr heq
    rcases (hcases q).mp hq with rfl | hqold
    · rcases (hcases r).mp hr with rfl | hrold
      · rfl
      · rw [hself, hop r (hother r hrold)] at heq
        exact absurd heq (h.newer r hrold).ne'
    · rcases (hcases r).mp hr with rfl | hrold
      · rw [hself, hop q (hother q hqold)] at heq
        exact absurd heq (h.newer q hqold).ne
      · rw [hop q (hother q hqold), hop r (hother r hrold)] at heq
        exact h.distinct q r hqold hrold heq
  · intro q b hb
    by_cases hq : q = p
    · simp [GroupState.goto, GroupState.move, hq, Pc.writing] at hb
    · rw [hop q hq]
      exact h.writing q b
        (by simpa [GroupState.goto, GroupState.move, GroupState.enroll, hq] using hb)
  · rcases h.room with ⟨A, hA, hroom⟩
    rcases hinv.count with ⟨B, hB, hcount⟩
    have hAB : A = B := by
      ext q
      rw [hA, hB]
    refine ⟨insert p A, ?_, ?_⟩
    · intro q
      rw [Finset.mem_insert, hA, hcases]
    · have hpA : p ∉ A := by
        rw [hA, hidle]
        decide
      have hle : ∀ q, ((s.enroll p).goto p .beginDone).remaining q ≤ maxopblocks :=
        fun q => Nat.sub_le _ _
      have hsum : ∑ q ∈ insert p A, ((s.enroll p).goto p .beginDone).remaining q ≤
          (A.card + 1) * maxopblocks := by
        rw [← Finset.card_insert_of_notMem hpA]
        exact Finset.sum_le_card_nsmul _ _ _ fun q _ => hle q
      have hlimit := hadmits.2
      rw [hcount, ← hAB] at hlimit
      have hlh : ((s.enroll p).goto p .beginDone).lh = s.lh := rfl
      rw [hlh]
      simp only [maxopblocks_eq, logsize_eq] at hsum hlimit ⊢
      omega

/-- Recording a block uses up one of the blocks reserved, unless it is absorbed. -/
theorem record (h : Reserved s) (hinv : GroupInv s) {b : Nat} (hpc : s.pc p = .writeHeld b) :
    Reserved ((s.record p b).goto p .writeDone) := by
  have hactivep : (s.pc p).active = true := by rw [hpc]; rfl
  have hactive : ∀ q, (((s.record p b).goto p .writeDone).pc q).active = (s.pc q).active := by
    intro q
    by_cases hq : q = p
    · simp [GroupState.goto, GroupState.move, hq, hpc, Pc.active]
    · simp [GroupState.goto, GroupState.move, GroupState.record, hq]
  have hblocks : ∀ q, q ≠ p → (s.pc q).active = true →
      (s.record p b).blocksOf (s.op q) = s.blocksOf (s.op q) := by
    intro q hq hqa
    have hne : s.op q ≠ s.op p := fun heq => hq (h.distinct q p hqa hactivep heq)
    rw [GroupState.blocksOf_record, if_neg hne]
  have hself : (s.record p b).blocksOf (s.op p) = insert b (s.blocksOf (s.op p)) := by
    rw [GroupState.blocksOf_record, if_pos rfl]
  refine ⟨?_, ?_, ?_, ?_, ?_⟩
  · intro w hw
    rcases List.mem_cons.mp hw with rfl | hold
    · exact h.newer p hactivep
    · exact h.older w hold
  · intro q hq
    rw [hactive] at hq
    exact h.newer q hq
  · intro q r hq hr hop
    rw [hactive] at hq hr
    exact h.distinct q r hq hr hop
  · intro q c hc
    by_cases hq : q = p
    · simp [GroupState.goto, GroupState.move, hq, Pc.writing] at hc
    · have hold : (s.pc q).writing = some c := by
        simpa [GroupState.goto, GroupState.move, GroupState.record, hq] using hc
      have hsame := hblocks q hq (Pc.active_of_writing hold)
      exact (congrArg (fun B => (insert c B).card) hsame).trans_le (h.writing q c hold)
  · rcases h.room with ⟨A, hA, hroom⟩
    have hpA : p ∈ A := (hA p).mpr hactivep
    refine ⟨A, ?_, ?_⟩
    · intro q
      rw [hactive]
      exact hA q
    · have hbudget := h.writing p b (by rw [hpc]; rfl)
      have hrest : ∑ q ∈ A.erase p, ((s.record p b).goto p .writeDone).remaining q =
          ∑ q ∈ A.erase p, s.remaining q := by
        refine Finset.sum_congr rfl ?_
        intro q hq
        rw [Finset.mem_erase] at hq
        exact congrArg (fun B => maxopblocks - B.card) (hblocks q hq.1 ((hA q).mp hq.2))
      have hp : ((s.record p b).goto p .writeDone).remaining p =
          maxopblocks - (insert b (s.blocksOf (s.op p))).card :=
        congrArg (fun B => maxopblocks - B.card) hself
      have hbefore := Finset.add_sum_erase A s.remaining hpA
      have hafter := Finset.add_sum_erase A
        ((s.record p b).goto p .writeDone).remaining hpA
      rw [hrest, hp] at hafter
      have hpold : s.remaining p = maxopblocks - (s.blocksOf (s.op p)).card := rfl
      by_cases hmem : b ∈ s.lh
      · have hlh : ((s.record p b).goto p .writeDone).lh = s.lh := if_pos hmem
        have hmono := Finset.card_le_card (Finset.subset_insert b (s.blocksOf (s.op p)))
        rw [hlh]
        omega
      · have hlh : ((s.record p b).goto p .writeDone).lh = s.lh ++ [b] := if_neg hmem
        have hnew : b ∉ s.blocksOf (s.op p) := by
          intro hb
          exact hmem ((hinv.blocks b).mpr ⟨_, GroupState.mem_blocksOf.mp hb⟩)
        rw [Finset.card_insert_of_notMem hnew] at hbudget hafter
        rw [hlh, List.length_append, List.length_singleton]
        omega

/-- `end_op` gives back what its operation did not use. -/
theorem leave (h : Reserved s) {k : Pc} (hk : k.active = false)
    (hwriting : k.writing = none) (hsame : SameLog s t)
    (hpc : t.pc = Function.update s.pc p k) : Reserved t := by
  have hcases : ∀ q, (t.pc q).active = true ↔ q ≠ p ∧ (s.pc q).active = true := by
    intro q
    by_cases hq : q = p
    · simp [hpc, hq, hk]
    · simp [hpc, hq]
  refine ⟨?_, ?_, ?_, ?_, ?_⟩
  · rw [hsame.logged, hsame.nextOp]
    exact h.older
  · intro q hq
    rw [hsame.op, hsame.nextOp]
    exact h.newer q ((hcases q).mp hq).2
  · intro q r hq hr hop
    rw [hsame.op] at hop
    exact h.distinct q r ((hcases q).mp hq).2 ((hcases r).mp hr).2 hop
  · intro q b hb
    rw [hsame.blocksOf, hsame.op]
    by_cases hq : q = p
    · simp [hpc, hq, hwriting] at hb
    · exact h.writing q b (by simpa [hpc, hq] using hb)
  · rcases h.room with ⟨A, hA, hroom⟩
    refine ⟨A.erase p, ?_, ?_⟩
    · intro q
      rw [Finset.mem_erase, hA, hcases]
    · have hsub := Finset.sum_le_sum_of_subset (f := s.remaining) (Finset.erase_subset p A)
      rw [hsame.lh, Finset.sum_congr rfl fun q _ => hsame.remaining q]
      exact (Nat.add_le_add_left hsub _).trans hroom

/-- After a commit all of the log is free again. -/
theorem clear (hinv : GroupInv s) (hpc : s.pc p = .commitWritten) :
    Reserved (s.clear.goto p .eraseHead) := by
  have hnone := hinv.none_active (hinv.committer p (by rw [hpc]; rfl))
  have hactive : ∀ q, ((s.clear.goto p .eraseHead).pc q).active = false := by
    intro q
    by_cases hq : q = p
    · simp [GroupState.goto, GroupState.move, hq, Pc.active]
    · simp [GroupState.goto, GroupState.move, GroupState.clear, hq, hnone q]
  refine ⟨?_, ?_, ?_, ?_, ∅, ?_, ?_⟩
  · simp [GroupState.clear, GroupState.goto, GroupState.move]
  · intro q hq
    rw [hactive] at hq
    cases hq
  · intro q _ hq
    rw [hactive] at hq
    cases hq
  · intro q b hb
    have hq := Pc.active_of_writing hb
    rw [hactive] at hq
    cases hq
  · intro q
    simp [hactive]
  · have hlh : (s.clear.goto p .eraseHead).lh = [] := rfl
    simp [hlh]

/-- The reservation is kept by every step within the budget. -/
theorem step (size : Int) {a : GroupAction} (h : Reserved s) (hinv : GroupInv s)
    (hbudget : Budget s a) (hst : groupStep size s a = some t) : Reserved t := by
  cases effect_of_step size hinv hst with
  | quiet hsame hactive hwriting =>
    exact h.same hsame hactive fun q b hb => h.writing q b (hwriting q b hb)
  | write p b hact hsame hactive hwriting =>
    refine h.same hsame hactive ?_
    intro q c hc
    rcases hwriting q c hc with ⟨rfl, rfl⟩ | hold
    · subst hact
      exact hbudget
    · exact h.writing q c hold
  | enroll p hidle hadmits hstate =>
    subst hstate
    exact h.enroll hinv hidle hadmits
  | record p b hpc hstate =>
    subst hstate
    exact h.record hinv hpc
  | leave p k hk hwriting hsame hpc => exact h.leave hk hwriting hsame hpc
  | clear p hpc hstate =>
    subst hstate
    exact clear hinv hpc

theorem length_le (h : Reserved s) : s.lh.length ≤ logsize := by
  rcases h.room with ⟨A, _, hroom⟩
  omega

/-- A `log_write` within its budget finds room in `lh.block`. -/
theorem inBounds (h : Reserved s) (hinv : GroupInv s) {b : Nat} (hpc : s.pc p = .writeHeld b) :
    b ∈ s.lh ∨ s.lh.length < logsize := by
  by_cases hmem : b ∈ s.lh
  · exact Or.inl hmem
  · have hrecord := (h.record hinv hpc).length_le
    have hlh : ((s.record p b).goto p .writeDone).lh = s.lh ++ [b] := if_neg hmem
    rw [hlh, List.length_append, List.length_singleton] at hrecord
    exact Or.inr hrecord

end Reserved

/-! ## The panic of `log_write` -/

/-- `log_write` is called with fewer than `LOGSIZE - 1` distinct blocks in the
transaction. -/
def Room (s : GroupState) : GroupAction → Prop
  | .logWrite _ _ => s.groupBlocks.card < logsize - 1
  | _ => True

instance decidableRoom (s : GroupState) : ∀ a, Decidable (Room s a)
  | .logWrite _ _ => inferInstanceAs (Decidable (_ < _))
  | .beginOp _ | .endOp _ | .advance _ | .kill _ => .isTrue trivial

/-- The panic of `log_write` has not been reached. -/
def NotTooBig (s : GroupState) : Prop :=
  s.panic ≠ some .tooBigATransaction

/-- A step inside a function does not panic, unless it stores behind `lh.block`. -/
theorem GroupInv.advance_panic {s t : GroupState} {p : Nat} {j : Pc} (h : GroupInv s)
    (hpc : s.pc p = j) (hst : s.advance p j = some t) :
    t.panic = s.panic ∨ t.panic = some .blockOverrun ∧
      ∃ b, j = .writeHeld b ∧ ¬ (b ∈ s.lh ∨ s.lh.length < logsize) := by
  have hacquireLog : ∀ k, s.acquireLog p k = some t → t.panic = s.panic := by
    intro k hk
    unfold GroupState.acquireLog at hk
    split at hk
    · cases hk
      rfl
    · cases hk
  have hacquirePtable : ∀ k, s.acquirePtable p k = some t → t.panic = s.panic := by
    intro k hk
    unfold GroupState.acquirePtable at hk
    split at hk
    · cases hk
      rfl
    · cases hk
  cases j with
  | idle | inOp | asleep => cases hst
  | beginWant | writeWant _ | endWant | commitWant => exact Or.inl (hacquireLog _ hst)
  | sleepWant | woken | wakeWant => exact Or.inl (hacquirePtable _ hst)
  | beginHeld | commitRun | writeLog _ | install _ =>
    simp only [GroupState.advance] at hst
    split at hst <;> cases hst <;> exact Or.inl rfl
  | writeHeld b =>
    simp only [GroupState.advance] at hst
    split at hst
    · cases hst
      exact Or.inl rfl
    · rename_i hout
      cases hst
      exact Or.inr ⟨rfl, b, rfl, hout⟩
  | endHeld =>
    cases hst
    have hnot := h.not_committing (p := p) (by rw [hpc]; rfl)
    unfold GroupState.leave
    rw [hnot]
    split
    · rename_i hc
      cases hc
    · split <;> exact Or.inl rfl
  | beginDone | sleepBoth | sleepMark | wokenHeld | writeDone | endCommit | writeHead
  | commitWritten | eraseHead | commitHeld | wakeBoth | wakeDone =>
    cases hst
    exact Or.inl rfl

/-- `log_write` of an active operation panics exactly when the header holds
`LOGSIZE - 1` blocks. -/
theorem GroupInv.logWriteTests_panic {s : GroupState} {p : Nat} (h : GroupInv s)
    (hpc : s.pc p = .inOp) (hnone : s.panic = none) (b : Nat) :
    (s.logWriteTests logsize p b).panic =
      if s.groupBlocks.card < logsize - 1 then none else some .tooBigATransaction := by
  have hpos := h.count.pos (p := p) (by rw [hpc]; rfl)
  rw [← h.length_lh]
  unfold GroupState.logWriteTests
  split
  · rename_i hbig
    have hfull : ¬ s.lh.length < logsize - 1 := by
      simp only [logsize_eq] at hbig ⊢
      omega
    rw [if_neg hfull]
    rfl
  · rename_i hsmall
    have hroom : s.lh.length < logsize - 1 := by
      simp only [logsize_eq] at hsmall ⊢
      omega
    rw [if_pos hroom, if_neg (by omega)]
    exact hnone

/-- A step panics exactly if it is a `log_write` on a full header; the only other way in which it
ends the run is a store behind `lh.block`. -/
theorem GroupInv.step_panic {s t : GroupState} {a : GroupAction} (h : GroupInv s)
    (hst : groupStep logsize s a = some t) :
    t.panic = none ∧ Room s a ∨ t.panic = some .tooBigATransaction ∧ ¬Room s a ∨
      t.panic = some .blockOverrun ∧ Room s a ∧
        ∃ p b, s.pc p = .writeHeld b ∧ ¬(b ∈ s.lh ∨ s.lh.length < logsize) := by
  unfold groupStep at hst
  split at hst
  · cases hst
  · rename_i hrunning
    have hnone : s.panic = none := not_not.mp hrunning
    cases a with
    | beginOp p | endOp p | kill p =>
      dsimp only at hst
      split at hst
      · cases hst
        exact Or.inl ⟨hnone, trivial⟩
      · cases hst
    | logWrite p b =>
      dsimp only at hst
      split at hst
      · rename_i hpc
        cases hst
        rw [h.logWriteTests_panic hpc hnone b]
        by_cases hroom : s.groupBlocks.card < logsize - 1
        · exact Or.inl ⟨if_pos hroom, hroom⟩
        · exact Or.inr (Or.inl ⟨if_neg hroom, hroom⟩)
      · cases hst
    | advance p =>
      rcases h.advance_panic rfl hst with hsame | ⟨hover, b, hpc, hout⟩
      · exact Or.inl ⟨hsame.trans hnone, trivial⟩
      · exact Or.inr (Or.inr ⟨hover, trivial, p, b, hpc, hout⟩)

theorem GroupInv.notTooBig_iff {s t : GroupState} {a : GroupAction} (h : GroupInv s)
    (hst : groupStep logsize s a = some t) : NotTooBig t ↔ Room s a := by
  unfold NotTooBig
  rcases h.step_panic hst with ⟨hp, hroom⟩ | ⟨hp, hroom⟩ | ⟨hp, hroom, -⟩ <;> simp [hp, hroom]

/-- A step of a system whose operations keep to their budget does not store behind
`lh.block`. -/
theorem Reserved.step_inBounds {s t : GroupState} {a : GroupAction} (h : Reserved s)
    (hinv : GroupInv s) (hst : groupStep logsize s a = some t) :
    t.panic ≠ some .blockOverrun := by
  rcases hinv.step_panic hst with ⟨hp, -⟩ | ⟨hp, -⟩ | ⟨-, -, p, b, hpc, hout⟩
  · simp [hp]
  · simp [hp]
  · exact absurd (h.inBounds hinv hpc) hout

/-- With `log.size = LOGSIZE`, in a run in which every operation logs at most
`MAXOPBLOCKS` distinct blocks, the header never holds more than the `LOGSIZE`
blocks reserved and no block is stored behind them; and `log_write` stays clear of
its panic exactly when it is never called with `LOGSIZE - 1` distinct blocks in the
transaction. -/
theorem log_write_panics_iff (as : List GroupAction)
    (hbudget : Meets (groupStep logsize) Budget groupInit as) :
    AllStates (groupStep logsize)
        (fun s => s.lh.length ≤ logsize ∧ s.panic ≠ some .blockOverrun) groupInit as ∧
      (AllStates (groupStep logsize) NotTooBig groupInit as ↔
        Meets (groupStep logsize) Room groupInit as) := by
  refine ⟨?_, ?_, ?_⟩
  · refine allStates_of_meets
      (I := fun s => GroupInv s ∧ Reserved s ∧ s.panic ≠ some .blockOverrun) ?_ ?_
      ⟨groupInit_inv, groupInit_reserved, nofun⟩ hbudget
    · intro s hs
      exact ⟨hs.2.1.length_le, hs.2.2⟩
    · intro s a t hs hb hst
      exact ⟨hs.1.step _ a hst, hs.2.1.step _ hs.1 hb hst, hs.2.1.step_inBounds hs.1 hst⟩
  · intro hall
    refine meets_of_allStates (I := GroupInv) ?_ ?_ groupInit_inv hall
    · intro s a t hs hst
      exact hs.step _ a hst
    · intro s a t hs hst ht
      exact (hs.notTooBig_iff hst).mp ht
  · intro hroom
    refine allStates_of_meets (I := fun s => GroupInv s ∧ NotTooBig s) ?_ ?_
      ⟨groupInit_inv, nofun⟩ hroom
    · intro s hs
      exact hs.2
    · intro s a t hs hb hst
      exact ⟨hs.1.step _ a hst, (hs.1.notTooBig_iff hst).mpr hb⟩

/-- One operation on its own may log all of its ten blocks. -/
theorem log_write_panics_iff_one_operation :
    AllStates (groupStep logsize) NotTooBig groupInit
      (beginOp 0 ++ logBlocks 0 0 10) :=
  (log_write_panics_iff _ (by decide +kernel)).2.mpr (by decide +kernel)

/-- Three operations are admitted and log ten blocks each. -/
def threeOperations : List GroupAction :=
  beginOp 0 ++ beginOp 1 ++ beginOp 2 ++
    logBlocks 0 0 10 ++ logBlocks 1 10 10 ++ logBlocks 2 20 9 ++ [.logWrite 2 29]

/-- All three keep to their budget, and the last block panics. -/
theorem three_operations_too_big :
    Meets (groupStep logsize) Budget groupInit threeOperations ∧
      ∃ s, runFrom (groupStep logsize) groupInit threeOperations = some s ∧
        s.panic = some .tooBigATransaction := by
  refine ⟨by decide +kernel, ?_⟩
  rw [← Option.map_eq_some_iff (f := GroupState.panic)]
  decide +kernel

end Xv6.Log
