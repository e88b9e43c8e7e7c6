import Xv6.Aio.Queue
import Xv6.File.Table
import Xv6.Foundations.RefCount
import Xv6.Fs.Kernel

/-!
# Asynchronous reads - Lifetime of what a task points to

A queued task holds two pointers into the kernel: the cached inode of the file
and the page table of the process.  `sys_aread` counts neither.  The module models
the objects these pointers denote (inode cache, file table, process table, page
tables) and the calls that can take them away while the task waits: `close`,
`exit`, `wait`, `exec` and `sbrk`, cut into the steps between which other
processes and the kernel thread can run.

The queue is the list of pending submissions that the array of {lit}`ntasks` slots
represents, as long as no append finds it full; what a further append does to the
array is the subject of `Xv6.Aio.Queue`.  The names of processes, files and inodes
are their places in the kernel's tables.

Main results:

- Theorem {lit}`LifeInv.step`: reference counts equal the number of holders and
  page tables have one owner, in every step.
- Theorem {lit}`LifeState.SameFiles.fileclose`: `fileclose` here and on the file table.
- Theorem {lit}`tasks_outlive_pointers`: when no step takes away the last
  reference of a queued task and no append finds the array full, every task
  executed finds its inode and its page table.
-/

namespace Xv6.Aio

open Foundations
open Ftable (FileType)

/-! ## Kernel objects -/

/-- An entry of the inode cache, as far as its identity goes. -/
structure CachedInode where
  dev : Nat
  inum : Nat
  ref : Int
deriving DecidableEq

/-- `struct file`.  Only `fileclose` of an inode looks at `ip`, but `sys_aread`
follows it for every type of file. -/
structure File where
  type : FileType
  ref : Int
  ip : Option (Fin ninode)
deriving DecidableEq

/-- Process states; a process that runs, waits or sleeps is `running`. -/
inductive ProcState
  | unused
  | running
  | zombie
deriving DecidableEq

/-- Program point of a process in the modelled calls. -/
inductive CallPc
  /-- In none of the calls. -/
  | user
  /-- `exec`: `namei` holds a reference to `ip`. -/
  | walking (ip : Fin ninode)
  /-- `exec`: the program in `ip` is read into the new table. -/
  | loading (ip : Fin ninode) (pgdir : Nat)
  /-- `exec`: the program is loaded and its inode put. -/
  | built (pgdir : Nat)
  /-- `exec`: the new table is in use, `freevm(oldpgdir)` is next. -/
  | replaced (oldpgdir : Nat)
  /-- `exit`: at descriptor `fd` of the loop. -/
  | exiting (fd : Nat)
  /-- `exit`: everything is closed, about to become a zombie. -/
  | exited
  /-- About to call `iput(ip)` and to go on at `k`. -/
  | put (ip : Fin ninode) (k : CallPc)
deriving DecidableEq

/-- `struct proc`. -/
structure Proc where
  state : ProcState
  parent : Option (Fin nproc)
  pgdir : Nat
  ofile : Fin nofile → Option (Fin nfile)
  cwd : Option (Fin ninode)
  pc : CallPc

/-- A task in the queue with its two pointers, and what they denoted when it was
submitted. -/
structure Submission where
  ip : Fin ninode
  pgdir : Nat
  owner : Fin nproc
  dev : Nat
  inum : Nat
deriving DecidableEq

/-- Kernel state.  `allocated` says which page tables are in use; `running` that
`aread_kth` is inside `aread_consume_one_task` with the first task. -/
structure LifeState where
  icache : Fin ninode → CachedInode
  ftable : Fin nfile → File
  proc : Fin nproc → Proc
  allocated : Nat → Bool
  initproc : Fin nproc
  queue : List Submission
  running : Bool

/-- One action of a process or of the kernel thread. -/
inductive LifeAction
  | aread (p : Fin nproc) (fd : Fin nofile)
  | close (p : Fin nproc) (fd : Fin nofile)
  | exit (p : Fin nproc)
  | wait (p : Fin nproc)
  /-- `exec` of an absolute or a relative path. -/
  | exec (p : Fin nproc) (absolute : Bool)
  /-- `namei` finds `inum` under the next path element. -/
  | lookup (p : Fin nproc) (inum : Nat)
  /-- `setupkvm` returns a page table. -/
  | setupkvm (p : Fin nproc) (pgdir : Nat)
  /-- `exec` gives up at the point reached. -/
  | execFail (p : Fin nproc)
  | sbrk (p : Fin nproc)
  /-- The next step of a call that has only one. -/
  | advance (p : Fin nproc)
  | kthStart
  | kthDone

/-! ## Steps -/

def Proc.goto (P : Proc) (k : CallPc) : Proc :=
  { P with pc := k }

namespace LifeState

def setProc (s : LifeState) (p : Fin nproc) (P : Proc) : LifeState :=
  { s with proc := Function.update s.proc p P }

def setFile (s : LifeState) (f : Fin nfile) (F : File) : LifeState :=
  { s with ftable := Function.update s.ftable f F }

def setInode (s : LifeState) (i : Fin ninode) (I : CachedInode) : LifeState :=
  { s with icache := Function.update s.icache i I }

/-- `freevm(pgdir)`. -/
def freevm (s : LifeState) (pgdir : Nat) : LifeState :=
  { s with allocated := Function.update s.allocated pgdir false }

/-- A new page table. -/
def kalloc (s : LifeState) (pgdir : Nat) : LifeState :=
  { s with allocated := Function.update s.allocated pgdir true }

/-- The slot `iget` chooses. -/
def igetSlot (s : LifeState) (dev inum : Nat) : Option (Fin ninode) :=
  Fs.igetSlot (fun i => ((s.icache i).dev, (s.icache i).inum)) (fun i => (s.icache i).ref)
    (dev, inum)

/-- `iget` once the slot is chosen. -/
def iget (s : LifeState) (i : Fin ninode) (dev inum : Nat) : LifeState :=
  s.setInode i ⟨dev, inum, (s.icache i).ref + 1⟩

/-- `idup`. -/
def idup (s : LifeState) (i : Fin ninode) : LifeState :=
  s.setInode i { s.icache i with ref := (s.icache i).ref + 1 }

/-- `iput`. -/
def iput (s : LifeState) (i : Fin ninode) : LifeState :=
  s.setInode i { s.icache i with ref := (s.icache i).ref - 1 }

/-- `fileclose(f)` for the descriptor `fd` of `p`, up to the `iput` that it
leaves to be done before going on at `k`. -/
def fileclose (s : LifeState) (p : Fin nproc) (fd : Fin nofile) (f : Fin nfile) (k : CallPc) :
    Option LifeState :=
  let P := s.proc p
  let F := s.ftable f
  let P' := { P with ofile := Function.update P.ofile fd none }
  if F.ref < 1 then none
  else if F.ref - 1 > 0 then
    some ((s.setFile f { F with ref := F.ref - 1 }).setProc p (P'.goto k))
  else
    let s' := s.setFile f { F with ref := 0, type := .none }
    match F.type, F.ip with
    | .inode, some i => some (s'.setProc p (P'.goto (.put i k)))
    | .inode, none => none
    | _, _ => some (s'.setProc p (P'.goto k))

/-- The end of `exit`: the children go to `initproc`. -/
def becomeZombie (s : LifeState) (p : Fin nproc) : LifeState :=
  { s with proc := fun q =>
      let Q := s.proc q
      let Q' := if Q.parent = some p then { Q with parent := some s.initproc } else Q
      if q = p then { Q' with state := .zombie, pc := .user } else Q' }

/-- The zombie child that the scan of `wait` finds. -/
def zombieChild (s : LifeState) (p : Fin nproc) : Option (Fin nproc) :=
  (List.finRange nproc).find? fun c =>
    (s.proc c).parent = some p ∧ (s.proc c).state = .zombie

/-- `wait` reaps the child `c`. -/
def reap (s : LifeState) (c : Fin nproc) : LifeState :=
  (s.freevm (s.proc c).pgdir).setProc c { s.proc c with state := .unused, parent := none }

/-- The append of `sys_aread` to an array with a free slot. -/
def submit (s : LifeState) (p : Fin nproc) (i : Fin ninode) : LifeState :=
  { s with queue := s.queue ++
      [⟨i, (s.proc p).pgdir, p, (s.icache i).dev, (s.icache i).inum⟩] }

/-- Steps that the program point of `p` determines. -/
def advance (s : LifeState) (p : Fin nproc) : CallPc → Option LifeState
  | .user | .walking _ => none
  | .put i k => some ((s.iput i).setProc p ((s.proc p).goto k))
  | .exiting fd =>
    if h : fd < nofile then
      match (s.proc p).ofile ⟨fd, h⟩ with
      | none => some (s.setProc p ((s.proc p).goto (.exiting (fd + 1))))
      | some f => s.fileclose p ⟨fd, h⟩ f (.exiting (fd + 1))
    else
      match (s.proc p).cwd with
      | none => none
      | some i => some (s.setProc p { s.proc p with cwd := none, pc := .put i .exited })
  | .exited => some (s.becomeZombie p)
  | .loading i pgdir => some (s.setProc p ((s.proc p).goto (.put i (.built pgdir))))
  | .built pgdir =>
    some (s.setProc p { s.proc p with pgdir := pgdir, pc := .replaced (s.proc p).pgdir })
  | .replaced oldpgdir => some ((s.freevm oldpgdir).setProc p ((s.proc p).goto .user))

/-- `exec` gives up: what it allocated is freed, the inode is put. -/
def execFail (s : LifeState) (p : Fin nproc) : CallPc → Option LifeState
  | .walking i => some (s.setProc p ((s.proc p).goto (.put i .user)))
  | .loading i pgdir => some ((s.freevm pgdir).setProc p ((s.proc p).goto (.put i .user)))
  | .built pgdir => some ((s.freevm pgdir).setProc p ((s.proc p).goto .user))
  | _ => none

end LifeState

/-- Steps of a process inside a call. -/
def callStep (s : LifeState) (p : Fin nproc) : CallPc → LifeAction → Option LifeState
  | .walking i, .lookup _ inum =>
    (s.igetSlot (s.icache i).dev inum).map fun j =>
      (s.iget j (s.icache i).dev inum).setProc p ((s.proc p).goto (.put i (.walking j)))
  | .walking i, .setupkvm _ pgdir =>
    if s.allocated pgdir then none
    else some ((s.kalloc pgdir).setProc p ((s.proc p).goto (.loading i pgdir)))
  | k, .execFail _ => s.execFail p k
  | k, .advance _ => s.advance p k
  | _, _ => none

/-- System calls of a process. -/
def entryStep (s : LifeState) (p : Fin nproc) : LifeAction → Option LifeState
  | .aread _ fd =>
    match (s.proc p).ofile fd with
    | none => none
    | some f => (s.ftable f).ip.map (s.submit p)
  | .close _ fd =>
    match (s.proc p).ofile fd with
    | none => none
    | some f => s.fileclose p fd f .user
  | .exit _ => if p = s.initproc then none else some (s.setProc p ((s.proc p).goto (.exiting 0)))
  | .wait _ => (s.zombieChild p).map s.reap
  | .exec _ true =>
    (s.igetSlot rootdev rootino).map fun i =>
      (s.iget i rootdev rootino).setProc p ((s.proc p).goto (.walking i))
  | .exec _ false =>
    (s.proc p).cwd.map fun i => (s.idup i).setProc p ((s.proc p).goto (.walking i))
  | .sbrk _ => some s
  | _ => none

/-- Steps of `aread_kth`. -/
def threadStep (s : LifeState) : LifeAction → Option LifeState
  | .kthStart => if s.running ∨ s.queue = [] then none else some { s with running := true }
  | .kthDone => if s.running then some { s with queue := s.queue.tail, running := false } else none
  | _ => none

/-- The process that takes an action. -/
def LifeAction.actor : LifeAction → Option (Fin nproc)
  | .aread p _ | .close p _ | .exit p | .wait p | .exec p _ | .lookup p _ | .setupkvm p _
  | .execFail p | .sbrk p | .advance p => some p
  | .kthStart | .kthDone => none

/-- One step of the system: of the kernel thread, or of a process that runs, in
user code or inside a call. -/
def lifeStep (s : LifeState) (a : LifeAction) : Option LifeState :=
  match a.actor with
  | none => threadStep s a
  | some p =>
    if (s.proc p).state = .running then
      if (s.proc p).pc = .user then entryStep s p a else callStep s p (s.proc p).pc a
    else none

/-! ## Holders of references and of page tables -/

/-- References to `i` that a call under way holds. -/
def CallPc.refs : CallPc → Fin ninode → Int
  | .walking j, i => if j = i then 1 else 0
  | .loading j _, i => if j = i then 1 else 0
  | .put j k, i => (if j = i then 1 else 0) + k.refs i
  | _, _ => 0

/-- Page tables that a call under way has to free. -/
def CallPc.tables : CallPc → List Nat
  | .loading _ pgdir | .built pgdir | .replaced pgdir => [pgdir]
  | .put _ k => k.tables
  | _ => []

/-- References of a process to the cached inode `i`. -/
def Proc.refs (P : Proc) (i : Fin ninode) : Int :=
  (if P.cwd = some i then 1 else 0) + P.pc.refs i

/-- Reference of an open file to the cached inode `i`. -/
def File.refs (F : File) (i : Fin ninode) : Int :=
  if 0 < F.ref ∧ F.type = .inode ∧ F.ip = some i then 1 else 0

/-- Descriptors of a process that refer to the file `f`. -/
def Proc.opens (P : Proc) (f : Fin nfile) : Int :=
  total (fun o => if o = some f then 1 else 0) P.ofile

/-- Page tables of a process. -/
def Proc.tables (P : Proc) : List Nat :=
  (if P.state = .unused then [] else [P.pgdir]) ++ P.pc.tables

theorem CallPc.refs_nonneg (k : CallPc) (i : Fin ninode) : 0 ≤ k.refs i := by
  induction k with
  | put j k ih =>
    simp only [CallPc.refs]
    split <;> omega
  | walking j | loading j pgdir =>
    simp only [CallPc.refs]
    split <;> omega
  | _ => exact le_refl 0

theorem Proc.refs_nonneg (i : Fin ninode) (P : Proc) : 0 ≤ P.refs i := by
  have hpc := P.pc.refs_nonneg i
  unfold Proc.refs
  split <;> omega

theorem File.refs_nonneg (i : Fin ninode) (F : File) : 0 ≤ F.refs i := by
  unfold File.refs
  split <;> omega

theorem Proc.opens_nonneg (f : Fin nfile) (P : Proc) : 0 ≤ P.opens f := by
  refine total_nonneg ?_
  intro o
  split <;> omega

theorem Proc.goto_refs (P : Proc) (k : CallPc) (i : Fin ninode) :
    (P.goto k).refs i = P.refs i - P.pc.refs i + k.refs i := by
  have hgoto : (P.goto k).refs i = (if P.cwd = some i then 1 else 0) + k.refs i := rfl
  rw [hgoto, Proc.refs]
  omega

theorem Proc.goto_tables {P : Proc} {k : CallPc} (h : k.tables = P.pc.tables) :
    (P.goto k).tables = P.tables := by
  have hgoto : (P.goto k).tables =
    (if P.state = .unused then [] else [P.pgdir]) ++ k.tables := rfl
  rw [hgoto, h, Proc.tables]

/-- The tables of a running process. -/
theorem Proc.tables_running {P : Proc} (h : P.state = .running) :
    P.tables = P.pgdir :: P.pc.tables := by
  simp [Proc.tables, h]

/-- The inode of a task is referenced and still the one it was. -/
def InodeAlive (s : LifeState) (t : Submission) : Prop :=
  1 ≤ (s.icache t.ip).ref ∧ (s.icache t.ip).dev = t.dev ∧ (s.icache t.ip).inum = t.inum

/-- The process of a task has not been reaped and uses the same page table. -/
def OwnerAlive (s : LifeState) (t : Submission) : Prop :=
  (s.proc t.owner).state ≠ .unused ∧ (s.proc t.owner).pgdir = t.pgdir

/-- Reference counts are the numbers of holders, page tables have one owner, and
what queued tasks point to is there. -/
structure LifeInv (s : LifeState) : Prop where
  inodeRefs : ∀ i, (s.icache i).ref =
    total (fun F => F.refs i) s.ftable + total (fun P => P.refs i) s.proc
  fileRefs : ∀ f, (s.ftable f).ref = total (fun P => P.opens f) s.proc
  tablesLive : ∀ p, ∀ x ∈ (s.proc p).tables, s.allocated x = true
  tablesNodup : ∀ p, (s.proc p).tables.Nodup
  tablesApart : ∀ p q x, x ∈ (s.proc p).tables → x ∈ (s.proc q).tables → p = q
  inodes : ∀ t ∈ s.queue, InodeAlive s t
  owners : ∀ t ∈ s.queue, OwnerAlive s t

namespace LifeInv

variable {s t : LifeState} {p : Fin nproc} {P : Proc}

/-- A step that replaces the record of one process. -/
theorem ofProc (h : LifeInv s) (hqueue : t.queue = s.queue)
    (hproc : t.proc = Function.update s.proc p P)
    (hinodeRefs : ∀ i, (t.icache i).ref =
      total (fun F => F.refs i) t.ftable + total (fun P => P.refs i) t.proc)
    (hfileRefs : ∀ f, (t.ftable f).ref = total (fun P => P.opens f) t.proc)
    (hnodup : P.tables.Nodup)
    (hmem : ∀ x ∈ P.tables,
      t.allocated x = true ∧ (x ∈ (s.proc p).tables ∨ s.allocated x = false))
    (hkeep : ∀ x, s.allocated x = true → x ∉ (s.proc p).tables → t.allocated x = true)
    (hinode : ∀ u ∈ s.queue, InodeAlive s u → InodeAlive t u)
    (howner : ∀ u ∈ s.queue, u.owner = p →
      P.state ≠ .unused ∧ P.pgdir = (s.proc p).pgdir) : LifeInv t := by
  have hself : t.proc p = P := by rw [hproc, Function.update_self]
  have hother : ∀ q, q ≠ p → t.proc q = s.proc q := by
    intro q hq
    rw [hproc, Function.update_of_ne hq]
  -- a table of `p` after the step belongs to no other process
  have hapart : ∀ q x, q ≠ p → x ∈ P.tables → x ∉ (s.proc q).tables := by
    intro q x hq hx hxq
    rcases (hmem x hx).2 with hold | hfree
    · exact hq (h.tablesApart q p x hxq hold)
    · rw [h.tablesLive q x hxq] at hfree
      cases hfree
  refine ⟨hinodeRefs, hfileRefs, ?_, ?_, ?_, ?_, ?_⟩
  · intro q x hx
    by_cases hq : q = p
    · rw [hq, hself] at hx
      exact (hmem x hx).1
    · rw [hother q hq] at hx
      refine hkeep x (h.tablesLive q x hx) ?_
      intro hxp
      exact hq (h.tablesApart q p x hx hxp)
  · intro q
    by_cases hq : q = p
    · rw [hq, hself]
      exact hnodup
    · rw [hother q hq]
      exact h.tablesNodup q
  · intro q r x hxq hxr
    by_cases hq : q = p
    · by_cases hr : r = p
      · rw [hq, hr]
      · rw [hq, hself] at hxq
        rw [hother r hr] at hxr
        exact absurd hxr (hapart r x hr hxq)
    · rw [hother q hq] at hxq
      by_cases hr : r = p
      · rw [hr, hself] at hxr
        exact absurd hxq (hapart q x hq hxr)
      · rw [hother r hr] at hxr
        exact h.tablesApart q r x hxq hxr
  · intro u hu
    rw [hqueue] at hu
    exact hinode u hu (h.inodes u hu)
  · intro u hu
    rw [hqueue] at hu
    have hold := h.owners u hu
    by_cases hq : u.owner = p
    · have hnew := howner u hu hq
      unfold OwnerAlive at hold ⊢
      rw [hq] at hold ⊢
      rw [hself, hnew.2]
      exact ⟨hnew.1, hold.2⟩
    · unfold OwnerAlive
      rw [hother _ hq]
      exact hold

/-- Counts after a step that leaves the file table alone. -/
theorem refs_update (h : LifeInv s) (i : Fin ninode) (P : Proc) :
    total (fun F => F.refs i) s.ftable + total (fun P => P.refs i) (Function.update s.proc p P) =
      (s.icache i).ref - (s.proc p).refs i + P.refs i := by
  rw [total_update, h.inodeRefs i]
  omega

theorem opens_update (h : LifeInv s) (f : Fin nfile) {P : Proc}
    (hofile : P.ofile = (s.proc p).ofile) :
    (s.ftable f).ref = total (fun P => P.opens f) (Function.update s.proc p P) := by
  rw [h.fileRefs f, total_update_same]
  unfold Proc.opens
  rw [hofile]

/-- Only the record of `p` changes, and it holds what it held. -/
theorem setProc (h : LifeInv s) (hofile : P.ofile = (s.proc p).ofile)
    (hrefs : ∀ i, P.refs i = (s.proc p).refs i) (htables : P.tables.Perm (s.proc p).tables)
    (howner : ∀ u ∈ s.queue, u.owner = p →
      P.state ≠ .unused ∧ P.pgdir = (s.proc p).pgdir) : LifeInv (s.setProc p P) := by
  refine h.ofProc rfl rfl ?_ (fun f => h.opens_update f hofile)
    (htables.nodup_iff.mpr (h.tablesNodup p)) ?_ (fun x hx _ => hx) (fun _ _ hu => hu) howner
  · intro i
    refine Eq.trans ?_ (h.refs_update i P).symm
    rw [hrefs i]
    exact (sub_add_cancel _ _).symm
  · intro x hx
    have hold := htables.mem_iff.mp hx
    exact ⟨h.tablesLive p x hold, Or.inl hold⟩

/-- The count of one inode changes together with what `p` holds of it. -/
theorem setInode (h : LifeInv s) {i : Fin ninode} {I : CachedInode}
    (hofile : P.ofile = (s.proc p).ofile)
    (hrefs : ∀ j, P.refs j = (s.proc p).refs j +
      if i = j then I.ref - (s.icache i).ref else 0)
    (htables : P.tables = (s.proc p).tables)
    (hsame : (P.state, P.pgdir) = ((s.proc p).state, (s.proc p).pgdir))
    (hinode : ∀ u ∈ s.queue, u.ip = i → 1 ≤ (s.icache i).ref →
      1 ≤ I.ref ∧ I.dev = (s.icache i).dev ∧ I.inum = (s.icache i).inum) :
    LifeInv ((s.setInode i I).setProc p P) := by
  have hstate : P.state = (s.proc p).state := congrArg Prod.fst hsame
  have hpgdir : P.pgdir = (s.proc p).pgdir := congrArg Prod.snd hsame
  refine h.ofProc rfl rfl ?_ (fun f => h.opens_update f hofile)
    (htables ▸ h.tablesNodup p) ?_ (fun x hx _ => hx) ?_ ?_
  · intro j
    refine Eq.trans ?_ (h.refs_update j P).symm
    rw [hrefs j]
    by_cases hij : i = j
    · subst hij
      simp only [LifeState.setProc, LifeState.setInode, Function.update_self, if_true]
      omega
    · simp only [LifeState.setProc, LifeState.setInode, Function.update_of_ne (Ne.symm hij),
        if_neg hij]
      omega
  · intro x hx
    rw [htables] at hx
    exact ⟨h.tablesLive p x hx, Or.inl hx⟩
  · intro u hu halive
    by_cases hui : u.ip = i
    · have hnew := hinode u hu hui (hui ▸ halive.1)
      unfold InodeAlive at halive ⊢
      rw [hui] at halive ⊢
      simp only [LifeState.setProc, LifeState.setInode, Function.update_self]
      exact ⟨hnew.1, hnew.2.1.trans halive.2.1, hnew.2.2.trans halive.2.2⟩
    · unfold InodeAlive
      simp only [LifeState.setProc, LifeState.setInode, Function.update_of_ne hui]
      exact halive
  · intro u hu hup
    rw [hstate, hpgdir, ← hup]
    exact ⟨(h.owners u hu).1, rfl⟩

/-- A page table of `p` is freed. -/
theorem freevm (h : LifeInv s) {x : Nat} (hofile : P.ofile = (s.proc p).ofile)
    (hrefs : ∀ i, P.refs i = (s.proc p).refs i) (htables : (s.proc p).tables.Perm (x :: P.tables))
    (howner : ∀ u ∈ s.queue, u.owner = p →
      P.state ≠ .unused ∧ P.pgdir = (s.proc p).pgdir) :
    LifeInv ((s.freevm x).setProc p P) := by
  have hnodup : (x :: P.tables).Nodup := htables.nodup_iff.mp (h.tablesNodup p)
  have hx : x ∈ (s.proc p).tables := htables.mem_iff.mpr List.mem_cons_self
  refine h.ofProc rfl rfl ?_ (fun f => h.opens_update f hofile) hnodup.of_cons ?_ ?_
    (fun _ _ hu => hu) howner
  · intro i
    refine Eq.trans ?_ (h.refs_update i P).symm
    rw [hrefs i]
    exact (sub_add_cancel _ _).symm
  · intro y hy
    have hold : y ∈ (s.proc p).tables := htables.mem_iff.mpr (List.mem_cons_of_mem x hy)
    have hyx : y ≠ x := by
      intro heq
      exact (List.nodup_cons.mp hnodup).1 (heq ▸ hy)
    refine ⟨?_, Or.inl hold⟩
    simp only [LifeState.setProc, LifeState.freevm, Function.update_of_ne hyx]
    exact h.tablesLive p y hold
  · intro y hy hyp
    have hyx : y ≠ x := fun heq => hyp (heq ▸ hx)
    simp only [LifeState.setProc, LifeState.freevm, Function.update_of_ne hyx]
    exact hy

/-- `p` allocates a page table. -/
theorem kalloc (h : LifeInv s) {x : Nat} (hfree : s.allocated x = false)
    (hofile : P.ofile = (s.proc p).ofile) (hrefs : ∀ i, P.refs i = (s.proc p).refs i)
    (htables : P.tables = (s.proc p).tables ++ [x])
    (hsame : (P.state, P.pgdir) = ((s.proc p).state, (s.proc p).pgdir)) :
    LifeInv ((s.kalloc x).setProc p P) := by
  have hstate : P.state = (s.proc p).state := congrArg Prod.fst hsame
  have hpgdir : P.pgdir = (s.proc p).pgdir := congrArg Prod.snd hsame
  have hne : ∀ y, s.allocated y = true → y ≠ x := by
    intro y hy heq
    rw [heq, hfree] at hy
    cases hy
  refine h.ofProc rfl rfl ?_ (fun f => h.opens_update f hofile) ?_ ?_ ?_ (fun _ _ hu => hu) ?_
  · intro i
    refine Eq.trans ?_ (h.refs_update i P).symm
    rw [hrefs i]
    exact (sub_add_cancel _ _).symm
  · rw [htables, List.nodup_append]
    refine ⟨h.tablesNodup p, List.nodup_singleton x, ?_⟩
    intro y hy z hz heq
    rw [List.mem_singleton] at hz
    exact hne y (h.tablesLive p y hy) (heq.trans hz)
  · intro y hy
    rw [htables, List.mem_append, List.mem_singleton] at hy
    rcases hy with hold | rfl
    · refine ⟨?_, Or.inl hold⟩
      have hlive := h.tablesLive p y hold
      simp only [LifeState.setProc, LifeState.kalloc, Function.update_of_ne (hne y hlive)]
      exact hlive
    · refine ⟨?_, Or.inr hfree⟩
      simp only [LifeState.setProc, LifeState.kalloc, Function.update_self]
  · intro y hy _
    simp only [LifeState.setProc, LifeState.kalloc, Function.update_of_ne (hne y hy)]
    exact hy
  · intro u hu hup
    rw [hstate, hpgdir, ← hup]
    exact ⟨(h.owners u hu).1, rfl⟩

/-- A descriptor of `p` is cleared and its file released; `G` is the file's new
entry and `k` where `p` goes on. -/
theorem closeFile (h : LifeInv s) {fd : Fin nofile} {f : Fin nfile} {G : File} {k : CallPc}
    (hfd : (s.proc p).ofile fd = some f) (href : G.ref = (s.ftable f).ref - 1)
    (hrefs : ∀ i, G.refs i + k.refs i = (s.ftable f).refs i + (s.proc p).pc.refs i)
    (htables : k.tables = (s.proc p).pc.tables) :
    LifeInv ((s.setFile f G).setProc p
      { s.proc p with ofile := Function.update (s.proc p).ofile fd none, pc := k }) := by
  refine h.ofProc rfl rfl ?_ ?_ ?_ ?_ (fun x hx _ => hx) (fun _ _ hu => hu) ?_
  · intro i
    have hcount := h.inodeRefs i
    have hsum := hrefs i
    simp only [LifeState.setProc, LifeState.setFile, total_update]
    unfold Proc.refs at hcount ⊢
    dsimp only at hcount ⊢
    omega
  · intro g
    have hopens : Proc.opens
        { s.proc p with ofile := Function.update (s.proc p).ofile fd none, pc := k } g =
          (s.proc p).opens g - if f = g then 1 else 0 := by
      unfold Proc.opens
      rw [total_update, hfd]
      simp
    have hcount := h.fileRefs g
    simp only [LifeState.setProc, LifeState.setFile, total_update]
    rw [hopens]
    by_cases hfg : f = g
    · subst hfg
      rw [Function.update_self, if_pos rfl, href]
      omega
    · rw [Function.update_of_ne (Ne.symm hfg), if_neg hfg]
      omega
  · have hold := h.tablesNodup p
    unfold Proc.tables at hold ⊢
    rw [htables]
    exact hold
  · intro x hx
    have hold : x ∈ (s.proc p).tables := by
      unfold Proc.tables at hx ⊢
      rwa [htables] at hx
    exact ⟨h.tablesLive p x hold, Or.inl hold⟩
  · intro u hu hup
    exact ⟨hup ▸ (h.owners u hu).1, rfl⟩

theorem fileclose (h : LifeInv s) {fd : Fin nofile} {f : Fin nfile} {k : CallPc}
    (hfd : (s.proc p).ofile fd = some f) (hrefs : ∀ i, k.refs i = (s.proc p).pc.refs i)
    (htables : k.tables = (s.proc p).pc.tables) (hst : s.fileclose p fd f k = some t) :
    LifeInv t := by
  unfold LifeState.fileclose at hst
  dsimp only at hst
  split at hst
  · cases hst
  · rename_i hpos
    split at hst
    · rename_i hmore
      cases hst
      refine h.closeFile hfd rfl ?_ htables
      intro i
      have hkeep : 0 < (s.ftable f).ref - 1 ↔ 0 < (s.ftable f).ref := by omega
      simp only [File.refs, hrefs i, hkeep]
    · rename_i hlast
      have hone : (s.ftable f).ref = 1 := by omega
      have hgone : ∀ i, (File.refs { s.ftable f with ref := 0, type := .none } i) = 0 := by
        intro i
        simp [File.refs]
      split at hst
      · rename_i j htype hip
        cases hst
        refine h.closeFile hfd (by rw [hone]; rfl) ?_ htables
        intro i
        rw [hgone i]
        simp only [CallPc.refs, File.refs, hone, htype, hip, hrefs i, Option.some.injEq]
        simp
      · cases hst
      · rename_i hnot _
        cases hst
        refine h.closeFile hfd (by rw [hone]; rfl) ?_ htables
        intro i
        have hnone : (s.ftable f).refs i = 0 := by
          unfold File.refs
          rw [if_neg]
          intro hF
          exact hnot i hF.2.1 hF.2.2
        rw [hgone i, hnone, hrefs i]

/-- `exit` ends: no count and no table changes. -/
theorem becomeZombie (h : LifeInv s) (hpc : (s.proc p).pc = .exited)
    (hstate : (s.proc p).state ≠ .unused) : LifeInv (s.becomeZombie p) := by
  have hrefs : ∀ i q, ((s.becomeZombie p).proc q).refs i = (s.proc q).refs i := by
    intro i q
    unfold LifeState.becomeZombie Proc.refs
    by_cases hq : q = p
    · subst hq
      simp only [if_true, hpc]
      split <;> rfl
    · simp only [if_neg hq]
      split <;> rfl
  have hopens : ∀ f q, ((s.becomeZombie p).proc q).opens f = (s.proc q).opens f := by
    intro f q
    unfold LifeState.becomeZombie Proc.opens
    dsimp only
    split <;> split <;> rfl
  have hpgdir : ∀ q, ((s.becomeZombie p).proc q).pgdir = (s.proc q).pgdir := by
    intro q
    unfold LifeState.becomeZombie
    dsimp only
    split <;> split <;> rfl
  have hunused : ∀ q, ((s.becomeZombie p).proc q).state = .unused ↔
      (s.proc q).state = .unused := by
    intro q
    unfold LifeState.becomeZombie
    by_cases hq : q = p
    · subst hq
      simp [hstate]
    · simp only [if_neg hq]
      split <;> rfl
  have htables : ∀ q, ((s.becomeZombie p).proc q).tables = (s.proc q).tables := by
    intro q
    have hpcs : ((s.becomeZombie p).proc q).pc.tables = (s.proc q).pc.tables := by
      unfold LifeState.becomeZombie
      by_cases hq : q = p
      · subst hq
        simp [hpc, CallPc.tables]
      · simp only [if_neg hq]
        split <;> rfl
    unfold Proc.tables
    rw [hpcs, hpgdir q]
    simp only [hunused q]
  refine ⟨?_, ?_, ?_, ?_, ?_, h.inodes, ?_⟩
  · intro i
    have hsum : total (fun P => P.refs i) (s.becomeZombie p).proc =
        total (fun P => P.refs i) s.proc := total_congr (hrefs i)
    rw [hsum]
    exact h.inodeRefs i
  · intro f
    have hsum : total (fun P => P.opens f) (s.becomeZombie p).proc =
        total (fun P => P.opens f) s.proc := total_congr (hopens f)
    rw [hsum]
    exact h.fileRefs f
  · intro q
    rw [htables q]
    exact h.tablesLive q
  · intro q
    rw [htables q]
    exact h.tablesNodup q
  · intro q r
    rw [htables q, htables r]
    exact h.tablesApart q r
  · intro u hu
    unfold OwnerAlive
    rw [hpgdir, Ne, hunused]
    exact h.owners u hu

/-- A task submitted on an open inode file. -/
theorem submit (h : LifeInv s) {fd : Fin nofile} {f : Fin nfile} {i : Fin ninode}
    (hstate : (s.proc p).state ≠ .unused) (hfd : (s.proc p).ofile fd = some f)
    (htype : (s.ftable f).type = .inode) (hip : (s.ftable f).ip = some i) :
    LifeInv (s.submit p i) := by
  have hopen : 0 < (s.ftable f).ref := by
    rw [h.fileRefs f]
    refine total_pos (Proc.opens_nonneg f) p ?_
    refine total_pos (fun o => by split <;> omega) fd ?_
    simp [hfd]
  have href : 0 < (s.icache i).ref := by
    have hfile : 0 < total (fun F => F.refs i) s.ftable := by
      refine total_pos (File.refs_nonneg i) f ?_
      simp [File.refs, hopen, htype, hip]
    have hproc : 0 ≤ total (fun P => P.refs i) s.proc := total_nonneg (Proc.refs_nonneg i)
    rw [h.inodeRefs i]
    omega
  refine ⟨h.inodeRefs, h.fileRefs, h.tablesLive, h.tablesNodup, h.tablesApart, ?_, ?_⟩
  · intro u hu
    rcases List.mem_append.mp hu with hold | hnew
    · exact h.inodes u hold
    · rw [List.mem_singleton] at hnew
      subst hnew
      exact ⟨href, rfl, rfl⟩
  · intro u hu
    rcases List.mem_append.mp hu with hold | hnew
    · exact h.owners u hold
    · rw [List.mem_singleton] at hnew
      subst hnew
      exact ⟨hstate, rfl⟩

/-- The kernel thread changes nothing but the queue. -/
theorem dequeue (h : LifeInv s) {queue : List Submission} (hsub : queue ⊆ s.queue)
    (running : Bool) : LifeInv { s with queue := queue, running := running } :=
  ⟨h.inodeRefs, h.fileRefs, h.tablesLive, h.tablesNodup, h.tablesApart,
    fun u hu => h.inodes u (hsub hu), fun u hu => h.owners u (hsub hu)⟩

end LifeInv

/-- `iget` never takes a slot away from a referenced inode. -/
theorem LifeState.igetSlot_spec {s : LifeState} {dev inum : Nat} {i : Fin ninode}
    (h : s.igetSlot dev inum = some i) (href : 1 ≤ (s.icache i).ref) :
    (s.icache i).dev = dev ∧ (s.icache i).inum = inum := by
  rcases Fs.igetSlot_some h with ⟨-, hid⟩ | ⟨hzero, -⟩
  · exact Prod.mk.inj hid
  · omega

/-- The model of the file table has the same references and types. -/
def LifeState.SameFiles (s : LifeState) (u : Ftable.Sys) : Prop :=
  ∀ f, (u.file f).ref = (s.ftable f).ref ∧ (u.file f).type = (s.ftable f).type

theorem LifeState.SameFiles.update {s t : LifeState} {u v : Ftable.Sys} (h : s.SameFiles u)
    {f : Fin nfile} {x : Ftable.File} {y : File} (hv : v.file = Function.update u.file f x)
    (ht : t.ftable = Function.update s.ftable f y) (hxy : x.ref = y.ref ∧ x.type = y.type) :
    t.SameFiles v := by
  intro g
  rw [hv, ht]
  by_cases hg : g = f
  · rw [hg, Function.update_self, Function.update_self]
    exact hxy
  · rw [Function.update_of_ne hg, Function.update_of_ne hg]
    exact h g

/-- What `fileclose` does here is what it does to the file table. -/
theorem LifeState.SameFiles.fileclose {s t : LifeState} {u : Ftable.Sys} (h : s.SameFiles u)
    {p : Fin nproc} {fd : Fin nofile} {f : Fin nfile} {k : CallPc}
    (hst : s.fileclose p fd f k = some t) :
    ∃ v, Ftable.fileclose u f = .ok v ∧ t.SameFiles v := by
  have href := (h f).1
  unfold LifeState.fileclose at hst
  simp only at hst
  split_ifs at hst with hlow hmore
  · cases hst
    refine ⟨u.setFile f { u.file f with ref := (u.file f).ref - 1 }, ?_,
      h.update rfl rfl ⟨congrArg (· - 1) href, (h f).2⟩⟩
    rw [Ftable.fileclose, if_neg (by omega), if_pos (by omega)]
  · have ht : t.ftable =
        Function.update s.ftable f { s.ftable f with ref := 0, type := .none } := by
      split at hst <;> cases hst <;> rfl
    rw [Ftable.fileclose, if_neg (by omega), if_neg (by omega)]
    simp only
    split
    · refine ⟨_, rfl, h.update (x := { u.file f with ref := 0, type := .none }) ?_ ht ⟨rfl, rfl⟩⟩
      unfold Ftable.pipeclose
      dsimp only
      split <;> rfl
    · exact ⟨_, rfl, h.update rfl ht ⟨rfl, rfl⟩⟩

/-! ## Steps that leave queued tasks alone -/

/-- A step inside a call takes nothing away from a queued task: no `iput` drops
the last reference to its inode, no `exec` replaces the page table of its
process. -/
def AdvanceHarmless (s : LifeState) (p : Fin nproc) : CallPc → Prop
  | .put i _ => ∀ t ∈ s.queue, t.ip = i → 1 < (s.icache i).ref
  | .built _ => ∀ t ∈ s.queue, t.owner ≠ p
  | _ => True

/-- In addition, `aread` is called on inode files and while a slot of the array is
free, and `wait` reaps no process with a queued task. -/
def Harmless (s : LifeState) : LifeAction → Prop
  | .aread p fd => s.queue.length < ntasks ∧
      ∀ f, (s.proc p).ofile fd = some f → (s.ftable f).type = .inode
  | .wait p => ∀ c, s.zombieChild p = some c → ∀ t ∈ s.queue, t.owner ≠ c
  | .advance p => AdvanceHarmless s p (s.proc p).pc
  | _ => True

instance decidableAdvanceHarmless (s : LifeState) (p : Fin nproc) :
    ∀ k, Decidable (AdvanceHarmless s p k)
  | .put i _ => inferInstanceAs (Decidable (∀ t ∈ s.queue, t.ip = i → 1 < (s.icache i).ref))
  | .built _ => inferInstanceAs (Decidable (∀ t ∈ s.queue, t.owner ≠ p))
  | .user | .walking _ | .loading _ _ | .replaced _ | .exiting _ | .exited => .isTrue trivial

instance decidableHarmless (s : LifeState) : ∀ a, Decidable (Harmless s a)
  | .aread p fd => inferInstanceAs (Decidable (s.queue.length < ntasks ∧
      ∀ f, (s.proc p).ofile fd = some f → (s.ftable f).type = .inode))
  | .wait p => inferInstanceAs
      (Decidable (∀ c, s.zombieChild p = some c → ∀ t ∈ s.queue, t.owner ≠ c))
  | .advance p => decidableAdvanceHarmless s p (s.proc p).pc
  | .close _ _ | .exit _ | .exec _ _ | .lookup _ _ | .setupkvm _ _ | .execFail _ | .sbrk _
  | .kthStart | .kthDone => .isTrue trivial

namespace LifeInv

variable {s t : LifeState} {p : Fin nproc}

theorem owner_same (h : LifeInv s) {P : Proc} (hstate : P.state = (s.proc p).state)
    (hpgdir : P.pgdir = (s.proc p).pgdir) :
    ∀ u ∈ s.queue, u.owner = p → P.state ≠ .unused ∧ P.pgdir = (s.proc p).pgdir := by
  intro u hu hup
  rw [hstate]
  exact ⟨hup ▸ (h.owners u hu).1, hpgdir⟩

/-- `p` goes on at a point that holds the same. -/
theorem goto (h : LifeInv s) {k : CallPc} (hrefs : ∀ i, k.refs i = (s.proc p).pc.refs i)
    (htables : k.tables = (s.proc p).pc.tables) :
    LifeInv (s.setProc p ((s.proc p).goto k)) := by
  refine h.setProc rfl ?_ ?_ (h.owner_same rfl rfl)
  · intro i
    rw [Proc.goto_refs, hrefs i]
    omega
  · rw [Proc.goto_tables htables]

/-- `p` goes on at a point that holds one page table less. -/
theorem goto_freevm (h : LifeInv s) {k : CallPc} {x : Nat}
    (hstate : (s.proc p).state = .running) (hrefs : ∀ i, k.refs i = (s.proc p).pc.refs i)
    (htables : (s.proc p).pc.tables = x :: k.tables) :
    LifeInv ((s.freevm x).setProc p ((s.proc p).goto k)) := by
  refine h.freevm rfl ?_ ?_ (h.owner_same rfl rfl)
  · intro i
    rw [Proc.goto_refs, hrefs i]
    omega
  · have hgoto : ((s.proc p).goto k).state = .running := hstate
    rw [Proc.tables_running hstate, Proc.tables_running hgoto, htables]
    exact List.Perm.swap _ _ _

/-- The count of one inode and what `p` holds of it change by the same amount. -/
theorem goto_inode (h : LifeInv s) {k : CallPc} {i : Fin ninode} {I : CachedInode}
    (hrefs : ∀ j, k.refs j = (s.proc p).pc.refs j +
      if i = j then I.ref - (s.icache i).ref else 0)
    (htables : k.tables = (s.proc p).pc.tables)
    (hinode : ∀ u ∈ s.queue, u.ip = i → 1 ≤ (s.icache i).ref →
      1 ≤ I.ref ∧ I.dev = (s.icache i).dev ∧ I.inum = (s.icache i).inum) :
    LifeInv ((s.setInode i I).setProc p ((s.proc p).goto k)) := by
  refine h.setInode rfl ?_ (Proc.goto_tables htables) rfl hinode
  intro j
  rw [Proc.goto_refs, hrefs j]
  omega

theorem iget (h : LifeInv s) {dev inum : Nat} {i : Fin ninode} {k : CallPc}
    (hslot : s.igetSlot dev inum = some i)
    (hrefs : ∀ j, k.refs j = (s.proc p).pc.refs j + if i = j then 1 else 0)
    (htables : k.tables = (s.proc p).pc.tables) :
    LifeInv ((s.iget i dev inum).setProc p ((s.proc p).goto k)) := by
  refine h.goto_inode ?_ htables ?_
  · intro j
    rw [hrefs j]
    simp
  · intro u hu hui href
    have hid := LifeState.igetSlot_spec hslot href
    refine ⟨?_, hid.1.symm, hid.2.symm⟩
    dsimp only
    omega

theorem advance (h : LifeInv s) {k : CallPc} (hstate : (s.proc p).state = .running)
    (hpc : (s.proc p).pc = k) (hharm : AdvanceHarmless s p k)
    (hst : s.advance p k = some t) : LifeInv t := by
  cases k with
  | user => cases hst
  | walking i => cases hst
  | put i k =>
    cases hst
    refine h.goto_inode ?_ (by rw [hpc]; rfl) ?_
    · intro j
      rw [hpc, CallPc.refs]
      by_cases hij : i = j
      · simp only [if_pos hij]
        omega
      · simp only [if_neg hij]
        omega
    · intro u hu hui _
      have hmore := hharm u hu hui
      refine ⟨?_, rfl, rfl⟩
      dsimp only
      omega
  | exiting fd =>
    simp only [LifeState.advance] at hst
    split at hst
    · split at hst
      · cases hst
        exact h.goto (fun i => by rw [hpc]; rfl) (by rw [hpc]; rfl)
      · rename_i f hfd
        exact h.fileclose hfd (fun i => by rw [hpc]; rfl) (by rw [hpc]; rfl) hst
    · split at hst
      · cases hst
      · rename_i i hcwd
        cases hst
        refine h.setProc rfl ?_ ?_ (h.owner_same rfl rfl)
        · intro j
          simp [Proc.refs, hpc, hcwd, CallPc.refs]
        · unfold Proc.tables
          rw [hpc]
          exact List.Perm.refl _
  | exited =>
    cases hst
    exact h.becomeZombie hpc (by rw [hstate]; decide)
  | loading i pgdir =>
    cases hst
    exact h.goto (fun j => by rw [hpc]; simp [CallPc.refs]) (by rw [hpc]; rfl)
  | built pgdir =>
    cases hst
    refine h.setProc rfl ?_ ?_ ?_
    · intro j
      simp [Proc.refs, hpc, CallPc.refs]
    · simp only [Proc.tables, hstate, hpc, CallPc.tables]
      exact List.Perm.swap _ _ _
    · intro u hu hup
      exact absurd hup (hharm u hu)
  | replaced oldpgdir =>
    cases hst
    exact h.goto_freevm hstate (fun j => by rw [hpc]; rfl) (by rw [hpc]; rfl)

theorem execFail (h : LifeInv s) {k : CallPc} (hstate : (s.proc p).state = .running)
    (hpc : (s.proc p).pc = k) (hst : s.execFail p k = some t) : LifeInv t := by
  cases k with
  | walking i =>
    cases hst
    exact h.goto (fun j => by rw [hpc]; simp [CallPc.refs]) (by rw [hpc]; rfl)
  | loading i pgdir =>
    cases hst
    exact h.goto_freevm hstate (fun j => by rw [hpc]; simp [CallPc.refs]) (by rw [hpc]; rfl)
  | built pgdir =>
    cases hst
    exact h.goto_freevm hstate (fun j => by rw [hpc]; rfl) (by rw [hpc]; rfl)
  | user | replaced oldpgdir | exiting fd | exited | put i k => cases hst

/-- Steps inside a call. -/
theorem callStep {a : LifeAction} {k : CallPc} (h : LifeInv s)
    (hstate : (s.proc p).state = .running) (hpc : (s.proc p).pc = k)
    (hharm : ∀ q, a = .advance q → AdvanceHarmless s p k)
    (hst : Aio.callStep s p k a = some t) : LifeInv t := by
  unfold Aio.callStep at hst
  split at hst
  · rename_i i _ inum
    rw [Option.map_eq_some_iff] at hst
    rcases hst with ⟨j, hslot, rfl⟩
    exact h.iget hslot (fun l => by rw [hpc]; simp [CallPc.refs]) (by rw [hpc]; rfl)
  · rename_i i _ pgdir
    split at hst
    · cases hst
    · rename_i hfree
      cases hst
      refine h.kalloc (by simpa using hfree) rfl ?_ ?_ rfl
      · intro j
        rw [Proc.goto_refs, hpc]
        simp [CallPc.refs]
      · have hgoto : ((s.proc p).goto (.loading i pgdir)).state = .running := hstate
        rw [Proc.tables_running hstate, Proc.tables_running hgoto, hpc]
        rfl
  · exact h.execFail hstate hpc hst
  · exact h.advance hstate hpc (hharm _ rfl) hst
  · cases hst

/-- `wait` reaps a zombie child without queued tasks. -/
theorem reap (h : LifeInv s) {c : Fin nproc} (hzombie : (s.proc c).state = .zombie)
    (hnone : ∀ u ∈ s.queue, u.owner ≠ c) : LifeInv (s.reap c) := by
  refine h.freevm rfl (fun _ => rfl) ?_ ?_
  · simp [Proc.tables, hzombie]
  · intro u hu huc
    exact absurd huc (hnone u hu)

/-- System calls. -/
theorem entryStep {a : LifeAction} (h : LifeInv s) (hactor : a.actor = some p)
    (hstate : (s.proc p).state = .running) (hpc : (s.proc p).pc = .user)
    (hharm : Harmless s a) (hst : Aio.entryStep s p a = some t) : LifeInv t := by
  have hlive : (s.proc p).state ≠ .unused := by
    rw [hstate]
    decide
  cases a with
  | aread q fd =>
    cases hactor
    simp only [Aio.entryStep] at hst
    split at hst
    · cases hst
    · rename_i f hfd
      rw [Option.map_eq_some_iff] at hst
      rcases hst with ⟨i, hip, rfl⟩
      exact h.submit hlive hfd (hharm.2 f hfd) hip
  | close q fd =>
    simp only [Aio.entryStep] at hst
    split at hst
    · cases hst
    · rename_i f hfd
      exact h.fileclose hfd (fun i => by rw [hpc]) (by rw [hpc]) hst
  | exit q =>
    simp only [Aio.entryStep] at hst
    split at hst
    · cases hst
    · cases hst
      exact h.goto (fun i => by rw [hpc]; rfl) (by rw [hpc]; rfl)
  | wait q =>
    cases hactor
    simp only [Aio.entryStep] at hst
    rw [Option.map_eq_some_iff] at hst
    rcases hst with ⟨c, hchild, rfl⟩
    have hc := List.find?_some hchild
    simp only [decide_eq_true_eq] at hc
    exact h.reap hc.2 (hharm c hchild)
  | exec q absolute =>
    cases absolute with
    | true =>
      simp only [Aio.entryStep] at hst
      rw [Option.map_eq_some_iff] at hst
      rcases hst with ⟨i, hslot, rfl⟩
      exact h.iget hslot (fun j => by rw [hpc]; simp [CallPc.refs]) (by rw [hpc]; rfl)
    | false =>
      simp only [Aio.entryStep] at hst
      rw [Option.map_eq_some_iff] at hst
      rcases hst with ⟨i, _, rfl⟩
      refine h.goto_inode ?_ (by rw [hpc]; rfl) ?_
      · intro j
        rw [hpc]
        simp [CallPc.refs]
      · intro u _ _ href
        refine ⟨?_, rfl, rfl⟩
        dsimp only
        omega
  | sbrk q =>
    cases hst
    exact h
  | lookup q inum | setupkvm q pgdir | execFail q | advance q | kthStart | kthDone => cases hst

/-- Steps of the kernel thread. -/
theorem threadStep {a : LifeAction} (h : LifeInv s) (hst : Aio.threadStep s a = some t) :
    LifeInv t := by
  unfold Aio.threadStep at hst
  split at hst
  · split at hst
    · cases hst
    · cases hst
      exact h.dequeue (List.Subset.refl _) true
  · split at hst
    · cases hst
      exact h.dequeue (List.tail_subset _) false
    · cases hst
  · cases hst

/-- Every harmless step keeps the invariant. -/
theorem step {a : LifeAction} (h : LifeInv s) (hharm : Harmless s a)
    (hst : lifeStep s a = some t) : LifeInv t := by
  unfold lifeStep at hst
  split at hst
  · exact h.threadStep hst
  · rename_i q hactor
    split at hst
    · rename_i hstate
      split at hst
      · rename_i hpc
        exact h.entryStep hactor hstate hpc hharm hst
      · refine h.callStep hstate rfl ?_ hst
        intro r hr
        subst hr
        cases hactor
        exact hharm
    · cases hst

end LifeInv

/-! ## Tasks find what they point to -/

/-- While `aread_kth` executes a task, the cached inode is referenced and the one
of the submission, and the page table is the one of the process and in use. -/
def TasksFindPointers (s : LifeState) : Prop :=
  s.running = true → ∀ t ∈ s.queue.head?,
    1 ≤ (s.icache t.ip).ref ∧ (s.icache t.ip).dev = t.dev ∧ (s.icache t.ip).inum = t.inum ∧
      (s.proc t.owner).pgdir = t.pgdir ∧ s.allocated t.pgdir = true

theorem LifeInv.tasksFindPointers {s : LifeState} (h : LifeInv s) : TasksFindPointers s := by
  intro _ t ht
  have hmem : t ∈ s.queue := List.mem_of_mem_head? ht
  have hinode := h.inodes t hmem
  have howner := h.owners t hmem
  refine ⟨hinode.1, hinode.2.1, hinode.2.2, howner.2, ?_⟩
  refine h.tablesLive t.owner t.pgdir ?_
  simp [Proc.tables, howner.1, howner.2]

/-- From every state with right counts and distinct page tables in which queued
tasks, if any, find their pointers: in every run whose steps are harmless, every
task finds its inode and its page table whenever it is executed. -/
theorem tasks_outlive_pointers (s : LifeState) (as : List LifeAction) (hs : LifeInv s)
    (hharm : Meets lifeStep Harmless s as) : AllStates lifeStep TasksFindPointers s as :=
  allStates_of_meets (fun _ h => h.tasksFindPointers)
    (fun _ _ _ h hc hst => h.step hc hst) hs hharm

/-- One process with one open file: inode 2 in slot 1 of the cache, next to the
root directory in slot 0. -/
def oneOpenFile : LifeState where
  icache i := if i.val = 0 then ⟨1, 1, 1⟩ else if i.val = 1 then ⟨1, 2, 1⟩ else ⟨0, 0, 0⟩
  ftable f := if f.val = 0 then ⟨.inode, 1, some ⟨1, by decide⟩⟩ else ⟨.none, 0, none⟩
  proc p :=
    if p.val = 0 then
      { state := .running, parent := none, pgdir := 7, cwd := some ⟨0, by decide⟩, pc := .user,
        ofile := fun fd => if fd.val = 0 then some ⟨0, by decide⟩ else none }
    else
      { state := .unused, parent := none, pgdir := 0, cwd := none, pc := .user,
        ofile := fun _ => none }
  allocated x := x = 7
  initproc := ⟨0, by decide⟩
  queue := []
  running := false

theorem oneOpenFile_tables (p : Fin nproc) :
    (oneOpenFile.proc p).tables = if p.val = 0 then [7] else [] := by
  unfold oneOpenFile Proc.tables
  by_cases hp : p.val = 0
  · simp [hp, CallPc.tables]
  · simp [hp, CallPc.tables]

theorem oneOpenFile_inv : LifeInv oneOpenFile := by
  have hproc : ∀ p : Fin nproc, p ≠ ⟨0, by decide⟩ → p.val ≠ 0 :=
    fun p hp h0 => hp (Fin.ext h0)
  refine ⟨by decide +kernel, ?_, ?_, ?_, ?_, nofun, nofun⟩
  · intro f
    rw [total_eq_single (⟨0, by decide⟩ : Fin nproc)]
    · unfold Proc.opens
      rw [total_eq_single (⟨0, by decide⟩ : Fin nofile)]
      · by_cases hf : f.val = 0
        · have hf0 : f = ⟨0, by decide⟩ := Fin.ext hf
          simp [oneOpenFile, hf0]
        · have hf0 : ¬ (⟨0, by decide⟩ : Fin nfile) = f := fun h => hf (congrArg Fin.val h.symm)
          simp [oneOpenFile, hf, hf0]
      · intro fd hfd
        have hfd0 : fd.val ≠ 0 := fun h0 => hfd (Fin.ext h0)
        simp [oneOpenFile, hfd0]
    · intro p hp
      simp [oneOpenFile, hproc p hp, Proc.opens, total]
  · intro p x hx
    rw [oneOpenFile_tables] at hx
    split at hx
    · simpa [oneOpenFile] using hx
    · cases hx
  · intro p
    rw [oneOpenFile_tables]
    split <;> simp
  · intro p q x hp hq
    rw [oneOpenFile_tables] at hp hq
    split at hp
    · split at hq
      · rename_i hp0 hq0
        exact Fin.ext (hp0.trans hq0.symm)
      · cases hq
    · cases hp

/-- A task executed before its file is closed. -/
theorem tasks_outlive_pointers_one_task :
    AllStates lifeStep TasksFindPointers oneOpenFile
      [.aread ⟨0, by decide⟩ ⟨0, by decide⟩, .kthStart, .kthDone,
        .close ⟨0, by decide⟩ ⟨0, by decide⟩] :=
  tasks_outlive_pointers _ _ oneOpenFile_inv (by decide +kernel)

/-- The process submits a read and closes the file before the kernel thread gets
to the task. -/
def submitAndClose : List LifeAction :=
  [.aread ⟨0, by decide⟩ ⟨0, by decide⟩, .close ⟨0, by decide⟩ ⟨0, by decide⟩,
    .advance ⟨0, by decide⟩, .kthStart]

/-- The task is executed on an inode that nobody references. -/
theorem submitAndClose_unreferenced :
    LifeInv oneOpenFile ∧
      ∃ s, runFrom lifeStep oneOpenFile submitAndClose = some s ∧ s.running = true ∧
        (∃ t ∈ s.queue.head?, (s.icache t.ip).ref = 0) ∧ ¬ TasksFindPointers s := by
  refine ⟨oneOpenFile_inv, _, rfl, rfl, ⟨_, rfl, rfl⟩, ?_⟩
  intro hfind
  have href := (hfind rfl _ rfl).1
  revert href
  decide

end Xv6.Aio
