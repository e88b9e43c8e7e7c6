import Xv6.Vm.CopyMemory

/-!
# Virtual memory - When `fork` fails

`fork` takes a page for the kernel stack, one for the root of the page table, and then for each
page of the parent one page and those for the tables that are missing.  When `kalloc` returns null
the call is to fail without a trace.  It does so at the kernel stack and at the user pages.  At the
root, `setupkvm` clears page 0 of the address space through the null pointer; at a table, the user
page that was to be mapped is lost.

So the number of free pages decides: with {lit}`imageCost` as the number of pages for all pages and
tables below an address, the call is clean if they run out exactly in front of a user page.

Main results:

- Theorem {lit}`fork_outcome`: how the call ends, for each number of free pages.
- Theorem {lit}`fork_clean_iff`: it succeeds or fails cleanly exactly for these numbers.
-/

namespace Xv6.Vm

open Foundations
open Ftable (ProcId FileId Fd)
open Proc (ProcState)

/-! ## The property -/

/-- A state in which process `p` calls `fork`: its memory is as its size says, entries of the
process table that are not used have no kernel stack, and what the process has open is counted. -/
structure ForkState (s : Kernel) (p : ProcId) (root : Nat) : Prop where
  user : UserProcess s p root
  used : (s.proc p).state ≠ .unused
  unstacked : ∀ q, (s.proc q).state = .unused → (s.proc q).kstack = none
  files : ∀ fd f, (s.proc p).ofile fd = some f → 1 ≤ (s.file f).ref
  cwd : (s.proc p).cwd ≠ none

/-- There is a new process. -/
def Forked (s s' : Kernel) : Prop :=
  ∃ np, (s.proc np).state = .unused ∧ (s'.proc np).state = .runnable

/-- The call failed and left no trace. -/
structure ForkFailed (s s' : Kernel) (p : ProcId) (root : Nat) (r : Int) : Prop where
  ret : r = -1
  free : ∀ f, f ∈ s'.machine.free ↔ f ∈ s.machine.free
  slots : ∀ q, (s'.proc q).state = (s.proc q).state ∧ (s'.proc q).kstack = (s.proc q).kstack ∧
    (s'.proc q).parent = (s.proc q).parent
  files : s'.file = s.file
  inodes : s'.inodeRef = s.inodeRef
  parent : s'.proc p = s.proc p
  memory : SameView s.machine s'.machine root

/-- `fork` returns, with a new process or without a trace. -/
def ForksCleanly (s : Kernel) (p : ProcId) (root : Nat) : Prop :=
  wp (fork p) (fun r s' => Forked s s' ∨ ForkFailed s s' p root r) (fun _ => False) s

/-- There is no entry in the process table, or no page at all, or there are enough pages, or they
run out in front of a user page. -/
def ForkSafe (s : Kernel) (p : ProcId) : Prop :=
  (∀ q, (s.proc q).state ≠ .unused) ∨ s.machine.free.length = 0 ∨
    2 + imageCost (imageEnd (s.proc p).sz) ≤ s.machine.free.length ∨
    ∃ P, P % pgsize = 0 ∧ pgsize ≤ P ∧ P < imageEnd (s.proc p).sz ∧
      s.machine.free.length = 2 + imageCost P

/-! ## allocproc -/

/-- Only the entry `np` of the process table has changed, and not its parent. -/
structure Touched (s s' : Kernel) (np : ProcId) : Prop where
  others : ∀ q, q ≠ np → s'.proc q = s.proc q
  parent : (s'.proc np).parent = (s.proc np).parent
  files : s'.file = s.file
  inodes : s'.inodeRef = s.inodeRef

section Touched

variable {s s' s'' : Kernel} {np : ProcId}

theorem Touched.setProc (h : Touched s s' np) {x : Process}
    (hx : x.parent = (s'.proc np).parent) : Touched s (s'.setProc np x) np := by
  refine ⟨?_, ?_, h.files, h.inodes⟩
  · intro q hq
    rw [Kernel.setProc_proc_of_ne _ _ hq]
    exact h.others q hq
  · rw [Kernel.setProc_proc_self, hx]
    exact h.parent

theorem Touched.setMachine (h : Touched s s' np) (m : Machine) :
    Touched s (Kernel.setMachine m s') np :=
  ⟨h.others, h.parent, h.files, h.inodes⟩

end Touched

/-- The state when `allocproc` has found the entry `np`. -/
def Kernel.claimed (s : Kernel) (np : ProcId) : Kernel :=
  { s.setProc np { s.proc np with
      state := .embryo, pid := s.nextpid, isProcess := true } with
    nextpid := s.nextpid + 1 }

theorem Touched.claimed (s : Kernel) (np : ProcId) : Touched s (s.claimed np) np := by
  refine ⟨?_, ?_, rfl, rfl⟩
  · intro q hq
    exact Kernel.setProc_proc_of_ne _ _ hq
  · show ((s.setProc np _).proc np).parent = _
    rw [Kernel.setProc_proc_self]

section Alloc

variable {s : Kernel} {E : VmStop → Prop}

/-- `allocproc` finds no entry, or no kernel stack, or both. -/
theorem allocproc_spec (h : Forest s.machine []) :
    wp allocproc
      (fun r s' => r = none ∧ s' = s ∧ (∀ q, (s.proc q).state ≠ .unused) ∨
        (∃ np, r = none ∧ (s.proc np).state = .unused ∧ Touched s s' np ∧
          (s'.proc np).state = .unused ∧ (s'.proc np).kstack = none ∧ s'.machine = s.machine ∧
          s.machine.free = []) ∨
        ∃ np f, r = some np ∧ (s.proc np).state = .unused ∧ Touched s s' np ∧
          (s'.proc np).kstack = some f ∧ Turns s.machine s'.machine [] [Holding.page f] ∧
          s'.machine.free.length + 1 = s.machine.free.length) E s := by
  unfold allocproc
  rw [wp_bind, wp_get]
  cases hfind : (List.finRange nproc).find? fun np => decide ((s.proc np).state = .unused) with
  | none =>
    refine Or.inl ⟨rfl, rfl, ?_⟩
    intro q hq
    have hnone := List.find?_eq_none.mp hfind q (List.mem_finRange q)
    exact hnone (decide_eq_true hq)
  | some np =>
    have hfound := List.find?_some hfind
    have hunused : (s.proc np).state = .unused := of_decide_eq_true hfound
    simp only
    rw [wp_bind, wp_modify]
    change wp _ _ _ (s.claimed np)
    have htouched := Touched.claimed s np
    have hmachine : (s.claimed np).machine = s.machine := rfl
    generalize s.claimed np = s₁ at htouched hmachine
    unfold onMemory
    rw [wp_bind, wp_zoom, hmachine]
    refine wp_mono (kalloc_takes h) ?_ fun _ hbad => hbad
    rintro r m₁ (⟨rfl, rfl, hempty⟩ | ⟨f, fs, rfl, hcons, rfl, htake⟩)
    · rw [wp_bind, wp_modify, if_pos rfl, wp_bind, wp_modify, wp_pure]
      refine Or.inr (Or.inl ⟨np, rfl, hunused, ?_, ?_, ?_, rfl, hempty⟩)
      · refine Touched.setProc (Touched.setProc (htouched.setMachine s.machine) ?_) ?_
        · rfl
        · rfl
      · rw [Kernel.setProc_proc_self]
      · rw [Kernel.setProc_proc_self, Kernel.setProc_proc_self]
    · rw [wp_bind, wp_modify, if_neg (by simp), wp_pure]
      refine Or.inr (Or.inr ⟨np, f, rfl, hunused, (htouched.setMachine _).setProc rfl, ?_, htake,
        ?_⟩)
      · rw [Kernel.setProc_proc_self]
      · rw [hcons, List.length_cons]
        rfl

end Alloc

/-! ## The end of a successful call -/

section Success

variable {s : Kernel} {p np : ProcId} {d : Nat} {E : VmStop → Prop}

/-- What the parent has open stays counted while it is shared with the child. -/
def OpenCounted (s : Kernel) (p : ProcId) : Prop :=
  (∀ fd f, (s.proc p).ofile fd = some f → 1 ≤ (s.file f).ref) ∧ (s.proc p).cwd ≠ none

theorem OpenCounted.setProc (h : OpenCounted s p) (hne : p ≠ np) (x : Process) :
    OpenCounted (s.setProc np x) p := by
  have hsame := s.setProc_proc_of_ne x hne
  unfold OpenCounted
  rw [hsame]
  exact h

theorem dupFile_counted (h : OpenCounted s p) (hne : p ≠ np) (i : Fd) :
    wp (dupFile p np i) (fun _ s' => OpenCounted s' p) E s := by
  unfold dupFile
  rw [wp_bind, wp_get]
  cases hfile : (s.proc p).ofile i with
  | none => exact h
  | some f =>
    simp only
    unfold filedup
    have href := h.1 i f hfile
    rw [wp_bind, wp_bind, wp_get, if_neg (by omega), wp_modify, wp_modify]
    refine OpenCounted.setProc (s := { s with
      file := Function.update s.file f { s.file f with ref := (s.file f).ref + 1 } }) ?_ hne _
    refine ⟨?_, h.2⟩
    intro fd g hg
    have hold := h.1 fd g hg
    by_cases hgf : g = f
    · subst hgf
      simp only [Function.update_self]
      omega
    · simp only [Function.update_of_ne hgf]
      exact hold

/-- `fork` after a successful copy returns, and the child can run. -/
theorem forkCopy_runs (h : OpenCounted s p) (hne : p ≠ np) :
    wp (forkCopy p np d) (fun _ s' => (s'.proc np).state = .runnable) E s := by
  unfold forkCopy
  rw [wp_bind, wp_modify]
  refine wp_bind_of (wp_forEach (fun _ t => OpenCounted t p)
    (fun i _ t ht => dupFile_counted ht hne i) (h.setProc hne _)) ?_
  intro _ t ht
  rw [wp_bind, wp_get]
  obtain ⟨ip, hip⟩ := Option.ne_none_iff_exists'.mp ht.2
  rw [hip]
  simp only [idup, wp_bind, wp_modify, wp_get, wp_pure, Kernel.setProc_proc_self]

end Success

/-! ## How the call ends -/

/-- The call failed, and a page is lost. -/
def PageLost (s s' : Kernel) : Prop :=
  (∀ q, (s'.proc q).state = (s.proc q).state) ∧ ∃ f, f ∈ s.machine.free ∧ f ∉ s'.machine.free

/-- The pages run out in front of a table. -/
def OutOfTables (s : Kernel) (p : ProcId) : Prop :=
  ∃ P, P % pgsize = 0 ∧ pgsize ≤ P ∧ P < imageEnd (s.proc p).sz ∧
    2 + imageCost P < s.machine.free.length ∧
    s.machine.free.length < 2 + imageCost (P + pgsize)

section Outcome

variable {s : Kernel} {p : ProcId} {root : Nat}

theorem ForkState.size_lt (h : ForkState s p root) : (s.proc p).sz < 2 ^ 32 := by
  have hle := h.user.pages.size_le h.user.forest h.user.size
  unfold phystop pgsize at hle
  omega

/-- The slots after the entry `np` was given back. -/
theorem Touched.slots {s' : Kernel} {np : ProcId} (h : ForkState s p root)
    (hunused : (s.proc np).state = .unused) (ht : Touched s s' np)
    (hstate : (s'.proc np).state = .unused) (hstack : (s'.proc np).kstack = none) (q : ProcId) :
    (s'.proc q).state = (s.proc q).state ∧ (s'.proc q).kstack = (s.proc q).kstack ∧
      (s'.proc q).parent = (s.proc q).parent := by
  by_cases hq : q = np
  · subst hq
    rw [hstate, hunused, hstack, h.unstacked q hunused]
    exact ⟨rfl, rfl, ht.parent⟩
  · rw [ht.others q hq]
    exact ⟨rfl, rfl, rfl⟩

/-- When the entry and all pages are given back, the call has left no trace. -/
theorem Touched.failed {s' : Kernel} {np : ProcId} (h : ForkState s p root) (hne : p ≠ np)
    (hunused : (s.proc np).state = .unused) (ht : Touched s s' np)
    (hstate : (s'.proc np).state = .unused) (hstack : (s'.proc np).kstack = none)
    (hturns : Turns s.machine s'.machine [] []) : ForkFailed s s' p root (-1) := by
  refine ⟨rfl, ?_, ht.slots h hunused hstate hstack, ht.files, ht.inodes, ht.others p hne,
    hturns.view_right h.user.forest⟩
  intro f
  have hpages := hturns.pages f
  rwa [or_iff_left not_held_nil, or_iff_left not_held_nil] at hpages

/-- The call gives the entry and the kernel stack back; what the copy left is not in a list. -/
theorem giveUp_spec {s₁ : Kernel} {m₂ : Machine} {np : ProcId} {f : Nat} {K : List Holding}
    {E : VmStop → Prop} (ht : Touched s s₁ np) (hstack : (s₁.proc np).kstack = some f)
    (hturns : Turns s.machine s₁.machine [] [Holding.page f]) (hcopy : Turns s₁.machine m₂ [] K) :
    wp (do
      Exec.modify fun s => s.setProc np { s.proc np with pgdir := none }
      freeStack np
      Exec.modify fun s => s.setProc np { s.proc np with state := .unused }
      pure (-1 : Int) : KernelM Int)
      (fun r s' => r = -1 ∧ Touched s s' np ∧ (s'.proc np).state = .unused ∧
        (s'.proc np).kstack = none ∧ Turns s.machine s'.machine [] K) E
      (Kernel.setMachine m₂ s₁) := by
  have hmiddle : Turns s₁.machine m₂ [Holding.page f] (Holding.page f :: K) :=
    (hcopy.beside (H := [Holding.page f]) hturns.forest).perm (List.Perm.refl _)
      (List.perm_append_singleton _ K)
  rw [wp_bind, wp_modify]
  unfold freeStack onMemory
  rw [wp_bind, wp_bind, wp_get, Kernel.setProc_proc_self]
  simp only [Kernel.setMachine, hstack]
  rw [wp_bind, wp_zoom, Kernel.setProc_machine]
  refine wp_mono (kfree_beside hmiddle.forest) ?_ fun _ hbad => hbad
  intro _ m₃ hfreed
  rw [wp_modify, wp_bind, wp_modify, wp_pure]
  refine ⟨rfl, ?_, ?_, ?_, hturns.trans (hmiddle.trans hfreed)⟩
  · refine Touched.setProc (Touched.setProc (Touched.setMachine
      (Touched.setProc (ht.setMachine m₂) ?_) m₃) ?_) ?_
    · rfl
    · rfl
    · rfl
  · rw [Kernel.setProc_proc_self]
  · rw [Kernel.setProc_proc_self, Kernel.setProc_proc_self]

/-- The claimed entry is not the parent's, so what the parent has open stays counted. -/
theorem ForkState.openCounted {s₁ : Kernel} {np : ProcId} (h : ForkState s p root) (hne : p ≠ np)
    (ht : Touched s s₁ np) (m : Machine) : OpenCounted (Kernel.setMachine m s₁) p := by
  have hproc : (Kernel.setMachine m s₁).proc p = s.proc p := ht.others p hne
  have hfile : (Kernel.setMachine m s₁).file = s.file := ht.files
  unfold OpenCounted
  rw [hproc, hfile]
  exact ⟨h.files, h.cwd⟩

/-- How `fork` ends. -/
theorem fork_outcome (h : ForkState s p root) :
    wp (fork p) (fun r s' =>
      Forked s s' ∧ 2 + imageCost (imageEnd (s.proc p).sz) ≤ s.machine.free.length ∨
      ForkFailed s s' p root r ∧ ForkSafe s p ∨
      PageLost s s' ∧ OutOfTables s p ∧ ∃ q, (s.proc q).state = .unused)
      (fun _ => s.machine.free.length = 1 ∧ ∃ q, (s.proc q).state = .unused) s := by
  have hforest : Forest s.machine ([] ++ [userTree root]) := h.user.forest
  have hne : ∀ np, (s.proc np).state = .unused → p ≠ np := by
    rintro np hunused rfl
    exact h.used hunused
  unfold fork
  refine wp_bind_of (allocproc_spec (hforest.left (K := []))) ?_
  rintro r s₁ (⟨rfl, rfl, hfull⟩ | ⟨np, rfl, hunused, ht, hstate, hstack, hmachine, hempty⟩ |
    ⟨np, f, rfl, hunused, ht, hstack, hturns, hcount⟩)
  · refine Or.inr (Or.inl ⟨⟨rfl, fun _ => Iff.rfl, fun _ => ⟨rfl, rfl, rfl⟩, rfl, rfl, rfl,
      SameView.refl⟩, Or.inl hfull⟩)
  · refine Or.inr (Or.inl ⟨ht.failed h (hne np hunused) hunused hstate hstack ?_,
      Or.inr (Or.inl ?_)⟩)
    · rw [hmachine]
      exact Turns.refl (hforest.left (K := []))
    · rw [hempty]
      rfl
  · have hproc := ht.others p (hne np hunused)
    have hpgdir : (s₁.proc p).pgdir = some root := by
      rw [hproc]
      exact h.user.pgdir
    have hforest₁ : Forest s₁.machine ([Holding.page f] ++ [userTree root]) :=
      hforest.frame hturns
    have hexact : PagesExact s₁.machine root (s.proc p).sz := by
      intro va hva
      rw [flat_ne_none_of_view (hturns.view_right hforest va hva)]
      exact h.user.pages va hva
    simp only
    rw [wp_bind, wp_get]
    unfold onPgdir onMemory
    rw [wp_bind, wp_bind, wp_get, hpgdir]
    simp only
    rw [wp_zoom, hproc]
    refine wp_mono (copyuvm_turns hforest₁.right hexact h.size_lt ?_) ?_ fun _ hbad => hbad
    · intro hempty
      rw [hempty, List.length_nil] at hcount
      exact ⟨hcount.symm, np, hunused⟩
    rintro r m₂ (⟨d, rfl, -, -, henough⟩ | ⟨rfl, hcopy, P, hmod, hle, hlt, hcost⟩ |
      ⟨rfl, ⟨g, hcopy⟩, P, hmod, hle, hlt, hcost⟩)
    · simp only
      refine wp_mono (forkCopy_runs (h.openCounted (hne np hunused) ht m₂) (hne np hunused)) ?_
        fun _ hbad => hbad
      intro _ s' hrun
      exact Or.inl ⟨⟨np, hunused, hrun⟩, by omega⟩
    · -- the kernel stack goes back, and with it everything
      simp only
      refine wp_mono (giveUp_spec ht hstack hturns hcopy) ?_ fun _ hbad => hbad
      rintro r s' ⟨rfl, ht', hstate, hnone, hall⟩
      exact Or.inr (Or.inl ⟨ht'.failed h (hne np hunused) hunused hstate hnone hall,
        Or.inr (Or.inr (Or.inr ⟨P, hmod, hle, hlt, by omega⟩))⟩)
    · -- the page that was to be mapped is in no list
      simp only
      refine wp_mono (giveUp_spec ht hstack hturns hcopy) ?_ fun _ hbad => hbad
      rintro r s' ⟨rfl, ht', hstate, hnone, hall⟩
      refine Or.inr (Or.inr ⟨⟨fun q => (ht'.slots h hunused hstate hnone q).1, g, ?_, ?_⟩,
        ⟨P, hmod, hle, hlt, by omega, by omega⟩, np, hunused⟩)
      · have hpages := (hall.pages g).mp (Or.inr (held_page.mpr rfl))
        rwa [or_iff_left not_held_nil] at hpages
      · intro hbad
        exact hall.forest.fresh g hbad (held_page.mpr rfl)

/-- The two ways in which the call is not clean do not meet the condition. -/
theorem OutOfTables.not_safe (h : OutOfTables s p) (hslot : ∃ q, (s.proc q).state = .unused) :
    ¬ForkSafe s p := by
  obtain ⟨P, hmod, hle, hlt, hlow, hhigh⟩ := h
  obtain ⟨q, hq⟩ := hslot
  have hendmod : imageEnd (s.proc p).sz % pgsize = 0 := by
    unfold imageEnd
    rcases max_choice pgsize (pgroundup (s.proc p).sz) with hmax | hmax
    · rw [hmax, Nat.mod_self]
    · rw [hmax]
      exact pgroundup_mod _
  have hnext : (P + pgsize) % pgsize = 0 := by
    rw [Nat.add_mod_right]
    exact hmod
  rintro (hfull | hzero | henough | ⟨P', hmod', hle', hlt', hexact⟩)
  · exact hfull q hq
  · omega
  · have hend : P + pgsize ≤ imageEnd (s.proc p).sz := by
      unfold pgsize at *
      omega
    rcases Nat.lt_or_eq_of_le hend with hend | hend
    · have hcost := imageCost_lt hnext (by omega) hendmod hend
      omega
    · rw [hend] at hhigh
      omega
  · rcases lt_trichotomy P P' with hP | hP | hP
    · have hge : P + pgsize ≤ P' := by
        unfold pgsize at *
        omega
      rcases Nat.lt_or_eq_of_le hge with hge | hge
      · have hcost := imageCost_lt hnext (by omega) hmod' hge
        omega
      · rw [hge] at hhigh
        omega
    · rw [hP] at hlow
      omega
    · have hcost := imageCost_lt hmod' hle' hmod hP
      omega

theorem ForkSafe.ne_one (h : ForkSafe s p) (hslot : ∃ q, (s.proc q).state = .unused) :
    s.machine.free.length ≠ 1 := by
  obtain ⟨q, hq⟩ := hslot
  rcases h with hfull | hzero | henough | ⟨P, -, -, -, hexact⟩
  · exact absurd hq (hfull q)
  · omega
  · omega
  · omega

/-- A clean call meets the condition. -/
theorem ForksCleanly.safe (h : ForkState s p root) (hclean : ForksCleanly s p root) :
    ForkSafe s p := by
  obtain ⟨r, s', hrun, hclean⟩ := wp_never.mp hclean
  rcases (wp_of_ok hrun).mp (fork_outcome h) with ⟨-, henough⟩ | ⟨-, hsafe⟩ |
    ⟨⟨hstates, f, hfree, hlost⟩, -, -⟩
  · exact Or.inr (Or.inr (Or.inl henough))
  · exact hsafe
  · rcases hclean with ⟨np, hunused, hrunnable⟩ | hfailed
    · rw [hstates np, hunused] at hrunnable
      cases hrunnable
    · exact absurd ((hfailed.free f).mpr hfree) hlost

end Outcome

/-- `fork` returns with a new process or fails without a trace exactly if there is no entry for
the child, or no page at all, or enough of them, or the pages run out in front of a user page. -/
theorem fork_clean_iff (s : Kernel) (p : ProcId) (root : Nat) (h : ForkState s p root) :
    ForksCleanly s p root ↔ ForkSafe s p := by
  constructor
  · exact ForksCleanly.safe h
  · intro hsafe
    refine wp_mono (fork_outcome h) ?_ ?_
    · rintro r s' (⟨hforked, -⟩ | ⟨hfailed, -⟩ | ⟨-, hout, hslot⟩)
      · exact Or.inl hforked
      · exact Or.inr hfailed
      · exact absurd hsafe (hout.not_safe hslot)
    · rintro _ ⟨hone, hslot⟩
      exact hsafe.ne_one hslot hone

/-! ### A process without pages -/

/-- Fewer free pages. -/
theorem Forest.fewer {m : Machine} {H : List Holding} (h : Forest m H) {fs : List Nat}
    (hs : fs.Sublist m.free) : Forest { m with free := fs } H :=
  ⟨h.whole, h.apart, fun f hf => h.fresh f (hs.subset hf), h.ok, h.nodup.sublist hs,
    fun f hf => h.freeable f (hs.subset hf), h.once⟩

theorem oneProcess_forkState {fs : List Nat} (hs : fs.Sublist emptySpace.free) :
    ForkState (oneProcess { emptySpace with free := fs } pgsize) Ftable.initproc 1 where
  user := ⟨rfl, emptySpace_forest.fewer hs, emptySpace_pages, show pgsize < kernbase by decide⟩
  used := by
    show ProcState.running ≠ _
    decide
  unstacked q _ := by
    unfold oneProcess
    simp only
    split <;> rfl
  files fd f hf := by cases hf
  cwd := Option.some_ne_none _

section OneProcess

-- the statements below mention it, and must not be evaluated
attribute [local irreducible] fork

/-- Without a free page the call fails. -/
theorem fork_clean_full :
    ForksCleanly (oneProcess { emptySpace with free := [] } pgsize) Ftable.initproc 1 := by
  have hstate := oneProcess_forkState (List.nil_sublist _)
  exact (fork_clean_iff _ _ _ hstate).mpr (Or.inr (Or.inl rfl))

/-- With one free page it writes through a null pointer. -/
theorem fork_not_clean :
    ForkState (oneProcess { emptySpace with free := [2] } pgsize) Ftable.initproc 1 ∧
      ¬ForksCleanly (oneProcess { emptySpace with free := [2] } pgsize) Ftable.initproc 1 := by
  have hsub : [2].Sublist emptySpace.free := by decide
  have hstate := oneProcess_forkState hsub
  refine ⟨hstate, fun hclean => ?_⟩
  exact (hclean.safe hstate).ne_one ⟨⟨1, by decide⟩, rfl⟩ rfl

end OneProcess

end Xv6.Vm
