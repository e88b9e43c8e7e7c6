import Xv6.Vm.ExecOutcome

/-!
# Virtual memory - When `exec` goes wrong

A call that does not panic may still fail, and is then to leave the caller alone.  Both properties
hold but for some files and arguments, which the theorems name.

A segment at address 0 is loaded to a page that is not mapped, since the first page is skipped; if
there is no table for it either, `loaduvm` panics.  An argument that is longer than the whole image
is pushed to an address at the end of the address space, where `copyout` reads through a null
pointer.  If the strings fit in the stack page but the array of pointers does not, the call fails
after it has set the argument registers of the caller.

Segments that end between `2^47` and `KERNBASE` are left out: `allocuvm` does not refuse them, and
when memory runs out `deallocuvm` goes on into the tables of the kernel.

Main results:

- Theorem {lit}`exec_survives_iff`: when `exec` returns.
- Theorem {lit}`exec_fails_cleanly`: when a failed call leaves no trace.
- Theorem {lit}`exec_keeps_process`: the process has a whole address space after every call.
-/

namespace Xv6.Vm

open Foundations
open Ftable (ProcId)

/-! ## The properties -/

/-- `exec` returns, and so it does if data that would go to a page that is not mapped stops it. -/
def Survives (s : Kernel) (p : ProcId) (path : List UInt8) (found : Option (InodeId × List UInt8))
    (argv : List (List UInt8)) : Prop :=
  ∀ checked, wp (execWith (loader checked) p path found argv) (fun r _ => r = 0 ∨ r = -1)
    (fun _ => False) s

/-- What is in place after a call that failed. -/
structure ExecFailed (s s' : Kernel) (p : ProcId) (root : Nat) : Prop where
  caller : s'.proc p = s.proc p
  memory : SameView s.machine s'.machine root
  free : ∀ f, f ∈ s'.machine.free ↔ f ∈ s.machine.free

/-- If the call fails, the caller is as it was and the pages are free again. -/
def ExecFailsCleanly (s : Kernel) (p : ProcId) (root : Nat) (path : List UInt8)
    (found : Option (InodeId × List UInt8)) (argv : List (List UInt8)) : Prop :=
  wp (exec p path found argv) (fun r s' => r = -1 → ExecFailed s s' p root) (fun _ => True) s

/-- The property holds of each ELF file that was found. -/
def OfFile (found : Option (InodeId × List UInt8)) (P : List UInt8 → ElfHdr → Prop) : Prop :=
  ∀ ip file elf, found = some (ip, file) → elfHdrOf file = some elf → P file elf

/-- No segment that is reached ends between the user half and the kernel. -/
def NoneBeyond (s : Kernel) (found : Option (InodeId × List UInt8)) : Prop :=
  OfFile found fun file elf =>
    ∀ checked, ¬MeetsBeyond checked file s.machine.free.length (progHdrs file elf) pgsize

section Conditions

variable {checked : Bool} {file : List UInt8} {n sz : Nat} {phs : List (Option ProgHdr)}
  {base sp : Nat} {args : List (List UInt8)}

/-- Segments that are all loaded do not go astray. -/
theorem AllPass.not_astray (h : AllPass checked file n phs sz) :
    ¬MeetsAstray checked file n phs sz := by
  induction phs generalizing sz with
  | nil => exact id
  | cons head phs ih =>
    cases head with
    | none => exact id
    | some ph =>
      rintro (⟨hload, -, hbad⟩ | ⟨-, hbad⟩)
      · exact (h.1 hload).2.2 hbad
      · exact ih h.2 hbad

/-- Strings that fit do not wrap. -/
theorem ArgsFit.not_wrap (h : ArgsFit base args sp) : ¬ArgsWrap base args sp := by
  induction args generalizing sp with
  | nil => exact id
  | cons arg args ih =>
    rw [ArgsFit] at h
    rw [ArgsWrap]
    rintro (hbad | ⟨-, hbad⟩)
    · omega
    · exact ih h.2 hbad

end Conditions

section Calls

variable {s : Kernel} {p : ProcId} {root : Nat} {argv : List (List UInt8)} {path : List UInt8}
  {found : Option (InodeId × List UInt8)} {checked : Bool} {E : VmStop → Prop}

attribute [local irreducible] setupkvm loadSegments execStack

/-- Without an ELF file the call fails at once. -/
theorem exec_no_elf (h : ∀ ip file, found = some (ip, file) → elfHdrOf file = none) :
    wp (execWith (loader checked) p path found argv) (fun r s' => r = -1 ∧ s' = s) E s := by
  cases found with
  | none => exact ⟨rfl, rfl⟩
  | some x =>
    obtain ⟨ip, file⟩ := x
    unfold execWith addRef
    simp only
    rw [wp_bind, wp_modify]
    have hnone := h ip file rfl
    unfold elfHdrOf at hnone
    rw [hnone]
    simp only
    rw [wp_bind, wp_modify, wp_pure]
    exact ⟨rfl, Kernel.addRef_back s s.machine ip⟩

/-- There is an ELF file, or there is not. -/
theorem elf_cases (found : Option (InodeId × List UInt8)) :
    (∃ ip file elf, found = some (ip, file) ∧ elfHdrOf file = some elf) ∨
      ∀ ip file, found = some (ip, file) → elfHdrOf file = none := by
  by_cases hsome : ∃ ip file elf, found = some (ip, file) ∧ elfHdrOf file = some elf
  · exact Or.inl hsome
  · refine Or.inr ?_
    intro ip file hfound
    rw [Option.eq_none_iff_forall_ne_some]
    intro elf helf
    exact hsome ⟨ip, file, elf, hfound, helf⟩

theorem RolledBack.free {m₀ : Machine} {s' : Kernel} (hback : RolledBack m₀ s s') (f : Nat) :
    f ∈ s'.machine.free ↔ f ∈ m₀.free := by
  obtain ⟨m, rfl, hturns⟩ := hback
  have hpages := hturns.pages f
  simpa [Held] using hpages

theorem RolledBack.failed (h : UserProcess s p root) {s' : Kernel}
    (hback : RolledBack s.machine s s') : ExecFailed s s' p root := by
  have hfree := hback.free
  obtain ⟨m, rfl, hturns⟩ := hback
  have hforest : Forest s.machine ([] ++ [userTree root]) := h.forest
  exact ⟨rfl, hturns.view_right hforest, hfree⟩

/-- What survival asks of the file and the arguments. -/
theorem Survives.safe (hsurvives : Survives s p path found argv) (h : UserProcess s p root)
    (hargs : Accepted s p argv) (hbeyond : NoneBeyond s found) :
    OfFile found fun file elf => ∀ checked,
      ¬MeetsAstray checked file s.machine.free.length (progHdrs file elf) pgsize ∧
      (Built checked file elf s.machine.free.length → ¬Wrapped argv (imageTop file elf)) := by
  rintro ip file elf rfl helf checked
  obtain ⟨r, s', hrun, -⟩ := wp_never.mp (hsurvives checked)
  have hout : wp (execWith (loader checked) p path (some (ip, file)) argv) _ _ s :=
    exec_outcome h hargs helf (hbeyond ip file elf rfl helf checked)
  rw [wp_of_ok hrun] at hout
  exact ⟨hout.1, fun hbuilt hwrap => hout.2.1 ⟨hbuilt, hwrap⟩⟩

/-- When nothing goes astray `exec` returns, and returns 0 exactly if all segments are loaded, there
is memory for the stack, and strings and pointers fit in it. -/
theorem exec_returns (path : List UInt8) (ip : InodeId) {file : List UInt8} {elf : ElfHdr}
    (h : UserProcess s p root) (hargs : Accepted s p argv) (hfree : s.machine.free ≠ [])
    (helf : elfHdrOf file = some elf)
    (hbeyond : ¬MeetsBeyond checked file s.machine.free.length (progHdrs file elf) pgsize)
    (hastray : ¬MeetsAstray checked file s.machine.free.length (progHdrs file elf) pgsize)
    (hwrap : Built checked file elf s.machine.free.length → ¬Wrapped argv (imageTop file elf)) :
    ∃ r s', execWith (loader checked) p path (some (ip, file)) argv s = .ok (r, s') ∧
      (r = 0 ∨ r = -1) ∧ (r = 0 ↔ Built checked file elf s.machine.free.length ∧
        Pushed argv (imageTop file elf) ∧ Framed argv (imageTop file elf)) := by
  refine wp_never.mp (wp_mono (exec_outcome h hargs helf hbeyond) ?_ ?_)
  · rintro r s' ⟨-, -, ⟨rfl, hbad, -⟩ | ⟨hbuilt, hpushed, ⟨rfl, hbad, -⟩ | ⟨rfl, hframed, -⟩⟩⟩
    · exact ⟨Or.inr rfl, iff_of_false (by decide) fun hall => hbad ⟨hall.1, hall.2.1⟩⟩
    · exact ⟨Or.inr rfl, iff_of_false (by decide) fun hall => hbad hall.2.2⟩
    · exact ⟨Or.inl rfl, iff_of_true rfl ⟨hbuilt, hpushed, hframed⟩⟩
  · rintro _ (hbad | hbad | ⟨hbuilt, hbad⟩)
    · exact hfree hbad
    · exact hastray hbad
    · exact hwrap hbuilt hbad

/-- `exec` survives a file and arguments exactly if no segment goes astray and, once the image is
built, no argument is longer than all that is below it. -/
theorem exec_survives_iff (s : Kernel) (p : ProcId) (root : Nat) (path : List UInt8)
    (found : Option (InodeId × List UInt8)) (argv : List (List UInt8)) (h : UserProcess s p root)
    (hargs : Accepted s p argv) (hfree : s.machine.free ≠ []) (hbeyond : NoneBeyond s found) :
    Survives s p path found argv ↔ OfFile found fun file elf => ∀ checked,
      ¬MeetsAstray checked file s.machine.free.length (progHdrs file elf) pgsize ∧
      (Built checked file elf s.machine.free.length → ¬Wrapped argv (imageTop file elf)) := by
  constructor
  · intro hsurvives
    exact hsurvives.safe h hargs hbeyond
  · intro hsafe checked
    rcases elf_cases found with ⟨ip, file, elf, rfl, helf⟩ | hnone
    · have hthis := hsafe ip file elf rfl helf checked
      obtain ⟨r, s', hok, hr, -⟩ := exec_returns path ip h hargs hfree helf
        (hbeyond ip file elf rfl helf checked) hthis.1 hthis.2
      rw [wp_of_ok hok]
      exact hr
    · exact wp_mono (exec_no_elf hnone) (fun _ _ hres => Or.inr hres.1) fun _ hbad => hbad

/-- If the strings fit but the array of pointers does not, the argument registers have the new
values already. -/
def LateUnseen (s : Kernel) (p : ProcId) (found : Option (InodeId × List UInt8))
    (argv : List (List UInt8)) : Prop :=
  OfFile found fun file elf => Built false file elf s.machine.free.length →
    Pushed argv (imageTop file elf) → ¬Framed argv (imageTop file elf) →
    (s.proc p).tf.setArgs argv.length
      (argvAddr (spAfter argv (imageTop file elf)) argv.length) = (s.proc p).tf

/-- A failure after the arguments were pushed sets the registers. -/
theorem ExecFailsCleanly.late (hclean : ExecFailsCleanly s p root path found argv)
    (h : UserProcess s p root) (hargs : Accepted s p argv) (hbeyond : NoneBeyond s found) :
    LateUnseen s p found argv := by
  rintro ip file elf rfl helf hbuilt hpushed hout
  have hroom : 1 + imageCost (imageTop file elf) ≤ s.machine.free.length := hbuilt.2
  have hrun : wp (execWith (loader false) p path (some (ip, file)) argv) _ (fun _ => False) s :=
    wp_mono (exec_outcome h hargs helf (hbeyond ip file elf rfl helf false))
      (fun _ _ hres => hres) (by
      rintro _ (hbad | hbad | ⟨-, hbad⟩)
      · rw [hbad, List.length_nil] at hroom
        omega
      · exact hbuilt.1.not_astray hbad
      · exact hpushed.not_wrap hbad)
  obtain ⟨r, s', hok, -, -, ⟨-, hbad, -⟩ | ⟨-, -, ⟨hr, -, m, rfl, -⟩ | ⟨-, hbad, -⟩⟩⟩ :=
    wp_never.mp hrun
  · exact absurd ⟨hbuilt, hpushed⟩ hbad
  · have hfailed : wp (execWith (loader false) p path (some (ip, file)) argv) _ _ s := hclean
    rw [wp_of_ok hok] at hfailed
    have hcaller := (hfailed hr).caller
    rw [Kernel.setMachine_proc, Kernel.setArgs, Kernel.setProc_proc_self] at hcaller
    exact congrArg Process.tf hcaller
  · exact absurd hbad hout

/-- A failed `exec` leaves the caller as it was if no segment ends beyond the user half and no
failure after the strings were pushed is seen in the argument registers; the second is needed as
well where the first is given. -/
theorem exec_fails_cleanly (s : Kernel) (p : ProcId) (root : Nat) (path : List UInt8)
    (found : Option (InodeId × List UInt8)) (argv : List (List UInt8)) (h : UserProcess s p root)
    (hargs : Accepted s p argv) :
    (NoneBeyond s found ∧ LateUnseen s p found argv →
      ExecFailsCleanly s p root path found argv) ∧
    (NoneBeyond s found → ExecFailsCleanly s p root path found argv →
      LateUnseen s p found argv) := by
  constructor
  · rintro ⟨hbeyond, hregs⟩
    change wp (execWith (loader false) p path found argv) _ _ s
    rcases elf_cases found with ⟨ip, file, elf, rfl, helf⟩ | hnone
    · refine wp_mono (exec_outcome h hargs helf (hbeyond ip file elf rfl helf false)) ?_
        fun _ _ => trivial
      rintro r s' ⟨-, -, ⟨-, -, hback⟩ | ⟨hbuilt, hpushed, ⟨-, hout, hback⟩ | ⟨hr, -⟩⟩⟩ hfail
      · exact hback.failed h
      · have hsame : s.setArgs p argv.length
            (argvAddr (spAfter argv (imageTop file elf)) argv.length) = s := by
          unfold Kernel.setArgs Kernel.setProc
          rw [hregs ip file elf rfl helf hbuilt hpushed hout]
          simp
        rw [hsame] at hback
        exact hback.failed h
      · rw [hr] at hfail
        cases hfail
    · refine wp_mono (exec_no_elf hnone) ?_ fun _ hbad => hbad
      rintro r s' ⟨-, rfl⟩ -
      exact ⟨rfl, SameView.refl, fun _ => Iff.rfl⟩
  · intro hbeyond hclean
    exact hclean.late h hargs hbeyond

/-- The process has a whole address space: a new one, or the old one with the same pages free. -/
def ProcessKept (s : Kernel) (p : ProcId) (root : Nat) (r : Int) (s' : Kernel) : Prop :=
  r = 0 ∧ (∃ d, UserProcess s' p d) ∨
    r = -1 ∧ UserProcess s' p root ∧ ∀ f, f ∈ s'.machine.free ↔ f ∈ s.machine.free

theorem RolledBack.process {s₀ s' : Kernel} (hback : RolledBack s.machine s₀ s')
    (h : UserProcess s p root) (hpgdir : (s₀.proc p).pgdir = (s.proc p).pgdir)
    (hsz : (s₀.proc p).sz = (s.proc p).sz) : UserProcess s' p root := by
  obtain ⟨m, rfl, hturns⟩ := hback
  have hforest : Forest s.machine ([] ++ [userTree root]) := h.forest
  have hsame := hturns.view_right hforest
  refine ⟨?_, hforest.frame hturns, ?_, ?_⟩
  · rw [Kernel.setMachine_proc, hpgdir, h.pgdir]
  · rw [Kernel.setMachine_proc, hsz]
    intro va hva
    rw [Kernel.setMachine_machine, flat_ne_none_of_view (hsame va hva)]
    exact h.pages va hva
  · rw [Kernel.setMachine_proc, hsz]
    exact h.size

/-- However `exec` ends, if it returns, the process has a whole address space, and a failed call
has not lost a page. -/
theorem exec_keeps_process (s : Kernel) (p : ProcId) (root : Nat) (path : List UInt8)
    (found : Option (InodeId × List UInt8)) (argv : List (List UInt8)) (h : UserProcess s p root)
    (hargs : Accepted s p argv) (hbeyond : NoneBeyond s found) :
    wp (exec p path found argv) (ProcessKept s p root) (fun _ => True) s := by
  change wp (execWith (loader false) p path found argv) _ _ s
  rcases elf_cases found with ⟨ip, file, elf, rfl, helf⟩ | hnone
  · refine wp_mono (exec_outcome h hargs helf (hbeyond ip file elf rfl helf false)) ?_
      fun _ _ => trivial
    rintro r s' ⟨-, -, ⟨hr, -, hback⟩ | ⟨-, -, ⟨hr, -, hback⟩ | ⟨hr, -, d, hstarted⟩⟩⟩
    · exact Or.inr ⟨hr, hback.process h rfl rfl, hback.free⟩
    · refine Or.inr ⟨hr, hback.process h ?_ ?_, hback.free⟩
      · rw [Kernel.setArgs, Kernel.setProc_proc_self]
      · rw [Kernel.setArgs, Kernel.setProc_proc_self]
    · exact Or.inl ⟨hr, d, hstarted.user⟩
  · refine wp_mono (exec_no_elf hnone) ?_ fun _ hbad => hbad
    rintro r s' ⟨hr, rfl⟩
    exact Or.inr ⟨hr, h, fun _ => Iff.rfl⟩

end Calls

/-! ### Two small files -/

/-- The empty page table with six free pages. -/
def sixPages : Machine :=
  { emptySpace with free := [2, 3, 4, 5, 6, 7] }

/-- The empty page table with seven free pages. -/
def sevenPages : Machine :=
  { emptySpace with free := [2, 3, 4, 5, 6, 7, 8] }

theorem freePages_user {free : List Nat} (hone : 1 ∉ free) (hnodup : free.Nodup)
    (hfree : ∀ f ∈ free, emptySpace.Freeable f) :
    UserProcess (oneProcess { emptySpace with free := free } pgsize) Ftable.initproc 1 := by
  have hempty := emptySpace_forest
  refine ⟨rfl, ⟨hempty.whole, hempty.apart, ?_, hempty.ok, hnodup, hfree, rfl⟩,
    emptySpace_pages, show pgsize < kernbase by decide⟩
  intro f hf hbad
  obtain ⟨q, -, hq⟩ := held_userTree.mp hbad
  rw [(emptySpace_nodeAt hq).2] at hf
  exact hone hf

theorem sixPages_user : UserProcess (oneProcess sixPages pgsize) Ftable.initproc 1 :=
  freePages_user (by decide) (by decide) (by decide)

theorem sevenPages_user : UserProcess (oneProcess sevenPages pgsize) Ftable.initproc 1 :=
  freePages_user (by decide) (by decide) (by decide)

/-- A file with one segment at address 4096: four bytes of the file, and four that are zero. -/
def segElf : List UInt8 :=
  [0x7f, 0x45, 0x4c, 0x46] ++ List.replicate 28 0 ++ [64] ++ List.replicate 23 0 ++ [1] ++
    List.replicate 7 0 ++ [1] ++ List.replicate 7 0 ++ [120] ++ List.replicate 8 0 ++ [16] ++
    List.replicate 14 0 ++ [4] ++ List.replicate 7 0 ++ [8] ++ List.replicate 15 0 ++
    [10, 20, 30, 40]

/-- A file with one segment of one byte, at address 0. -/
def lowElf : List UInt8 :=
  [0x7f, 0x45, 0x4c, 0x46] ++ List.replicate 28 0 ++ [64] ++ List.replicate 23 0 ++ [1] ++
    List.replicate 7 0 ++ [1] ++ List.replicate 31 0 ++ [1] ++ List.replicate 7 0 ++ [1] ++
    List.replicate 15 0

theorem segElf_hdr : elfHdrOf segElf = some ⟨elfMagic, 0, 64, 1⟩ := by
  decide +kernel

theorem segElf_progHdrs :
    progHdrs segElf ⟨elfMagic, 0, 64, 1⟩ = [some ⟨1, 120, 4096, 4, 8⟩] := by
  decide +kernel

theorem lowElf_hdr : elfHdrOf lowElf = some ⟨elfMagic, 0, 64, 1⟩ := by
  decide +kernel

theorem lowElf_progHdrs : progHdrs lowElf ⟨elfMagic, 0, 64, 1⟩ = [some ⟨1, 0, 0, 1, 1⟩] := by
  decide +kernel

section SmallFiles

attribute [local irreducible] exec execWith

/-- A file with a segment below `2^47`. -/
theorem noneBeyond_of_hdr {s : Kernel} {ip : InodeId} {file : List UInt8} {elf : ElfHdr}
    {ph : ProgHdr} (helf : elfHdrOf file = some elf) (hphs : progHdrs file elf = [some ph])
    (hph : ¬ph.Beyond) : NoneBeyond s (some (ip, file)) := by
  rintro _ _ elf' hfound helf' checked
  cases hfound
  rw [helf] at helf'
  cases helf'
  rw [hphs]
  rintro (⟨-, hbad⟩ | ⟨-, hbad⟩)
  · exact hph hbad
  · exact hbad

theorem segElf_beyond (s : Kernel) (ip : InodeId) : NoneBeyond s (some (ip, segElf)) :=
  noneBeyond_of_hdr segElf_hdr segElf_progHdrs (by decide)

theorem segElf_top : imageTop segElf ⟨elfMagic, 0, 64, 1⟩ = 4 * pgsize := by
  unfold imageTop
  rw [segElf_progHdrs]
  decide

theorem segElf_not_astray (checked : Bool) (n : Nat) :
    ¬MeetsAstray checked segElf n (progHdrs segElf ⟨elfMagic, 0, 64, 1⟩) pgsize := by
  rw [segElf_progHdrs]
  rintro (⟨-, -, -, hbad, -⟩ | ⟨-, hbad⟩)
  · revert hbad
    decide
  · exact hbad

/-- The image takes seven pages. -/
theorem segElf_built (checked : Bool) (n : Nat) :
    Built checked segElf ⟨elfMagic, 0, 64, 1⟩ n ↔ 7 ≤ n := by
  have hcost : 1 + imageCost (imageTop segElf ⟨elfMagic, 0, 64, 1⟩) = 7 := by
    rw [segElf_top]
    decide
  unfold Built Room
  rw [hcost]
  refine ⟨And.right, fun hn => ⟨?_, hn⟩⟩
  rw [segElf_progHdrs]
  refine ⟨fun _ => ⟨⟨by decide, by decide, ?_, by decide⟩, by decide +kernel, ?_⟩, trivial⟩
  · have hfew : 1 + imageCost (pgroundup (max pgsize (ProgHdr.top ⟨1, 120, 4096, 4, 8⟩))) ≤ 7 := by
      decide
    omega
  · rintro ⟨-, hbad, -⟩
    revert hbad
    decide

/-- The two arguments fit. -/
theorem segElf_args : Pushed [[97], [98]] (imageTop segElf ⟨elfMagic, 0, 64, 1⟩) ∧
    Framed [[97], [98]] (imageTop segElf ⟨elfMagic, 0, 64, 1⟩) := by
  rw [segElf_top, Pushed, ArgsFit, ArgsFit, ArgsFit, Framed]
  decide

theorem twoArgs_accepted (m : Machine) :
    Accepted (oneProcess m pgsize) Ftable.initproc [[97], [98]] :=
  ⟨by decide, show ∀ arg ∈ [[97], [98]], List.length arg < pgsize by decide⟩

/-- With two arguments `exec` returns, and returns 0 exactly if seven pages are free. -/
theorem segElf_returns {m : Machine} (checked : Bool)
    (h : UserProcess (oneProcess m pgsize) Ftable.initproc 1) (hfree : m.free ≠ []) :
    ∃ r s', execWith (loader checked) Ftable.initproc [] (some (⟨0, ninode_pos⟩, segElf))
        [[97], [98]] (oneProcess m pgsize) = .ok (r, s') ∧
      (r = 0 ∨ r = -1) ∧ (r = 0 ↔ 7 ≤ m.free.length) := by
  obtain ⟨r, s', hok, hr, hzero⟩ := exec_returns [] ⟨0, ninode_pos⟩ h
    (twoArgs_accepted m) hfree segElf_hdr
    (segElf_beyond _ ⟨0, ninode_pos⟩ _ _ _ rfl segElf_hdr checked)
    (segElf_not_astray checked _) fun _ => segElf_args.1.not_wrap
  rw [segElf_built, and_iff_left segElf_args] at hzero
  exact ⟨r, s', hok, hr, hzero⟩

theorem exec_of_execWith {s s' : Kernel} {p : ProcId} {path : List UInt8} {r : Int}
    {found : Option (InodeId × List UInt8)} {argv : List (List UInt8)}
    (h : execWith (loader false) p path found argv s = .ok (r, s')) :
    exec p path found argv s = .ok (r, s') := by
  unfold exec
  exact h

theorem segElf_run :
    ∃ s', exec Ftable.initproc [] (some (⟨0, ninode_pos⟩, segElf)) [[97], [98]]
      (oneProcess sevenPages pgsize) = .ok (0, s') := by
  obtain ⟨r, s', hok, -, hzero⟩ := segElf_returns false sevenPages_user (List.cons_ne_nil _ _)
  have hr : r = 0 := hzero.mpr (by decide)
  subst hr
  exact ⟨s', exec_of_execWith hok⟩

/-- The file with a segment at 4096 is executed with two arguments and seven free pages. -/
theorem exec_survives_segElf :
    Survives (oneProcess sevenPages pgsize) Ftable.initproc []
        (some (⟨0, ninode_pos⟩, segElf)) [[97], [98]] ∧
      ∃ s', exec Ftable.initproc [] (some (⟨0, ninode_pos⟩, segElf)) [[97], [98]]
        (oneProcess sevenPages pgsize) = .ok (0, s') := by
  constructor
  · refine (exec_survives_iff (oneProcess sevenPages pgsize) Ftable.initproc 1 [] _ [[97], [98]]
      sevenPages_user (twoArgs_accepted _) (List.cons_ne_nil _ _) (segElf_beyond _ _)).mpr ?_
    rintro _ _ elf hfound helf checked
    cases hfound
    rw [segElf_hdr] at helf
    cases helf
    exact ⟨segElf_not_astray checked _, fun _ => segElf_args.1.not_wrap⟩
  · exact segElf_run

/-- The file with a segment at address 0 makes `loaduvm` panic. -/
theorem exec_not_survives_lowElf :
    UserProcess (oneProcess sixPages pgsize) Ftable.initproc 1 ∧
      ¬Survives (oneProcess sixPages pgsize) Ftable.initproc []
        (some (⟨0, ninode_pos⟩, lowElf)) [] := by
  refine ⟨sixPages_user, ?_⟩
  intro hsurvives
  have hsafe := hsurvives.safe sixPages_user ⟨by decide, by simp⟩
    (noneBeyond_of_hdr lowElf_hdr lowElf_progHdrs (by decide)) _ _ _ rfl lowElf_hdr false
  refine hsafe.1 ?_
  rw [lowElf_progHdrs]
  exact Or.inl ⟨rfl, by decide, by decide⟩

/-- With six free pages the call fails, and the six pages are free again. -/
theorem exec_fails_cleanly_segElf :
    ∃ s', exec Ftable.initproc [] (some (⟨0, ninode_pos⟩, segElf)) [[97], [98]]
        (oneProcess sixPages pgsize) = .ok (-1, s') ∧
      ExecFailed (oneProcess sixPages pgsize) s' Ftable.initproc 1 := by
  obtain ⟨r, s', hok, hr, hzero⟩ := segElf_returns false sixPages_user (List.cons_ne_nil _ _)
  have hfail : r = -1 := hr.resolve_left fun hbad => absurd (hzero.mp hbad) (by decide)
  have hclean := (exec_fails_cleanly (oneProcess sixPages pgsize) Ftable.initproc 1 []
    (some (⟨0, ninode_pos⟩, segElf)) [[97], [98]] sixPages_user (twoArgs_accepted _)).1
    ⟨segElf_beyond _ _, ?_⟩
  · have hrun := exec_of_execWith hok
    subst hfail
    refine ⟨s', hrun, ?_⟩
    unfold ExecFailsCleanly at hclean
    rw [wp_of_ok hrun] at hclean
    exact hclean rfl
  · rintro _ _ elf hfound helf hbuilt
    cases hfound
    rw [segElf_hdr] at helf
    cases helf
    exact absurd ((segElf_built _ _).mp hbuilt) (by decide)

/-- A string of 4080 bytes fits in the stack page, and the array of pointers does not: the call
fails, and the register for the number of arguments has changed. -/
theorem exec_not_fails_cleanly :
    UserProcess (oneProcess sevenPages pgsize) Ftable.initproc 1 ∧
      Accepted (oneProcess sevenPages pgsize) Ftable.initproc [List.replicate 4080 97] ∧
      ¬ExecFailsCleanly (oneProcess sevenPages pgsize) Ftable.initproc 1 []
        (some (⟨0, ninode_pos⟩, segElf)) [List.replicate 4080 97] := by
  have hargs :
      Accepted (oneProcess sevenPages pgsize) Ftable.initproc [List.replicate 4080 97] := by
    refine ⟨by decide, ?_⟩
    intro arg harg
    rw [List.mem_singleton.mp harg, List.length_replicate]
    decide
  refine ⟨sevenPages_user, hargs, ?_⟩
  intro hclean
  have hlate := hclean.late sevenPages_user hargs (segElf_beyond _ _) _ _ _ rfl segElf_hdr
    ((segElf_built _ _).mpr (by decide))
  rw [segElf_top] at hlate
  have haddr : spAfter [List.replicate 4080 (97 : UInt8)] (4 * pgsize) = 12296 := by
    rw [spAfter, List.foldl_cons, List.foldl_nil, pushAddr, List.length_replicate]
    decide
  have hregs := hlate ?_ ?_
  · have hrdi := congrArg TrapFrame.rdi hregs
    revert hrdi
    decide
  · rw [Pushed, ArgsFit, ArgsFit, List.length_replicate]
    decide
  · rw [Framed, haddr]
    decide

theorem exec_keeps_process_segElf :
    ∃ s', exec Ftable.initproc [] (some (⟨0, ninode_pos⟩, segElf)) [[97], [98]]
        (oneProcess sevenPages pgsize) = .ok (0, s') ∧
      ProcessKept (oneProcess sevenPages pgsize) Ftable.initproc 1 0 s' := by
  obtain ⟨s', hrun⟩ := segElf_run
  have hkept := exec_keeps_process (oneProcess sevenPages pgsize) Ftable.initproc 1 []
    (some (⟨0, ninode_pos⟩, segElf)) [[97], [98]] sevenPages_user (twoArgs_accepted _)
    (segElf_beyond _ _)
  rw [wp_of_ok hrun] at hkept
  exact ⟨s', hrun, hkept⟩

end SmallFiles

end Xv6.Vm
