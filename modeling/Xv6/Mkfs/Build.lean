import Xv6.Mkfs.Append

/-!
# mkfs - Building the file system

While the program runs, the image with its free map as it would be written now is a consistent
file system, as long as no inode number beyond {lit}`ninodes` is handed out: the program does
not check that.  At the end the size of the root directory is set to the next multiple of a
block that is larger than it; when its entries fill their blocks exactly, the last block of the
directory is missing.

Main results:

- Theorem {lit}`iappend_spec` and {lit}`addFile_spec`: what is built.
- Theorem {lit}`main_spec`: the image behind the loop over the files.
- Theorem {lit}`main_freeinode`: inode numbers are handed out in order, whatever happens.
- Theorem {lit}`wellFormed_iff`: when the finished image is well formed.
-/

namespace Xv6.Mkfs

open Foundations Xv6.Fs

/-! ## Inodes -/

section Inodes

variable {s : MkState} {i : Nat}

theorem iblock_range (hi : i < ninodes) : 32 ≤ iblock sb i ∧ iblock sb i < 58 := by
  simp only [ninodes_eq] at hi
  simp only [iblock, ipb_eq, sb_inodestart]
  omega

/-- The state after an inode was written. -/
def MkState.putInode (s : MkState) (i : Nat) (x : Dinode) : MkState :=
  s.put .inode (iblock sb i) ((s.image (iblock sb i)).write dinodeLayout (i % ipb * 64) x)

theorem putInode_disk (hi : i < ninodes) (x : Dinode) :
    (s.putInode i x).disk = putDinode sb s.disk i x :=
  mark_putDinode s.image s.freeblock hi x

/-- `winode` stores the inode in the table. -/
theorem winode_ok (hr : Ready s) (hi : i < ninodes) (x : Dinode) :
    winode i x s = .ok ((), s.putInode i x) := by
  obtain ⟨-, hlt⟩ := iblock_range hi
  have hsec : iblock sb i < fssize := by
    simp only [fssize_eq]
    omega
  unfold winode
  rw [bind_ok (rsect_ok hr hsec)]
  exact wsect_ok hr.sectors .inode hsec _

/-- `rinode` reads it from there. -/
theorem rinode_ok (hr : Ready s) (hi : i < ninodes) :
    rinode i s = .ok (inodeTable sb s.disk i, s) := by
  obtain ⟨-, hlt⟩ := iblock_range hi
  have hsec : iblock sb i < fssize := by
    simp only [fssize_eq]
    omega
  have hsame : s.disk (iblock sb i) = s.image (iblock sb i) := mark_of_ne _ _ (by omega)
  have htable : inodeTable sb s.disk i = dinodeAt sb s.disk i := if_pos hi
  unfold rinode
  rw [bind_ok (rsect_ok hr hsec), htable, dinodeAt, hsame]
  rfl

theorem Ready.putInode (hr : Ready s) (hi : i < ninodes) (x : Dinode) :
    Ready (s.putInode i x) := by
  obtain ⟨hge, hlt⟩ := iblock_range hi
  have hlow := hr.low
  simp only [nmeta_eq] at hlow
  refine ⟨hr.sectors, hr.low, hr.high, ?_, ?_⟩
  · intro b hb
    have hb' : s.freeblock ≤ b := hb
    have hne : b ≠ iblock sb i := by omega
    exact (Function.update_of_ne hne _ _).trans (hr.fresh b hb)
  · intro w hw
    rcases List.mem_cons.mp hw with rfl | hold
    · exact ⟨hge, hlt⟩
    · exact hr.writes w hold

end Inodes

/-! ## The file system under construction -/

/-- The files built so far are `T`. -/
structure Built (s : MkState) (T : Nat → AInode) : Prop where
  ready : Ready s
  inodes : s.freeinode ≤ ninodes
  image : Image sb s.disk
  files : Fs.abs sb s.disk = T
  tight : ∀ j, (inodeTable sb s.disk j).type ≠ 0 →
    Tight s.disk (inodeTable sb s.disk j) (inodeTable sb s.disk j).size.toNat
  unused : ∀ j, s.freeinode ≤ j → (inodeTable sb s.disk j).type = 0

section Built

variable {s : MkState} {T : Nat → AInode} {i : Nat}

theorem Built.type_eq (h : Built s T) (j : Nat) : (T j).type = (inodeTable sb s.disk j).type := by
  rw [← h.files]
  unfold Fs.abs absInode
  split
  · rename_i hfree
    rw [hfree]
    rfl
  · rfl

/-- A file that was built has its data on the disk. -/
theorem Built.data_eq (h : Built s T) {j : Nat} (hj : (T j).type ≠ 0) :
    (T j).data = contents s.disk (inodeTable sb s.disk j) := by
  have htype := h.type_eq j
  rw [← h.files] at hj ⊢
  rw [h.files, htype] at hj
  unfold Fs.abs absInode
  rw [if_neg hj]

theorem Built.size_eq (h : Built s T) {j : Nat} (hj : (T j).type ≠ 0) :
    (inodeTable sb s.disk j).size.toNat = (T j).data.length := by
  rw [h.data_eq hj, contents_length]

theorem Built.lt (h : Built s T) {j : Nat} (hj : (T j).type ≠ 0) : j < s.freeinode := by
  by_contra hge
  rw [h.type_eq] at hj
  exact hj (h.unused j (Nat.le_of_not_lt hge))

/-- One inode was changed. -/
theorem Built.step {t : MkState} {x : Dinode} {y : AInode} (h : Built s T) (hr : Ready t)
    (hinodes : t.freeinode ≤ ninodes) (hle : s.freeinode ≤ t.freeinode) (hi : i < t.freeinode)
    (hc : Changed sb s.disk i t.disk x y)
    (htight : Tight t.disk x x.size.toNat) : Built t (Function.update T i y) := by
  refine ⟨hr, hinodes, hc.image, ?_, ?_, ?_⟩
  · rw [hc.abs_eq, h.files]
  · intro j hj
    by_cases hji : j = i
    · subst hji
      rw [hc.table, Function.update_self]
      exact htight
    · have htable : inodeTable sb t.disk j = inodeTable sb s.disk j := by
        rw [hc.table, Function.update_of_ne hji]
      have hmaps := hc.maps j hji
      rw [htable] at hj hmaps ⊢
      exact (h.tight j hj).congr (funext hmaps)
  · intro j hj
    rw [hc.table, Function.update_of_ne (by omega)]
    exact h.unused j (hle.trans hj)

/-- `ialloc`. -/
theorem ialloc_ok (h : Built s T) (hlt : s.freeinode < ninodes)
    {type : Int16} (htype : type ≠ 0) :
    ∃ t, ialloc type s = .ok (s.freeinode, t) ∧ t.freeblock = s.freeblock ∧
      t.freeinode = s.freeinode + 1 ∧
      Built t (Function.update T s.freeinode ⟨type, 0, 0, 1, []⟩) := by
  generalize hu : { s with freeinode := s.freeinode + 1 } = u
  have hready : Ready u := by
    rw [← hu]
    exact ⟨h.ready.sectors, h.ready.low, h.ready.high, h.ready.fresh, h.ready.writes⟩
  have hdisk : u.disk = s.disk := by
    rw [← hu]
    rfl
  have hfree : (inodeTable sb s.disk s.freeinode).type = 0 := h.unused _ (le_refl _)
  have href : ∀ d, (newInode type).ref d = fun _ => 0 := by
    intro d
    funext k
    have haddr : ∀ a, (newInode type).addr a = 0 := by
      intro a
      unfold Dinode.addr
      split <;> rfl
    simp [Dinode.ref, haddr]
  have hold : (inodeTable sb s.disk s.freeinode).ref s.disk = fun _ => 0 := by
    funext k
    exact ref_free hfree k
  have hmapped : Mapped s.disk (newInode type) := by
    intro bn hbn
    exact absurd hbn (Nat.not_lt_zero _)
  have hchanged := h.image.putDinode (x := newInode type) hlt ((href _).trans hold.symm)
    fun _ => hmapped
  have hy : absInode s.disk (newInode type) = ⟨type, 0, 0, 1, []⟩ := by
    rw [absInode, if_neg (by exact htype)]
    rfl
  rw [hy, ← hdisk, ← putInode_disk hlt, hdisk] at hchanged
  refine ⟨u.putInode s.freeinode (newInode type), ?_, by rw [← hu]; rfl, by rw [← hu]; rfl, ?_⟩
  · unfold ialloc
    rw [bind_ok (a := s) (t := s) rfl]
    show ((Exec.modify fun s => { s with freeinode := s.freeinode + 1 }) >>= fun _ =>
      winode s.freeinode (newInode type) >>= fun _ => pure s.freeinode) s = _
    rw [bind_ok (a := ()) (t := u) (by rw [← hu]; rfl), bind_ok (winode_ok hready hlt _)]
    rfl
  · have hfi : (u.putInode s.freeinode (newInode type)).freeinode = s.freeinode + 1 := by
      rw [← hu]
      rfl
    refine h.step (hready.putInode hlt _) (by rw [hfi]; exact hlt) (by rw [hfi]; omega)
      (by rw [hfi]; omega) hchanged ?_
    constructor
    · intro bn
      rw [href]
      exact iff_of_false (fun hne => hne rfl) (Nat.not_lt_zero _)
    · rw [href]
      exact iff_of_false (fun hne => hne rfl) (Nat.not_lt_zero _)

/-- `iappend` appends to one file. -/
theorem iappend_spec (h : Built s T) (hi : (T i).type ≠ 0) {p : List UInt8} (hp : p ≠ []) :
    wp (iappend i p) (fun _ t =>
      Built t (Function.update T i { T i with data := (T i).data ++ p }) ∧
      t.freeinode = s.freeinode ∧
      t.freeblock + blocksOf (T i).data.length =
        s.freeblock + blocksOf ((T i).data.length + p.length))
      (TooBig s (T i).data.length p.length) s := by
  have hlt : i < ninodes := (h.lt hi).trans_le h.inodes
  have hsize := h.size_eq hi
  have hdata := h.data_eq hi
  have htype := h.type_eq i ▸ hi
  have hy : T i = absInode s.disk (inodeTable sb s.disk i) := by
    rw [← h.files]
    rfl
  have hwork := h.image.work hlt htype
  have hmapped := h.image.mapped i htype
  have hle := hmapped.size_le
  have htight := h.tight i htype
  have hpos : 0 < p.length := List.length_pos_of_ne_nil hp
  rw [hsize] at hle htight
  unfold iappend
  rw [wp_bind, wp_of_ok (rinode_ok h.ready hlt), hsize]
  refine wp_bind_of (appendLoop_spec h.ready hwork htight hle (le_refl _)) ?_
  rintro ⟨x', off'⟩ t ⟨hoff', happ⟩
  have hoff : off' = (T i).data.length + p.length := hoff'
  subst hoff
  show wp (winode i { x' with size := UInt32.ofNat ((T i).data.length + p.length) }) _ _ t
  rw [wp_of_ok (winode_ok happ.ready hlt _)]
  have hfits := happ.fits
  have hn : (UInt32.ofNat ((T i).data.length + p.length)).toNat = (T i).data.length + p.length := by
    apply UInt32.toNat_ofNat_of_lt'
    simp only [maxfile_eq, bsize_eq] at hfits
    exact lt_of_le_of_lt hfits (by decide)
  generalize hx'' : { x' with size := UInt32.ofNat ((T i).data.length + p.length) } = x''
  have hchanged := happ.wrote.changed_grow h.image hlt htype (by omega) hn (by omega)
  rw [hx'', ← putInode_disk hlt, ← hdata, ← hy, List.take_length,
    List.drop_eq_nil_of_le (by omega), List.append_nil] at hchanged
  refine ⟨?_, happ.inodes, happ.count⟩
  have hinodes : (t.putInode i x'').freeinode = s.freeinode := happ.inodes
  refine h.step (happ.ready.putInode hlt _) (by rw [hinodes]; exact h.inodes)
    (by rw [hinodes]) (by rw [hinodes]; exact h.lt hi) hchanged ?_
  · have href : x''.ref (t.putInode i x'').disk = x'.ref t.disk := by
      rw [putInode_disk hlt, ← hx'']
      funext k
      refine ref_congr (x := x') (fun h12 => ?_) k
      have hrange := (happ.ready.ref_range happ.wrote.work h12).1
      exact sb_geometry.putDinode_data t.disk hlt hrange _
    have hsize'' : x''.size.toNat = (T i).data.length + p.length := by
      rw [← hx'']
      exact hn
    rw [hsize'']
    exact happ.tight.congr href

theorem TooBig.mono {n m : Nat} {off : Nat} {e : Exit} (h : TooBig s off n e) (hle : n ≤ m) :
    TooBig s off m e := by
  have hmono := blocksOf_mono (by omega : off + n ≤ off + m)
  rcases h with ⟨he, hbig⟩ | ⟨he, hbig⟩
  · exact Or.inl ⟨he, by omega⟩
  · exact Or.inr ⟨he, by omega⟩

/-- The loop that copies a file. -/
theorem appendAll_spec {reads : List (List UInt8)} (hreads : ∀ buf ∈ reads, buf ≠ []) :
    ∀ {s : MkState} {T : Nat → AInode}, Built s T → (T i).type ≠ 0 →
      wp (Exec.forEach (iappend i) reads) (fun _ t =>
        Built t (Function.update T i { T i with data := (T i).data ++ reads.flatten }) ∧
        t.freeinode = s.freeinode ∧
        t.freeblock + blocksOf (T i).data.length =
          s.freeblock + blocksOf ((T i).data.length + reads.flatten.length))
        (TooBig s (T i).data.length reads.flatten.length) s := by
  induction reads with
  | nil =>
    intro s T h _
    refine ⟨?_, rfl, rfl⟩
    rw [List.flatten_nil, List.append_nil]
    show Built s (Function.update T i (T i))
    rw [Function.update_eq_self]
    exact h
  | cons buf reads ih =>
    intro s T h hi
    have hlen : (buf :: reads).flatten.length = buf.length + reads.flatten.length := by
      rw [List.flatten_cons, List.length_append]
    unfold Exec.forEach
    refine wp_bind_of (wp_mono (iappend_spec h hi (hreads buf List.mem_cons_self))
      (fun _ _ hpost => hpost) fun e he => he.mono (by omega)) ?_
    rintro _ t ⟨hbuilt, hinodes, hcount⟩
    have hself : Function.update T i { T i with data := (T i).data ++ buf } i =
        { T i with data := (T i).data ++ buf } := Function.update_self ..
    have hrest := ih (fun b hb => hreads b (List.mem_cons_of_mem _ hb)) hbuilt
      (by rw [hself]; exact hi)
    rw [hself, Function.update_idem] at hrest
    have hdata : ((T i).data ++ buf).length = (T i).data.length + buf.length :=
      List.length_append
    refine wp_mono hrest ?_ ?_
    · rintro _ u ⟨hbuilt', hinodes', hcount'⟩
      refine ⟨?_, hinodes'.trans hinodes, ?_⟩
      · rw [List.flatten_cons, ← List.append_assoc]
        exact hbuilt'
      · simp only [hdata] at hcount'
        rw [hlen]
        rw [Nat.add_assoc] at hcount'
        omega
    · rintro e (⟨he, hbig⟩ | ⟨he, hbig⟩)
      · simp only [hdata] at hbig
        exact Or.inl ⟨he, by omega⟩
      · simp only [hdata] at hbig
        rw [Nat.add_assoc] at hbig
        exact Or.inr ⟨he, by rw [hlen]; omega⟩

end Built

/-! ## The files -/

/-- The entries of the root directory. -/
def dirents (files : List HostFile) : List Dirent :=
  direntOf [dot] rootino :: direntOf [dot, dot] rootino ::
    files.mapIdx fun k f => direntOf f.plain (k + 2)

/-- The contents of the root directory. -/
def rootData (files : List HostFile) : List UInt8 :=
  (dirents files).flatMap direntLayout.encode

/-- The file system with the given files. -/
def tableOf (files : List HostFile) (i : Nat) : AInode :=
  if i = rootino then ⟨tDir, 0, 0, 1, rootData files⟩
  else if i = 0 then AInode.free
  else
    match files[i - 2]? with
    | some f => ⟨tFile, 0, 0, 1, f.data⟩
    | none => AInode.free

/-- The number of blocks of the image in use behind the given files. -/
def blocksFor (files : List HostFile) : Nat :=
  nmeta + blocksOf (16 * (files.length + 2)) + (files.map fun f => blocksOf f.data.length).sum

theorem dirents_append (files : List HostFile) (f : HostFile) :
    dirents (files ++ [f]) = dirents files ++ [direntOf f.plain (files.length + 2)] := by
  simp [dirents, List.mapIdx_append]

theorem rootData_append (files : List HostFile) (f : HostFile) :
    rootData (files ++ [f]) =
      rootData files ++ direntLayout.encode (direntOf f.plain (files.length + 2)) := by
  unfold rootData
  rw [dirents_append, List.flatMap_append, List.flatMap_singleton]

theorem dirents_length (files : List HostFile) : (dirents files).length = files.length + 2 := by
  simp [dirents]

theorem rootData_length (files : List HostFile) :
    (rootData files).length = 16 * (files.length + 2) := by
  rw [rootData, Layout.flatMap_encode_length, dirents_length, direntLayout_width, Nat.mul_comm]

/-- One more file needs its own blocks and those by which the root directory grows. -/
theorem blocksFor_append (files : List HostFile) (f : HostFile) :
    blocksFor (files ++ [f]) + blocksOf (rootData files).length =
      blocksFor files + blocksOf ((rootData files).length + 16) + blocksOf f.data.length := by
  have hlen : 16 * (files.length + 1 + 2) = 16 * (files.length + 2) + 16 := by omega
  unfold blocksFor
  rw [rootData_length, List.length_append, List.length_singleton, hlen, List.map_append,
    List.sum_append, List.map_singleton, List.sum_singleton]
  omega

theorem blocksFor_mono (files rest : List HostFile) :
    blocksFor files ≤ blocksFor (files ++ rest) := by
  have hroot : blocksOf (16 * (files.length + 2)) ≤
      blocksOf (16 * ((files ++ rest).length + 2)) := by
    apply blocksOf_mono
    rw [List.length_append]
    omega
  unfold blocksFor
  rw [List.map_append, List.sum_append]
  omega

/-- Adding one file to the table. -/
theorem tableOf_append (files : List HostFile) (f : HostFile) :
    Function.update (Function.update (tableOf files) rootino { tableOf files rootino with
      data := (tableOf files rootino).data ++
        direntLayout.encode (direntOf f.plain (files.length + 2)) }) (files.length + 2)
      ⟨tFile, 0, 0, 1, f.data⟩ = tableOf (files ++ [f]) := by
  have hroot : ∀ fs, tableOf fs rootino = ⟨tDir, 0, 0, 1, rootData fs⟩ := fun fs => if_pos rfl
  funext i
  by_cases hnew : i = files.length + 2
  · subst hnew
    rw [Function.update_self, tableOf, if_neg (by simp [rootino]), if_neg (by omega)]
    simp
  · rw [Function.update_of_ne hnew]
    by_cases hi : i = rootino
    · subst hi
      rw [Function.update_self, hroot, hroot, rootData_append]
    · rw [Function.update_of_ne hi, tableOf, tableOf, if_neg hi, if_neg hi]
      by_cases hzero : i = 0
      · rw [if_pos hzero, if_pos hzero]
      · rw [if_neg hzero, if_neg hzero]
        have hne : i ≠ 1 := hi
        have hsame : (files ++ [f])[i - 2]? = files[i - 2]? := by
          by_cases hlt : i - 2 < files.length
          · exact List.getElem?_append_left hlt
          · rw [List.getElem?_eq_none (by rw [List.length_append, List.length_singleton]; omega),
              List.getElem?_eq_none (by omega)]
        rw [hsame]

/-- Why the files cannot be written. -/
def Fails (files : List HostFile) : Prop :=
  (∃ f ∈ files, slash ∈ f.name ∨ f.opens = false ∨ maxfile * bsize < f.data.length) ∨
    fssize < blocksFor files

section Files

variable {s : MkState}

/-- One round of the loop over the files. -/
theorem addFile_spec {files : List HostFile} {f : HostFile} (h : Built s (tableOf files))
    (hfree : s.freeinode = files.length + 2) (hcount : s.freeblock = blocksFor files)
    (hlt : files.length + 2 < ninodes) (rest : List HostFile) :
    wp (addFile rootino f) (fun _ t => Built t (tableOf (files ++ [f])) ∧
      t.freeinode = files.length + 3 ∧ t.freeblock = blocksFor (files ++ [f]))
      (fun _ => Fails (files ++ f :: rest)) s := by
  have hmem : f ∈ files ++ f :: rest := by simp
  have hroot : tableOf files rootino = ⟨tDir, 0, 0, 1, rootData files⟩ := if_pos rfl
  have hrootLen := rootData_length files
  have hdata : f.data.length = f.reads.flatten.length := rfl
  have hzero : blocksOf 0 = 0 := rfl
  have hadd := blocksFor_append files f
  rw [hdata] at hadd
  have hmono := blocksFor_mono (files ++ [f]) rest
  rw [List.append_assoc, List.singleton_append] at hmono
  have hrootLe := blocksOf_mono (by omega : (rootData files).length ≤ (rootData files).length + 16)
  unfold addFile
  by_cases hslash : slash ∈ f.name
  · have hfalse : decide (slash ∉ f.name) ≠ true := by simpa using hslash
    rw [wp_bind, wp_of_error (assertThat_false hfalse)]
    exact Or.inl ⟨f, hmem, Or.inl hslash⟩
  rw [wp_bind, wp_of_ok (assertThat_true (decide_eq_true hslash))]
  by_cases hopen : f.opens = true
  · rw [if_pos hopen]
    obtain ⟨t, hrun, htblock, htinode, htbuilt⟩ := ialloc_ok h (by rw [hfree]; exact hlt)
      (by decide : tFile ≠ 0)
    rw [wp_bind, wp_of_ok hrun]
    have hneroot : rootino ≠ s.freeinode := by
      rw [hfree]
      simp [rootino]
    have hat : Function.update (tableOf files) s.freeinode ⟨tFile, 0, 0, 1, []⟩ rootino =
        ⟨tDir, 0, 0, 1, rootData files⟩ := by
      rw [Function.update_of_ne hneroot, hroot]
    have hentryLen : (direntLayout.encode (direntOf f.plain s.freeinode)).length = 16 :=
      direntLayout.encode_length _
    have hne : direntLayout.encode (direntOf f.plain s.freeinode) ≠ [] :=
      List.ne_nil_of_length_pos (by rw [hentryLen]; decide)
    have hentry := iappend_spec htbuilt (i := rootino) (by rw [hat]; exact (by decide : tDir ≠ 0))
      hne
    rw [hat, hentryLen] at hentry
    dsimp only at hentry
    refine wp_bind_of (wp_mono hentry (fun _ _ hpost => hpost) ?_) ?_
    · rintro e (⟨-, hbig⟩ | ⟨-, hbig⟩)
      · simp only [hrootLen, ninodes_eq, maxfile_eq, bsize_eq] at hbig hlt
        omega
      · exact Or.inr (by omega)
    rintro _ u ⟨hubuilt, huinode, hublock⟩
    rw [Function.update_comm hneroot.symm] at hubuilt
    have hcopy := appendAll_spec (i := s.freeinode) f.reads_ne hubuilt
      (by rw [Function.update_self]; exact (by decide : tFile ≠ 0))
    rw [Function.update_self, Function.update_idem, List.nil_append] at hcopy
    refine wp_mono hcopy ?_ ?_
    · rintro _ v ⟨hvbuilt, hvinode, hvblock⟩
      simp only [List.length_nil, Nat.zero_add] at hvblock
      refine ⟨?_, by omega, ?_⟩
      · rw [← tableOf_append, ← hfree, hroot]
        exact hvbuilt
      · omega
    · rintro e (⟨-, hbig⟩ | ⟨-, hbig⟩)
      · simp only [List.length_nil, Nat.zero_add] at hbig
        exact Or.inl ⟨f, hmem, Or.inr (Or.inr (by rw [hdata]; exact hbig))⟩
      · simp only [List.length_nil, Nat.zero_add] at hbig
        exact Or.inr (by omega)
  · rw [if_neg hopen]
    exact Or.inl ⟨f, hmem, Or.inr (Or.inl (by simpa using hopen))⟩

/-- The loop over the files. -/
theorem addFiles_spec {files : List HostFile} (h : Built s (tableOf []))
    (hfree : s.freeinode = 2) (hcount : s.freeblock = blocksFor [])
    (hlen : files.length + 2 ≤ ninodes) :
    wp (Exec.forEach (addFile rootino) files) (fun _ t => Built t (tableOf files) ∧
      t.freeinode = files.length + 2 ∧ t.freeblock = blocksFor files)
      (fun _ => Fails files) s := by
  have hloop := wp_forEach (f := addFile rootino) (E := fun _ => Fails files) (s := s)
    (l := files) (fun rest t => ∃ done, files = done ++ rest ∧ Built t (tableOf done) ∧
      t.freeinode = done.length + 2 ∧ t.freeblock = blocksFor done) ?_ ⟨[], rfl, h, hfree, hcount⟩
  · refine wp_mono hloop ?_ fun _ he => he
    rintro _ t ⟨done, heq, hpost⟩
    rw [List.append_nil] at heq
    rw [heq]
    exact hpost
  · rintro f rest t ⟨done, heq, hbuilt, hinode, hblock⟩
    rw [heq, List.length_append, List.length_cons] at hlen
    rw [heq]
    refine wp_mono (addFile_spec hbuilt hinode hblock (by omega) rest) ?_ fun _ he => he
    rintro _ u ⟨hbuilt', hinode', hblock'⟩
    refine ⟨done ++ [f], by simp, hbuilt', ?_, hblock'⟩
    rw [List.length_append, List.length_singleton]
    exact hinode'

end Files

/-! ## The beginning -/

/-- The sectors that are cleared at the start.  The list of a thousand numbers has a name, so that
it is never written out. -/
theorem clear_spec {sectors : List Nat} (hall : List.range fssize = sectors) :
    wp (Exec.forEach (fun i => wsect .clear i (Bytes.zero bsize)) sectors)
      (fun _ t => t.image = (fun _ => Bytes.zero bsize) ∧ t.sectors = fssize ∧ t.freeinode = 1 ∧
        t.freeblock = nmeta ∧ ∀ w ∈ t.writes, SoundWrite w) (fun _ => False) MkState.start := by
  have hlen : sectors.length = fssize := by
    rw [← hall, List.length_range]
  have hshape : sectors = List.range' 0 fssize := by
    rw [← hall, List.range_eq_range']
  have hloop := wp_forEach (f := fun i => wsect .clear i (Bytes.zero bsize))
    (E := fun _ => False) (s := MkState.start) (l := sectors)
    (fun rest t => ∃ k, k + rest.length = fssize ∧ rest = List.range' k rest.length ∧
      t.image = (fun _ => Bytes.zero bsize) ∧ t.sectors = k ∧ t.freeinode = 1 ∧
      t.freeblock = nmeta ∧ ∀ w ∈ t.writes, SoundWrite w) ?_ ?_
  · refine wp_mono hloop ?_ fun _ he => he
    rintro _ t ⟨k, hk, -, himage, hsec, hrest⟩
    rw [List.length_nil, Nat.add_zero] at hk
    exact ⟨himage, hsec.trans hk, hrest⟩
  · rintro i rest t ⟨k, hk, hrange, himage, hsec, hfree, hblock, hwrites⟩
    rw [List.length_cons, List.range'_succ] at hrange
    obtain ⟨rfl, hrest⟩ := List.cons.inj hrange
    rw [List.length_cons, fssize_eq] at hk
    have hseek : seek i = i := seek_eq (by omega)
    simp only [wsect, wp_modify, hseek]
    refine ⟨i + 1, ?_, hrest, ?_, ?_, hfree, hblock, ?_⟩
    · rw [fssize_eq]
      omega
    · rw [himage]
      exact Function.update_eq_self i _
    · rw [hsec]
      omega
    · intro w hw
      rcases List.mem_cons.mp hw with rfl | hold
      · trivial
      · exact hwrites w hold
  · refine ⟨0, ?_, ?_, rfl, rfl, rfl, rfl, ?_⟩
    · rw [hlen, Nat.zero_add]
    · rw [hlen]
      exact hshape
    · intro w hw
      exact absurd hw (by simp [MkState.start])

/-- The image with nothing but the superblock. -/
def blankImage : Disk :=
  Function.update (fun _ => Bytes.zero bsize) 1 ((Bytes.zero bsize).overwrite 0 sbBytes)

theorem blankImage_type (n i : Nat) : (inodeTable sb (mark blankImage n) i).type = 0 := by
  unfold inodeTable
  split
  · rename_i hi
    have hrange := iblock_range hi
    have hzero : mark blankImage n (iblock sb i) = Bytes.zero bsize := by
      rw [mark_of_ne _ _ (by omega), blankImage, Function.update_of_ne (by omega)]
    have hslice : (Bytes.zero bsize).slice (i % ipb * 64) 64 = List.replicate 64 0 := by
      apply List.ext_getElem
      · simp
      · intro k hk hk'
        simp [Bytes.slice]
    rw [dinodeAt, hzero, Bytes.read, dinodeLayout_width, hslice]
    decide
  · rfl

/-- The kernel reads back the superblock. -/
theorem blankImage_super : readsb (mark blankImage nmeta) = sb := by
  have hone : mark blankImage nmeta 1 = (Bytes.zero bsize).overwrite 0 sbBytes := by
    rw [mark_of_ne _ _ (by decide), blankImage, Function.update_self]
  unfold readsb
  rw [hone]
  decide +kernel

/-- The image before the root directory is made. -/
theorem blank_built {s : MkState} (himage : s.image = blankImage) (hsec : s.sectors = fssize)
    (hfree : s.freeinode = 1) (hblock : s.freeblock = nmeta)
    (hwrites : ∀ w ∈ s.writes, SoundWrite w) : Built s fun _ => AInode.free := by
  have hdisk : s.disk = mark blankImage nmeta := by
    unfold MkState.disk
    rw [himage, hblock]
  have hready : Ready s := by
    refine ⟨hsec, by rw [hblock], by rw [hblock]; decide, ?_, hwrites⟩
    intro b hb
    rw [hblock, nmeta_eq] at hb
    rw [himage, blankImage, Function.update_of_ne (by omega)]
  have htype : ∀ i, (inodeTable sb s.disk i).type = 0 := by
    intro i
    rw [hdisk]
    exact blankImage_type nmeta i
  have hrefs : ∀ q, refs s.disk (inodeTable sb s.disk) q = 0 := fun q => ref_free (htype q.1) q.2
  refine ⟨hready, by rw [hfree]; decide, ⟨sb_geometry, ?_, ?_, ?_⟩, ?_, ?_, ?_⟩
  · rw [hdisk]
    exact blankImage_super
  · refine ⟨fun p q hp => absurd (hrefs p) hp, fun p hp => absurd (hrefs p) hp, ?_⟩
    intro b hb
    rw [hready.bitSet hb, hblock, decide_eq_true_eq]
    constructor
    · exact Or.inl
    · rintro (hlow | ⟨p, hp, -⟩)
      · exact hlow
      · exact absurd (hrefs p) hp
  · intro i hi
    exact absurd (htype i) hi
  · funext i
    exact if_pos (htype i)
  · intro i hi
    exact absurd (htype i) hi
  · intro i _
    exact htype i

/-- The root directory with its two first entries. -/
theorem root_built {s : MkState} {k : Nat → MkM Unit} {Q : Unit → MkState → Prop}
    {E : Exit → Prop} (h : Built s fun _ => AInode.free) (hfree : s.freeinode = 1)
    (hblock : s.freeblock = nmeta)
    (hk : ∀ t, Built t (tableOf []) → t.freeinode = 2 → t.freeblock = blocksFor [] →
      wp (k rootino) Q E t) :
    wp (do let root ← ialloc tDir
           assertThat (root = rootino)
           iappend root (direntLayout.encode (direntOf [dot] root))
           iappend root (direntLayout.encode (direntOf [dot, dot] root))
           k root) Q E s := by
  have hlen : ∀ de, (direntLayout.encode de).length = 16 := direntLayout.encode_length
  have hne : ∀ de, direntLayout.encode de ≠ [] := fun de =>
    List.ne_nil_of_length_pos (by rw [hlen]; decide)
  have hrootino : rootino = 1 := rfl
  obtain ⟨t, hrun, htblock, htinode, htbuilt⟩ := ialloc_ok h (by rw [hfree]; decide)
    (by decide : tDir ≠ 0)
  rw [hfree] at hrun htinode htbuilt
  rw [wp_bind, wp_of_ok hrun, wp_bind, wp_of_ok (assertThat_true (by decide))]
  have hfirst := iappend_spec htbuilt (i := 1) (by
    rw [Function.update_self]
    exact (by decide : tDir ≠ 0)) (hne (direntOf [dot] 1))
  rw [Function.update_self, hlen, Function.update_idem] at hfirst
  dsimp only [List.length_nil, List.nil_append] at hfirst
  refine wp_bind_of (wp_mono hfirst (fun _ _ hpost => hpost) ?_) ?_
  · rintro e (⟨-, hbig⟩ | ⟨-, hbig⟩)
    · exact absurd hbig (by decide)
    · rw [htblock, hblock] at hbig
      exact absurd hbig (by decide)
  rintro _ u ⟨hubuilt, huinode, hublock⟩
  have hsecond := iappend_spec hubuilt (i := 1) (by
    rw [Function.update_self]
    exact (by decide : tDir ≠ 0)) (hne (direntOf [dot, dot] 1))
  rw [Function.update_self, hlen, Function.update_idem] at hsecond
  dsimp only at hsecond
  rw [hlen] at hsecond
  rw [htblock, hblock] at hublock
  refine wp_bind_of (wp_mono hsecond (fun _ _ hpost => hpost) ?_) ?_
  · rintro e (⟨-, hbig⟩ | ⟨-, hbig⟩)
    · exact absurd hbig (by decide)
    · have hone : blocksOf 16 = 1 := by decide
      have hzero : blocksOf 0 = 0 := by decide
      have htwo : blocksOf (16 + 16) = 1 := by decide
      rw [hone, htwo] at hbig
      rw [hone, hzero] at hublock
      simp only [nmeta_eq, fssize_eq] at hublock hbig
      omega
  rintro _ v ⟨hvbuilt, hvinode, hvblock⟩
  refine hk v ?_ (by omega) ?_
  · have htable : Function.update (fun _ => AInode.free) 1 ⟨tDir, 0, 0, 1,
        direntLayout.encode (direntOf [dot] 1) ++ direntLayout.encode (direntOf [dot, dot] 1)⟩ =
          tableOf [] := by
      funext i
      by_cases hi : i = 1
      · subst hi
        rw [Function.update_self, tableOf, if_pos hrootino.symm]
        simp [rootData, dirents, hrootino]
      · rw [Function.update_of_ne hi, tableOf, if_neg (by rw [hrootino]; exact hi)]
        split <;> simp
    rw [← htable]
    exact hvbuilt
  · have hone : blocksOf 16 = 1 := by decide
    have hzero : blocksOf 0 = 0 := by decide
    have htwo : blocksOf (16 + 16) = 1 := by decide
    have hfor : blocksFor [] = 60 := by decide
    rw [hone, htwo] at hvblock
    rw [hone, hzero] at hublock
    simp only [nmeta_eq] at hublock
    omega

/-! ## The end -/

/-- The inode of the root directory with its final size. -/
def rounded (x : Dinode) : Dinode :=
  { x with size := (x.size / UInt32.ofNat bsize + 1) * UInt32.ofNat bsize }

theorem rounded_ref (d : Disk) (x : Dinode) : (rounded x).ref d = x.ref d :=
  rfl

theorem rounded_size {x : Dinode} (h : x.size.toNat < 2 ^ 31) :
    (rounded x).size.toNat = (x.size.toNat / 512 + 1) * 512 := by
  have hblock : (UInt32.ofNat bsize).toNat = 512 := rfl
  have hone : (1 : UInt32).toNat = 1 := rfl
  show ((x.size / UInt32.ofNat bsize + 1) * UInt32.ofNat bsize).toNat = _
  rw [UInt32.toNat_mul, UInt32.toNat_add, UInt32.toNat_div, hblock, hone]
  omega

/-- The files were built in `s`, and the image of `st` is this disk with the final size of the
root directory. -/
structure Finished (files : List HostFile) (s st : MkState) : Prop where
  built : Built s (tableOf files)
  image : st.image = putDinode sb s.disk rootino (rounded (inodeTable sb s.disk rootino))
  inodes : st.freeinode = files.length + 2
  blocks : st.freeblock = s.freeblock
  writes : ∀ w ∈ st.writes, SoundWrite w

/-- `fixRoot` and `balloc`. -/
theorem finish_spec {s : MkState} {files : List HostFile} (h : Built s (tableOf files))
    (hfree : s.freeinode = files.length + 2) :
    wp (do fixRoot rootino
           let s ← Exec.get
           balloc s.freeblock)
      (fun _ st => Finished files s st) (fun _ => False) s := by
  have hlt : rootino < ninodes := by decide
  have hhigh := h.ready.high
  simp only [fssize_eq] at hhigh
  generalize hx : rounded (inodeTable sb s.disk rootino) = x
  have hready : Ready (s.putInode rootino x) := h.ready.putInode hlt x
  have hfix : fixRoot rootino s = .ok ((), s.putInode rootino x) := by
    unfold fixRoot
    rw [bind_ok (rinode_ok h.ready hlt), ← hx]
    exact winode_ok h.ready hlt _
  have hused : decide ((s.putInode rootino x).freeblock < bsize * 8) = true := by
    apply decide_eq_true
    show s.freeblock < 4096
    omega
  have hballoc : balloc (s.putInode rootino x).freeblock (s.putInode rootino x) =
      .ok ((), (s.putInode rootino x).put .bitmap sb.bmapstart (bitmapBlock s.freeblock)) := by
    unfold balloc
    rw [bind_ok (assertThat_true hused)]
    exact wsect_ok hready.sectors .bitmap (by decide) _
  rw [wp_bind, wp_of_ok hfix, wp_bind, wp_get, wp_of_ok hballoc]
  refine ⟨h, ?_, hfree, rfl, ?_⟩
  · rw [hx, ← putInode_disk hlt]
    rfl
  · intro w hw
    rcases List.mem_cons.mp hw with rfl | hold
    · trivial
    · exact hready.writes w hold

section Main

-- the goals below mention these, and must not be evaluated
attribute [local irreducible] fixRoot addFile iappend

/-- The whole program, as long as there are inodes for the files. -/
theorem main_spec {files : List HostFile} (hlen : files.length + 2 ≤ ninodes) :
    wp (main files) (fun _ st => ∃ s, Finished files s st) (fun _ => Fails files)
      MkState.start := by
  unfold main
  generalize hall : List.range fssize = sectors
  refine wp_bind_of (wp_mono (clear_spec hall) (fun _ _ hpost => hpost) fun _ he => he.elim) ?_
  rintro _ s ⟨himage, hsec, hfree, hblock, hwrites⟩
  rw [wp_bind, wp_of_ok (wsect_ok hsec .super (by decide) _)]
  have hblank : Built (s.put .super 1 ((Bytes.zero bsize).overwrite 0 sbBytes))
      fun _ => AInode.free := by
    refine blank_built ?_ hsec hfree hblock ?_
    · show Function.update s.image 1 _ = _
      rw [himage]
      rfl
    · intro w hw
      rcases List.mem_cons.mp hw with rfl | hold
      · trivial
      · exact hwrites w hold
  refine root_built hblank hfree hblock ?_
  intro t hbuilt hinode hcount
  refine wp_bind_of (addFiles_spec hbuilt hinode hcount hlen) ?_
  rintro _ u ⟨hbuilt', hinode', -⟩
  exact wp_mono (finish_spec hbuilt' hinode') (fun _ st hst => ⟨u, hst⟩)
    fun _ he => he.elim

attribute [local irreducible] main

/-- A run that ends has added every file and rounded the size of the root. -/
theorem main_finished {files : List HostFile} {st : MkState} (hlen : files.length + 2 ≤ ninodes)
    (h : main files MkState.start = .ok ((), st)) : ∃ s, Finished files s st :=
  (wp_of_ok h).mp (main_spec hlen)

/-- Files that can be written are written. -/
theorem main_ok (files : List HostFile) (hlen : files.length + 2 ≤ ninodes)
    (h : ¬ Fails files) :
    ∃ st, main files MkState.start = .ok ((), st) ∧ ∃ s, Finished files s st := by
  have hrun := wp_mono (main_spec hlen) (fun _ _ hpost => hpost) fun _ he => h he
  obtain ⟨_, st, hok, hfin⟩ := wp_never.mp hrun
  exact ⟨st, hok, hfin⟩

end Main

/-! ## Inode numbers -/

/-- When `m` returns, it handed out `n` inode numbers. -/
structure Numbers {α : Type} (m : MkM α) (n : Nat) : Prop where
  run : ∀ s, wp m (fun _ t => t.freeinode = s.freeinode + n) (fun _ => True) s

namespace Numbers

variable {α β : Type} {m : MkM α} {f : α → MkM β} {a b : Nat}

theorem eq (h : Numbers m b) {s t : MkState} {x : α} (hrun : m s = .ok (x, t)) :
    t.freeinode = s.freeinode + b := by
  have hwp := h.run s
  rwa [wp_of_ok hrun] at hwp

theorem bind (h : Numbers m a) (hf : ∀ x, Numbers (f x) b) : Numbers (m >>= f) (a + b) := by
  constructor
  intro s
  refine wp_bind_of (h.run s) ?_
  intro x t ht
  refine wp_mono ((hf x).run t) ?_ fun _ he => he
  intro _ u hu
  rw [hu, ht, Nat.add_assoc]

/-- A computation that hands out none, followed by another. -/
theorem after (h : Numbers m 0) (hf : ∀ x, Numbers (f x) b) : Numbers (m >>= f) b := by
  have hbind := h.bind hf
  rwa [Nat.zero_add] at hbind

theorem pure (x : α) : Numbers (pure x : MkM α) 0 :=
  ⟨fun _ => rfl⟩

theorem get : Numbers Exec.get 0 :=
  ⟨fun _ => rfl⟩

theorem stop (e : Exit) : Numbers (Exec.stop e : MkM α) b :=
  ⟨fun _ => trivial⟩

theorem ite {c : Prop} [Decidable c] {m m' : MkM α} (h : c → Numbers m b)
    (h' : ¬ c → Numbers m' b) : Numbers (if c then m else m') b := by
  split
  · exact h ‹c›
  · exact h' ‹¬ c›

theorem forEach {γ : Type} {g : γ → MkM Unit} (h : ∀ x, Numbers (g x) b) (l : List γ) :
    Numbers (Exec.forEach g l) (l.length * b) := by
  induction l with
  | nil =>
    rw [List.length_nil, Nat.zero_mul]
    exact pure ()
  | cons x xs ih =>
    have hlen : (x :: xs).length * b = b + xs.length * b := by
      rw [List.length_cons, Nat.succ_mul, Nat.add_comm]
    rw [hlen]
    exact (h x).bind fun _ => ih

theorem assertThat (c : Bool) : Numbers (assertThat c) 0 :=
  ite (fun _ => pure ()) fun _ => stop _

theorem wsect (why : Purpose) (sec : Nat) (buf : Block) : Numbers (wsect why sec buf) 0 :=
  ⟨fun _ => rfl⟩

theorem rsect (sec : Nat) : Numbers (rsect sec) 0 :=
  get.after fun _ => ite (fun _ => pure _) fun _ => stop _

theorem winode (inum : Nat) (x : Dinode) : Numbers (winode inum x) 0 :=
  (rsect _).after fun _ => wsect ..

theorem rinode (inum : Nat) : Numbers (rinode inum) 0 :=
  (rsect _).after fun _ => pure _

theorem ialloc (type : Int16) : Numbers (ialloc type) 1 := by
  have hnext : Numbers (Exec.modify fun s => { s with freeinode := s.freeinode + 1 }) 1 :=
    ⟨fun _ => rfl⟩
  exact get.after fun _ => hnext.bind fun _ => (winode _ _).after fun _ => pure _

theorem takeBlock : Numbers takeBlock 0 :=
  ⟨fun _ => rfl⟩

theorem ensureAddr (din : Dinode) (k : Nat) : Numbers (ensureAddr din k) 0 :=
  ite (fun _ => takeBlock.after fun _ => pure _) fun _ => pure _

theorem fillEntry (a : Nat) (indirect : Block) (j : Nat) : Numbers (fillEntry a indirect j) 0 :=
  ite (fun _ => takeBlock.after fun _ => (wsect ..).after fun _ => pure _) fun _ => pure _

theorem mapBlock (din : Dinode) (fbn : Nat) : Numbers (mapBlock din fbn) 0 :=
  ite (fun _ => (ensureAddr ..).after fun _ => pure _)
    fun _ => (ensureAddr ..).after fun _ => (rsect _).after fun _ =>
      (fillEntry ..).after fun _ => pure _

theorem appendLoop : ∀ (fuel : Nat) (din : Dinode) (off : Nat) (p : List UInt8),
    Numbers (appendLoop fuel din off p) 0
  | 0, _, _, _ => pure _
  | fuel + 1, _, _, _ =>
    ite (fun _ => pure _) fun _ => (assertThat _).after fun _ => (mapBlock ..).after fun _ =>
      (rsect _).after fun _ => (wsect ..).after fun _ => appendLoop fuel ..

theorem iappend (inum : Nat) (p : List UInt8) : Numbers (iappend inum p) 0 :=
  (rinode _).after fun _ => (appendLoop ..).after fun _ => winode ..

theorem addFile (root : Nat) (f : HostFile) : Numbers (addFile root f) 1 := by
  have hreads : ∀ i, Numbers (Exec.forEach (Mkfs.iappend i) f.reads) 0 := by
    intro i
    have hloop := forEach (iappend i) f.reads
    rwa [Nat.mul_zero] at hloop
  exact (assertThat _).after fun _ => ite
    (fun _ => (ialloc _).bind fun _ => (iappend ..).after fun _ => hreads _) fun _ => stop _

end Numbers

/-- Inode numbers are handed out in order; nothing compares them with {lit}`ninodes`. -/
theorem main_freeinode {files : List HostFile} {st : MkState}
    (h : main files MkState.start = .ok ((), st)) : st.freeinode = files.length + 2 := by
  have hclear : ∀ sectors, Numbers (Exec.forEach (fun i => wsect .clear i (Bytes.zero bsize))
      sectors) 0 := by
    intro sectors
    have hloop := Numbers.forEach (fun i => Numbers.wsect .clear i (Bytes.zero bsize)) sectors
    rwa [Nat.mul_zero] at hloop
  have hfix : ∀ root, Numbers (fixRoot root) 0 := fun root =>
    (Numbers.rinode root).after fun _ => Numbers.winode ..
  have hballoc : ∀ used, Numbers (balloc used) 0 := fun used =>
    (Numbers.assertThat _).after fun _ => Numbers.wsect ..
  have hmain : Numbers (main files) (1 + (files.length * 1 + 0)) :=
    (hclear _).after fun _ => (Numbers.wsect ..).after fun _ => (Numbers.ialloc _).bind fun root =>
      (Numbers.assertThat _).after fun _ => (Numbers.iappend ..).after fun _ =>
        (Numbers.iappend ..).after fun _ =>
          (Numbers.forEach (Numbers.addFile root) files).bind fun _ =>
            (hfix root).after fun _ => Numbers.get.after fun s => hballoc s.freeblock
  rw [hmain.eq h]
  show 1 + (1 + (files.length * 1 + 0)) = _
  omega

/-! ## The finished image -/

/-- What a finished image should satisfy: the inode numbers handed out are in the table, every
block index below the end of a file is mapped to a data block, no block is used twice, sectors
were written for what they are, and the free map is exact. -/
structure WellFormed (st : MkState) : Prop where
  inodes : ∀ i, 1 ≤ i → i < st.freeinode → i < sb.ninodes
  mapped : ∀ i, 1 ≤ i → i < st.freeinode →
    ∀ bn, bn * bsize < (inodeTable sb st.image i).size.toNat →
      sb.nmeta ≤ (inodeTable sb st.image i).ref st.image (place bn) ∧
      (inodeTable sb st.image i).ref st.image (place bn) < sb.size
  distinct : ∀ p q, refs st.image (inodeTable sb st.image) p ≠ 0 →
    refs st.image (inodeTable sb st.image) p = refs st.image (inodeTable sb st.image) q → p = q
  writes : ∀ w ∈ st.writes, SoundWrite w
  bitmap : ∀ b, b < sb.size → (bitSet sb st.image b = true ↔ b < st.freeblock)

namespace Finished

variable {files : List HostFile} {s st : MkState}

theorem table_eq (h : Finished files s st) : inodeTable sb st.image =
    Function.update (inodeTable sb s.disk) rootino (rounded (inodeTable sb s.disk rootino)) := by
  rw [h.image]
  exact inodeTable_putDinode sb s.disk (by decide) _

theorem table_of_ne (h : Finished files s st) {i : Nat} (hi : i ≠ rootino) :
    inodeTable sb st.image i = inodeTable sb s.disk i := by
  rw [h.table_eq, Function.update_of_ne hi]

theorem table_root (h : Finished files s st) :
    inodeTable sb st.image rootino = rounded (inodeTable sb s.disk rootino) := by
  rw [h.table_eq, Function.update_self]

/-- Rounding the size moves no block. -/
theorem owned (h : Finished files s st) :
    Owned sb.nmeta sb.size (bitSet sb st.image) (refs st.image (inodeTable sb st.image)) := by
  have howned := h.built.image.owned
  rw [← view_table sb s.disk rootino] at howned
  rw [h.image]
  exact owned_putDinode sb_geometry (by decide) howned (rounded_ref _ _)

/-- The new size changes no reference. -/
theorem refs_eq (h : Finished files s st) :
    refs st.image (inodeTable sb st.image) = refs s.disk (inodeTable sb s.disk) := by
  have hsame : refs st.image (inodeTable sb s.disk) = refs s.disk (inodeTable sb s.disk) := by
    apply refs_congr
    intro j hj
    rw [h.image]
    exact putDinode_refs sb_geometry (by decide) h.built.image.owned hj
  rw [← hsame]
  funext q
  unfold refs
  by_cases hq : q.1 = rootino
  · rw [hq, h.table_root, rounded_ref]
  · rw [h.table_of_ne hq]

theorem type_ne (h : Finished files s st) {i : Nat} (hpos : 1 ≤ i) (hi : i < st.freeinode) :
    (tableOf files i).type ≠ 0 := by
  rw [h.inodes] at hi
  unfold tableOf
  by_cases hroot : i = rootino
  · rw [if_pos hroot]
    exact (by decide : tDir ≠ 0)
  · have hne : i ≠ 1 := hroot
    rw [if_neg hroot, if_neg (by omega), List.getElem?_eq_getElem (by omega)]
    exact (by decide : tFile ≠ 0)

/-- The blocks of every file, before its size was rounded up. -/
theorem tight (h : Finished files s st) {i : Nat} (hpos : 1 ≤ i) (hi : i < st.freeinode)
    (bn : Nat) : (inodeTable sb st.image i).ref st.image (place bn) ≠ 0 ↔
      bn * bsize < (tableOf files i).data.length := by
  have htype := h.type_ne hpos hi
  have href := congrFun h.refs_eq (i, place bn)
  have htight := h.built.tight i (h.built.type_eq i ▸ htype)
  rw [h.built.size_eq htype] at htight
  unfold refs at href
  rw [href]
  exact htight.mapped bn

theorem root_length (files : List HostFile) :
    (tableOf files rootino).data.length = 16 * (files.length + 2) :=
  rootData_length files

theorem root_size (h : Finished files s st) :
    (inodeTable sb st.image rootino).size.toNat = (16 * (files.length + 2) / 512 + 1) * 512 := by
  have hsize := h.built.size_eq (j := rootino) (by decide : tDir ≠ 0)
  rw [root_length] at hsize
  have hlt := h.built.inodes
  rw [h.table_root, rounded_size, hsize]
  have hle := (h.built.image.mapped rootino
    (h.built.type_eq rootino ▸ (by decide : tDir ≠ 0))).size_le
  simp only [maxfile_eq, bsize_eq] at hle
  omega

/-- Unless the root directory ends at a block boundary, the image is well-formed. -/
theorem wellFormed (h : Finished files s st) (hmod : (files.length + 2) * 16 % bsize ≠ 0) :
    WellFormed st := by
  have hready := h.built.ready
  refine ⟨?_, ?_, h.owned.inj, h.writes, ?_⟩
  · intro i hpos hi
    exact (h.built.lt (h.type_ne hpos hi)).trans_le h.built.inodes
  · intro i hpos hi bn hbn
    have hne : (inodeTable sb st.image i).ref st.image (place bn) ≠ 0 := by
      rw [h.tight hpos hi]
      by_cases hroot : i = rootino
      · subst hroot
        rw [h.root_size] at hbn
        rw [root_length]
        simp only [bsize_eq] at hbn hmod ⊢
        omega
      · rw [h.table_of_ne hroot, h.built.size_eq (h.type_ne hpos hi)] at hbn
        exact hbn
    exact h.owned.range (i, place bn) hne
  · intro b hb
    rw [h.image, sb_geometry.bitSet_putDinode s.disk (by decide) hb, hready.bitSet hb, h.blocks,
      decide_eq_true_eq]

/-- When the entries fill their blocks, the last block of the root directory is not there. -/
theorem hole (h : Finished files s st) (hmod : (files.length + 2) * 16 % bsize = 0) :
    (inodeTable sb st.image rootino).size.toNat = 16 * (files.length + 2) + 512 ∧
      (inodeTable sb st.image rootino).ref st.image (place ((files.length + 2) / 32)) = 0 := by
  have hroot : rootino < st.freeinode := by
    rw [h.inodes]
    simp [rootino]
  simp only [bsize_eq] at hmod
  constructor
  · rw [h.root_size]
    omega
  · have htight := h.tight (by decide) hroot ((files.length + 2) / 32)
    rw [root_length] at htight
    simp only [bsize_eq] at htight
    by_contra hne
    have hlt := htight.mp hne
    omega

end Finished

/-- When the image of a run that exits with status 0 is well formed. -/
theorem wellFormed_iff {files : List HostFile} {st : MkState}
    (h : main files MkState.start = .ok ((), st)) :
    WellFormed st ↔ files.length + 2 ≤ ninodes ∧ (files.length + 2) * 16 % bsize ≠ 0 := by
  have hfree := main_freeinode h
  by_cases hlen : files.length + 2 ≤ ninodes
  · obtain ⟨s, hfin⟩ := main_finished hlen h
    constructor
    · intro hwell
      refine ⟨hlen, ?_⟩
      intro hmod
      obtain ⟨hsize, hzero⟩ := hfin.hole hmod
      have hmapped := hwell.mapped rootino (by decide) (by rw [hfree]; simp [rootino])
        ((files.length + 2) / 32) (by
          rw [hsize]
          simp only [bsize_eq] at hmod ⊢
          omega)
      rw [hzero] at hmapped
      exact absurd hmapped.1 (by decide)
    · rintro ⟨-, hmod⟩
      exact hfin.wellFormed hmod
  · constructor
    · intro hwell
      have hlast := hwell.inodes ninodes (by decide) (by omega)
      exact absurd hlast (by decide)
    · rintro ⟨hle, -⟩
      exact absurd hle hlen

/-- The file `_hi` with three bytes that two calls of `read` return. -/
def greeting : HostFile where
  name := [underscore, 104, 105]
  opens := true
  reads := [[72], [105, 33]]
  name_ne := by simp [underscore]
  reads_ne := by decide
  reads_le := by decide

/-- The image with this file is well formed. -/
theorem wellFormed_greeting : ∃ st, main [greeting] MkState.start = .ok ((), st) ∧
    WellFormed st := by
  obtain ⟨st, hok, -⟩ := main_ok [greeting] (by decide) (by rw [Fails]; decide)
  exact ⟨st, hok, (wellFormed_iff hok).mpr ⟨by decide, by decide⟩⟩

/-- An empty file; its name is one character, from `A` on. -/
def emptyFile (k : Fin 30) : HostFile where
  name := [UInt8.ofNat (65 + k)]
  opens := true
  reads := []
  name_ne := by
    rw [List.forall_mem_singleton]
    revert k
    decide
  reads_ne _ hbuf := absurd hbuf List.not_mem_nil
  reads_le _ hbuf := absurd hbuf List.not_mem_nil

theorem emptyFiles_ok {l : List (Fin 30)} (hlen : l.length + 2 ≤ ninodes) :
    ¬ Fails (l.map emptyFile) := by
  rintro (⟨f, hf, hbad⟩ | hbig)
  · obtain ⟨k, -, rfl⟩ := List.mem_map.mp hf
    rcases hbad with hslash | hopen | hlong
    · exact absurd hslash ((by decide : ∀ k, slash ∉ (emptyFile k).name) k)
    · exact absurd hopen Bool.noConfusion
    · exact absurd hlong (Nat.not_lt_zero _)
  · have hsum : ((l.map emptyFile).map fun f => blocksOf f.data.length).sum = 0 := by
      rw [List.map_map]
      apply List.sum_eq_zero
      intro n hn
      obtain ⟨k, -, rfl⟩ := List.mem_map.mp hn
      exact (by decide : blocksOf 0 = 0)
    have hroot := blocksOf_mono (a := 16 * (l.length + 2)) (b := 16 * ninodes) (by omega)
    have hmax : blocksOf (16 * ninodes) = 7 := by decide
    unfold blocksFor at hbig
    rw [hsum, List.length_map] at hbig
    simp only [nmeta_eq, fssize_eq] at hbig
    omega

/-- Thirty files fill the first block of the root directory together with its own two entries.
The directory is said to have two blocks, but its second block is not there. -/
theorem wellFormed_not_thirty : ∃ st,
    main ((List.finRange 30).map emptyFile) MkState.start = .ok ((), st) ∧
      (inodeTable sb st.image rootino).size.toNat = 2 * bsize ∧
      (inodeTable sb st.image rootino).ref st.image (place 1) = 0 ∧ ¬ WellFormed st := by
  have hok : ¬ Fails ((List.finRange 30).map emptyFile) := emptyFiles_ok (by decide)
  obtain ⟨st, hok, s, hfin⟩ := main_ok _ (by decide) hok
  obtain ⟨hsize, hzero⟩ := hfin.hole (by decide)
  have hone : (inodeTable sb st.image rootino).ref st.image (place 1) = 0 := hzero
  refine ⟨st, hok, hsize, hone, ?_⟩
  intro hwell
  have hmapped := hwell.mapped rootino (by decide) (by rw [hfin.inodes]; decide) 1
    (by rw [hsize]; decide)
  rw [hone] at hmapped
  exact absurd hmapped.1 (by decide)

end Xv6.Mkfs
