import Xv6.Fs.Lookup
import Xv6.Mkfs.Build

/-!
# mkfs - Reading the image back

The kernel's own functions, run on a finished image.  The loop of `dirlookup` reads the entries
of the root directory in order; it stops at the entry of the name, so it never gets to the block
that may be missing behind the last entry.

Main results:

- Theorem {lit}`Finished.contents_eq` and {lit}`Finished.root_prefix`: the files on the image.
- Theorem {lit}`dirlookupLoop_finds`: the loop stops at the first entry with the name.
- Theorem {lit}`open_cached`: the inode that is found and locked is the one on disk.
- Theorem {lit}`kernel_reads_back`: the kernel reads what the program wrote.
-/

namespace Xv6.Mkfs

open Foundations Xv6.Fs

/-! ## The files on the image -/

namespace Finished

variable {files : List HostFile} {s st : MkState}

theorem data_block (h : Finished files s st) {q : Nat × Nat}
    (hq : refs s.disk (inodeTable sb s.disk) q ≠ 0) :
    st.image (refs s.disk (inodeTable sb s.disk) q) =
      s.disk (refs s.disk (inodeTable sb s.disk) q) := by
  rw [h.image]
  exact putDinode_refs sb_geometry (by decide) h.built.image.owned hq

/-- Bytes below the old end of a file. -/
theorem fileByte_eq (h : Finished files s st) {i : Nat} (hpos : 1 ≤ i) (hi : i < st.freeinode)
    {o : Nat} (ho : o < (tableOf files i).data.length) :
    fileByte st.image (inodeTable sb st.image i) o =
      fileByte s.disk (inodeTable sb s.disk i) o := by
  have href := congrFun h.refs_eq (i, place (o / bsize))
  have hne : refs s.disk (inodeTable sb s.disk) (i, place (o / bsize)) ≠ 0 := by
    rw [← href]
    refine (h.tight hpos hi (o / bsize)).mpr ?_
    have hdiv := Nat.div_mul_le_self o bsize
    omega
  unfold fileByte
  have hblock := h.data_block hne
  rw [← href] at hblock
  unfold refs at href hblock
  rw [hblock, href]

/-- The contents of a file, up to its old end. -/
theorem take_contents (h : Finished files s st) {i : Nat} (hpos : 1 ≤ i) (hi : i < st.freeinode)
    (hsize : (tableOf files i).data.length ≤ (inodeTable sb st.image i).size.toNat) :
    (contents st.image (inodeTable sb st.image i)).take (tableOf files i).data.length =
      (tableOf files i).data := by
  have hdata := h.built.data_eq (h.type_ne hpos hi)
  have hlen := contents_length s.disk (inodeTable sb s.disk i)
  rw [← hdata] at hlen
  apply List.ext_getElem
  · rw [List.length_take, contents_length]
    omega
  · intro o ho ho'
    have hbyte := h.fileByte_eq hpos hi ho'
    have hget : (tableOf files i).data[o] = fileByte s.disk (inodeTable sb s.disk i) o := by
      simp [hdata, contents]
    rw [hget, ← hbyte]
    simp [contents]

/-- The size of a file that is not the root directory. -/
theorem size_eq (h : Finished files s st) {i : Nat} (hpos : 1 ≤ i) (hi : i < st.freeinode)
    (hroot : i ≠ rootino) :
    (inodeTable sb st.image i).size.toNat = (tableOf files i).data.length := by
  rw [h.table_of_ne hroot]
  exact h.built.size_eq (h.type_ne hpos hi)

theorem contents_eq (h : Finished files s st) {i : Nat} (hpos : 1 ≤ i) (hi : i < st.freeinode)
    (hroot : i ≠ rootino) :
    contents st.image (inodeTable sb st.image i) = (tableOf files i).data := by
  have hsize := h.size_eq hpos hi hroot
  have htake := h.take_contents hpos hi (le_of_eq hsize.symm)
  rwa [List.take_of_length_le (by rw [contents_length, hsize])] at htake

/-- The last inode number is in the table. -/
theorem length_le (h : Finished files s st) : files.length + 2 ≤ ninodes := by
  have hlast := h.type_ne (i := files.length + 1) (by omega) (by rw [h.inodes]; omega)
  exact Nat.succ_le_of_lt ((h.built.lt hlast).trans_le h.built.inodes)

theorem root_lt (h : Finished files s st) : rootino < st.freeinode := by
  rw [h.inodes]
  simp [rootino]

/-- The root directory begins with its entries. -/
theorem root_prefix (h : Finished files s st) :
    (contents st.image (inodeTable sb st.image rootino)).take (rootData files).length =
      rootData files := by
  refine h.take_contents (by decide) h.root_lt ?_
  rw [root_length, h.root_size]
  omega

/-- An entry of the root directory. -/
theorem root_entry (h : Finished files s st) {j : Nat} (hj : j < (dirents files).length) :
    ((contents st.image (inodeTable sb st.image rootino)).drop (16 * j)).take 16 =
      direntLayout.encode (dirents files)[j] := by
  have hlen := rootData_length files
  have hj' := hj
  rw [dirents_length] at hj'
  have hentry := direntLayout.take_drop_flatMap (dirents files) j hj
  rw [direntLayout_width] at hentry
  rw [← hentry, Nat.mul_comm j 16]
  have hprefix := h.root_prefix
  unfold rootData at hprefix hlen
  rw [← hprefix, List.drop_take, List.take_take, hlen]
  congr 1
  omega

end Finished

/-! ## Looking up a name -/

section Lookup

variable {s : FsState} {p : Fin nproc} {dp : Fin ninode} {name : List UInt8}

/-- The loop of `dirlookup` stops at the first entry with the name. -/
theorem dirlookupLoop_finds {es : List Dirent} {Q : Option (Fin ninode × UInt32) → FsState → Prop}
    {E : Stop → Prop} (hsize : 16 * es.length ≤ (s.icache dp).copy.size.toNat)
    (hsmall : es.length < 10000)
    (hread : ∀ off j (hj : j < es.length), off.toNat = 16 * j →
      readi dp off 16 s = .ok (some (direntLayout.encode es[j]), s))
    {k : Nat} (hk : k < es.length) (hinum : es[k].inum ≠ 0)
    (hname : namecmp name es[k].bytes = 0)
    (hfirst : ∀ j (hj : j < k), namecmp name es[j].bytes ≠ 0)
    (hfound : wp (iget es[k].inum.toNat) (fun ip t => ∀ off, off.toNat = 16 * k →
      Q (some (ip, off)) t) E s) (fuel : Nat) :
    ∀ {off : UInt32} {j : Nat}, off.toNat = 16 * j → j ≤ k → k < j + fuel →
      wp ((dirlookupLoop dp name fuel off).run (handle p)) Q E s := by
  induction fuel with
  | zero =>
    intro off j _ hj hfuel
    omega
  | succ fuel ih =>
    intro off j hoff hj hfuel
    have hjlen : j < es.length := lt_of_le_of_lt hj hk
    have hlt : off < (s.icache dp).copy.size := by
      rw [UInt32.lt_iff_toNat_lt, hoff]
      omega
    have hlen : (direntLayout.encode es[j]).length = direntSize := direntLayout.encode_length _
    unfold dirlookupLoop
    refine Prog.wp_call_bind_of (P := fun x t => x.size = (s.icache dp).copy.size ∧ t = s)
      ⟨rfl, rfl⟩ ?_
    rintro x t ⟨hx, rfl⟩
    rw [hx, if_pos hlt]
    refine Prog.wp_call_bind_of (P := fun r u => r = some (direntLayout.encode es[j]) ∧ u = t)
      ((wp_of_ok (hread off j hjlen hoff)).mpr ⟨rfl, rfl⟩) ?_
    rintro r u ⟨rfl, rfl⟩
    simp only
    rw [if_neg (not_not.mpr hlen), direntLayout.decode_encode]
    rcases Nat.lt_or_eq_of_le hj with hbefore | rfl
    · rw [if_neg (fun hboth => hfirst j hbefore hboth.2)]
      exact ih (toNat_add_sixteen hoff (by omega)) (by omega) (by omega)
    · rw [if_pos ⟨hinum, hname⟩]
      refine Prog.wp_call_bind_of hfound ?_
      intro ip v hv
      exact hv off hoff

end Lookup

/-! ## The kernel on the image -/

/-- A state of the kernel on a finished image: the root directory is cached in `dp`, and what is
cached agrees with the disk. -/
structure Mounted (s : FsState) (dp : Fin ninode) : Prop where
  super : s.sb = sb
  root : (s.icache dp).inum = rootino
  held : 0 < (s.icache dp).ref
  valid : (s.icache dp).valid = true
  coherent : ∀ k, 0 < (s.icache k).ref → (s.icache k).valid = true →
    (s.icache k).copy = inodeTable sb s.disk (s.icache k).inum
  unlocked : ∀ k, k ≠ dp → (s.icache k).lock = none

/-- `ilock` of an entry that is not valid, or valid and as on disk. -/
theorem ilock_ok {s : FsState} {p : Fin nproc} {ip : Fin ninode} {x : Dinode}
    (href : ¬ (s.icache ip).ref < 1) (hfree : (s.icache ip).lock = none)
    (hcopy : (s.icache ip).valid = true → (s.icache ip).copy = x)
    (hdisk : dinodeAt s.sb s.disk (s.icache ip).inum = x) (htype : x.type ≠ 0) :
    ∃ t, ilock p ip s = .ok ((), t) ∧ (t.icache ip).inum = (s.icache ip).inum ∧
      (t.icache ip).copy = x ∧ t.disk = s.disk := by
  generalize hlocked : ({ s with
    icache := Function.update s.icache ip { s.icache ip with lock := some p } } : FsState) = u
  have hself : u.icache ip = { s.icache ip with lock := some p } := by
    rw [← hlocked]
    exact Function.update_self ..
  have hudisk : u.disk = s.disk := by rw [← hlocked]
  have hset : setInode ip (fun y => { y with lock := some p }) s = .ok ((), u) := by
    rw [← hlocked]
    rfl
  unfold ilock
  rw [bind_ok (a := s) (t := s) rfl, if_neg href, if_neg (not_not.mpr hfree), bind_ok hset]
  by_cases hvalid : (s.icache ip).valid = true
  · rw [if_pos hvalid]
    refine ⟨u, rfl, by rw [hself], ?_, hudisk⟩
    rw [hself]
    exact hcopy hvalid
  · rw [if_neg hvalid, hdisk, if_neg htype]
    refine ⟨_, rfl, ?_, ?_, hudisk⟩
    · simp only [Function.update_self, hself]
    · simp only [Function.update_self, hself]
      exact hdisk

/-- The inode that `iget` finds is, locked, the one on disk. -/
theorem open_cached {s : FsState} {dp ip : Fin ninode} {i : Nat} (h : Mounted s dp)
    (hslot : slotFor s i = some ip) (hroot : i ≠ rootino) (hi : i < ninodes)
    (htype : (inodeTable sb s.disk i).type ≠ 0) (p : Fin nproc) :
    ∃ t u, iget i s = .ok (ip, t) ∧ ilock p ip t = .ok ((), u) ∧ (u.icache ip).inum = i ∧
      (u.icache ip).copy = inodeTable sb s.disk i ∧ u.disk = s.disk := by
  have hget := iget_ok hslot
  have hcases := igetSlot_some hslot
  have hdp : ip ≠ dp := by
    rintro rfl
    have hheld := h.held
    rcases hcases with ⟨-, hinum⟩ | ⟨hzero, -⟩
    · exact hroot (hinum.symm.trans h.root)
    · omega
  have hlock : (s.icache ip).lock = none := h.unlocked ip hdp
  have hdisk : dinodeAt sb s.disk i = inodeTable sb s.disk i := (if_pos hi).symm
  generalize ht : ({ s with
    icache := Function.update s.icache ip (gotInode (s.icache ip) i) } : FsState) = t at hget
  have hself : t.icache ip = gotInode (s.icache ip) i := by
    rw [← ht]
    exact Function.update_self ..
  have hsb : t.sb = sb := by
    rw [← ht]
    exact h.super
  have htdisk : t.disk = s.disk := by
    rw [← ht]
  have hinum : (t.icache ip).inum = i := by
    rw [hself]
    unfold gotInode
    rcases hcases with ⟨hpos, hkey⟩ | ⟨hzero, -⟩
    · rw [if_pos hpos]
      exact hkey
    · rw [if_neg (by omega)]
  have href : ¬ (t.icache ip).ref < 1 := by
    rw [hself]
    unfold gotInode
    split
    · show ¬ (s.icache ip).ref + 1 < 1
      omega
    · show ¬ (1 : Int) < 1
      omega
  have hfree : (t.icache ip).lock = none := by
    rw [hself]
    unfold gotInode
    split
    · exact hlock
    · exact hlock
  have hcopy : (t.icache ip).valid = true → (t.icache ip).copy = inodeTable sb s.disk i := by
    rw [hself]
    unfold gotInode
    rcases hcases with ⟨hpos, hkey⟩ | ⟨hzero, -⟩
    · rw [if_pos hpos]
      intro hvalid
      have hco := h.coherent ip hpos hvalid
      rwa [hkey] at hco
    · rw [if_neg (by omega)]
      intro hvalid
      exact absurd hvalid (by simp)
  have hon : dinodeAt t.sb t.disk (t.icache ip).inum = inodeTable sb s.disk i := by
    rw [hsb, htdisk, hinum, hdisk]
  obtain ⟨u, hlockOk, hui, hux, hud⟩ := ilock_ok (p := p) href hfree hcopy hon htype
  exact ⟨t, u, hget, hlockOk, hui.trans hinum, hux, hud.trans htdisk⟩

/-! ## Reading back -/

/-- The name is found in the directory, and its inode has the contents `data`. -/
def ReadsBack (p : Fin nproc) (s : FsState) (dp : Fin ninode) (name data : List UInt8) : Prop :=
  ∃ ip off t u, (dirlookup dp name).run (handle p) s = .ok (some (ip, off), t) ∧
    ilock p ip t = .ok ((), u) ∧ (u.icache ip).copy.size.toNat = data.length ∧
    readi ip 0 (u.icache ip).copy.size u = .ok (some data, u)

theorem namecmp_direntOf {name plain : List UInt8} {i : Nat} :
    namecmp name (direntOf plain i).bytes = 0 ↔ cstr dirsiz name = cstr dirsiz plain := by
  have hlabel := label_strncpy (UInt16.ofNat i) plain
  unfold Dirent.label at hlabel
  rw [namecmp_eq_zero]
  unfold direntOf
  rw [hlabel]

theorem dirents_file {files : List HostFile} {k : Nat} (hk : k < files.length)
    (hk' : k + 2 < (dirents files).length) :
    (dirents files)[k + 2] = direntOf files[k].plain (k + 2) := by
  simp [dirents]

/-- No entry before the one of a file has its name. -/
theorem dirents_first {files : List HostFile}
    (hnames : (files.map fun f => cstr dirsiz f.plain).Nodup)
    (hdots : ∀ f ∈ files, cstr dirsiz f.plain ≠ [dot] ∧ cstr dirsiz f.plain ≠ [dot, dot])
    {k : Nat} (hk : k < files.length) {name : List UInt8}
    (hname : cstr dirsiz name = cstr dirsiz files[k].plain) {j : Nat} (hj : j < k + 2)
    (hj' : j < (dirents files).length) : namecmp name (dirents files)[j].bytes ≠ 0 := by
  have hdot := hdots files[k] (List.getElem_mem hk)
  rw [← hname] at hdot
  intro hzero
  match j, hj, hj', hzero with
  | 0, _, _, hzero => exact hdot.1 (namecmp_direntOf.mp hzero)
  | 1, _, _, hzero => exact hdot.2 (namecmp_direntOf.mp hzero)
  | m + 2, hj, hj', hzero =>
    have hm : m < files.length := by omega
    rw [dirents_file hm, namecmp_direntOf, hname] at hzero
    have hinj := List.nodup_iff_injective_get.mp hnames
    have hsame := @hinj ⟨k, by rwa [List.length_map]⟩ ⟨m, by rwa [List.length_map]⟩
      (by simpa using hzero)
    simp only [Fin.mk.injEq] at hsame
    omega

namespace Finished

variable {files : List HostFile} {b st : MkState}

/-- `readi` of an entry of the root directory. -/
theorem readi_entry (h : Finished files b st) {s : FsState} {dp : Fin ninode}
    (hdisk : s.disk = st.image) (hm : Mounted s dp) {off : UInt32} {j : Nat}
    (hj : j < (dirents files).length) (hoff : off.toNat = 16 * j) :
    readi dp off 16 s = .ok (some (direntLayout.encode (dirents files)[j]), s) := by
  have hcopy : (s.icache dp).copy = inodeTable sb st.image rootino := by
    rw [hm.coherent dp hm.held hm.valid, hdisk, hm.root]
  have htype : (inodeTable sb st.image rootino).type = tDir := by
    rw [h.table_root]
    exact (h.built.type_eq rootino).symm
  have h16 : (16 : UInt32).toNat = 16 := rfl
  have hj' := hj
  rw [dirents_length] at hj'
  have hsize := h.root_size
  have hsmall := h.length_le
  simp only [ninodes_eq] at hsmall
  have hmapped : ∀ k, k < min (16 : UInt32).toNat ((s.icache dp).copy.size.toNat - off.toNat) →
      (s.icache dp).copy.ref s.disk (place ((off.toNat + k) / bsize)) ≠ 0 := by
    intro k hk
    rw [h16] at hk
    rw [hcopy, hdisk, h.tight (by decide) h.root_lt, root_length, hoff]
    simp only [bsize_eq]
    omega
  rw [readi_range (by rw [hcopy, htype]; decide) (by rw [hcopy, htype]; decide) off 16 hmapped,
    hcopy, hdisk]
  have hlen := contents_length st.image (inodeTable sb st.image rootino)
  have hentry := h.root_entry hj
  unfold readData
  rw [hlen, hsize, hoff, h16, if_neg (by omega), hentry]

/-- The kernel finds and reads every file. -/
theorem readsBack (h : Finished files b st)
    (hnames : (files.map fun f => cstr dirsiz f.plain).Nodup)
    (hdots : ∀ f ∈ files, cstr dirsiz f.plain ≠ [dot] ∧ cstr dirsiz f.plain ≠ [dot, dot])
    {s : FsState} {dp : Fin ninode} (hdisk : s.disk = st.image) (hm : Mounted s dp) {k : Nat}
    (hk : k < files.length) {name : List UInt8}
    (hname : cstr dirsiz name = cstr dirsiz files[k].plain) {ip : Fin ninode}
    (hslot : slotFor s (k + 2) = some ip) (p : Fin nproc) :
    ReadsBack p s dp name files[k].data := by
  have hlen := h.length_le
  have hdirents := dirents_length files
  have hk' : k + 2 < (dirents files).length := by omega
  have hfree : k + 2 < st.freeinode := by
    rw [h.inodes]
    omega
  have hroot : k + 2 ≠ rootino := by simp [rootino]
  have htable : tableOf files (k + 2) = ⟨tFile, 0, 0, 1, files[k].data⟩ := by
    rw [tableOf, if_neg hroot, if_neg (by omega), Nat.add_sub_cancel, List.getElem?_eq_getElem hk]
  have htype : (inodeTable sb s.disk (k + 2)).type = tFile := by
    rw [hdisk, h.table_of_ne hroot, ← h.built.type_eq, htable]
  have hcopy : (s.icache dp).copy = inodeTable sb st.image rootino := by
    rw [hm.coherent dp hm.held hm.valid, hdisk, hm.root]
  have hentry := dirents_file hk hk'
  simp only [ninodes_eq] at hlen
  have hinum : (dirents files)[k + 2].inum.toNat = k + 2 := by
    rw [hentry]
    exact UInt16.toNat_ofNat_of_lt' (lt_trans (by omega : k + 2 < 200) (by decide))
  obtain ⟨t, u, hget, hlock, -, hux, hud⟩ := open_cached hm hslot hroot (by simp; omega)
    (by rw [htype]; decide) p
  -- the lookup ends with this `iget`
  have hlookup : wp ((dirlookup dp name).run (handle p))
      (fun r v => ∃ off, r = some (ip, off) ∧ v = t) (fun _ => False) s := by
    unfold dirlookup
    refine Prog.wp_call_bind_of (P := fun x v => x.type = tDir ∧
      x.size = (s.icache dp).copy.size ∧ v = s) ⟨?_, rfl, rfl⟩ ?_
    · show (s.icache dp).copy.type = tDir
      rw [hcopy, h.table_root]
      exact (h.built.type_eq rootino).symm
    rintro x v ⟨hx, hxsize, rfl⟩
    rw [if_neg (not_not.mpr hx), hxsize]
    have hsize : (v.icache dp).copy.size.toNat = (16 * (files.length + 2) / 512 + 1) * 512 := by
      rw [hcopy]
      exact h.root_size
    have hentries : ∀ off j (hj : j < (dirents files).length), off.toNat = 16 * j →
        readi dp off 16 v = .ok (some (direntLayout.encode (dirents files)[j]), v) :=
      fun off j hj hoff => h.readi_entry hdisk hm hj hoff
    refine dirlookupLoop_finds (by omega) (by omega) hentries hk' ?_ ?_ ?_ ?_ _ (j := 0) rfl
      (Nat.zero_le _) ?_
    · intro hzero
      rw [hzero] at hinum
      exact absurd hinum (by simp)
    · rw [hentry]
      exact namecmp_direntOf.mpr hname
    · intro j hj
      exact dirents_first hnames hdots hk hname hj (by omega)
    · rw [hinum, wp_of_ok hget]
      intro off _
      exact ⟨off, rfl, rfl⟩
    · rw [hsize]
      simp only [direntSize_eq]
      omega
  obtain ⟨_, v, hrun, off, rfl, rfl⟩ := wp_never.mp hlookup
  have hsize : (u.icache ip).copy.size.toNat = files[k].data.length := by
    rw [hux, hdisk, h.size_eq (by omega) hfree hroot, htable]
  have hdata : contents u.disk (u.icache ip).copy = files[k].data := by
    rw [hux, hud, hdisk, h.contents_eq (by omega) hfree hroot, htable]
  refine ⟨ip, off, v, u, hrun, hlock, hsize, ?_⟩
  have hmapped : ∀ o, o < min (u.icache ip).copy.size.toNat
      ((u.icache ip).copy.size.toNat - (0 : UInt32).toNat) →
      (u.icache ip).copy.ref u.disk (place (((0 : UInt32).toNat + o) / bsize)) ≠ 0 := by
    intro o ho
    rw [hsize] at ho
    rw [hux, hud, hdisk, h.tight (by omega) hfree, htable]
    show (0 + o) / bsize * bsize < files[k].data.length
    have hdiv := Nat.div_mul_le_self (0 + o) bsize
    omega
  rw [readi_range (by rw [hux, htype]; decide) (by rw [hux, htype]; decide) 0 _ hmapped, hdata,
    readData, hsize]
  have hlt := (u.icache ip).copy.size.toNat_lt
  rw [hsize] at hlt
  have hzero : (0 : UInt32).toNat = 0 := rfl
  rw [hzero, if_neg (by omega), List.drop_zero, List.take_length]

end Finished

/-- The kernel reads back what the program wrote. -/
theorem kernel_reads_back {files : List HostFile}
    (hnames : (files.map fun f => cstr dirsiz f.plain).Nodup)
    (hdots : ∀ f ∈ files, cstr dirsiz f.plain ≠ [dot] ∧ cstr dirsiz f.plain ≠ [dot, dot])
    (hsize : ∀ f ∈ files, f.data.length ≤ maxfile * bsize)
    (hinodes : files.length + 2 ≤ ninodes) (hblocks : blocksFor files ≤ fssize) :
    ((∀ f ∈ files, f.opens = true ∧ slash ∉ f.name) →
      ∃ st, main files MkState.start = .ok ((), st)) ∧
    ∀ st, main files MkState.start = .ok ((), st) →
      readsb st.image = sb ∧
      (∀ (s : FsState) (dp : Fin ninode) (p : Fin nproc), s.disk = st.image → Mounted s dp →
        ∀ k (hk : k < files.length) (name : List UInt8),
          cstr dirsiz name = cstr dirsiz files[k].plain → slotFor s (k + 2) ≠ none →
            ReadsBack p s dp name files[k].data) ∧
      ∀ q, refs st.image (inodeTable sb st.image) q ≠ 0 →
        bitSet sb st.image (refs st.image (inodeTable sb st.image) q) = true := by
  constructor
  · intro hopen
    have hok : ¬ Fails files := by
      rintro (⟨f, hf, hslash | hclosed | hbig⟩ | hbig)
      · exact (hopen f hf).2 hslash
      · rw [(hopen f hf).1] at hclosed
        exact Bool.noConfusion hclosed
      · exact absurd hbig (Nat.not_lt.mpr (hsize f hf))
      · exact absurd hbig (Nat.not_lt.mpr hblocks)
    obtain ⟨st, hrun, -⟩ := main_ok _ hinodes hok
    exact ⟨st, hrun⟩
  · intro st hrun
    obtain ⟨b, hfin⟩ := main_finished hinodes hrun
    refine ⟨?_, ?_, ?_⟩
    · rw [hfin.image, readsb_putDinode sb_geometry]
      exact hfin.built.image.super
    · intro s dp p hdisk hm k hk name hname hslot
      obtain ⟨ip, hip⟩ := Option.ne_none_iff_exists'.mp hslot
      exact hfin.readsBack hnames hdots hdisk hm hk hname hip p
    · intro q hq
      exact hfin.owned.used_ptr hq

/-- A kernel that has nothing but the root directory of a disk in its cache. -/
def bootedOn (d : Disk) : FsState where
  disk := d
  sb := sb
  lh := []
  outstanding := 0
  icache k := if k.val = 0 then ⟨rootino, 1, none, true, inodeTable sb d rootino⟩
    else ⟨0, 0, none, false, newInode 0⟩
  ftable _ := ⟨.none, 0, false, false, none, 0⟩
  proc _ := ⟨fun _ => none, none⟩
  initproc := ⟨0, nproc_pos⟩

theorem bootedOn_mounted (d : Disk) : Mounted (bootedOn d) ⟨0, by decide⟩ where
  super := rfl
  root := rfl
  held := (by decide : (0 : Int) < 1)
  valid := rfl
  coherent k hpos _ := by
    by_cases hk : k.val = 0
    · simp only [bootedOn, hk, if_pos]
    · simp only [bootedOn, hk, if_false] at hpos
      exact absurd hpos (by decide)
  unlocked k _ := by
    by_cases hk : k.val = 0
    · simp only [bootedOn, hk, if_pos]
    · simp only [bootedOn, hk, if_false]

theorem bootedOn_slot (d : Disk) : slotFor (bootedOn d) 2 = some ⟨1, by decide⟩ := by
  have hinum : (fun k => ((bootedOn d).icache k).inum) = fun k => if k.val = 0 then 1 else 0 := by
    funext k
    by_cases hk : k.val = 0
    · simp only [bootedOn, hk, if_pos, rootino]
    · simp only [bootedOn, hk, if_false]
  have href : (fun k => ((bootedOn d).icache k).ref) = fun k => if k.val = 0 then 1 else 0 := by
    funext k
    by_cases hk : k.val = 0
    · simp only [bootedOn, hk, if_pos]
    · simp only [bootedOn, hk, if_false]
  unfold slotFor
  rw [hinum, href]
  decide

/-- The file is found under `hi` and read. -/
theorem kernel_reads_greeting : ∃ st, main [greeting] MkState.start = .ok ((), st) ∧
    ReadsBack ⟨0, by decide⟩ (bootedOn st.image) ⟨0, by decide⟩ [104, 105] [72, 105, 33] := by
  have hnames : ([greeting].map fun f => cstr dirsiz f.plain).Nodup := by decide
  obtain ⟨hruns, hreads⟩ := kernel_reads_back hnames (by decide) (by decide) (by decide) (by decide)
  obtain ⟨st, hst⟩ := hruns (by decide)
  obtain ⟨-, hback, -⟩ := hreads st hst
  refine ⟨st, hst, ?_⟩
  exact hback (bootedOn st.image) ⟨0, by decide⟩ ⟨0, by decide⟩ rfl (bootedOn_mounted st.image) 0
    (by decide) [104, 105] (by decide) (by rw [bootedOn_slot]; exact Option.some_ne_none _)

end Xv6.Mkfs
