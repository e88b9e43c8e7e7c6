import Xv6.Fs.Blocks

/-!
# File system - Contents of files

The disk seen as a table of inodes with their attributes and the bytes of their
files.  Every operation that changes the disk changes one entry of this table and
keeps the disk well formed: the free map is exact and no file has a hole.

Main results:

- Theorem {lit}`readi_spec`: {lit}`readi` returns bytes of the file and changes
  nothing.
- Theorem {lit}`writei_spec`: {lit}`writei` overwrites bytes of one file.
-/

namespace Xv6.Fs

open Foundations

/-! ## The disk as a table of files -/

/-- Byte `o` of a file. -/
def fileByte (d : Disk) (x : Dinode) (o : Nat) : UInt8 :=
  (d (x.ref d (place (o / bsize)))).byteAt (o % bsize)

/-- The bytes of a file. -/
def contents (d : Disk) (x : Dinode) : List UInt8 :=
  (List.range x.size.toNat).map (fileByte d x)

/-- An inode with its contents; a free inode has type 0 and nothing else. -/
structure AInode where
  type : Int16
  major : Int16
  minor : Int16
  nlink : Int16
  data : List UInt8
deriving DecidableEq

/-- A free inode. -/
def AInode.free : AInode :=
  ⟨0, 0, 0, 0, []⟩

/-- What an inode on disk stands for. -/
def absInode (d : Disk) (x : Dinode) : AInode :=
  if x.type = 0 then AInode.free else ⟨x.type, x.major, x.minor, x.nlink, contents d x⟩

/-- The table of files on disk. -/
def abs (sb : Superblock) (d : Disk) (i : Nat) : AInode :=
  absInode d (inodeTable sb d i)

/-- Every block of the file is there. -/
def Mapped (d : Disk) (x : Dinode) : Prop :=
  ∀ bn, bn * bsize < x.size.toNat → x.ref d (place bn) ≠ 0

/-- A disk whose free map is exact and whose files have no holes. -/
structure Image (sb : Superblock) (d : Disk) : Prop where
  geo : Geometry sb
  super : readsb d = sb
  owned : Owned sb.nmeta sb.size (bitSet sb d) (refs d (inodeTable sb d))
  mapped : ∀ i, (inodeTable sb d i).type ≠ 0 → Mapped d (inodeTable sb d i)

theorem contents_length (d : Disk) (x : Dinode) : (contents d x).length = x.size.toNat := by
  simp [contents]

theorem Mapped.ref_ne {d : Disk} {x : Dinode} (h : Mapped d x) {o : Nat}
    (ho : o < x.size.toNat) : x.ref d (place (o / bsize)) ≠ 0 := by
  apply h
  have hdiv := Nat.div_mul_le_self o bsize
  omega

/-- The largest file. -/
theorem Mapped.size_le {d : Disk} {x : Dinode} (h : Mapped d x) :
    x.size.toNat ≤ maxfile * bsize := by
  by_contra hbig
  refine h maxfile (by omega) (ref_above ?_ (Or.inr ?_))
  · simp [place]
  · simp [place]

theorem view_table (sb : Superblock) (d : Disk) (i : Nat) :
    view sb d i (inodeTable sb d i) = inodeTable sb d :=
  Function.update_eq_self i _

/-- An inode whose copy in memory agrees with the disk. -/
theorem Image.work {sb : Superblock} {d : Disk} (h : Image sb d) {i : Nat}
    (hi : i < sb.ninodes) (htype : (inodeTable sb d i).type ≠ 0) :
    Work sb i d (inodeTable sb d i) := by
  refine ⟨h.geo, h.super, hi, htype, ?_⟩
  rw [view_table]
  exact h.owned

/-- A file whose blocks are unchanged has the same contents. -/
theorem absInode_congr {d d' : Disk} {x : Dinode} (hmapped : x.type ≠ 0 → Mapped d x)
    (href : ∀ k, x.ref d k ≠ 0 → x.ref d' k = x.ref d k)
    (hdata : ∀ k, k ≠ 12 → x.ref d k ≠ 0 → d' (x.ref d k) = d (x.ref d k)) :
    absInode d' x = absInode d x ∧ (x.type ≠ 0 → Mapped d' x) := by
  by_cases htype : x.type = 0
  · exact ⟨by rw [absInode, absInode, if_pos htype, if_pos htype], fun h => absurd htype h⟩
  · have hbyte : ∀ o, o < x.size.toNat → fileByte d' x o = fileByte d x o := by
      intro o ho
      have hne := (hmapped htype).ref_ne ho
      unfold fileByte
      rw [href _ hne, hdata _ (place_ne _) hne]
    have hcontents : contents d' x = contents d x :=
      List.map_congr_left fun o ho => hbyte o (List.mem_range.mp ho)
    refine ⟨?_, ?_⟩
    · rw [absInode, absInode, if_neg htype, if_neg htype, hcontents]
    · intro _ bn hbn
      have hne := hmapped htype bn hbn
      rwa [href _ hne]

/-! ## Reading -/

/-- What `readi` returns for a file with contents `data`. -/
def readData (data : List UInt8) (off n : UInt32) : Option (List UInt8) :=
  if data.length < off.toNat ∨ 2 ^ 32 ≤ off.toNat + n.toNat then none
  else some ((data.drop off.toNat).take n.toNat)

section Read

variable {s : FsState} {ip : Fin ninode}

theorem slice_eq_fileByte {d : Disk} {x : Dinode} {off m : Nat}
    (hm : m ≤ bsize - off % bsize) :
    (d (x.ref d (place (off / bsize)))).slice (off % bsize) m =
      (List.range m).map fun k => fileByte d x (off + k) := by
  unfold Bytes.slice
  apply List.map_congr_left
  intro k hk
  have hk' := List.mem_range.mp hk
  unfold fileByte
  have hdiv : (off + k) / bsize = off / bsize := by
    simp only [bsize_eq] at *
    omega
  have hmod : (off + k) % bsize = off % bsize + k := by
    simp only [bsize_eq] at *
    omega
  rw [hdiv, hmod]

theorem readLoop_spec (htype : (s.icache ip).copy.type ≠ 0) {fuel off rest : Nat}
    (hfuel : rest ≤ fuel)
    (hmapped : ∀ k, k < rest → (s.icache ip).copy.ref s.disk (place ((off + k) / bsize)) ≠ 0) :
    readLoop ip fuel off rest s =
      .ok ((List.range rest).map fun k => fileByte s.disk (s.icache ip).copy (off + k), s) := by
  induction fuel generalizing off rest with
  | zero =>
    have hrest : rest = 0 := by omega
    subst hrest
    rfl
  | succ fuel ih =>
    unfold readLoop
    by_cases hrest : rest = 0
    · subst hrest
      rfl
    · rw [if_neg hrest]
      have hlt : off % bsize < bsize := Nat.mod_lt _ (by decide)
      have hblock := hmapped 0 (by omega)
      rw [Nat.add_zero] at hblock
      rw [bind_ok (bmap_mapped htype hblock), bind_ok (a := s) (t := s) rfl]
      generalize hm : min rest (bsize - off % bsize) = m
      have hmle : m ≤ bsize - off % bsize := by omega
      have hmrest : m ≤ rest := by omega
      have hmpos : 0 < m := by omega
      have htail : readLoop ip fuel (off + m) (rest - m) s =
          .ok ((List.range (rest - m)).map
            fun k => fileByte s.disk (s.icache ip).copy (off + m + k), s) := by
        apply ih (by omega)
        intro k hk
        rw [Nat.add_assoc]
        exact hmapped (m + k) (by omega)
      rw [bind_ok htail]
      have hsplit : rest = m + (rest - m) := by omega
      have hrange : (List.range rest).map
          (fun k => fileByte s.disk (s.icache ip).copy (off + k)) =
          (List.range m).map (fun k => fileByte s.disk (s.icache ip).copy (off + k)) ++
          (List.range (rest - m)).map
            (fun k => fileByte s.disk (s.icache ip).copy (off + m + k)) := by
        conv_lhs => rw [hsplit, List.range_add, List.map_append, List.map_map]
        simp [Function.comp_def, Nat.add_assoc]
      rw [hrange, ← slice_eq_fileByte hmle]
      rfl

/-- `readi` reads the contents when the blocks it reads are there. -/
theorem readi_range (htype : (s.icache ip).copy.type ≠ 0)
    (hdev : (s.icache ip).copy.type ≠ tDev) (off n : UInt32)
    (hread : ∀ k, k < min n.toNat ((s.icache ip).copy.size.toNat - off.toNat) →
      (s.icache ip).copy.ref s.disk (place ((off.toNat + k) / bsize)) ≠ 0) :
    readi ip off n s =
      .ok (readData (contents s.disk (s.icache ip).copy) off n, s) := by
  have hlen := contents_length s.disk (s.icache ip).copy
  generalize hx : (s.icache ip).copy = x at *
  have hoff : off.toNat < 2 ^ 32 := off.toNat_lt
  have hn : n.toNat < 2 ^ 32 := n.toNat_lt
  have hsum : (off + n).toNat = (off.toNat + n.toNat) % 2 ^ 32 := UInt32.toNat_add off n
  unfold readi readData
  rw [bind_ok (a := s) (t := s) rfl]
  simp only [hx]
  rw [if_neg hdev, hlen]
  by_cases hbad : x.size.toNat < off.toNat ∨ 2 ^ 32 ≤ off.toNat + n.toNat
  · rw [if_pos hbad, if_pos]
    · rfl
    · rw [gt_iff_lt, UInt32.lt_iff_toNat_lt, UInt32.lt_iff_toNat_lt, hsum]
      omega
  · rw [if_neg hbad, if_neg]
    · have hcount : (if off + n > x.size then x.size - off else n).toNat =
          min n.toNat (x.size.toNat - off.toNat) := by
        have hle : off ≤ x.size := by
          rw [UInt32.le_iff_toNat_le]
          omega
        split
        · rename_i hgt
          rw [gt_iff_lt, UInt32.lt_iff_toNat_lt, hsum] at hgt
          rw [UInt32.toNat_sub_of_le _ _ hle]
          omega
        · rename_i hgt
          rw [gt_iff_lt, UInt32.lt_iff_toNat_lt, hsum] at hgt
          omega
      have hloop := readLoop_spec (by rwa [hx]) (le_refl _) (by rwa [hx])
      rw [hx] at hloop
      rw [hcount, bind_ok hloop]
      have hdata : (List.range (min n.toNat (x.size.toNat - off.toNat))).map
          (fun k => fileByte s.disk x (off.toNat + k)) =
            ((contents s.disk x).drop off.toNat).take n.toNat := by
        apply List.ext_getElem
        · simp [contents]
        · intro k hk hk'
          simp [contents]
      rw [hdata]
      rfl
    · rw [gt_iff_lt, UInt32.lt_iff_toNat_lt, UInt32.lt_iff_toNat_lt, hsum]
      omega

/-- `readi` of a file reads its contents. -/
theorem readi_spec (htype : (s.icache ip).copy.type ≠ 0)
    (hdev : (s.icache ip).copy.type ≠ tDev)
    (hmapped : Mapped s.disk (s.icache ip).copy) (off n : UInt32) :
    readi ip off n s =
      .ok (readData (contents s.disk (s.icache ip).copy) off n, s) := by
  apply readi_range htype hdev
  intro k hk
  exact hmapped.ref_ne (by omega)

end Read

/-! ## Writing -/

/-- The bytes `src` were written to inode `i` from `off` on: `d` and `x` became
`d'` and `x'`. -/
structure Wrote (sb : Superblock) (i : Nat) (d : Disk) (x : Dinode) (off : Nat)
    (src : List UInt8) (d' : Disk) (x' : Dinode) : Prop where
  work : Work sb i d' x'
  table : inodeTable sb d' = inodeTable sb d
  attrs : x' = { x with addrs := x'.addrs }
  refs_eq : ∀ q, refs d (view sb d i x) q ≠ 0 →
    refs d' (view sb d' i x') q = refs d (view sb d i x) q
  spares : Spares sb i d x d'
  kept : ∀ o, o < off ∨ off + src.length ≤ o → x.ref d (place (o / bsize)) ≠ 0 →
    fileByte d' x' o = fileByte d x o
  written : ∀ k, k < src.length → fileByte d' x' (off + k) = src.getD k 0
  mapped : ∀ k, k < src.length → x'.ref d' (place ((off + k) / bsize)) ≠ 0
  same : (∀ k, k < src.length → x.ref d (place ((off + k) / bsize)) ≠ 0) → x' = x

/-- Overwriting a data block moves nothing. -/
theorem Work.overwriteData {sb : Superblock} {i : Nat} {d : Disk} {x : Dinode}
    (h : Work sb i d x) {bn : Nat} (hb : x.ref d (place bn) ≠ 0) (block : Block) :
    Work sb i (Function.update d (x.ref d (place bn)) block) x ∧
      refs (Function.update d (x.ref d (place bn)) block) (view sb d i x) =
        refs d (view sb d i x) ∧
      inodeTable sb (Function.update d (x.ref d (place bn)) block) = inodeTable sb d := by
  have hself : refs d (view sb d i x) (i, place bn) = x.ref d (place bn) := refs_self ..
  have hne : refs d (view sb d i x) (i, place bn) ≠ 0 := by rwa [hself]
  have hrange := h.owned.range _ hne
  rw [hself] at hrange
  have hbm := Geometry.bmapstart_lt sb
  have htwo := h.geo.two_lt_bmapstart
  have htable : inodeTable sb (Function.update d (x.ref d (place bn)) block) =
      inodeTable sb d := inodeTable_update h.geo d (by omega) block
  have hrefs : refs (Function.update d (x.ref d (place bn)) block) (view sb d i x) =
      refs d (view sb d i x) := by
    apply refs_congr
    intro j hj
    apply Function.update_of_ne
    rw [← hself]
    apply h.owned.ptr_ne hj
    intro heq
    exact place_ne bn (congrArg Prod.snd heq).symm
  refine ⟨⟨h.geo, ?_, h.inum, h.type, ?_⟩, hrefs, htable⟩
  · rw [Geometry.readsb_update d (by omega), h.super]
  · unfold view at hrefs ⊢
    rw [htable, hrefs]
    exact h.owned.congr (fun c hc => Geometry.bitSet_update d (Or.inr hrange.1) hc _)
      fun _ => rfl

namespace Wrote

variable {sb : Superblock} {i : Nat} {d d' d'' : Disk} {x x' x'' : Dinode} {off : Nat}
  {src src' : List UInt8}

theorem nil (h : Work sb i d x) : Wrote sb i d x off [] d x where
  work := h
  table := rfl
  attrs := rfl
  refs_eq := fun _ _ => rfl
  spares := Spares.refl
  kept := fun _ _ _ => rfl
  written := fun _ hk => absurd hk (Nat.not_lt_zero _)
  mapped := fun _ hk => absurd hk (Nat.not_lt_zero _)
  same := fun _ => rfl

/-- One round of the loop: a block was found or added, and part of it overwritten. -/
theorem chunk (h : Added sb i d x d' x') (hb : x'.ref d' (place (off / bsize)) ≠ 0)
    (hsame : x.ref d (place (off / bsize)) ≠ 0 → x' = x)
    (hlen : src.length ≤ bsize - off % bsize) (hpos : 0 < src.length) :
    Wrote sb i d x off src (Function.update d' (x'.ref d' (place (off / bsize)))
      ((d' (x'.ref d' (place (off / bsize)))).overwrite (off % bsize) src)) x' := by
  have hover := h.work.overwriteData hb
    ((d' (x'.ref d' (place (off / bsize)))).overwrite (off % bsize) src)
  generalize hblock : (d' (x'.ref d' (place (off / bsize)))).overwrite (off % bsize) src =
    block at hover ⊢
  generalize hd'' : Function.update d' (x'.ref d' (place (off / bsize))) block = d'' at hover ⊢
  rcases hover with ⟨hwork, hrefs, htable⟩
  have hview : view sb d'' i x' = view sb d' i x' := by
    unfold view
    rw [htable]
  have href : ∀ k, x'.ref d'' k = x'.ref d' k := by
    intro k
    have hk := congrFun hrefs (i, k)
    rwa [refs_self, refs_self] at hk
  have hmod : off % bsize < bsize := Nat.mod_lt _ (by decide)
  -- bytes of the block at `off`, by their offset in the file
  have hin : ∀ o, o / bsize = off / bsize →
      fileByte d'' x' o = block.byteAt (o % bsize) := by
    intro o ho
    unfold fileByte
    rw [ho, href, ← hd'', Function.update_self]
  have hout : ∀ o, o / bsize ≠ off / bsize → x'.ref d' (place (o / bsize)) ≠ 0 →
      fileByte d'' x' o = fileByte d' x' o := by
    intro o ho hne
    unfold fileByte
    rw [href, ← hd'', Function.update_of_ne]
    have hptr := h.work.owned.ptr_ne (p := (i, place (o / bsize)))
      (q := (i, place (off / bsize))) (by rwa [refs_self])
      (fun heq => ho (place_inj (congrArg Prod.snd heq)))
    rwa [refs_self, refs_self] at hptr
  refine ⟨hwork, htable.trans h.table, h.attrs, ?_, ?_, ?_, ?_, ?_, ?_⟩
  · intro q hq
    rw [hview, hrefs]
    exact h.grows.refs_eq q hq
  · rw [← hd'']
    exact h.spares.trans h.grows.refs_eq (Spares.update h.work _ _)
  · intro o ho hne
    have hself := h.grows.refs_eq (i, place (o / bsize)) (by rwa [refs_self])
    rw [refs_self, refs_self] at hself
    have hdata := h.grows.data_eq (i, place (o / bsize)) (place_ne _) (by rwa [refs_self])
    rw [refs_self] at hdata
    have hold : fileByte d' x' o = fileByte d x o := by
      unfold fileByte
      rw [hself, hdata]
    by_cases hsameBlock : o / bsize = off / bsize
    · rw [hin o hsameBlock, ← hold, ← hblock, Bytes.byteAt_overwrite_outside]
      · unfold fileByte
        rw [hsameBlock]
      · simp only [bsize_eq] at *
        omega
    · rw [hout o hsameBlock (by rwa [hself]), hold]
  · intro k hk
    have hdiv : (off + k) / bsize = off / bsize := by
      simp only [bsize_eq] at *
      omega
    have hmodk : (off + k) % bsize = off % bsize + k := by
      simp only [bsize_eq] at *
      omega
    rw [hin (off + k) hdiv, hmodk, ← hblock]
    exact Bytes.byteAt_overwrite_inside hk (by omega)
  · intro k hk
    have hdiv : (off + k) / bsize = off / bsize := by
      simp only [bsize_eq] at *
      omega
    rw [hdiv, href]
    exact hb
  · intro hall
    exact hsame (hall 0 hpos)

theorem append (h : Wrote sb i d x off src d' x')
    (h' : Wrote sb i d' x' (off + src.length) src' d'' x'') :
    Wrote sb i d x off (src ++ src') d'' x'' := by
  have hkeep : ∀ k, x.ref d k ≠ 0 → x'.ref d' k = x.ref d k := by
    intro k hk
    have heq := h.refs_eq (i, k) (by rwa [refs_self])
    rwa [refs_self, refs_self] at heq
  have hkeep' : ∀ k, x'.ref d' k ≠ 0 → x''.ref d'' k = x'.ref d' k := by
    intro k hk
    have heq := h'.refs_eq (i, k) (by rwa [refs_self])
    rwa [refs_self, refs_self] at heq
  refine ⟨h'.work, h'.table.trans h.table, ?_, ?_, h.spares.trans h.refs_eq h'.spares, ?_, ?_, ?_,
    ?_⟩
  · have hx := h.attrs
    have hx' := h'.attrs
    rw [hx] at hx'
    exact hx'
  · intro q hq
    have heq := h.refs_eq q hq
    rw [h'.refs_eq q (by rwa [heq]), heq]
  · intro o ho hne
    rw [List.length_append] at ho
    rw [h'.kept o (by omega) (by rwa [hkeep _ hne]), h.kept o (by omega) hne]
  · intro k hk
    rw [List.length_append] at hk
    by_cases hlt : k < src.length
    · rw [h'.kept (off + k) (by omega) (h.mapped k hlt), h.written k hlt,
        List.getD_eq_getElem?_getD, List.getD_eq_getElem?_getD, List.getElem?_append_left hlt]
    · have hw := h'.written (k - src.length) (by omega)
      rw [show off + src.length + (k - src.length) = off + k by omega] at hw
      rw [hw, List.getD_eq_getElem?_getD, List.getD_eq_getElem?_getD,
        List.getElem?_append_right (by omega)]
  · intro k hk
    rw [List.length_append] at hk
    by_cases hlt : k < src.length
    · have hm := h.mapped k hlt
      rwa [hkeep' _ hm]
    · have hm := h'.mapped (k - src.length) (by omega)
      rwa [show off + src.length + (k - src.length) = off + k by omega] at hm
  · intro hall
    have hx : x' = x := h.same fun k hk => hall k (by rw [List.length_append]; omega)
    rw [← hx]
    refine h'.same fun k hk => ?_
    have hk' := hall (src.length + k) (by rw [List.length_append]; omega)
    rw [← Nat.add_assoc] at hk'
    rwa [hkeep _ hk']

end Wrote

theorem writeLoop_spec {ip : Fin ninode} {i fuel : Nat} :
    ∀ {s : FsState} {off : Nat} {src : List UInt8},
      Work s.sb i s.disk (s.icache ip).copy → 1 ≤ s.outstanding →
      off + src.length ≤ maxfile * bsize → src.length ≤ fuel →
      wp (writeLoop ip fuel off src) (fun _ t => ∃ d l x, t = s.worked ip d l x ∧
        Wrote s.sb i s.disk (s.icache ip).copy off src d x) Stop.Space s := by
  induction fuel with
  | zero =>
    intro s off src hw _ _ hfuel
    have hsrc : src = [] := List.eq_nil_of_length_eq_zero (by omega)
    subst hsrc
    exact ⟨s.disk, s.lh, (s.icache ip).copy, (worked_self s ip).symm, Wrote.nil hw⟩
  | succ fuel ih =>
    intro s off src hw hout hfit hfuel
    unfold writeLoop
    by_cases hsrc : src = []
    · rw [if_pos hsrc]
      subst hsrc
      exact ⟨s.disk, s.lh, (s.icache ip).copy, (worked_self s ip).symm, Wrote.nil hw⟩
    · rw [if_neg hsrc]
      have hpos : 0 < src.length := List.length_pos_of_ne_nil hsrc
      have hmod : off % bsize < bsize := Nat.mod_lt _ (by decide)
      have hbn : off / bsize < maxfile := by
        rw [Nat.div_lt_iff_lt_mul (by decide)]
        omega
      refine wp_bind_of (bmap_spec hw hout hbn) ?_
      rintro b _ ⟨d, l, x, rfl, hadd, rfl, hne, hsame⟩
      generalize hm : min src.length (bsize - off % bsize) = m
      have hlen : (src.take m).length = m := List.length_take_of_le (by omega)
      have hchunk := Wrote.chunk hadd hne hsame
        (by omega : (src.take m).length ≤ bsize - off % bsize) (by omega)
      simp only [wp_bind, bmodify, wp_modify]
      refine wp_mono (logWrite_spec _ hout) ?_ fun _ he => he
      rintro _ _ ⟨l', rfl⟩
      have hstate : ∀ e, FsState.wrote { s.worked ip d l x with disk := e } e l' =
          s.worked ip e l' x := fun _ => rfl
      rw [hstate]
      have hcopy := worked_copy s ip
      refine wp_mono (ih (by rw [hcopy]; exact hchunk.work) hout
        (by rw [List.length_drop]; omega) (by rw [List.length_drop]; omega)) ?_ fun _ he => he
      rintro _ _ ⟨d', l'', x', rfl, hwrote⟩
      rw [hcopy] at hwrote
      refine ⟨d', l'', x', worked_worked .., ?_⟩
      have happ : Wrote s.sb i s.disk (s.icache ip).copy off (src.take m ++ src.drop m) d' x' :=
        hchunk.append (by rw [hlen]; exact hwrote)
      rwa [List.take_append_drop] at happ

/-- What `writei` makes of a file with contents `data`. -/
def writeData (data : List UInt8) (off : UInt32) (src : List UInt8) : Option (List UInt8) :=
  if data.length < off.toNat ∨ 2 ^ 32 ≤ off.toNat + src.length then none
  else if maxfile * bsize < off.toNat + src.length then none
  else some (data.take off.toNat ++ src ++ data.drop (off.toNat + src.length))

/-- One inode of the image was changed: it is now `x`, which stands for `y`. -/
structure Changed (sb : Superblock) (d₀ : Disk) (i : Nat) (d : Disk) (x : Dinode)
    (y : AInode) : Prop where
  image : Image sb d
  table : inodeTable sb d = Function.update (inodeTable sb d₀) i x
  abs_eq : abs sb d = Function.update (abs sb d₀) i y
  /-- The block maps of the other inodes. -/
  maps : ∀ j, j ≠ i → ∀ k, (inodeTable sb d j).ref d k = (inodeTable sb d₀ j).ref d₀ k

section Changed

variable {sb : Superblock} {d₀ d : Disk} {i : Nat} {x x' : Dinode}

/-- A new image from an old one, when the blocks of the other inodes are as before. -/
theorem Image.changed (h : Image sb d₀) (hsuper : readsb d = sb)
    (htable : inodeTable sb d = Function.update (inodeTable sb d₀) i x)
    (howned : Owned sb.nmeta sb.size (bitSet sb d) (refs d (inodeTable sb d)))
    (hdata : ∀ j k, j ≠ i → (inodeTable sb d₀ j).ref d₀ k ≠ 0 →
      d ((inodeTable sb d₀ j).ref d₀ k) = d₀ ((inodeTable sb d₀ j).ref d₀ k))
    (hmapped : x.type ≠ 0 → Mapped d x) : Changed sb d₀ i d x (absInode d x) := by
  have href : ∀ j, j ≠ i → (inodeTable sb d₀ j).ref d = (inodeTable sb d₀ j).ref d₀ :=
    fun j hj => funext (ref_congr (hdata j 12 hj))
  have hother : ∀ j, j ≠ i → _ := fun j hj =>
    absInode_congr (h.mapped j) (fun k _ => congrFun (href j hj) k) (fun k _ => hdata j k hj)
  refine ⟨⟨h.geo, hsuper, howned, ?_⟩, htable, ?_, ?_⟩
  · intro j htype
    rw [htable] at htype ⊢
    by_cases hj : j = i
    · subst hj
      rw [Function.update_self] at htype ⊢
      exact hmapped htype
    · rw [Function.update_of_ne hj] at htype ⊢
      exact (hother j hj).2 htype
  · funext j
    unfold abs
    rw [htable]
    by_cases hj : j = i
    · subst hj
      rw [Function.update_self, Function.update_self]
    · rw [Function.update_of_ne hj, Function.update_of_ne hj]
      exact (hother j hj).1
  · intro j hj k
    rw [htable, Function.update_of_ne hj, href j hj]

/-- Storing an inode does not touch the blocks that inodes refer to. -/
theorem putDinode_refs (hgeo : Geometry sb) (hi : i < sb.ninodes) {F : Nat → Dinode}
    {used : Nat → Bool} (h : Owned sb.nmeta sb.size used (refs d F)) {q : Nat × Nat}
    (hq : refs d F q ≠ 0) : putDinode sb d i x (refs d F q) = d (refs d F q) :=
  hgeo.putDinode_data d hi (h.range q hq).1 x

/-- Storing an inode with the same references keeps the free map exact. -/
theorem owned_putDinode (hgeo : Geometry sb) (hi : i < sb.ninodes)
    (h : Owned sb.nmeta sb.size (bitSet sb d) (refs d (view sb d i x)))
    (href : x'.ref d = x.ref d) :
    Owned sb.nmeta sb.size (bitSet sb (putDinode sb d i x'))
      (refs (putDinode sb d i x') (inodeTable sb (putDinode sb d i x'))) := by
  have hview : refs d (view sb d i x') = refs d (view sb d i x) := by
    funext q
    by_cases hq : q.1 = i
    · simp [refs, view, hq, href]
    · simp [refs, view, hq]
  rw [← hview] at h
  have hrefs : refs (putDinode sb d i x') (view sb d i x') = refs d (view sb d i x') :=
    refs_congr fun j hj => putDinode_refs hgeo hi h hj
  rw [inodeTable_putDinode sb d hi]
  exact h.congr (fun b hb => hgeo.bitSet_putDinode d hi hb x') fun q => congrFun hrefs q

/-- A file's bytes after its inode was stored. -/
theorem fileByte_putDinode (hgeo : Geometry sb) (hi : i < sb.ninodes)
    (h : Owned sb.nmeta sb.size (bitSet sb d) (refs d (view sb d i x))) {o : Nat}
    (ho : x.ref d (place (o / bsize)) ≠ 0) :
    x.ref (putDinode sb d i x') (place (o / bsize)) = x.ref d (place (o / bsize)) ∧
      fileByte (putDinode sb d i x') x o = fileByte d x o := by
  have hdata : ∀ k, x.ref d k ≠ 0 → putDinode sb d i x' (x.ref d k) = d (x.ref d k) := by
    intro k hk
    have hq := putDinode_refs (x := x') hgeo hi h (q := (i, k)) (by rwa [refs_self])
    rwa [refs_self] at hq
  have href := ref_congr (hdata 12) (place (o / bsize))
  refine ⟨href, ?_⟩
  unfold fileByte
  rw [href, hdata _ ho]

/-- Storing an inode with the same references in an image. -/
theorem Image.putDinode (h : Image sb d) (hi : i < sb.ninodes)
    (href : x.ref d = (inodeTable sb d i).ref d) (hmapped : x.type ≠ 0 → Mapped d x) :
    Changed sb d i (Fs.putDinode sb d i x) x (absInode d x) := by
  have hview : Owned sb.nmeta sb.size (bitSet sb d)
      (refs d (view sb d i (inodeTable sb d i))) := by
    rw [view_table]
    exact h.owned
  have hviewx : Owned sb.nmeta sb.size (bitSet sb d) (refs d (view sb d i x)) := by
    refine hview.congr (fun _ _ => rfl) fun q => ?_
    by_cases hq : q.1 = i
    · simp [refs, view, hq, href]
    · simp [refs, view, hq]
  have hself : absInode (Fs.putDinode sb d i x) x = absInode d x ∧
      (x.type ≠ 0 → Mapped (Fs.putDinode sb d i x) x) := by
    have hdata : ∀ k, x.ref d k ≠ 0 → Fs.putDinode sb d i x (x.ref d k) = d (x.ref d k) := by
      intro k hk
      have hq := putDinode_refs (x := x) h.geo hi hviewx (q := (i, k)) (by rwa [refs_self])
      rwa [refs_self] at hq
    exact absInode_congr hmapped (fun k _ => ref_congr (hdata 12) k) fun k _ => hdata k
  have hchanged := h.changed (d := Fs.putDinode sb d i x) (x := x)
    (by rw [readsb_putDinode h.geo, h.super]) (inodeTable_putDinode sb d hi x)
    (owned_putDinode h.geo hi hview href)
    (fun j k _ hk => putDinode_refs h.geo hi h.owned (q := (j, k)) hk) hself.2
  rwa [hself.1] at hchanged

end Changed

/-- The contents of the other files. -/
theorem Changed.contents_eq {sb : Superblock} {d d' : Disk} {i : Nat} {x : Dinode} {y : AInode}
    (h : Changed sb d i d' x y) {j : Nat} (hj : j ≠ i) (htype : (inodeTable sb d j).type ≠ 0) :
    Fs.contents d' (inodeTable sb d' j) = Fs.contents d (inodeTable sb d j) := by
  have htable : inodeTable sb d' j = inodeTable sb d j := by
    rw [h.table, Function.update_of_ne hj]
  have habs := congrFun h.abs_eq j
  rw [Function.update_of_ne hj, abs, abs, htable, absInode, absInode, if_neg htype,
    if_neg htype] at habs
  rw [htable]
  exact congrArg AInode.data habs

/-- The bytes of a file that was overwritten from `off` on. -/
theorem map_range_overwrite {f g : Nat → UInt8} {size off : Nat} {src : List UInt8}
    (hoff : off ≤ size) (hin : ∀ k, k < src.length → g (off + k) = src.getD k 0)
    (hout : ∀ o, o < size → o < off ∨ off + src.length ≤ o → g o = f o) :
    (List.range (max size (off + src.length))).map g =
      ((List.range size).map f).take off ++ src ++
        ((List.range size).map f).drop (off + src.length) := by
  rw [List.append_assoc]
  apply List.ext_getElem
  · simp only [List.length_map, List.length_range, List.length_append, List.length_take,
      List.length_drop]
    omega
  · intro o ho ho'
    have hlen : (((List.range size).map f).take off).length = off := by
      simp only [List.length_take, List.length_map, List.length_range]
      omega
    simp only [List.length_map, List.length_range] at ho
    rw [List.getElem_map, List.getElem_range]
    by_cases hlow : o < off
    · rw [List.getElem_append_left (by omega), List.getElem_take, List.getElem_map,
        List.getElem_range]
      exact hout o (by omega) (Or.inl hlow)
    · rw [List.getElem_append_right (by omega)]
      by_cases hmid : o < off + src.length
      · rw [List.getElem_append_left (by omega)]
        have hk := hin (o - off) (by omega)
        rw [show off + (o - off) = o by omega] at hk
        rw [hk, List.getD_eq_getElem?_getD, List.getElem?_eq_getElem (by omega),
          Option.getD_some]
        simp only [hlen]
      · rw [List.getElem_append_right (by omega), List.getElem_drop, List.getElem_map,
          List.getElem_range]
        rw [show off + src.length + (o - (List.take off (List.map f (List.range size))).length -
          src.length) = o by omega]
        exact hout o (by omega) (Or.inr (by omega))

namespace Wrote

variable {sb : Superblock} {i off : Nat} {d d' : Disk} {x' : Dinode} {src : List UInt8}

/-- The blocks of the other inodes. -/
theorem frame (h : Wrote sb i d (inodeTable sb d i) off src d' x') {j : Nat} (hj : j ≠ i)
    {k : Nat} (hk : (inodeTable sb d j).ref d k ≠ 0) :
    d' ((inodeTable sb d j).ref d k) = d ((inodeTable sb d j).ref d k) := by
  have hdata := h.spares (j, k) hj
  rw [view_table] at hdata
  exact hdata hk

/-- All blocks of the file are there after a write that may have made it longer. -/
theorem mapped_max (h : Wrote sb i d (inodeTable sb d i) off src d' x')
    (hmapped : Mapped d (inodeTable sb d i))
    (hoff : off ≤ (inodeTable sb d i).size.toNat) {bn : Nat}
    (hbn : bn * bsize < max (inodeTable sb d i).size.toNat (off + src.length)) :
    x'.ref d' (place bn) ≠ 0 := by
  by_cases hold : bn * bsize < (inodeTable sb d i).size.toNat
  · have hne := hmapped bn hold
    have heq := h.refs_eq (i, place bn) (by rwa [refs_self])
    rw [refs_self, refs_self] at heq
    rwa [heq]
  · have hm := h.mapped (bn * bsize - off) (by omega)
    rw [show off + (bn * bsize - off) = bn * bsize by omega,
      Nat.mul_div_cancel _ (by decide)] at hm
    exact hm

theorem contents_eq (h : Wrote sb i d (inodeTable sb d i) off src d' x')
    (hmapped : Mapped d (inodeTable sb d i))
    (hoff : off ≤ (inodeTable sb d i).size.toNat) :
    (List.range (max (inodeTable sb d i).size.toNat (off + src.length))).map (fileByte d' x') =
      (contents d (inodeTable sb d i)).take off ++ src ++
        (contents d (inodeTable sb d i)).drop (off + src.length) :=
  map_range_overwrite hoff h.written fun o ho hout => h.kept o hout (hmapped.ref_ne ho)

/-- The write did not make the file longer: the inode is unchanged. -/
theorem changed_same (h : Wrote sb i d (inodeTable sb d i) off src d' x')
    (hI : Image sb d) (htype : (inodeTable sb d i).type ≠ 0)
    (hle : off + src.length ≤ (inodeTable sb d i).size.toNat) :
    Changed sb d i d' x' { absInode d (inodeTable sb d i) with
      data := (contents d (inodeTable sb d i)).take off ++ src ++
        (contents d (inodeTable sb d i)).drop (off + src.length) } := by
  have hmapped := hI.mapped i htype
  have hx : x' = inodeTable sb d i := h.same fun k hk => hmapped.ref_ne (by omega)
  have hdata := h.contents_eq hmapped (by omega)
  have hbound : max (inodeTable sb d i).size.toNat (off + src.length) =
      (inodeTable sb d i).size.toNat := by omega
  have hm' : Mapped d' x' := by
    intro bn hbn
    rw [hx] at hbn
    exact h.mapped_max hmapped (by omega) (by omega)
  have hchanged := hI.changed (d := d') (i := i) (x := x') h.work.super ?_ ?_
    (fun j k hj hk => h.frame hj hk) (fun _ => hm')
  · have habs : absInode d' x' = { absInode d (inodeTable sb d i) with
        data := (contents d (inodeTable sb d i)).take off ++ src ++
          (contents d (inodeTable sb d i)).drop (off + src.length) } := by
      rw [← hdata, hbound, absInode, absInode, if_neg htype, if_neg h.work.type]
      subst hx
      rfl
    rwa [habs] at hchanged
  · rw [h.table, hx, Function.update_eq_self]
  · have howned := h.work.owned
    have hview : view sb d' i x' = inodeTable sb d' := by
      unfold view
      rw [hx, ← h.table, Function.update_eq_self]
    rwa [hview] at howned

/-- The write made the file longer: the inode was stored with its new size. -/
theorem changed_grow (h : Wrote sb i d (inodeTable sb d i) off src d' x')
    (hI : Image sb d) (hi : i < sb.ninodes) (htype : (inodeTable sb d i).type ≠ 0)
    (hoff : off ≤ (inodeTable sb d i).size.toNat) {n : UInt32}
    (hn : n.toNat = off + src.length) (hgt : (inodeTable sb d i).size.toNat < n.toNat) :
    Changed sb d i (putDinode sb d' i { x' with size := n }) { x' with size := n }
      { absInode d (inodeTable sb d i) with
        data := (contents d (inodeTable sb d i)).take off ++ src ++
          (contents d (inodeTable sb d i)).drop (off + src.length) } := by
  have hmapped := hI.mapped i htype
  have hdata := h.contents_eq hmapped hoff
  have hbound : max (inodeTable sb d i).size.toNat (off + src.length) = n.toNat := by omega
  generalize hx'' : { x' with size := n } = x''
  have hsize : x''.size = n := by rw [← hx'']
  have href : ∀ e k, x''.ref e k = x'.ref e k := by
    intro e k
    rw [← hx'']
    rfl
  have htype'' : x''.type ≠ 0 := by
    rw [← hx'']
    exact h.work.type
  have hm' : ∀ bn, bn * bsize < n.toNat → x'.ref d' (place bn) ≠ 0 := fun bn hbn =>
    h.mapped_max hmapped hoff (by omega)
  have hbyte : ∀ o, o < n.toNat →
      x'.ref (putDinode sb d' i x'') (place (o / bsize)) = x'.ref d' (place (o / bsize)) ∧
      fileByte (putDinode sb d' i x'') x' o = fileByte d' x' o := by
    intro o ho
    refine fileByte_putDinode hI.geo hi h.work.owned (hm' _ ?_)
    have hdiv := Nat.div_mul_le_self o bsize
    omega
  have hfile : ∀ e, fileByte e x'' = fileByte e x' := by
    intro e
    funext o
    unfold fileByte
    rw [href]
  have hchanged := hI.changed (d := putDinode sb d' i x'') (i := i) (x := x'') ?_ ?_ ?_ ?_ ?_
  · have habs : absInode (putDinode sb d' i x'') x'' = { absInode d (inodeTable sb d i) with
        data := (contents d (inodeTable sb d i)).take off ++ src ++
          (contents d (inodeTable sb d i)).drop (off + src.length) } := by
      have hcontents : contents (putDinode sb d' i x'') x'' =
          (contents d (inodeTable sb d i)).take off ++ src ++
            (contents d (inodeTable sb d i)).drop (off + src.length) := by
        rw [← hdata, hbound]
        unfold contents
        rw [hsize, hfile]
        exact List.map_congr_left fun o ho => (hbyte o (List.mem_range.mp ho)).2
      rw [absInode, if_neg htype'', hcontents, absInode, if_neg htype]
      have hattrs := h.attrs
      rw [← hx'', hattrs]
    rwa [habs] at hchanged
  · rw [readsb_putDinode hI.geo, h.work.super]
  · rw [inodeTable_putDinode sb d' hi, h.table]
  · exact owned_putDinode hI.geo hi h.work.owned (funext fun k => href d' k)
  · intro j k hj hk
    exact (hI.geo.putDinode_data d' hi (hI.owned.range (j, k) hk).1 x'').trans (h.frame hj hk)
  · intro _ bn hbn
    rw [hsize] at hbn
    have hne := hm' bn hbn
    have hb := (hbyte (bn * bsize) hbn).1
    rw [Nat.mul_div_cancel _ (by decide)] at hb
    rwa [href, hb]

end Wrote

/-! ## The operations on a cached inode -/

/-- The entry `ip` of the cache holds an allocated inode as it is on disk. -/
structure Cached (s : FsState) (ip : Fin ninode) : Prop where
  image : Image s.sb s.disk
  inum : (s.icache ip).inum < s.sb.ninodes
  copy : (s.icache ip).copy = inodeTable s.sb s.disk (s.icache ip).inum
  type : (s.icache ip).copy.type ≠ 0

section Cached

variable {s : FsState} {ip : Fin ninode}

theorem Cached.work (h : Cached s ip) :
    Work s.sb (s.icache ip).inum s.disk (s.icache ip).copy := by
  have htype := h.type
  rw [h.copy] at htype ⊢
  exact h.image.work h.inum htype

theorem Cached.mapped (h : Cached s ip) : Mapped s.disk (s.icache ip).copy := by
  have htype := h.type
  rw [h.copy] at htype ⊢
  exact h.image.mapped _ htype

/-- `writei` refuses, and nothing changes. -/
theorem writei_refuses (hdev : (s.icache ip).copy.type ≠ tDev) {src : List UInt8}
    (hlen : src.length < 2 ^ 32) {off : UInt32}
    (hdata : writeData (contents s.disk (s.icache ip).copy) off src = none) :
    writei ip src off s = .ok (none, s) := by
  have hn : (UInt32.ofNat src.length).toNat = src.length := UInt32.toNat_ofNat_of_lt' hlen
  have hsum : (off + UInt32.ofNat src.length).toNat = (off.toNat + src.length) % 2 ^ 32 := by
    rw [UInt32.toNat_add, hn]
  have hoff : off.toNat < 2 ^ 32 := off.toNat_lt
  unfold writeData at hdata
  rw [contents_length] at hdata
  unfold writei
  rw [bind_ok (a := s) (t := s) rfl]
  rw [if_neg hdev]
  by_cases hbad : (s.icache ip).copy.size.toNat < off.toNat ∨ 2 ^ 32 ≤ off.toNat + src.length
  · rw [if_pos]
    · rfl
    · rw [gt_iff_lt, UInt32.lt_iff_toNat_lt, UInt32.lt_iff_toNat_lt, hsum]
      omega
  · rw [if_neg hbad] at hdata
    by_cases hbig : maxfile * bsize < off.toNat + src.length
    · rw [if_neg, if_pos]
      · rfl
      · rw [hsum]
        omega
      · rw [gt_iff_lt, UInt32.lt_iff_toNat_lt, UInt32.lt_iff_toNat_lt, hsum]
        omega
    · rw [if_neg hbig] at hdata
      exact absurd hdata (by simp)

/-- `writei` overwrites bytes of the file, which may become longer. -/
theorem writei_spec (h : Cached s ip) (hout : 1 ≤ s.outstanding)
    (hdev : (s.icache ip).copy.type ≠ tDev) {src data : List UInt8}
    (hlen : src.length < 2 ^ 32) {off : UInt32}
    (hdata : writeData (contents s.disk (s.icache ip).copy) off src = some data) :
    wp (writei ip src off) (fun r t => r = some (UInt32.ofNat src.length) ∧
      ∃ d l x, t = s.worked ip d l x ∧ Changed s.sb s.disk (s.icache ip).inum d x
        { absInode s.disk (s.icache ip).copy with data := data }) Stop.Space s := by
  have hn : (UInt32.ofNat src.length).toNat = src.length := UInt32.toNat_ofNat_of_lt' hlen
  have hoff : off.toNat < 2 ^ 32 := off.toNat_lt
  have hsum : (off + UInt32.ofNat src.length).toNat = (off.toNat + src.length) % 2 ^ 32 := by
    rw [UInt32.toNat_add, hn]
  unfold writeData at hdata
  rw [contents_length] at hdata
  split at hdata
  · exact absurd hdata (by simp)
  rename_i hok
  split at hdata
  · exact absurd hdata (by simp)
  rename_i hfit
  have hsum' : (off + UInt32.ofNat src.length).toNat = off.toNat + src.length := by
    rw [hsum]
    omega
  rw [Option.some.injEq] at hdata
  subst hdata
  unfold writei
  simp only [wp_bind, wp_get]
  rw [if_neg hdev, if_neg, if_neg]
  · refine wp_bind_of (writeLoop_spec h.work hout (by omega) (le_refl _)) ?_
    rintro _ _ ⟨d, l, x, rfl, hwrote⟩
    have htype := h.type
    rw [h.copy] at hwrote htype hok ⊢
    split
    · rename_i hgrow
      have hgt := hgrow.2
      rw [gt_iff_lt, UInt32.lt_iff_toNat_lt, hsum'] at hgt
      have hset : setCopy ip (fun x => { x with size := off + UInt32.ofNat src.length })
          (s.worked ip d l x) = .ok ((), s.worked ip d l
            { x with size := off + UInt32.ofNat src.length }) := by
        simp [setCopy, setInode, Exec.modify, FsState.worked]
      rw [wp_bind, wp_of_ok hset]
      refine wp_bind_of (iupdate_spec (s := s.worked ip d l _) hout) ?_
      rintro _ _ ⟨l', rfl⟩
      refine ⟨rfl, _, l', _, worked_wrote .., ?_⟩
      have hinum : ∀ y, ((s.worked ip d l y).icache ip).inum = (s.icache ip).inum := by
        simp [FsState.worked]
      rw [hinum, worked_copy]
      exact hwrote.changed_grow h.image h.inum htype (by omega) hsum' (by omega)
    · rename_i hsame
      refine ⟨rfl, d, l, x, rfl, hwrote.changed_same h.image htype ?_⟩
      rw [gt_iff_lt, gt_iff_lt, UInt32.lt_iff_toNat_lt, UInt32.lt_iff_toNat_lt, hsum', hn] at hsame
      have hzero : (0 : UInt32).toNat = 0 := rfl
      omega
  · rw [hsum']
    omega
  · rw [gt_iff_lt, UInt32.lt_iff_toNat_lt, UInt32.lt_iff_toNat_lt, hsum']
    omega

/-- The inode after a change of its contents. -/
theorem Changed.cached {d : Disk} {x : Dinode} {l : List Nat} {data : List UInt8}
    (h : Cached s ip) (hc : Changed s.sb s.disk (s.icache ip).inum d x
      { absInode s.disk (s.icache ip).copy with data := data }) :
    Cached (s.worked ip d l x) ip ∧ x.type = (s.icache ip).copy.type ∧ contents d x = data := by
  have hx : inodeTable s.sb d (s.icache ip).inum = x := by
    rw [hc.table, Function.update_self]
  have habs : absInode d x = { absInode s.disk (s.icache ip).copy with data := data } := by
    have hat := congrFun hc.abs_eq (s.icache ip).inum
    rw [Function.update_self, abs, hx] at hat
    exact hat
  have hold : absInode s.disk (s.icache ip).copy = _ := if_neg h.type
  have hnew : x.type ≠ 0 := by
    intro hzero
    rw [absInode, if_pos hzero, hold] at habs
    exact h.type (congrArg AInode.type habs).symm
  rw [absInode, if_neg hnew, hold] at habs
  have hworked : (s.worked ip d l x).icache ip = { s.icache ip with copy := x } := by
    simp [FsState.worked]
  refine ⟨⟨hc.image, ?_, ?_, ?_⟩, congrArg AInode.type habs, congrArg AInode.data habs⟩
  · rw [hworked]
    exact h.inum
  · rw [hworked]
    exact hx.symm
  · rw [hworked]
    exact hnew

end Cached

end Xv6.Fs
