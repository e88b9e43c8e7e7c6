import Xv6.Fs.Lookup

/-!
# File system - A directory is a map

A directory is a slot table: an entry with inode number 0 is free, the key of an entry is its
name, cut at a zero or after `DIRSIZ` bytes.  `dirlink` puts an entry into the first free slot,
and `sys_unlink` erases the entry that `dirlookup` reported.

Main results:

- Theorem {lit}`dirlink_kernel`: {lit}`dirlink` refuses a name that is there and adds any other.
- Theorem {lit}`eraseEntry_kernel`: erasing an entry removes its name.
- Theorem {lit}`directory_map`: the directory is a finite map, as long as it ever had to be.
-/

namespace Xv6.Fs

open Foundations

/-! ## The slot table -/

/-- The entry is in use. -/
def Dirent.live (de : Dirent) : Bool :=
  decide (de.inum ≠ 0)

/-- The inode number of a name. -/
def inumOf (es : List Dirent) (name : List UInt8) : Option Nat :=
  (lookup es name).map Prod.snd

/-- The entries in use have distinct names. -/
abbrev DistinctNames (es : List Dirent) : Prop :=
  SlotsDistinct Dirent.live Dirent.label es

/-- The number of entries in use. -/
def liveCount (es : List Dirent) : Nat :=
  es.countP Dirent.live

section Table

variable {es : List Dirent} {name : List UInt8}

theorem lookupFrom_slotOf (name : List UInt8) (j : Nat) (es : List Dirent) :
    (lookupFrom name j es).map Prod.snd =
      (slotOf Dirent.live Dirent.label (cstr dirsiz name) es).map fun de => de.inum.toNat := by
  induction es generalizing j with
  | nil => rfl
  | cons de es ih =>
    unfold lookupFrom slotOf
    rw [List.find?_cons]
    by_cases hmatch : de.inum ≠ 0 ∧ namecmp name de.bytes = 0
    · have hfound : (de.live && decide (de.label = cstr dirsiz name)) = true := by
        rw [Bool.and_eq_true, decide_eq_true_eq]
        exact ⟨decide_eq_true hmatch.1, ((namecmp_eq_zero _ _).mp hmatch.2).symm⟩
      rw [if_pos hmatch, hfound]
      rfl
    · have hfound : (de.live && decide (de.label = cstr dirsiz name)) = false := by
        rw [Bool.and_eq_false_iff, decide_eq_false_iff_not]
        by_cases hzero : de.inum = 0
        · exact Or.inl (decide_eq_false (not_not.mpr hzero))
        · refine Or.inr fun hlabel => hmatch ⟨hzero, ?_⟩
          exact (namecmp_eq_zero _ _).mpr hlabel.symm
      rw [if_neg hmatch, hfound]
      exact ih (j + 1)

/-- The first entry with a name is the slot of the name. -/
theorem inumOf_eq (es : List Dirent) (name : List UInt8) :
    inumOf es name =
      (slotOf Dirent.live Dirent.label (cstr dirsiz name) es).map fun de => de.inum.toNat :=
  lookupFrom_slotOf name 0 es

theorem slotOf_of_lookup_none (h : lookup es name = none) :
    slotOf Dirent.live Dirent.label (cstr dirsiz name) es = none := by
  have heq := inumOf_eq es name
  rw [inumOf, h, Option.map_none] at heq
  exact Option.map_eq_none_iff.mp heq.symm

theorem emptyFrom_eq (j : Nat) (es : List Dirent) :
    emptyFrom j es = j + freeSlot Dirent.live es := by
  induction es generalizing j with
  | nil => rfl
  | cons de es ih =>
    unfold emptyFrom freeSlot
    rw [List.findIdx_cons]
    by_cases hzero : de.inum = 0
    · have hlive : (!de.live) = true := by simp [Dirent.live, hzero]
      rw [if_pos hzero, hlive]
      rfl
    · have hlive : (!de.live) = false := by simp [Dirent.live, hzero]
      rw [if_neg hzero, hlive, ih (j + 1)]
      simp only [cond_false, freeSlot]
      omega

theorem direntOf_inum (name : List UInt8) {inum : Nat} (hlt : inum < 2 ^ 16) :
    (direntOf name inum).inum.toNat = inum :=
  UInt16.toNat_ofNat_of_lt' hlt

theorem direntOf_live (name : List UInt8) {inum : Nat} (hpos : 0 < inum) (hlt : inum < 2 ^ 16) :
    (direntOf name inum).live = true := by
  refine decide_eq_true fun hzero => ?_
  have htoNat := direntOf_inum name hlt
  rw [hzero] at htoNat
  exact absurd htoNat (Nat.ne_of_lt hpos)

theorem direntOf_label (name : List UInt8) (inum : Nat) :
    (direntOf name inum).label = cstr dirsiz name :=
  label_strncpy _ name

/-- The table with a new name. -/
theorem inumOf_put (hd : DistinctNames es) {inum : Nat} (hpos : 0 < inum) (hlt : inum < 2 ^ 16)
    (hnew : lookup es name = none) (b : List UInt8) :
    inumOf (putSlot es (emptyFrom 0 es) (direntOf name inum)) b =
      if cstr dirsiz name = cstr dirsiz b then some inum else inumOf es b := by
  obtain ⟨hle, hfree⟩ := freeSlot_spec Dirent.live es
  have hnone := slotOf_of_lookup_none hnew
  have hput := slotOf_put hd hle hfree (direntOf_live name hpos hlt)
    (by rwa [direntOf_label]) (cstr dirsiz b)
  have hempty : emptyFrom 0 es = freeSlot Dirent.live es := by rw [emptyFrom_eq, Nat.zero_add]
  rw [inumOf_eq, inumOf_eq, hempty, hput, direntOf_label]
  split
  · rw [Option.map_some, direntOf_inum name hlt]
  · rfl

theorem distinct_put (hd : DistinctNames es) {inum : Nat} (hnew : lookup es name = none) :
    DistinctNames (putSlot es (emptyFrom 0 es) (direntOf name inum)) := by
  have hempty : emptyFrom 0 es = freeSlot Dirent.live es := by rw [emptyFrom_eq, Nat.zero_add]
  have hle := (freeSlot_spec Dirent.live es).1
  rw [hempty]
  refine SlotsDistinct.put hd hle ?_
  rw [direntOf_label]
  exact slotOf_of_lookup_none hnew

theorem length_putName {inum : Nat} (hpos : 0 < inum) (hlt : inum < 2 ^ 16) :
    (putSlot es (emptyFrom 0 es) (direntOf name inum)).length =
      max es.length (liveCount (putSlot es (emptyFrom 0 es) (direntOf name inum))) := by
  have hempty : emptyFrom 0 es = freeSlot Dirent.live es := by rw [emptyFrom_eq, Nat.zero_add]
  rw [hempty]
  exact length_put (direntOf_live name hpos hlt)

theorem zero_dead : Dirent.zero.live = false :=
  rfl

theorem putSlot_of_lt {j : Nat} (hj : j < es.length) (de : Dirent) :
    putSlot es j de = es.set j de :=
  if_pos hj

/-- The table without a name. -/
theorem inumOf_erase (hd : DistinctNames es) {j i : Nat} (hfound : lookup es name = some (j, i))
    (b : List UInt8) :
    inumOf (putSlot es j Dirent.zero) b =
      if cstr dirsiz name = cstr dirsiz b then none else inumOf es b := by
  obtain ⟨hj, hlive, -, hname⟩ := lookup_some hfound
  have hlabel : es[j].label = cstr dirsiz name := ((namecmp_eq_zero _ _).mp hname).symm
  have herase := slotOf_erase hd hj (decide_eq_true hlive) zero_dead (cstr dirsiz b)
  rw [putSlot_of_lt hj, inumOf_eq, inumOf_eq, herase, hlabel]
  split
  · rfl
  · rfl

end Table

/-! ## Changing a directory -/

/-- A directory that the caller holds, inside a transaction.  The entries in use have distinct
names. -/
structure Directory (s : FsState) (dp : Fin ninode) : Prop extends CachedDir s dp where
  held : 0 < (s.icache dp).ref
  trans : 1 ≤ s.outstanding
  distinct : DistinctNames (slots s dp)

/-- The directory is the same in both states. -/
structure SameDir (s t : FsState) (dp : Fin ninode) : Prop where
  disk : t.disk = s.disk
  sb : t.sb = s.sb
  lh : t.lh = s.lh
  trans : t.outstanding = s.outstanding
  copy : (t.icache dp).copy = (s.icache dp).copy
  inum : (t.icache dp).inum = (s.icache dp).inum
  held : 0 < (t.icache dp).ref

section Same

variable {s t : FsState} {dp : Fin ninode}

theorem SameDir.slots_eq (h : SameDir s t dp) : slots t dp = slots s dp := by
  unfold slots
  rw [h.disk, h.copy]

theorem SameDir.directory (h : SameDir s t dp) (hs : Directory s dp) : Directory t dp := by
  have hc := hs.cached
  refine ⟨⟨⟨?_, ?_, ?_, ?_⟩, ?_, ?_⟩, h.held, ?_, ?_⟩
  · rw [h.sb, h.disk]
    exact hc.image
  · rw [h.inum, h.sb]
    exact hc.inum
  · rw [h.copy, h.inum, h.sb, h.disk]
    exact hc.copy
  · rw [h.copy]
    exact hc.type
  · rw [h.copy]
    exact hs.dir
  · rw [h.copy]
    exact hs.whole
  · rw [h.trans]
    exact hs.trans
  · rw [h.slots_eq]
    exact hs.distinct

theorem SameDir.trans' {u : FsState} (h : SameDir s t dp) (h' : SameDir t u dp) :
    SameDir s u dp :=
  ⟨h'.disk.trans h.disk, h'.sb.trans h.sb, h'.lh.trans h.lh, h'.trans.trans h.trans,
    h'.copy.trans h.copy, h'.inum.trans h.inum, h'.held⟩

/-- Taking a reference changes no cached directory. -/
theorem SameDir.got (hheld : 0 < (s.icache dp).ref) (k : Fin ninode) (i : Nat) :
    SameDir s (s.setEntry k (gotInode (s.icache k) i)) dp := by
  by_cases hk : dp = k
  · subst hk
    have hgot : gotInode (s.icache dp) i = { s.icache dp with ref := (s.icache dp).ref + 1 } :=
      if_pos hheld
    refine ⟨rfl, rfl, rfl, rfl, ?_, ?_, ?_⟩
    · rw [setEntry_self, hgot]
    · rw [setEntry_self, hgot]
    · rw [setEntry_self, hgot]
      show 0 < (s.icache dp).ref + 1
      omega
  · have hsame := setEntry_ne s k dp (gotInode (s.icache k) i) hk
    exact ⟨rfl, rfl, rfl, rfl, by rw [hsame], by rw [hsame], by rwa [hsame]⟩

/-- Dropping it again changes none either. -/
theorem SameDir.dropped {k : Fin ninode} (hheld : 0 < (s.icache dp).ref)
    (hmore : k = dp → 1 < (s.icache dp).ref) : SameDir s (s.dropRef k) dp := by
  unfold FsState.dropRef
  by_cases hk : dp = k
  · subst hk
    have hone := hmore rfl
    refine ⟨rfl, rfl, rfl, rfl, ?_, ?_, ?_⟩
    · rw [setEntry_self]
    · rw [setEntry_self]
    · rw [setEntry_self]
      show 0 < (s.icache dp).ref - 1
      omega
  · have hsame := setEntry_ne s k dp { s.icache k with ref := (s.icache k).ref - 1 } hk
    exact ⟨rfl, rfl, rfl, rfl, by rw [hsame], by rw [hsame], by rwa [hsame]⟩

theorem got_ref_of_held (hheld : 0 < (s.icache dp).ref) (i : Nat) :
    1 < ((s.setEntry dp (gotInode (s.icache dp) i)).icache dp).ref := by
  rw [setEntry_self, gotInode, if_pos hheld]
  show 1 < (s.icache dp).ref + 1
  omega

end Same

section Write

variable {s : FsState} {dp : Fin ninode} {p : Fin nproc}

/-- The loop of `dirlink` finds the first free entry. -/
theorem emptyEntryLoop_kernel (h : CachedDir s dp) {fuel : Nat} :
    ∀ {off : UInt32} {j : Nat}, off.toNat = 16 * j → j ≤ (slots s dp).length →
      (slots s dp).length < j + fuel →
      wp ((emptyEntryLoop dp fuel off).run (handle p))
        (fun r t => t = s ∧ r.toNat = 16 * emptyFrom j ((slots s dp).drop j))
        (fun _ => False) s := by
  have hsize := h.size_le
  have hlen := h.slots_length
  induction fuel with
  | zero =>
    intro off j _ hj hfuel
    omega
  | succ fuel ih =>
    intro off j hoff hj hfuel
    unfold emptyEntryLoop
    refine h.round hoff (fun hin bytes hblen hdecode => ?_) fun hout => ?_
    · simp only
      rw [if_neg (not_not.mpr hblen), hdecode, List.drop_eq_getElem_cons hin, emptyFrom]
      by_cases hzero : (slots s dp)[j].inum = 0
      · rw [if_pos hzero, if_pos hzero]
        exact ⟨rfl, hoff⟩
      · rw [if_neg hzero, if_neg hzero]
        exact ih (toNat_add_sixteen hoff (by omega)) hin (by omega)
    · rw [List.drop_eq_nil_of_le hout]
      exact ⟨rfl, hoff⟩

/-- The directory has no room for one more entry. -/
def DirFull (s : FsState) (dp : Fin ninode) : Prop :=
  maxfile * bsize < 16 * (slots s dp).length + 16

/-- The state after an entry was written. -/
def EntryWritten (s : FsState) (dp : Fin ninode) (k : Nat) (de : Dirent) (t : FsState) : Prop :=
  (∃ d l x, t = s.worked dp d l x) ∧ CachedDir t dp ∧
    slots t dp = putSlot (slots s dp) k de

/-- The entry cannot be written: the log has no room for the calls of {lit}`log_write`, or the free
blocks do not last. -/
def EntryStops (s : FsState) (dp : Fin ninode) (k : Nat) (e : Stop) : Prop :=
  Stops s ⟨s.writeCalls dp (16 * k) 16, (s.writeLog dp (16 * k) 16).complete⟩ e

theorem SameDir.entryStops {t : FsState} {k : Nat} {e : Stop} (h : SameDir s t dp)
    (he : EntryStops t dp k e) : EntryStops s dp k e := by
  have hlog : ∀ off n, t.writeLog dp off n = s.writeLog dp off n := by
    intro off n
    rw [FsState.writeLog, h.disk, h.sb, h.copy, FsState.writeLog]
  have hgrows : t.grows dp (16 * k) 16 ↔ s.grows dp (16 * k) 16 := by
    rw [FsState.grows, h.copy, FsState.grows]
  have hcalls : t.writeCalls dp (16 * k) 16 = s.writeCalls dp (16 * k) 16 := by
    rw [FsState.writeCalls, hlog, h.sb, h.inum]
    exact congrArg _ (if_congr (and_congr_right fun _ => hgrows) rfl rfl)
  rw [EntryStops, hcalls, hlog] at he
  simpa only [EntryStops, Stops, OutOfBlocks, Full, FsState.HasRoom, FsState.after, h.sb, h.lh]
    using he

theorem encode_length (de : Dirent) : (direntLayout.encode de).length = 16 :=
  direntLayout.encode_length de

/-- Writing an entry, in the table or right behind it. -/
theorem writeEntry_kernel (h : CachedDir s dp) (htrans : 1 ≤ s.outstanding) {off : UInt32}
    {k : Nat} (hoff : off.toNat = 16 * k) (hk : k ≤ (slots s dp).length) (de : Dirent) :
    wp (writei dp (direntLayout.encode de) off)
      (fun r t => r = some 16 ∧ EntryWritten s dp k de t ∨
        r = none ∧ k = (slots s dp).length ∧ DirFull s dp) (EntryStops s dp k) s := by
  have hsize := h.size_le
  have hlen := h.slots_length
  have hdev : (s.icache dp).copy.type ≠ tDev := by
    rw [h.dir]
    decide
  have hfits : (direntLayout.encode de).length < 2 ^ 32 := by
    rw [encode_length]
    decide
  have hmax : maxfile * bsize = 71680 := by decide
  cases hdata : writeData (contents s.disk (s.icache dp).copy) off (direntLayout.encode de) with
  | none =>
    rw [wp_of_ok (writei_refuses hdev hfits hdata)]
    unfold writeData at hdata
    rw [contents_length, encode_length, hoff] at hdata
    rw [if_neg (by omega)] at hdata
    refine Or.inr ⟨rfl, ?_⟩
    unfold DirFull
    split at hdata
    · omega
    · exact absurd hdata (by simp)
  | some data =>
    have hrefuse : ¬ maxfile * bsize < 16 * k + 16 := by
      intro hbig
      unfold writeData at hdata
      rw [contents_length, encode_length, hoff, if_neg (by omega), if_pos hbig] at hdata
      exact absurd hdata (by simp)
    have hle : off.toNat ≤ (s.icache dp).copy.size.toNat := by omega
    have hfollows := writei_follows h.cached htrans hdev (direntLayout.encode de) hle
      (by rw [encode_length]; omega)
    rw [encode_length, hoff] at hfollows
    refine wp_mono (wp_and_right (writei_spec h.cached htrans hdev hfits hdata) hfollows) ?_
      fun _ he => he
    rintro r t ⟨⟨hr, d, l, x, rfl, hchanged⟩, -⟩
    obtain ⟨hcached, htype, hcontents⟩ := Changed.cached (l := l) h.cached hchanged
    have hcopy := worked_copy s dp d l x
    have hdisk : (s.worked dp d l x).disk = d := rfl
    have hput := entries_put hoff (encode_length de)
      (by rw [contents_length]; omega) hdata
    rw [direntLayout.decode_encode] at hput
    refine Or.inl ⟨?_, ⟨d, l, x, rfl⟩, ⟨hcached, ?_, ?_⟩, ?_⟩
    · rw [hr, encode_length]
      rfl
    · rw [hcopy, htype]
      exact h.dir
    · have hlen' := contents_length d x
      rw [hcontents] at hlen'
      rw [hcopy, ← hlen']
      unfold writeData at hdata
      rw [contents_length, encode_length, hoff, if_neg (by omega), if_neg hrefuse,
        Option.some.injEq] at hdata
      rw [← hdata]
      simp only [List.length_append, List.length_take, List.length_drop, contents_length,
        encode_length]
      omega
    · unfold slots
      rw [hcopy, hdisk, hcontents]
      exact hput

theorem EntryWritten.directory {k : Nat} {de : Dirent} {t : FsState}
    (h : EntryWritten s dp k de t) (hheld : 0 < (s.icache dp).ref) (htrans : 1 ≤ s.outstanding)
    (hd : DistinctNames (putSlot (slots s dp) k de)) : Directory t dp := by
  obtain ⟨⟨d, l, x, rfl⟩, hdir, hslots⟩ := h
  refine ⟨hdir, ?_, htrans, ?_⟩
  · have hworked : (s.worked dp d l x).icache dp = { s.icache dp with copy := x } := by
      simp [FsState.worked]
    rw [hworked]
    exact hheld
  · rw [hslots]
    exact hd

end Write

/-! ## The operations -/

/-- The part of `sys_unlink` that erases the entry of a name, and dropping the reference that
`dirlookup` took; `false` when there is no entry. -/
def eraseEntry (dp : Fin ninode) (name : List UInt8) : FsProg Bool := do
  match ← dirlookup dp name with
  | none => return false
  | some (ip, off) => do
    let n ← perform (.writei dp (direntLayout.encode Dirent.zero) off)
    if n ≠ some 16 then panicWith .unlinkWritei
    else do
      perform (.iput ip)
      return true

section Operations

variable {s : FsState} {dp : Fin ninode} {p : Fin nproc}

theorem panic_kernel {α : Type} {e : Stop} {Q : α → FsState → Prop} {E : Stop → Prop}
    (hE : E e) : wp ((panicWith e : FsProg α).run (handle p)) Q E s :=
  hE

/-- `dirlookup` on a directory gives the inode of the name. -/
theorem dirlookup_inumOf (h : Directory s dp) (name : List UInt8) :
    wp ((dirlookup dp name).run (handle p)) (fun r t => SameDir s t dp ∧
      r.map (fun q => (t.icache q.1).inum) = inumOf (slots s dp) name)
      (fun e => e = .igetNoInodes ∧ ∃ i, inumOf (slots s dp) name = some i ∧
        slotFor s i = none) s := by
  refine wp_mono (dirlookup_kernel h.toCachedDir name) ?_ ?_
  · rintro r t (⟨hnone, rfl, rfl⟩ | ⟨j, i, k, off, hfound, rfl, -, hslot, rfl⟩)
    · refine ⟨⟨rfl, rfl, rfl, rfl, rfl, rfl, h.held⟩, ?_⟩
      rw [inumOf, hnone]
      rfl
    · refine ⟨SameDir.got h.held k i, ?_⟩
      rw [inumOf, hfound, Option.map_some, Option.map_some, setEntry_self]
      congr 1
      unfold gotInode
      rcases igetSlot_some hslot with ⟨hpos, hinum⟩ | ⟨hzero, -⟩
      · rw [if_pos hpos]
        exact hinum
      · rw [if_neg (by omega)]
  · rintro e ⟨he, j, i, hfound, hnone⟩
    exact ⟨he, i, by rw [inumOf, hfound]; rfl, hnone⟩

/-- `dirlink` of a name that is there: nothing is written. -/
theorem dirlink_present (h : Directory s dp) {name : List UInt8} {j i : Nat}
    (hfound : lookup (slots s dp) name = some (j, i)) (inum : Nat) :
    wp ((dirlink dp name inum).run (handle p)) (fun r t => r = false ∧ SameDir s t dp)
      (fun e => e = .igetNoInodes ∧ slotFor s i = none) s := by
  have hlook := dirlookup_kernel (p := p) h.toCachedDir name
  rw [hfound] at hlook
  unfold dirlink
  refine Prog.wp_run_bind_of (wp_mono hlook (fun _ _ hpost => hpost) ?_) ?_
  · rintro e ⟨he, j', i', hsame, hnone⟩
    rw [Option.some.injEq, Prod.mk.injEq] at hsame
    rw [hsame.2]
    exact ⟨he, hnone⟩
  · rintro r t (⟨hnone, -⟩ | ⟨j', i', k, off, -, rfl, -, -, rfl⟩)
    · exact absurd hnone (by simp)
    · have hgot := SameDir.got h.held k i'
      have hput : iput k (s.setEntry k (gotInode (s.icache k) i')) = .ok ((), _) :=
        iput_ok (by rw [setEntry_self]; exact gotInode_stays _ _)
      refine Prog.wp_call_bind_of (P := fun _ u => u =
        (s.setEntry k (gotInode (s.icache k) i')).dropRef k) ((wp_of_ok hput).mpr rfl) ?_
      rintro _ u rfl
      refine ⟨rfl, hgot.trans' (SameDir.dropped hgot.held ?_)⟩
      rintro rfl
      exact got_ref_of_held h.held i'

/-- `dirlink` of a new name: the first free entry, or one more, is written. -/
theorem dirlink_absent (h : Directory s dp) {name : List UInt8}
    (hnew : lookup (slots s dp) name = none) (inum : Nat) :
    wp ((dirlink dp name inum).run (handle p)) (fun r t => r = true ∧
      EntryWritten s dp (emptyFrom 0 (slots s dp)) (direntOf name inum) t)
      (fun e => EntryStops s dp (emptyFrom 0 (slots s dp)) e ∨ e = .dirlink ∧ DirFull s dp ∧
        liveCount (slots s dp) = (slots s dp).length) s := by
  have hlook := dirlookup_kernel (p := p) h.toCachedDir name
  have hlen := h.toCachedDir.slots_length
  have hempty : emptyFrom 0 (slots s dp) = freeSlot Dirent.live (slots s dp) := by
    rw [emptyFrom_eq, Nat.zero_add]
  rw [hnew] at hlook
  unfold dirlink
  refine Prog.wp_run_bind_of (wp_mono hlook (fun _ _ hpost => hpost) ?_) ?_
  · rintro e ⟨-, j, i, hbad, -⟩
    exact absurd hbad (by simp)
  rintro r t (⟨-, rfl, rfl⟩ | ⟨j, i, k, off, hbad, -⟩)
  · refine Prog.wp_call_bind_of (P := fun x u => x.size = (t.icache dp).copy.size ∧ u = t)
      ⟨rfl, rfl⟩ ?_
    rintro x u ⟨hx, rfl⟩
    rw [hx]
    have hfuel : (slots u dp).length < 0 + ((u.icache dp).copy.size.toNat / direntSize + 1) := by
      rw [direntSize_eq]
      omega
    refine Prog.wp_run_bind_of (wp_mono (emptyEntryLoop_kernel h.toCachedDir (j := 0) rfl
      (Nat.zero_le _) hfuel) (fun _ _ hpost => hpost) fun _ he => he.elim) ?_
    rintro off v ⟨rfl, hoff⟩
    rw [List.drop_zero] at hoff
    have hle : emptyFrom 0 (slots v dp) ≤ (slots v dp).length := by
      rw [hempty]
      exact (freeSlot_spec ..).1
    refine Prog.wp_call_bind_of (wp_mono (writeEntry_kernel h.toCachedDir h.trans hoff hle
      (direntOf name inum)) (fun _ _ hpost => hpost) fun _ he => Or.inl he) ?_
    rintro n w (⟨rfl, hwritten⟩ | ⟨rfl, hend, hfull⟩)
    · rw [if_neg (not_not.mpr rfl)]
      exact ⟨rfl, hwritten⟩
    · rw [if_pos (by simp)]
      refine panic_kernel (Or.inr ⟨rfl, hfull, ?_⟩)
      unfold liveCount
      rw [List.countP_eq_length]
      intro de hde
      rw [hempty] at hend
      have hno := List.findIdx_eq_length.mp hend de hde
      simpa using hno
  · exact absurd hbad (by simp)

/-- Erasing the entry of a name. -/
theorem eraseEntry_kernel (h : Directory s dp) (name : List UInt8) :
    wp ((eraseEntry dp name).run (handle p)) (fun r t => Directory t dp ∧
      (r = true ↔ lookup (slots s dp) name ≠ none) ∧
      (lookup (slots s dp) name = none → slots t dp = slots s dp) ∧
      ∀ j i, lookup (slots s dp) name = some (j, i) →
        slots t dp = putSlot (slots s dp) j Dirent.zero)
      (fun e => ∃ j i, lookup (slots s dp) name = some (j, i) ∧
        (e = .igetNoInodes ∧ slotFor s i = none ∨ EntryStops s dp j e)) s := by
  unfold eraseEntry
  refine Prog.wp_run_bind_of (wp_mono (dirlookup_kernel h.toCachedDir name)
    (fun _ _ hpost => hpost) ?_) ?_
  · rintro e ⟨he, j, i, hfound, hnone⟩
    exact ⟨j, i, hfound, Or.inl ⟨he, hnone⟩⟩
  rintro r t (⟨hnone, rfl, rfl⟩ | ⟨j, i, k, off, hfound, rfl, hoff, -, rfl⟩)
  · refine ⟨h, ?_, fun _ => rfl, ?_⟩
    · rw [hnone]
      simp
    · intro j i hbad
      rw [hnone] at hbad
      exact absurd hbad (by simp)
  · obtain ⟨hj, -⟩ := lookup_some hfound
    have hgot := SameDir.got h.held k i
    have hdir := hgot.directory h
    generalize ht : s.setEntry k (gotInode (s.icache k) i) = t at hgot hdir
    refine Prog.wp_call_bind_of (wp_mono (writeEntry_kernel hdir.toCachedDir hdir.trans hoff
      (by rw [hgot.slots_eq]; omega) Dirent.zero) (fun _ _ hpost => hpost)
      fun _ he => ⟨j, i, hfound, Or.inr (hgot.entryStops he)⟩) ?_
    rintro n u (⟨rfl, hwritten⟩ | ⟨rfl, hend, -⟩)
    · rw [if_neg (not_not.mpr rfl)]
      have hdistinct : DistinctNames (putSlot (slots t dp) j Dirent.zero) := by
        rw [hgot.slots_eq, putSlot_of_lt hj]
        exact SlotsDistinct.erase h.distinct zero_dead
      have hu := hwritten.directory hdir.held hdir.trans hdistinct
      obtain ⟨⟨d, l, x, rfl⟩, -, hslots⟩ := hwritten
      -- the write leaves the reference and the flag of every entry of the cache as they were
      have hsame : ((t.worked dp d l x).icache k).ref = (gotInode (s.icache k) i).ref ∧
          ((t.worked dp d l x).icache k).valid = (gotInode (s.icache k) i).valid := by
        have hk : t.icache k = gotInode (s.icache k) i := by
          rw [← ht]
          exact setEntry_self ..
        unfold FsState.worked
        by_cases hkd : k = dp
        · subst hkd
          rw [← hk]
          simp
        · rw [← hk]
          simp [hkd]
      have hput : iput k (t.worked dp d l x) = .ok ((), (t.worked dp d l x).dropRef k) := by
        refine iput_ok ?_
        rw [hsame.1, hsame.2]
        rintro ⟨hone, hvalid, -⟩
        unfold gotInode at hone hvalid
        split at hone
        · rename_i hpos
          have hone' : (s.icache k).ref + 1 = 1 := hone
          omega
        · rename_i hpos
          rw [if_neg hpos] at hvalid
          exact Bool.false_ne_true hvalid
      refine Prog.wp_call_bind_of (P := fun _ v => v = (t.worked dp d l x).dropRef k)
        ((wp_of_ok hput).mpr rfl) ?_
      rintro _ v rfl
      have hdrop : SameDir (t.worked dp d l x) ((t.worked dp d l x).dropRef k) dp := by
        refine SameDir.dropped hu.held ?_
        rintro rfl
        rw [hsame.1, gotInode, if_pos h.held]
        show 1 < (s.icache k).ref + 1
        have hheld := h.held
        omega
      refine ⟨hdrop.directory hu, ?_, ?_, ?_⟩
      · rw [hfound]
        simp
      · intro hbad
        rw [hfound] at hbad
        exact absurd hbad (by simp)
      · intro j' i' hsame'
        rw [hfound, Option.some.injEq, Prod.mk.injEq] at hsame'
        rw [hdrop.slots_eq, hslots, hgot.slots_eq, hsame'.1]
    · rw [hgot.slots_eq] at hend
      omega

end Operations

/-! ## The directory as a map -/

/-- `dirlookup` in state `s` gives the inode number `found` for a name.  It panics when the inode
is not cached and the inode cache is full. -/
def Finds (p : Fin nproc) (s : FsState) (dp : Fin ninode) (name : List UInt8)
    (found : Option Nat) : Prop :=
  wp ((dirlookup dp name).run (handle p))
    (fun r t => SameDir s t dp ∧ r.map (fun q => (t.icache q.1).inum) = found)
    (fun e => e = .igetNoInodes ∧ ∃ i, found = some i ∧ slotFor s i = none) s

/-- What `dirlink` of a name does. -/
structure NameLinked (p : Fin nproc) (s : FsState) (dp : Fin ninode) (name : List UInt8)
    (inum : Nat) (r : Bool) (t : FsState) : Prop where
  directory : Directory t dp
  refused : r = false ↔ inumOf (slots s dp) name ≠ none
  unchanged : r = false → SameDir s t dp
  finds : r = true → ∀ b, Finds p t dp b
    (if cstr dirsiz name = cstr dirsiz b then some inum else inumOf (slots s dp) b)
  grows : (slots t dp).length ≠ (slots s dp).length →
    (∀ de ∈ slots s dp, de.inum ≠ 0) ∧ (slots t dp).length = (slots s dp).length + 1

/-- What erasing the entry of a name does. -/
structure NameErased (p : Fin nproc) (s : FsState) (dp : Fin ninode) (name : List UInt8)
    (r : Bool) (t : FsState) : Prop where
  directory : Directory t dp
  erased : r = true ↔ inumOf (slots s dp) name ≠ none
  finds : ∀ b, Finds p t dp b
    (if cstr dirsiz name = cstr dirsiz b then none else inumOf (slots s dp) b)
  length : (slots t dp).length = (slots s dp).length

/-- Why `dirlink` does not return: the name is there, its inode is not cached and the inode cache
is full; or it is not, and the entry cannot be written, or the directory is as long as a file can
be and has no free entry. -/
def LinkStops (s : FsState) (dp : Fin ninode) (name : List UInt8) (e : Stop) : Prop :=
  match inumOf (slots s dp) name with
  | some i => e = .igetNoInodes ∧ slotFor s i = none
  | none => EntryStops s dp (emptyFrom 0 (slots s dp)) e ∨
      e = .dirlink ∧ DirFull s dp ∧ liveCount (slots s dp) = (slots s dp).length

/-- Why erasing does not return: the name is there, and its inode is not cached and the inode
cache is full, or the entry cannot be written. -/
def EraseStops (s : FsState) (dp : Fin ninode) (name : List UInt8) (e : Stop) : Prop :=
  ∃ j i, lookup (slots s dp) name = some (j, i) ∧
    (e = .igetNoInodes ∧ slotFor s i = none ∨ EntryStops s dp j e)

section Map

variable {s t : FsState} {dp : Fin ninode} {p : Fin nproc} {name : List UInt8}

theorem Directory.finds (h : Directory s dp) (name : List UInt8) :
    Finds p s dp name (inumOf (slots s dp) name) :=
  dirlookup_inumOf h name

theorem all_live_of_end {es : List Dirent} (h : ¬ freeSlot Dirent.live es < es.length) :
    ∀ de ∈ es, de.inum ≠ 0 := by
  have hend : freeSlot Dirent.live es = es.length :=
    le_antisymm (freeSlot_spec Dirent.live es).1 (not_lt.mp h)
  intro de hde
  have hno := List.findIdx_eq_length.mp hend de hde
  simpa [Dirent.live] using hno

theorem dirlink_map (h : Directory s dp) (name : List UInt8) {inum : Nat} (hpos : 0 < inum)
    (hlt : inum < 2 ^ 16) :
    wp ((dirlink dp name inum).run (handle p)) (NameLinked p s dp name inum)
      (LinkStops s dp name) s := by
  unfold LinkStops
  cases hfound : lookup (slots s dp) name with
  | some q =>
    obtain ⟨j, i⟩ := q
    have hinum : inumOf (slots s dp) name = some i := by
      rw [inumOf, hfound]
      rfl
    rw [hinum]
    refine wp_mono (dirlink_present h hfound inum) ?_ fun _ he => he
    rintro r t ⟨rfl, hsame⟩
    refine ⟨hsame.directory h, ?_, fun _ => hsame, ?_, ?_⟩
    · rw [hinum]
      simp
    · intro hbad
      exact absurd hbad Bool.false_ne_true
    · intro hne
      exact absurd (congrArg List.length hsame.slots_eq) hne
  | none =>
    have hinum : inumOf (slots s dp) name = none := by
      rw [inumOf, hfound]
      rfl
    rw [hinum]
    refine wp_mono (dirlink_absent h hfound inum) ?_ fun _ he => he
    rintro r t ⟨rfl, hwritten⟩
    have hslots := hwritten.2.2
    have hdir := hwritten.directory h.held h.trans (distinct_put h.distinct hfound)
    refine ⟨hdir, ?_, ?_, ?_, ?_⟩
    · rw [hinum]
      simp
    · intro hbad
      exact absurd hbad.symm Bool.false_ne_true
    · intro _ b
      have hfinds := hdir.finds (p := p) b
      rwa [hslots, inumOf_put h.distinct hpos hlt hfound] at hfinds
    · intro hne
      obtain ⟨hle, -⟩ := freeSlot_spec Dirent.live (slots s dp)
      rw [hslots, emptyFrom_eq, Nat.zero_add] at hne ⊢
      have hlen : (putSlot (slots s dp) (freeSlot Dirent.live (slots s dp))
          (direntOf name inum)).length = _ := putSlot_length hle
      rw [hlen] at hne ⊢
      have hend : ¬ freeSlot Dirent.live (slots s dp) < (slots s dp).length := by omega
      exact ⟨all_live_of_end hend, by omega⟩

theorem erase_map (h : Directory s dp) (name : List UInt8) :
    wp ((eraseEntry dp name).run (handle p)) (NameErased p s dp name) (EraseStops s dp name) s := by
  refine wp_mono (eraseEntry_kernel h name) ?_ fun _ he => he
  rintro r t ⟨hdir, hr, hnone, hsome⟩
  have hiff : inumOf (slots s dp) name ≠ none ↔ lookup (slots s dp) name ≠ none := by
    rw [inumOf, ne_eq, Option.map_eq_none_iff]
  refine ⟨hdir, hr.trans hiff.symm, ?_, ?_⟩
  · intro b
    have hfinds := hdir.finds (p := p) b
    cases hfound : lookup (slots s dp) name with
    | none =>
      rw [hnone hfound] at hfinds
      by_cases hb : cstr dirsiz name = cstr dirsiz b
      · have hb' : inumOf (slots s dp) b = none := by
          rw [inumOf_eq, ← hb, slotOf_of_lookup_none hfound]
          rfl
        rw [if_pos hb, ← hb']
        exact hfinds
      · rwa [if_neg hb]
    | some q => rwa [hsome q.1 q.2 hfound, inumOf_erase h.distinct hfound] at hfinds
  · cases hfound : lookup (slots s dp) name with
    | none => rw [hnone hfound]
    | some q =>
      obtain ⟨hj, -⟩ := lookup_some hfound
      rw [hsome q.1 q.2 hfound, putSlot_of_lt hj, List.length_set]

end Map

/-! ## Runs -/

/-- Operations on a directory. -/
inductive DirOp
  | link (name : List UInt8) (inum : Nat)
  | erase (name : List UInt8)

/-- An entry can hold the inode number that is linked. -/
def DirOp.Fits : DirOp → Prop
  | .link _ inum => 0 < inum ∧ inum < 2 ^ 16
  | .erase _ => True

/-- The code of an operation. -/
def DirOp.prog (dp : Fin ninode) : DirOp → FsProg Bool
  | .link name inum => dirlink dp name inum
  | .erase name => eraseEntry dp name

/-- One operation on the directory `dp`; it is not defined when the code does not return. -/
def dirStep (p : Fin nproc) (dp : Fin ninode) (s : FsState) (op : DirOp) : Option FsState :=
  match (op.prog dp).run (handle p) s with
  | .ok (_, t) => some t
  | .error _ => none

/-- The largest number of entries in use in the states of a run. -/
def peakLive (p : Fin nproc) (dp : Fin ninode) : FsState → List DirOp → Nat
  | s, [] => liveCount (slots s dp)
  | s, op :: ops =>
    max (liveCount (slots s dp))
      (match dirStep p dp s op with
      | none => 0
      | some t => peakLive p dp t ops)

section Run

variable {s t : FsState} {dp : Fin ninode} {p : Fin nproc}

theorem liveCount_le (es : List Dirent) : liveCount es ≤ es.length :=
  List.countP_le_length

theorem liveCount_le_peak (s : FsState) (ops : List DirOp) :
    liveCount (slots s dp) ≤ peakLive p dp s ops := by
  cases ops with
  | nil => exact le_refl _
  | cons op ops => exact le_max_left _ _

/-- One operation keeps the directory, which is as long as it has to be. -/
theorem Directory.dirStep {op : DirOp} (h : Directory s dp) (hfits : op.Fits)
    (hstep : dirStep p dp s op = some t) :
    Directory t dp ∧ (slots t dp).length = max (slots s dp).length (liveCount (slots t dp)) := by
  have hcount := liveCount_le (slots t dp)
  unfold Fs.dirStep at hstep
  cases hrun : (op.prog dp).run (handle p) s with
  | error e =>
    rw [hrun] at hstep
    exact absurd hstep (by simp)
  | ok q =>
    obtain ⟨r, u⟩ := q
    rw [hrun] at hstep
    have hu : u = t := Option.some.inj hstep
    subst hu
    cases op with
    | link name inum =>
      obtain ⟨hpos, hlt⟩ := hfits
      have hlinked := (wp_of_ok hrun).mp (dirlink_map h name hpos hlt)
      refine ⟨hlinked.directory, ?_⟩
      cases hfound : lookup (slots s dp) name with
      | some q =>
        obtain ⟨-, hsame⟩ := (wp_of_ok hrun).mp (dirlink_present h hfound inum)
        rw [hsame.slots_eq] at hcount ⊢
        omega
      | none =>
        obtain ⟨-, -, -, hslots⟩ := (wp_of_ok hrun).mp (dirlink_absent h hfound inum)
        rw [hslots]
        exact length_putName hpos hlt
    | erase name =>
      have herased := (wp_of_ok hrun).mp (erase_map h name)
      have hlen := herased.length
      refine ⟨herased.directory, ?_⟩
      omega

/-- The length of the directory at the end of a run. -/
theorem Directory.run_length {ops : List DirOp} (h : Directory s dp)
    (hfits : ∀ op ∈ ops, op.Fits) (hrun : runFrom (Fs.dirStep p dp) s ops = some t) :
    (slots t dp).length = max (slots s dp).length (peakLive p dp s ops) := by
  induction ops generalizing s with
  | nil =>
    rw [runFrom, Option.some.injEq] at hrun
    subst hrun
    have hcount := liveCount_le (slots s dp)
    rw [peakLive]
    omega
  | cons op ops ih =>
    obtain ⟨u, hstep, hrest⟩ := runFrom_cons.mp hrun
    obtain ⟨hu, hlen⟩ := h.dirStep (hfits op (List.mem_cons_self ..)) hstep
    have hend := ih hu (fun o ho => hfits o (List.mem_cons_of_mem _ ho)) hrest
    have hpeak : liveCount (slots u dp) ≤ peakLive p dp u ops := liveCount_le_peak u ops
    have hcount := liveCount_le (slots s dp)
    rw [peakLive, hstep, hend, hlen]
    simp only
    omega

end Run

/-- The names `.`, `..` and `a`. -/
theorem smallRoot_labels : (entries (contents (smallDisk 0) smallRoot)).map Dirent.label =
    [[dot], [dot, dot], [97]] := by
  decide +kernel

section Small

variable {s : FsState} {dp : Fin ninode} {n : Nat}

theorem smallDisk_slots (hn : n ≤ 62) (hdisk : s.disk = smallDisk n)
    (hcopy : (s.icache dp).copy = smallRoot) :
    slots s dp = entries (contents (smallDisk 0) smallRoot) := by
  rw [slots, hcopy, hdisk, (smallDisk_image hn).data]

/-- The root directory is cached in entry `dp`. -/
theorem smallDisk_directory (hn : n ≤ 62) (hdisk : s.disk = smallDisk n) (hsb : s.sb = smallSb)
    (hinum : (s.icache dp).inum = 1) (hcopy : (s.icache dp).copy = smallRoot)
    (hheld : 0 < (s.icache dp).ref) (htrans : 1 ≤ s.outstanding) : Directory s dp := by
  have hsmall := smallDisk_image hn
  refine ⟨⟨⟨?_, ?_, ?_, ?_⟩, ?_, ?_⟩, hheld, htrans, ?_⟩
  · rw [hsb, hdisk]
    exact hsmall.image
  · rw [hinum, hsb]
    decide
  · rw [hcopy, hsb, hdisk, hinum, hsmall.root]
  · rw [hcopy]
    decide
  · rw [hcopy]
    rfl
  · rw [hcopy]
    decide
  · rw [smallDisk_slots hn hdisk hcopy]
    refine SlotsDistinct.of_nodup ?_
    rw [smallRoot_labels]
    decide

end Small

theorem smallOp_directory : Directory smallOp ⟨1, by decide⟩ :=
  smallDisk_directory (n := 1) (by decide) rfl rfl rfl rfl (by decide) (by decide)

theorem smallOp_slots :
    slots smallOp ⟨1, by decide⟩ = entries (contents (smallDisk 0) smallRoot) :=
  smallDisk_slots (n := 1) (by decide) rfl rfl

section Sample

-- the statements below mention these, and must not be evaluated
attribute [local irreducible] dirlink eraseEntry

end Sample

/-- Four processes in the root directory have 49 files open, so that every entry of the inode
cache is in use; inode 2, the file `a`, is not cached. -/
def fullFs : FsState where
  disk := smallDisk 50
  sb := smallSb
  lh := []
  outstanding := 1
  icache k :=
    if k.val = 0 then ⟨1, 4, none, true, smallRoot⟩
    else ⟨k.val + 2, 1, none, true, emptyFile⟩
  ftable f :=
    if f.val + 1 < ninode then
      ⟨.inode, 1, true, true, some ⟨(f.val + 1) % ninode, Nat.mod_lt _ ninode_pos⟩, 0⟩
    else ⟨.none, 0, false, false, none, 0⟩
  proc p :=
    if p.val < 4 then
      ⟨fun fd => if nofile * p.val + fd.val + 1 < ninode then
          some ⟨(nofile * p.val + fd.val) % nfile, Nat.mod_lt _ nfile_pos⟩ else none,
        some ⟨0, ninode_pos⟩⟩
    else ⟨fun _ => none, none⟩
  initproc := ⟨0, nproc_pos⟩

theorem fullFs_directory : Directory fullFs ⟨0, by decide⟩ :=
  smallDisk_directory (n := 50) (by decide) rfl rfl rfl rfl (by decide) (by decide)

theorem fullFs_slots :
    slots fullFs ⟨0, by decide⟩ = entries (contents (smallDisk 0) smallRoot) :=
  smallDisk_slots (n := 50) (by decide) rfl rfl

/-- With a full inode cache `dirlookup` of a name that is there panics. -/
theorem dirlookup_cacheFull {s : FsState} {dp : Fin ninode} {p : Fin nproc} (h : CachedDir s dp)
    {name : List UInt8} {j i : Nat} (hfound : lookup (slots s dp) name = some (j, i))
    (hnone : slotFor s i = none) :
    (dirlookup dp name).run (handle p) s = .error .igetNoInodes := by
  have hlook := dirlookup_kernel (p := p) h name
  rw [hfound] at hlook
  cases hrun : (dirlookup dp name).run (handle p) s with
  | error e =>
    rw [wp_of_error hrun] at hlook
    rw [hlook.1]
  | ok q =>
    rw [wp_of_ok hrun] at hlook
    rcases hlook with ⟨hbad, -⟩ | ⟨j', i', k, off, hsame, -, -, hslot, -⟩
    · exact absurd hbad (by simp)
    · cases hsame
      exact absurd (hnone.symm.trans hslot) (by simp)

end Xv6.Fs
