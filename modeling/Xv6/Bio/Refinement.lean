import Xv6.Bio.Cache
import Xv6.Foundations.Mutex
import Xv6.Foundations.Runs

/-!
# Buffer cache - Refinement of a flat store

The cache behaves as a map from blocks to contents: what `bread` returns is what was
last logged or written.  The invariant says where the contents of a block are.  A buffer
that is valid has them, unless its holder is about to log a change; and when no buffer
of the block is dirty, the disk has them.  It rests on the order of the list: a buffer
that is referenced, valid or dirty is the first one of its block, so that `bget` finds
it.  After `binit` all buffers carry block 0 of device 0, so the converse fails.

Main results:

- Theorem {lit}`CacheInv.unique`: a block has one buffer that is in use.
- Theorem {lit}`CacheInv.step`: every step keeps the invariant while the flat store takes
  the observed events.
- Theorem {lit}`buffer_cache_refines`: every run is explained by the flat store.
-/

namespace Xv6.Bio

open Foundations

/-! ## The invariant -/

namespace Pc

variable {n : Nat}

/-- Points of a user that holds a reference to `b`. -/
def uses (b : Fin n) : Pc n → Bool
  | .want c _ | .locked c _ | .has c _ | .releasing c => decide (c = b)
  | .idle => false

/-- Points of a user that holds the lock of `b`. -/
def holds (b : Fin n) : Pc n → Bool
  | .locked c _ | .has c _ => decide (c = b)
  | _ => false

theorem holds_of_uses {b : Fin n} {k : Pc n} (h : k.uses b = false) : k.holds b = false := by
  cases k with
  | idle => rfl
  | want c id => rfl
  | locked c id => exact h
  | has c changed => exact h
  | releasing c => rfl

end Pc

/-- A buffer that nobody references and that holds nothing. -/
def Buf.Pristine {β : Type} (x : Buf β) : Prop :=
  x.refcnt = 0 ∧ x.valid = false ∧ x.dirty = false

/-- Invariant of the cache, when the flat store is `d`. -/
structure CacheInv {n : Nat} {β : Type} (s : CacheState n β) (d : BlockId → β) : Prop where
  nodup : s.order.Nodup
  mem : ∀ b, b ∈ s.order
  counts : ∀ b, Counts (Pc.uses b) s.pc (s.buf b).refcnt
  locks : ∀ b, Owns (Pc.holds b) s.pc (s.buf b).lock
  first : ∀ b, ¬(s.buf b).Pristine → s.lookup (s.buf b).id = some b
  target : ∀ u b id, s.pc u = .want b id ∨ s.pc u = .locked b id → (s.buf b).id = id
  ready : ∀ u b changed, s.pc u = .has b changed → (s.buf b).valid = true
  dirty : ∀ b, (s.buf b).dirty = true → (s.buf b).valid = true
  data : ∀ b, (s.buf b).valid = true → (∀ u, s.pc u ≠ .has b true) →
    (s.buf b).data = d (s.buf b).id
  disk : ∀ id, (∀ b, (s.buf b).id = id → (s.buf b).dirty = false) → s.disk id = d id

theorem cacheInit_inv (n : Nat) {β : Type} (zero : β) (disk : BlockId → β) :
    CacheInv (cacheInit n zero disk) disk where
  nodup := List.nodup_reverse.mpr (List.nodup_finRange n)
  mem b := List.mem_reverse.mpr (List.mem_finRange b)
  counts b := ⟨∅, by simp [cacheInit, Pc.uses], by simp [cacheInit]⟩
  locks b u := by simp [cacheInit, Pc.holds]
  first b h := absurd ⟨rfl, rfl, rfl⟩ h
  target u b id h := by simp [cacheInit] at h
  ready u b changed h := by simp [cacheInit] at h
  dirty b h := by simp [cacheInit] at h
  data b h := by simp [cacheInit] at h
  disk id _ := rfl

section Steps

variable {n : Nat} {β : Type} {s t : CacheState n β} {d d' : BlockId → β} {b c : Fin n}
  {u : Nat}

namespace CacheInv

/-- A block has at most one buffer that is referenced, valid or dirty. -/
theorem unique (h : CacheInv s d) (hb : ¬(s.buf b).Pristine) (hc : ¬(s.buf c).Pristine)
    (hid : (s.buf b).id = (s.buf c).id) : b = c := by
  have hfirst := h.first b hb
  rw [hid, h.first c hc] at hfirst
  exact (Option.some.inj hfirst).symm

theorem refcnt_pos (h : CacheInv s d) (hu : (s.pc u).uses b = true) : 0 < (s.buf b).refcnt := by
  have hpos := (h.counts b).pos hu
  omega

/-- A buffer that somebody uses is not pristine. -/
theorem not_pristine (h : CacheInv s d) (hu : (s.pc u).uses b = true) :
    ¬(s.buf b).Pristine := by
  intro hbad
  have hpos := h.refcnt_pos hu
  rw [hbad.1] at hpos
  omega

theorem not_pristine_of_valid {x : Buf β} (hx : x.valid = true) : ¬x.Pristine := by
  intro hbad
  rw [hbad.2.1] at hx
  cases hx

theorem not_pristine_of_dirty {x : Buf β} (hx : x.dirty = true) : ¬x.Pristine := by
  intro hbad
  rw [hbad.2.2] at hx
  cases hx

/-- Another user than the holder has not changed the buffer. -/
theorem unchanged (h : CacheInv s d) (hu : (s.pc u).holds b = true)
    (hpc : s.pc u ≠ .has b true) (v : Nat) : s.pc v ≠ .has b true := by
  intro hv
  have hvu : v = u := (h.locks b).unique (by rw [hv]; simp [Pc.holds]) hu
  rw [hvu] at hv
  exact hpc hv

/-- If nobody has changed `b` after a step of `u`, and `u` had not before, nobody had. -/
theorem quiet_of_move {k : Pc n} (hpc : t.pc = Function.update s.pc u k)
    (hu : s.pc u ≠ .has b true) (hquiet : ∀ v, t.pc v ≠ .has b true) (v : Nat) :
    s.pc v ≠ .has b true := by
  by_cases hvu : v = u
  · rwa [hvu]
  · have hv := hquiet v
    rwa [hpc, Function.update_of_ne hvu] at hv

/-- Buffers of other blocks than that of a buffer in use. -/
theorem id_ne (h : CacheInv s d) (hb : ¬(s.buf b).Pristine) (hc : ¬(s.buf c).Pristine)
    (hcb : c ≠ b) : (s.buf c).id ≠ (s.buf b).id :=
  fun hid => hcb (h.unique hc hb hid)

/-- The contents of the block of a clean buffer in use are on the disk. -/
theorem disk_of_clean (h : CacheInv s d) (hb : ¬(s.buf b).Pristine)
    (hclean : (s.buf b).dirty = false) : s.disk (s.buf b).id = d (s.buf b).id := by
  refine h.disk _ ?_
  intro c hid
  by_cases hcb : c = b
  · rw [hcb]
    exact hclean
  · cases hdirty : (s.buf c).dirty with
    | false => rfl
    | true => exact absurd hid (h.id_ne hb (not_pristine_of_dirty hdirty) hcb)

/-! ## Steps on one buffer -/

theorem lookup_congr (horder : t.order = s.order) (hid : ∀ c, (t.buf c).id = (s.buf c).id)
    (id : BlockId) : t.lookup id = s.lookup id := by
  unfold CacheState.lookup
  rw [horder]
  congr 1
  funext c
  rw [hid]

/-- A user of `b` alone takes a step that changes `b`, without changing its block. -/
structure Touches (s t : CacheState n β) (u : Nat) (b : Fin n) (x : Buf β) (k : Pc n) : Prop where
  buf : t.buf = Function.update s.buf b x
  order : t.order = s.order
  pc : t.pc = Function.update s.pc u k
  before : ∀ c, c ≠ b → (s.pc u).uses c = false
  after : ∀ c, c ≠ b → k.uses c = false
  id : x.id = (s.buf b).id
  first : s.lookup (s.buf b).id = some b
  counts : Counts (Pc.uses b) t.pc x.refcnt
  locks : Owns (Pc.holds b) t.pc x.lock
  target : ∀ id, k = .want b id ∨ k = .locked b id → (s.buf b).id = id
  valid : (s.buf b).valid = true → x.valid = true
  ready : ∀ changed, k = .has b changed → x.valid = true

/-- The invariant is kept by such a step, when the flat store changes only at the block. -/
theorem update (h : CacheInv s d) {x : Buf β} {k : Pc n} (ht : Touches s t u b x k)
    (hdirty : x.dirty = true → x.valid = true)
    (hdata : x.valid = true → (∀ v, t.pc v ≠ .has b true) → x.data = d' (s.buf b).id)
    (hother : ∀ c, c ≠ b → (s.buf c).valid = true → d' (s.buf c).id = d (s.buf c).id)
    (hdisk : ∀ id, (∀ c, (t.buf c).id = id → (t.buf c).dirty = false) → t.disk id = d' id) :
    CacheInv t d' := by
  have hself : t.buf b = x := by rw [ht.buf, Function.update_self]
  have hne : ∀ c, c ≠ b → t.buf c = s.buf c := by
    intro c hc
    rw [ht.buf, Function.update_of_ne hc]
  have hids : ∀ c, (t.buf c).id = (s.buf c).id := by
    intro c
    by_cases hc : c = b
    · rw [hc, hself, ht.id]
    · rw [hne c hc]
  -- what the user does elsewhere: nothing, before and after
  have huses : ∀ c, c ≠ b → k.uses c = (s.pc u).uses c := by
    intro c hc
    rw [ht.after c hc, ht.before c hc]
  have hholds : ∀ c, c ≠ b → k.holds c = (s.pc u).holds c := by
    intro c hc
    rw [Pc.holds_of_uses (ht.after c hc), Pc.holds_of_uses (ht.before c hc)]
  refine ⟨by rw [ht.order]; exact h.nodup, by rw [ht.order]; exact h.mem, ?_, ?_, ?_, ?_, ?_, ?_,
    ?_, hdisk⟩
  · intro c
    by_cases hc : c = b
    · rw [hc, hself]
      exact ht.counts
    · rw [hne c hc, ht.pc]
      exact (h.counts c).keep (huses c hc)
  · intro c
    by_cases hc : c = b
    · rw [hc, hself]
      exact ht.locks
    · rw [hne c hc, ht.pc]
      exact (h.locks c).keep (hholds c hc)
  · intro c hused
    rw [hids, lookup_congr ht.order hids]
    by_cases hc : c = b
    · rw [hc]
      exact ht.first
    · rw [hne c hc] at hused
      exact h.first c hused
  · intro v c id hv
    rw [hids]
    by_cases hvu : v = u
    · rw [hvu, ht.pc, Function.update_self] at hv
      have hc : c = b := by
        by_contra hc
        have hkc := ht.after c hc
        rcases hv with hv | hv
        · rw [hv] at hkc
          simp [Pc.uses] at hkc
        · rw [hv] at hkc
          simp [Pc.uses] at hkc
      rw [hc] at hv ⊢
      exact ht.target id hv
    · rw [ht.pc, Function.update_of_ne hvu] at hv
      exact h.target v c id hv
  · intro v c changed hv
    by_cases hvu : v = u
    · rw [hvu, ht.pc, Function.update_self] at hv
      have hc : c = b := by
        by_contra hc
        have hkc := ht.after c hc
        rw [hv] at hkc
        simp [Pc.uses] at hkc
      rw [hc] at hv ⊢
      rw [hself]
      exact ht.ready changed hv
    · rw [ht.pc, Function.update_of_ne hvu] at hv
      have hold := h.ready v c changed hv
      by_cases hc : c = b
      · rw [hc] at hold ⊢
        rw [hself]
        exact ht.valid hold
      · rwa [hne c hc]
  · intro c
    by_cases hc : c = b
    · rw [hc, hself]
      exact hdirty
    · rw [hne c hc]
      exact h.dirty c
  · intro c hc' hquiet
    rw [hids]
    by_cases hc : c = b
    · rw [hc] at hquiet ⊢
      rw [hc, hself] at hc'
      rw [hself]
      exact hdata hc' hquiet
    · rw [hne c hc] at hc' ⊢
      rw [hother c hc hc']
      refine h.data c hc' (quiet_of_move ht.pc ?_ hquiet)
      intro hv
      have huc := ht.before c hc
      rw [hv] at huc
      simp [Pc.uses] at huc

/-- A step that stores nothing, neither to the disk nor to the flat store. -/
theorem keep (h : CacheInv s d) {x : Buf β} {k : Pc n} (ht : Touches s t u b x k)
    (hdisk : t.disk = s.disk) (hdirty : x.dirty = (s.buf b).dirty)
    (hdata : x.valid = true → (∀ v, t.pc v ≠ .has b true) → x.data = d (s.buf b).id) :
    CacheInv t d := by
  refine h.update ht ?_ hdata (fun _ _ _ => rfl) ?_
  · intro hx
    rw [hdirty] at hx
    exact ht.valid (h.dirty b hx)
  · intro id hclean
    rw [hdisk]
    refine h.disk id ?_
    intro c hc
    have hcleanc := hclean c
    rw [ht.buf] at hcleanc
    by_cases hcb : c = b
    · rw [hcb, Function.update_self, ht.id, hdirty] at hcleanc
      rw [hcb] at hc ⊢
      exact hcleanc hc
    · rw [Function.update_of_ne hcb] at hcleanc
      exact hcleanc hc

/-! ## Getting and giving back a buffer -/

theorem lookup_some {id : BlockId} (h : s.lookup id = some b) : (s.buf b).id = id := by
  have hfound := List.find?_some h
  simpa using hfound

theorem lookup_none {id : BlockId} (hinv : CacheInv s d) (h : s.lookup id = none) (c : Fin n) :
    (s.buf c).id ≠ id := by
  have hall := List.find?_eq_none.mp h c (hinv.mem c)
  simpa using hall

theorem victim_some (h : s.victim = some b) :
    (s.buf b).refcnt = 0 ∧ (s.buf b).dirty = false := by
  have hfound := List.find?_some h
  simpa using hfound

/-- Nobody uses a buffer without references. -/
theorem unused (h : CacheInv s d) (hb : (s.buf b).refcnt = 0) (v : Nat) :
    (s.pc v).uses b = false := by
  have hcounts := h.counts b
  rw [hb] at hcounts
  exact hcounts.empty v

/-- The first element with a property stays the first when fewer have it. -/
theorem find?_of_imp {p q : Fin n → Bool} {l : List (Fin n)} {c : Fin n}
    (hfind : l.find? p = some c) (himp : ∀ x, q x = true → p x = true) (hc : q c = true) :
    l.find? q = some c := by
  induction l with
  | nil => cases hfind
  | cons x l ih =>
    cases hp : p x with
    | true =>
      rw [List.find?_cons_of_pos hp, Option.some.injEq] at hfind
      rw [hfind]
      exact List.find?_cons_of_pos hc
    | false =>
      have hq : ¬q x = true := by
        intro hq
        rw [himp x hq] at hp
        cases hp
      rw [List.find?_cons_of_neg (by rw [hp]; decide)] at hfind
      rw [List.find?_cons_of_neg hq]
      exact ih hfind

/-- The only element with a property is found. -/
theorem find?_of_unique {q : Fin n → Bool} {l : List (Fin n)} {c : Fin n} (hmem : c ∈ l)
    (hc : q c = true) (huniq : ∀ x, q x = true → x = c) : l.find? q = some c := by
  cases hfind : l.find? q with
  | none => exact absurd hc (List.find?_eq_none.mp hfind c hmem)
  | some x => rw [huniq x (List.find?_some hfind)]

/-- An element without the property can be taken out. -/
theorem find?_erase {q : Fin n → Bool} {l : List (Fin n)} {b : Fin n} (hb : q b = false) :
    (l.erase b).find? q = l.find? q := by
  induction l with
  | nil => rfl
  | cons x l ih =>
    by_cases hxb : x = b
    · rw [hxb, List.erase_cons_head, List.find?_cons_of_neg (by rw [hb]; decide)]
    · rw [List.erase_cons_tail (by simpa using hxb)]
      cases hq : q x with
      | true => rw [List.find?_cons_of_pos hq, List.find?_cons_of_pos hq]
      | false =>
        rw [List.find?_cons_of_neg (by rw [hq]; decide),
          List.find?_cons_of_neg (by rw [hq]; decide), ih]

/-- `bget` finds the block. -/
theorem hit (h : CacheInv s d) {id : BlockId} (hu : s.pc u = .idle) (hb : s.lookup id = some b) :
    CacheInv ((s.setBuf b { s.buf b with refcnt := (s.buf b).refcnt + 1 }).goto u (.want b id))
      d := by
  have hid := lookup_some hb
  refine h.keep (b := b) (u := u) ⟨rfl, rfl, rfl, ?_, ?_, rfl, by rw [hid]; exact hb, ?_, ?_, ?_,
    fun hv => hv, nofun⟩ rfl rfl ?_
  · intro c _
    rw [hu]
    rfl
  · intro c hc
    simp [Pc.uses, hc.symm]
  · have hcounts := (h.counts b).enter (p := u) (k := .want b id) (by rw [hu]; rfl)
      (by simp [Pc.uses])
    exact_mod_cast hcounts
  · exact (h.locks b).keep (by rw [hu]; rfl)
  · rintro id' (hk | hk)
    · rw [hid]
      exact (Pc.want.inj hk).2
    · cases hk
  · intro hvalid hquiet
    exact h.data b hvalid (quiet_of_move rfl (by rw [hu]; nofun) hquiet)

/-- `bget` recycles a buffer. -/
theorem recycle (h : CacheInv s d) {id : BlockId} (hu : s.pc u = .idle)
    (hmiss : s.lookup id = none) (hb : s.victim = some b) :
    CacheInv ((s.setBuf b { s.buf b with
      id := id, valid := false, dirty := false, refcnt := 1 }).goto u (.want b id)) d := by
  rcases victim_some hb with ⟨hzero, hclean⟩
  have hunused := h.unused hzero
  have hnone := lookup_none h hmiss
  generalize ht : (s.setBuf b { s.buf b with
    id := id, valid := false, dirty := false, refcnt := 1 }).goto u (.want b id) = t
  have hself : t.buf b = { s.buf b with
      id := id, valid := false, dirty := false, refcnt := 1 } := by
    rw [← ht]
    exact Function.update_self ..
  have hne : ∀ c, c ≠ b → t.buf c = s.buf c := by
    intro c hc
    rw [← ht]
    exact Function.update_of_ne hc ..
  have horder : t.order = s.order := by
    rw [← ht]
    rfl
  have hdisk : t.disk = s.disk := by
    rw [← ht]
    rfl
  have hpc : t.pc = Function.update s.pc u (.want b id) := by
    rw [← ht]
    rfl
  have hpcu : t.pc u = .want b id := by rw [hpc, Function.update_self]
  have hpcv : ∀ v, v ≠ u → t.pc v = s.pc v := by
    intro v hv
    rw [hpc, Function.update_of_ne hv]
  refine ⟨by rw [horder]; exact h.nodup, by rw [horder]; exact h.mem, ?_, ?_, ?_, ?_, ?_, ?_, ?_,
    ?_⟩
  · intro c
    by_cases hc : c = b
    · have hcounts := (h.counts b).enter (p := u) (k := .want b id) (hunused u)
        (by simp [Pc.uses])
      rw [hzero] at hcounts
      rw [hc, hself, hpc]
      exact_mod_cast hcounts
    · rw [hne c hc, hpc]
      exact (h.counts c).keep (by rw [hu]; simp [Pc.uses, Ne.symm hc])
  · intro c
    have hlock : (t.buf c).lock = (s.buf c).lock := by
      by_cases hc : c = b
      · rw [hc, hself]
      · rw [hne c hc]
    rw [hlock, hpc]
    exact (h.locks c).keep (by rw [hu]; rfl)
  · intro c hused
    unfold CacheState.lookup
    rw [horder]
    by_cases hc : c = b
    · rw [hc]
      apply find?_of_unique (h.mem b) (by simp)
      intro x hx
      by_contra hxb
      rw [decide_eq_true_eq, hne x hxb, hself] at hx
      exact hnone x hx
    · rw [hne c hc] at hused ⊢
      apply find?_of_imp (h.first c hused)
      · intro x hx
        rw [decide_eq_true_eq] at hx ⊢
        by_cases hxb : x = b
        · rw [hxb, hself] at hx
          exact absurd hx.symm (hnone c)
        · rwa [hne x hxb] at hx
      · rw [decide_eq_true_eq, hne c hc]
  · intro v c id' hv
    by_cases hvu : v = u
    · rw [hvu, hpcu] at hv
      rcases hv with hv | hv
      · rcases Pc.want.inj hv with ⟨hbc, hid⟩
        rw [← hbc, hself]
        exact hid
      · cases hv
    · rw [hpcv v hvu] at hv
      have hc : c ≠ b := by
        rintro rfl
        have hfree := hunused v
        rcases hv with hv | hv
        · rw [hv] at hfree
          simp [Pc.uses] at hfree
        · rw [hv] at hfree
          simp [Pc.uses] at hfree
      rw [hne c hc]
      exact h.target v c id' hv
  · intro v c changed hv
    have hvu : v ≠ u := by
      rintro rfl
      rw [hpcu] at hv
      cases hv
    rw [hpcv v hvu] at hv
    have hc : c ≠ b := by
      rintro rfl
      have hfree := hunused v
      rw [hv] at hfree
      simp [Pc.uses] at hfree
    rw [hne c hc]
    exact h.ready v c changed hv
  · intro c hdirty
    by_cases hc : c = b
    · rw [hc, hself] at hdirty
      cases hdirty
    · rw [hne c hc] at hdirty ⊢
      exact h.dirty c hdirty
  · intro c hvalid hquiet
    by_cases hc : c = b
    · rw [hc, hself] at hvalid
      cases hvalid
    · rw [hne c hc] at hvalid ⊢
      exact h.data c hvalid (quiet_of_move hpc (by rw [hu]; nofun) hquiet)
  · -- the block that `b` had before is on the disk, since `b` is clean
    intro id' hclean'
    rw [hdisk]
    refine h.disk id' ?_
    intro c hc
    by_cases hcb : c = b
    · rw [hcb]
      exact hclean
    · have hcleanc := hclean' c
      rw [hne c hcb] at hcleanc
      exact hcleanc hc

/-- `brelse` puts the buffer at the front of the list. -/
theorem reorder (h : CacheInv s d) (hb : ¬(s.buf b).Pristine)
    (horder : t.order = b :: s.order.erase b) (hbuf : t.buf = s.buf) (hdisk : t.disk = s.disk)
    (hpc : t.pc = s.pc) : CacheInv t d := by
  refine ⟨?_, ?_, by rw [hbuf, hpc]; exact h.counts, by rw [hbuf, hpc]; exact h.locks, ?_,
    by rw [hbuf, hpc]; exact h.target, by rw [hbuf, hpc]; exact h.ready,
    by rw [hbuf]; exact h.dirty, by rw [hbuf, hpc]; exact h.data, by rw [hbuf, hdisk]; exact h.disk⟩
  · rw [horder]
    exact List.nodup_cons.mpr ⟨h.nodup.not_mem_erase, h.nodup.erase b⟩
  · intro c
    rw [horder]
    by_cases hc : c = b
    · rw [hc]
      exact List.mem_cons_self
    · exact List.mem_cons_of_mem b ((List.mem_erase_of_ne hc).mpr (h.mem c))
  · intro c hc
    rw [hbuf] at hc ⊢
    unfold CacheState.lookup
    rw [horder, hbuf]
    by_cases hcb : c = b
    · rw [hcb]
      exact List.find?_cons_of_pos (by simp)
    · have hid := h.id_ne hb hc hcb
      have hnot : decide ((s.buf b).id = (s.buf c).id) = false := by simpa using hid.symm
      rw [List.find?_cons_of_neg (by rw [hnot]; decide), find?_erase hnot]
      exact h.first c hc

/-- The part of `brelse` under the lock. -/
theorem brelse (h : CacheInv s d) (hu : s.pc u = .releasing b) :
    CacheInv ((s.brelse b).goto u .idle) d := by
  have huses : (s.pc u).uses b = true := by
    rw [hu]
    simp [Pc.uses]
  have hused := h.not_pristine huses
  have hpos := h.refcnt_pos huses
  -- move the buffer first, while it is still referenced
  have hmoved : CacheInv { s with
      order := if (s.buf b).refcnt - 1 = 0 then b :: s.order.erase b else s.order } d := by
    split
    · exact h.reorder hused rfl rfl rfl rfl
    · exact h
  refine hmoved.keep (b := b) (u := u) ⟨rfl, rfl, rfl, ?_, fun _ _ => rfl, rfl,
    hmoved.first b hused, ?_, ?_, nofun, fun hv => hv, nofun⟩ rfl rfl ?_
  · intro c hc
    simp [hu, Pc.uses, hc.symm]
  · have hcounts := (h.counts b).leave (p := u) (k := .idle) huses rfl
    have hcast : ((s.buf b).refcnt : Int) - 1 = ((s.buf b).refcnt - 1 : Nat) := by omega
    rw [hcast] at hcounts
    exact hcounts
  · exact (h.locks b).keep (by rw [hu]; rfl)
  · intro hvalid hquiet
    exact h.data b hvalid (quiet_of_move rfl (by rw [hu]; nofun) hquiet)

/-! ## Steps of the holder -/

theorem acquiresleep (h : CacheInv s d) {id : BlockId} (hu : s.pc u = .want b id)
    (hfree : (s.buf b).lock = none) :
    CacheInv ((s.setLock b (some u)).goto u (.locked b id)) d := by
  have huses : (s.pc u).uses b = true := by
    rw [hu]
    simp [Pc.uses]
  refine h.keep (b := b) (u := u) ⟨rfl, rfl, rfl, ?_, ?_, rfl, h.first b (h.not_pristine huses),
    ?_, ?_, ?_, fun hv => hv, nofun⟩ rfl rfl ?_
  · intro c hc
    simp [hu, Pc.uses, hc.symm]
  · intro c hc
    simp [Pc.uses, hc.symm]
  · exact (h.counts b).keep (by rw [hu]; rfl)
  · have hlocks := h.locks b
    rw [hfree] at hlocks
    exact hlocks.acquire (by simp [Pc.holds])
  · intro id' hk
    rw [h.target u b id (Or.inl hu)]
    rcases hk with hk | hk
    · cases hk
    · exact (Pc.locked.inj hk).2
  · intro hvalid hquiet
    exact h.data b hvalid (quiet_of_move rfl (by rw [hu]; nofun) hquiet)

theorem releasesleep (h : CacheInv s d) (hu : s.pc u = .has b false) :
    CacheInv ((s.setLock b none).goto u (.releasing b)) d := by
  have huses : (s.pc u).uses b = true := by
    rw [hu]
    simp [Pc.uses]
  refine h.keep (b := b) (u := u) ⟨rfl, rfl, rfl, ?_, ?_, rfl, h.first b (h.not_pristine huses),
    ?_, ?_, nofun, fun hv => hv, nofun⟩ rfl rfl ?_
  · intro c hc
    simp [hu, Pc.uses, hc.symm]
  · intro c hc
    simp [Pc.uses, hc.symm]
  · exact (h.counts b).keep (by rw [hu]; rfl)
  · exact (h.locks b).release (by rw [hu]; simp [Pc.holds]) rfl
  · intro hvalid hquiet
    exact h.data b hvalid (quiet_of_move rfl (by rw [hu]; simp) hquiet)

/-- The holder of `b`, back from `bread`, changes `b` without storing anything. -/
theorem hold (h : CacheInv s d) (hu : (s.pc u).holds b = true) {x : Buf β} {changed : Bool}
    (hbuf : t.buf = Function.update s.buf b x) (horder : t.order = s.order)
    (hpc : t.pc = Function.update s.pc u (.has b changed)) (hdisk : t.disk = s.disk)
    (hid : x.id = (s.buf b).id) (hrefcnt : x.refcnt = (s.buf b).refcnt)
    (hlock : x.lock = (s.buf b).lock) (hvalid : x.valid = true)
    (hdirty : x.dirty = (s.buf b).dirty)
    (hdata : changed = false → x.data = d (s.buf b).id) : CacheInv t d := by
  have hcases : (∃ id, s.pc u = .locked b id) ∨ ∃ y, s.pc u = .has b y := by
    cases hs : s.pc u with
    | idle | want _ _ | releasing _ =>
      rw [hs] at hu
      cases hu
    | locked c id =>
      rw [hs] at hu
      simp only [Pc.holds, decide_eq_true_eq] at hu
      exact Or.inl ⟨id, by rw [hu]⟩
    | has c y =>
      rw [hs] at hu
      simp only [Pc.holds, decide_eq_true_eq] at hu
      exact Or.inr ⟨y, by rw [hu]⟩
  have huses : ∀ c, (s.pc u).uses c = decide (b = c) := by
    intro c
    rcases hcases with ⟨id, hs⟩ | ⟨y, hs⟩
    · rw [hs]
      rfl
    · rw [hs]
      rfl
  have hused : ¬(s.buf b).Pristine := h.not_pristine (u := u) (by rw [huses]; simp)
  refine h.keep ⟨hbuf, horder, hpc, ?_, ?_, hid, h.first b hused, ?_, ?_, nofun, fun _ => hvalid,
    fun _ _ => hvalid⟩ hdisk hdirty ?_
  · intro c hc
    rw [huses]
    simp [hc.symm]
  · intro c hc
    simp [Pc.uses, hc.symm]
  · rw [hpc, hrefcnt]
    exact (h.counts b).keep (by rw [huses]; rfl)
  · rw [hpc, hlock]
    exact (h.locks b).keep (by rw [hu]; simp [Pc.holds])
  · intro _ hquiet
    apply hdata
    cases changed with
    | false => rfl
    | true => exact absurd (by rw [hpc, Function.update_self]) (hquiet u)

/-- `bread` returns the contents of the flat store. -/
theorem bread (h : CacheInv s d) {id : BlockId} (hu : s.pc u = .locked b id)
    {w : CacheState n β} (hread : s.breadRest b = some w) :
    (w.buf b).data = d id ∧ CacheInv (w.goto u (.has b false)) d := by
  have hholds : (s.pc u).holds b = true := by
    rw [hu]
    simp [Pc.holds]
  have huses : (s.pc u).uses b = true := by
    rw [hu]
    simp [Pc.uses]
  have hused := h.not_pristine huses
  have hid := h.target u b id (Or.inr hu)
  unfold CacheState.breadRest at hread
  cases hvalid : (s.buf b).valid with
  | true =>
    rw [hvalid, if_neg (by decide)] at hread
    cases hread
    have hdata := h.data b hvalid (h.unchanged hholds (by rw [hu]; nofun))
    refine ⟨by rw [hdata, hid], ?_⟩
    exact h.hold hholds (x := s.buf b) (Function.update_eq_self b s.buf).symm rfl rfl rfl rfl rfl
      rfl hvalid rfl (fun _ => hdata)
  | false =>
    have hclean : (s.buf b).dirty = false := by
      cases hdirty : (s.buf b).dirty with
      | false => rfl
      | true =>
        rw [h.dirty b hdirty] at hvalid
        cases hvalid
    rw [if_pos hvalid, CacheState.iderw, if_neg (by rw [hclean]; decide), if_pos hvalid] at hread
    cases hread
    have hdata := h.disk_of_clean hused hclean
    refine ⟨?_, ?_⟩
    · rw [← hid, ← hdata]
      simp [CacheState.setBuf]
    · exact h.hold hholds rfl rfl rfl rfl rfl rfl rfl rfl rfl (fun _ => hdata)

/-- The holder stores its data, to the cache or to the disk as well. -/
theorem store (h : CacheInv s d) {changed : Bool} (hu : s.pc u = .has b changed) {x : Buf β}
    (hbuf : t.buf = Function.update s.buf b x) (horder : t.order = s.order)
    (hpc : t.pc = Function.update s.pc u (.has b false))
    (hx : x = { s.buf b with valid := true, dirty := x.dirty })
    (hother : ∀ id, id ≠ (s.buf b).id → t.disk id = s.disk id)
    (hdisk : x.dirty = false → t.disk (s.buf b).id = (s.buf b).data) :
    CacheInv t (Function.update d (s.buf b).id (s.buf b).data) := by
  have huses : (s.pc u).uses b = true := by
    rw [hu]
    simp [Pc.uses]
  have hused := h.not_pristine huses
  have hid : x.id = (s.buf b).id := by rw [hx]
  refine h.update ⟨hbuf, horder, hpc, ?_, ?_, hid, h.first b hused, ?_, ?_, nofun,
    fun _ => by rw [hx], fun _ _ => by rw [hx]⟩ (fun _ => by rw [hx]) ?_ ?_ ?_
  · intro c hc
    simp [hu, Pc.uses, hc.symm]
  · intro c hc
    simp [Pc.uses, hc.symm]
  · rw [hpc, hx]
    exact (h.counts b).keep (by rw [hu]; rfl)
  · rw [hpc, hx]
    exact (h.locks b).keep (by rw [hu]; rfl)
  · intro _ _
    rw [Function.update_self, hx]
  · intro c hc hvalid
    exact Function.update_of_ne (h.id_ne hused (not_pristine_of_valid hvalid) hc) ..
  · intro id hclean
    by_cases hidb : id = (s.buf b).id
    · have hcleanb := hclean b
      rw [hbuf, Function.update_self, hid] at hcleanb
      rw [hidb, Function.update_self]
      exact hdisk (hcleanb hidb.symm)
    · rw [Function.update_of_ne hidb, hother id hidb]
      refine h.disk id ?_
      intro c hc
      have hcb : c ≠ b := by
        rintro rfl
        exact hidb hc.symm
      have hcleanc := hclean c
      rw [hbuf, Function.update_of_ne hcb] at hcleanc
      exact hcleanc hc

theorem logWrite (h : CacheInv s d) {changed : Bool} (hu : s.pc u = .has b changed) :
    CacheInv ((s.setDirty b).goto u (.has b false))
      (Function.update d (s.buf b).id (s.buf b).data) := by
  have hvalid := h.ready u b changed hu
  refine h.store hu (x := { s.buf b with dirty := true }) rfl rfl rfl ?_ (fun _ _ => rfl) nofun
  rw [← hvalid]

theorem bwrite (h : CacheInv s d) {changed : Bool} (hu : s.pc u = .has b changed)
    {w : CacheState n β} (hwrite : s.bwrite b = some w) :
    CacheInv (w.goto u (.has b false)) (Function.update d (s.buf b).id (s.buf b).data) := by
  rw [CacheState.bwrite, CacheState.iderw, s.setDirty_self, if_pos rfl] at hwrite
  cases hwrite
  refine h.store hu (x := { s.buf b with valid := true, dirty := false }) ?_ rfl rfl rfl ?_ ?_
  · exact Function.update_idem ..
  · intro id hid
    exact Function.update_of_ne hid ..
  · intro _
    exact Function.update_self ..

/-! ## All steps -/

/-- What `bget` does: it finds a buffer of the block, or recycles one. -/
theorem bget_cases {id : BlockId} {w : CacheState n β} (h : s.bget id = some (b, w)) :
    (s.lookup id = some b ∧ w = s.setBuf b { s.buf b with refcnt := (s.buf b).refcnt + 1 }) ∨
    (s.lookup id = none ∧ s.victim = some b ∧ w = s.setBuf b { s.buf b with
      id := id, valid := false, dirty := false, refcnt := 1 }) := by
  unfold CacheState.bget at h
  cases hfind : s.lookup id with
  | some c =>
    rw [hfind] at h
    cases h
    exact Or.inl ⟨rfl, rfl⟩
  | none =>
    rw [hfind] at h
    rcases Option.map_eq_some_iff.mp h with ⟨c, hc, heq⟩
    cases heq
    exact Or.inr ⟨rfl, hc, rfl⟩

theorem step [DecidableEq β] (h : CacheInv s d) {a : CacheAction β}
    (hstep : cacheStep s a = some t) :
    ∃ d', runFrom storeStep d (cacheEvents s a) = some d' ∧ CacheInv t d' := by
  cases a with
  | bget u id =>
    simp only [cacheStep, Option.ite_none_right_eq_some, Option.map_eq_some_iff] at hstep
    rcases hstep with ⟨hu, ⟨b, w⟩, hget, rfl⟩
    refine ⟨d, rfl, ?_⟩
    rcases bget_cases hget with ⟨hfind, rfl⟩ | ⟨hmiss, hvictim, rfl⟩
    · exact h.hit hu hfind
    · exact h.recycle hu hmiss hvictim
  | acquiresleep u =>
    simp only [cacheStep] at hstep
    split at hstep
    · rename_i b id hu
      simp only [Option.ite_none_right_eq_some, Option.some.injEq] at hstep
      rcases hstep with ⟨hfree, rfl⟩
      exact ⟨d, rfl, h.acquiresleep hu hfree⟩
    · cases hstep
  | bread u =>
    simp only [cacheStep] at hstep
    split at hstep
    · rename_i b id hu
      rcases Option.map_eq_some_iff.mp hstep with ⟨w, hread, rfl⟩
      rcases h.bread hu hread with ⟨hdata, hinv⟩
      refine ⟨d, ?_, hinv⟩
      simp [cacheEvents, hu, hread, runFrom, storeStep, hdata]
    · cases hstep
  | modify u x =>
    simp only [cacheStep] at hstep
    split at hstep
    · rename_i b changed hu
      cases hstep
      have hvalid := h.ready u b changed hu
      exact ⟨d, rfl, h.hold (by rw [hu]; simp [Pc.holds]) rfl rfl rfl rfl rfl rfl rfl hvalid rfl
        (by simp)⟩
    · cases hstep
  | logWrite u =>
    simp only [cacheStep] at hstep
    split at hstep
    · rename_i b changed hu
      cases hstep
      refine ⟨_, ?_, h.logWrite hu⟩
      simp [cacheEvents, hu, runFrom, storeStep]
    · cases hstep
  | bwrite u =>
    simp only [cacheStep] at hstep
    split at hstep
    · rename_i b changed hu
      rcases Option.map_eq_some_iff.mp hstep with ⟨w, hwrite, rfl⟩
      refine ⟨_, ?_, h.bwrite hu hwrite⟩
      simp [cacheEvents, hu, runFrom, storeStep]
    · cases hstep
  | releasesleep u =>
    simp only [cacheStep] at hstep
    split at hstep
    · rename_i b hu
      cases hstep
      exact ⟨d, rfl, h.releasesleep hu⟩
    · cases hstep
  | brelse u =>
    simp only [cacheStep] at hstep
    split at hstep
    · rename_i b hu
      cases hstep
      exact ⟨d, rfl, h.brelse hu⟩
    · cases hstep

end CacheInv

/-- `iderw` changes one buffer, which it makes valid; it keeps the count. -/
theorem iderw_quiet (h : s.iderw b = some t) :
    t.order = s.order ∧ t.pc = s.pc ∧ ∃ x, t.buf = Function.update s.buf b x ∧
      x.id = (s.buf b).id ∧ x.valid = true ∧ x.refcnt = (s.buf b).refcnt := by
  unfold CacheState.iderw at h
  split at h
  · cases h
    exact ⟨rfl, rfl, _, rfl, rfl, rfl, rfl⟩
  · split at h
    · cases h
      exact ⟨rfl, rfl, _, rfl, rfl, rfl, rfl⟩
    · cases h

/-- A step leaves the block of a buffer and what it holds alone, or recycles a clean buffer
that nobody references. -/
theorem cacheStep_recycles {a : CacheAction β} (hstep : cacheStep s a = some t) (b : Fin n) :
    ((t.buf b).id = (s.buf b).id ∧ ((s.buf b).valid = true → (t.buf b).valid = true)) ∨
      ((s.buf b).refcnt = 0 ∧ (s.buf b).dirty = false) := by
  have hset : ∀ {c : Fin n} {x : Buf β}, t.buf = Function.update s.buf c x →
      x.id = (s.buf c).id → ((s.buf c).valid = true → x.valid = true) →
      (t.buf b).id = (s.buf b).id ∧ ((s.buf b).valid = true → (t.buf b).valid = true) := by
    intro c x hbuf hid hvalid
    by_cases hb : b = c
    · rw [hbuf, hb, Function.update_self]
      exact ⟨hid, hvalid⟩
    · rw [hbuf, Function.update_of_ne hb]
      exact ⟨rfl, fun hv => hv⟩
  cases a with
  | bget u id =>
    simp only [cacheStep, Option.ite_none_right_eq_some, Option.map_eq_some_iff] at hstep
    rcases hstep with ⟨_, ⟨c, w⟩, hget, rfl⟩
    rcases CacheInv.bget_cases hget with ⟨_, rfl⟩ | ⟨_, hvictim, rfl⟩
    · exact Or.inl (hset rfl rfl fun hv => hv)
    · by_cases hb : b = c
      · rw [hb]
        exact Or.inr (CacheInv.victim_some hvictim)
      · left
        have hsame := Function.update_of_ne hb
          { s.buf c with id := id, valid := false, dirty := false, refcnt := 1 } s.buf
        exact ⟨congrArg Buf.id hsame, fun hv => (congrArg Buf.valid hsame).trans hv⟩
  | acquiresleep u =>
    simp only [cacheStep] at hstep
    split at hstep
    · simp only [Option.ite_none_right_eq_some, Option.some.injEq] at hstep
      rcases hstep with ⟨_, rfl⟩
      exact Or.inl (hset rfl rfl fun hv => hv)
    · cases hstep
  | bread u =>
    simp only [cacheStep] at hstep
    split at hstep
    · rename_i c id hu
      rcases Option.map_eq_some_iff.mp hstep with ⟨w, hread, rfl⟩
      unfold CacheState.breadRest at hread
      split at hread
      · rcases iderw_quiet hread with ⟨-, -, x, hbuf, hid, hvalid, -⟩
        exact Or.inl (hset hbuf hid fun _ => hvalid)
      · cases hread
        exact Or.inl ⟨rfl, fun hv => hv⟩
    · cases hstep
  | modify u x | logWrite u | releasesleep u | brelse u =>
    simp only [cacheStep] at hstep
    split at hstep
    · cases hstep
      exact Or.inl (hset rfl rfl fun hv => hv)
    · cases hstep
  | bwrite u =>
    simp only [cacheStep] at hstep
    split at hstep
    · rename_i c changed hu
      rcases Option.map_eq_some_iff.mp hstep with ⟨w, hwrite, rfl⟩
      rcases iderw_quiet hwrite with ⟨-, -, x, hbuf, hid, hvalid, -⟩
      rw [s.setDirty_self] at hid
      exact Or.inl (hset (hbuf.trans (Function.update_idem ..)) hid fun _ => hvalid)
    · cases hstep

end Steps

/-! ## Runs -/

/-- In every state reached by any interleaving: a block has at most one buffer that is
referenced or valid; no step takes a buffer that is dirty or referenced away from its block
or drops what it holds; and what the calls of `bread` returned and the changes that were
logged or written are a run of a map from blocks to contents, which starts as the disk. -/
theorem buffer_cache_refines {n : Nat} {β : Type} [DecidableEq β] (zero : β) (disk : BlockId → β)
    (as : List (CacheAction β)) (s : CacheState n β)
    (hrun : runFrom cacheStep (cacheInit n zero disk) as = some s) :
    (∀ b c, (s.buf b).id = (s.buf c).id → 0 < (s.buf b).refcnt ∨ (s.buf b).valid = true →
      0 < (s.buf c).refcnt ∨ (s.buf c).valid = true → b = c) ∧
    (∀ a t b, cacheStep s a = some t → (s.buf b).dirty = true ∨ 0 < (s.buf b).refcnt →
      (t.buf b).id = (s.buf b).id ∧ ((s.buf b).valid = true → (t.buf b).valid = true)) ∧
    ∃ d, runFrom storeStep disk
      (traceFrom cacheStep cacheEvents (cacheInit n zero disk) as) = some d := by
  have hsim : ∃ d, runFrom storeStep disk
      (traceFrom cacheStep cacheEvents (cacheInit n zero disk) as) = some d ∧ CacheInv s d :=
    runFrom_simulates (fun s a t d hs hst => hs.step hst) (cacheInit_inv n zero disk) hrun
  rcases hsim with ⟨d, htrace, h⟩
  refine ⟨?_, ?_, d, htrace⟩
  · intro b c hid hb hc
    have hused : ∀ x : Buf β, 0 < x.refcnt ∨ x.valid = true → ¬x.Pristine := by
      rintro x (hx | hx)
      · intro hbad
        rw [hbad.1] at hx
        omega
      · exact CacheInv.not_pristine_of_valid hx
    exact h.unique (hused _ hb) (hused _ hc) hid
  · intro a t b hstep hb
    rcases cacheStep_recycles hstep b with hkept | ⟨hzero, hclean⟩
    · exact hkept
    · rcases hb with hb | hb
      · rw [hclean] at hb
        cases hb
      · omega

/-- Two users of block 5, with a cache of one buffer: the second reads what the first one
logged. -/
def logThenRead : List (CacheAction Nat) :=
  [.bget 0 ⟨1, 5⟩, .acquiresleep 0, .bget 1 ⟨1, 5⟩, .bread 0, .modify 0 7, .logWrite 0,
    .releasesleep 0, .acquiresleep 1, .brelse 0, .bread 1]

theorem buffer_cache_refines_logThenRead :
    ∃ s : CacheState 1 Nat, runFrom cacheStep (cacheInit 1 0 fun _ => 3) logThenRead = some s ∧
      traceFrom cacheStep cacheEvents (cacheInit 1 0 fun _ => 3 : CacheState 1 Nat) logThenRead =
        [.read ⟨1, 5⟩ 3, .write ⟨1, 5⟩ 7, .read ⟨1, 5⟩ 7] ∧
      ∃ d, runFrom storeStep (fun _ => 3) (traceFrom cacheStep cacheEvents
        (cacheInit 1 0 fun _ => 3 : CacheState 1 Nat) logThenRead) = some d :=
  ⟨_, rfl, rfl, (buffer_cache_refines 0 (fun _ => 3) logThenRead _ rfl).2.2⟩

end Xv6.Bio
