import Xv6.Bio.Refinement
import Xv6.Foundations.DoublyLinked

/-!
# Buffer cache - The list of buffers

The list of `bio.c` as the pointers that link it: `binit` builds it, `bget` searches it in
both directions, and `brelse` takes a buffer out and puts it behind the head.  The steps are
those of the cache; the list in the state of the cache is not read here, and the pointers
turn out to stand for it.

The fields {lit}`used` and {lit}`released` are a history that no step reads: whether `bget`
ever returned a buffer, and when its count last dropped to 0.  Time counts such releases.

Main results:

- Theorem {lit}`PtrState.lookup_eq`, {lit}`PtrState.victim_eq`: the searches find what
  searches of the list find.
- Theorem {lit}`ListInv.step`: pointers and history are kept by every step.
- Theorem {lit}`buffer_list_lru`: the list is sound and recycling takes the buffer that was
  released first.
-/

namespace Xv6.Bio

open Foundations

/-! ## The code -/

/-- The cache with the pointers of its buffers; `none` is `bcache.head`. -/
structure PtrState (n : Nat) (β : Type) where
  cache : CacheState n β
  links : Links (Option (Fin n))
  used : Fin n → Bool
  released : Fin n → Option Nat
  clock : Nat

/-- The loop of `binit`. -/
def binitLinks (n : Nat) : Links (Option (Fin n)) :=
  (List.finRange n).foldl (fun L b => L.pushFront none (some b)) ⟨fun _ => none, fun _ => none⟩

/-- The state after `binit`. -/
def ptrInit (n : Nat) {β : Type} (zero : β) (disk : BlockId → β) : PtrState n β where
  cache := cacheInit n zero disk
  links := binitLinks n
  used _ := false
  released _ := none
  clock := 0

namespace PtrState

variable {n : Nat} {β : Type}

/-- The first loop of `bget`. -/
def lookup (s : PtrState n β) (id : BlockId) : Option (Fin n) :=
  (scan s.links.next none (fun x => x.any fun b => (s.cache.buf b).id = id) (n + 1)
    (s.links.next none)).join

/-- The second loop of `bget`. -/
def victim (s : PtrState n β) : Option (Fin n) :=
  (scan s.links.prev none
    (fun x => x.any fun b => (s.cache.buf b).refcnt = 0 ∧ (s.cache.buf b).dirty = false) (n + 1)
    (s.links.prev none)).join

/-- Buffer `b` becomes `x`, and `bget` returns it. -/
def take (s : PtrState n β) (b : Fin n) (x : Buf β) : PtrState n β :=
  { s with cache := s.cache.setBuf b x, used := Function.update s.used b true }

/-- `bget` up to `acquiresleep`; undefined where it panics. -/
def bget (s : PtrState n β) (id : BlockId) : Option (Fin n × PtrState n β) :=
  match s.lookup id with
  | some b => some (b, s.take b { s.cache.buf b with refcnt := (s.cache.buf b).refcnt + 1 })
  | none =>
    s.victim.map fun b => (b, s.take b
      { s.cache.buf b with id := id, valid := false, dirty := false, refcnt := 1 })

/-- The part of `brelse` under `bcache.lock`. -/
def brelse (s : PtrState n β) (b : Fin n) : PtrState n β :=
  if (s.cache.buf b).refcnt - 1 = 0 then
    { s with
      cache := s.cache.brelse b
      links := (s.links.unlink (some b)).pushFront none (some b)
      released := Function.update s.released b (some s.clock)
      clock := s.clock + 1 }
  else
    { s with cache := s.cache.brelse b }

end PtrState

/-- One step. -/
def ptrStep {n : Nat} {β : Type} (s : PtrState n β) : CacheAction β → Option (PtrState n β)
  | .bget u id =>
    if s.cache.pc u = .idle then
      (s.bget id).map fun r => { r.2 with cache := r.2.cache.goto u (.want r.1 id) }
    else none
  | .brelse u =>
    match s.cache.pc u with
    | .releasing b =>
      some { s.brelse b with cache := (s.brelse b).cache.goto u .idle }
    | _ => none
  | a => (cacheStep s.cache a).map fun c => { s with cache := c }

/-! ## The invariant -/

/-- The pointers link the list of the cache, which has the buffers in the order of their
last release, latest first and those without one last. -/
structure ListInv {n : Nat} {β : Type} (s : PtrState n β) : Prop where
  ring : LinkedRing s.links none (s.cache.order.map some)
  mem : ∀ b, b ∈ s.cache.order
  recent : s.cache.order.Pairwise fun a b =>
    ∀ t, s.released b = some t → ∃ t', s.released a = some t' ∧ t < t'
  times : ∀ b t, s.released b = some t → t < s.clock
  fresh : ∀ b, s.used b = false → s.released b = none
  idle : ∀ b, s.used b = true → (s.cache.buf b).refcnt = 0 → s.released b ≠ none
  held : ∀ u b, (s.cache.pc u).uses b = true → s.used b = true

section Init

variable {n : Nat} {β : Type}

/-- Each round of `binit` puts a buffer behind the head. -/
theorem ring_foldl {L : Links (Option (Fin n))} {xs bs : List (Fin n)}
    (h : LinkedRing L none (xs.map some)) (hnodup : (bs.reverse ++ xs).Nodup) :
    LinkedRing (bs.foldl (fun L b => L.pushFront none (some b)) L) none
      ((bs.reverse ++ xs).map some) := by
  induction bs generalizing L xs with
  | nil => exact h
  | cons b bs ih =>
    rw [List.reverse_cons, List.append_assoc, List.singleton_append] at hnodup ⊢
    rw [List.foldl_cons]
    refine ih ?_ hnodup
    rw [List.map_cons]
    refine h.pushFront ?_
    have hb := (List.nodup_cons.mp (List.nodup_middle.mp hnodup)).1
    simp only [List.mem_cons, reduceCtorEq, List.mem_map, Option.some.injEq, exists_eq_right,
      false_or]
    intro hbad
    exact hb (List.mem_append_right _ hbad)

theorem ptrInit_inv (zero : β) (disk : BlockId → β) : ListInv (ptrInit n zero disk) := by
  have hnodup : ((List.finRange n).reverse ++ []).Nodup := by
    rw [List.append_nil, List.nodup_reverse]
    exact List.nodup_finRange n
  have hempty : LinkedRing (⟨fun _ => none, fun _ => none⟩ : Links (Option (Fin n))) none
      (([] : List (Fin n)).map some) :=
    ⟨⟨rfl, rfl⟩, ⟨rfl, rfl⟩, List.nodup_singleton _⟩
  refine ⟨?_, ?_, ?_, nofun, fun _ _ => rfl, nofun, nofun⟩
  · have hring := ring_foldl hempty hnodup
    rwa [List.append_nil] at hring
  · intro b
    exact List.mem_reverse.mpr (List.mem_finRange b)
  · refine List.pairwise_of_forall_mem_list ?_
    intro a _ b _ t ht
    cases ht

end Init

section Steps

variable {n : Nat} {β : Type} {s t : PtrState n β} {b : Fin n}

theorem ListInv.nodup (h : ListInv s) : s.cache.order.Nodup :=
  List.Nodup.of_map some (List.nodup_cons.mp h.ring.nodup).2

theorem ListInv.length_lt (h : ListInv s) : (s.cache.order.map some).length < n + 1 := by
  have hcard := h.nodup.length_le_card
  rw [Fintype.card_fin] at hcard
  rw [List.length_map]
  omega

/-- A search of the pointers finds what a search of the list finds. -/
theorem join_find?_map (p : Fin n → Bool) (xs : List (Fin n)) :
    ((xs.map some).find? fun x => x.any p).join = xs.find? p := by
  rw [List.find?_map]
  have hcomp : ((fun x : Option (Fin n) => x.any p) ∘ some) = p := rfl
  rw [hcomp]
  cases xs.find? p with
  | none => rfl
  | some b => rfl

theorem PtrState.lookup_eq (h : ListInv s) (id : BlockId) : s.lookup id = s.cache.lookup id := by
  unfold PtrState.lookup CacheState.lookup
  rw [h.ring.scan_next _ h.length_lt]
  exact join_find?_map _ _

theorem PtrState.victim_eq (h : ListInv s) : s.victim = s.cache.victim := by
  unfold PtrState.victim CacheState.victim
  rw [h.ring.scan_prev _ h.length_lt, ← List.map_reverse]
  exact join_find?_map _ _

/-- What a step other than `bget` and `brelse` may change: not the list, no count, and no
user gets another buffer. -/
structure Quiet (c d : CacheState n β) : Prop where
  order : d.order = c.order
  refcnt : ∀ b, (d.buf b).refcnt = (c.buf b).refcnt
  uses : ∀ u b, (d.pc u).uses b = true → (c.pc u).uses b = true

/-- A step changes one buffer and moves its user on. -/
theorem Quiet.of_update {c d : CacheState n β} {u : Nat} {k : Pc n} {x : Buf β}
    (horder : d.order = c.order) (hbuf : d.buf = Function.update c.buf b x)
    (hx : x.refcnt = (c.buf b).refcnt) (hpc : d.pc = Function.update c.pc u k)
    (hk : ∀ v, k.uses v = true → (c.pc u).uses v = true) : Quiet c d := by
  refine ⟨horder, ?_, ?_⟩
  · intro v
    rw [hbuf]
    by_cases hv : v = b
    · rw [hv, Function.update_self, hx]
    · rw [Function.update_of_ne hv]
  · intro w v hw
    rw [hpc] at hw
    by_cases hwu : w = u
    · rw [hwu, Function.update_self] at hw
      rw [hwu]
      exact hk v hw
    · rwa [Function.update_of_ne hwu] at hw

theorem cacheStep_quiet {c d : CacheState n β} {a : CacheAction β}
    (hget : ∀ u id, a ≠ .bget u id) (hrel : ∀ u, a ≠ .brelse u) (hstep : cacheStep c a = some d) :
    Quiet c d := by
  cases a with
  | bget u id => exact absurd rfl (hget u id)
  | acquiresleep u =>
    simp only [cacheStep] at hstep
    split at hstep
    · rename_i k id hu
      simp only [Option.ite_none_right_eq_some, Option.some.injEq] at hstep
      rcases hstep with ⟨_, rfl⟩
      refine Quiet.of_update rfl rfl rfl rfl ?_
      rw [hu]
      exact fun v hv => hv
    · cases hstep
  | bread u =>
    simp only [cacheStep] at hstep
    split at hstep
    · rename_i k id hu
      rcases Option.map_eq_some_iff.mp hstep with ⟨w, hread, rfl⟩
      have hk : ∀ v, (Pc.has k false).uses v = true → (c.pc u).uses v = true := by
        rw [hu]
        exact fun v hv => hv
      unfold CacheState.breadRest at hread
      split at hread
      · rcases iderw_quiet hread with ⟨horder, hpc, x, hbuf, -, -, hx⟩
        have hmoved : (w.goto u (.has k false)).pc = Function.update c.pc u (.has k false) := by
          rw [← hpc]
          rfl
        exact Quiet.of_update horder hbuf hx hmoved hk
      · cases hread
        exact Quiet.of_update rfl (Function.update_eq_self k c.buf).symm rfl rfl hk
    · cases hstep
  | modify u x | logWrite u =>
    simp only [cacheStep] at hstep
    split at hstep
    · rename_i k changed hu
      cases hstep
      refine Quiet.of_update rfl rfl rfl rfl ?_
      rw [hu]
      exact fun v hv => hv
    · cases hstep
  | bwrite u =>
    simp only [cacheStep] at hstep
    split at hstep
    · rename_i k changed hu
      rcases Option.map_eq_some_iff.mp hstep with ⟨w, hwrite, rfl⟩
      rcases iderw_quiet hwrite with ⟨horder, hpc, x, hbuf, -, -, hx⟩
      rw [c.setDirty_self] at hx
      have hmoved : (w.goto u (.has k false)).pc = Function.update c.pc u (.has k false) := by
        have hpc' : w.pc = c.pc := hpc
        rw [← hpc']
        rfl
      refine Quiet.of_update horder (hbuf.trans (Function.update_idem ..)) hx hmoved ?_
      rw [hu]
      exact fun v hv => hv
    · cases hstep
  | releasesleep u =>
    simp only [cacheStep] at hstep
    split at hstep
    · rename_i k hu
      cases hstep
      refine Quiet.of_update rfl rfl rfl rfl ?_
      rw [hu]
      exact fun v hv => hv
    · cases hstep
  | brelse u => exact absurd rfl (hrel u)

/-- Such a step keeps the invariant. -/
theorem ListInv.of_quiet (h : ListInv s) {c : CacheState n β} (hquiet : Quiet s.cache c) :
    ListInv { s with cache := c } := by
  refine ⟨?_, ?_, ?_, h.times, h.fresh, ?_, ?_⟩
  · rw [hquiet.order]
    exact h.ring
  · intro b
    rw [hquiet.order]
    exact h.mem b
  · rw [hquiet.order]
    exact h.recent
  · intro b hb hzero
    rw [hquiet.refcnt] at hzero
    exact h.idle b hb hzero
  · intro u b hb
    exact h.held u b (hquiet.uses u b hb)

/-- A user moves on to a point where it uses only buffers that `bget` returned. -/
theorem ListInv.goto (h : ListInv s) {u : Nat} {k : Pc n}
    (hk : ∀ b, k.uses b = true → s.used b = true) :
    ListInv { s with cache := s.cache.goto u k } := by
  refine ⟨h.ring, h.mem, h.recent, h.times, h.fresh, h.idle, ?_⟩
  intro v b hv
  change (Function.update s.cache.pc u k v).uses b = true at hv
  by_cases hvu : v = u
  · rw [hvu, Function.update_self] at hv
    exact hk b hv
  · rw [Function.update_of_ne hvu] at hv
    exact h.held v b hv

/-- A buffer with a reference is returned by `bget`. -/
theorem ListInv.take (h : ListInv s) {x : Buf β} (hx : 0 < x.refcnt) : ListInv (s.take b x) := by
  refine ⟨h.ring, h.mem, h.recent, h.times, ?_, ?_, ?_⟩
  · intro c hc
    by_cases hcb : c = b
    · rw [hcb] at hc
      simp [PtrState.take] at hc
    · refine h.fresh c ?_
      simpa [PtrState.take, hcb] using hc
  · intro c hc hzero
    by_cases hcb : c = b
    · rw [hcb] at hzero
      simp [PtrState.take, CacheState.setBuf] at hzero
      omega
    · refine h.idle c ?_ ?_
      · simpa [PtrState.take, hcb] using hc
      · simpa [PtrState.take, CacheState.setBuf, hcb] using hzero
  · intro u c hc
    by_cases hcb : c = b
    · rw [hcb]
      exact Function.update_self ..
    · exact (Function.update_of_ne hcb ..).trans (h.held u c hc)

theorem PtrState.bget_cases {id : BlockId} (h : s.bget id = some (b, t)) :
    ∃ x, 0 < x.refcnt ∧ t = s.take b x := by
  unfold PtrState.bget at h
  split at h
  · cases h
    exact ⟨_, Nat.succ_pos _, rfl⟩
  · rcases Option.map_eq_some_iff.mp h with ⟨c, _, heq⟩
    cases heq
    exact ⟨_, Nat.one_pos, rfl⟩

/-- The count drops, and the buffer moves to the front when it is 0. -/
theorem ListInv.brelse (h : ListInv s) (hused : s.used b = true) : ListInv (s.brelse b) := by
  have hbuf : (s.cache.brelse b).buf = Function.update s.cache.buf b
      { s.cache.buf b with refcnt := (s.cache.buf b).refcnt - 1 } := rfl
  have hcount : ∀ c, c ≠ b → ((s.cache.brelse b).buf c).refcnt = (s.cache.buf c).refcnt := by
    intro c hc
    rw [hbuf, Function.update_of_ne hc]
  have hself : ((s.cache.brelse b).buf b).refcnt = (s.cache.buf b).refcnt - 1 := by
    rw [hbuf, Function.update_self]
  unfold PtrState.brelse
  by_cases hzero : (s.cache.buf b).refcnt - 1 = 0
  · have horder : (s.cache.brelse b).order = b :: s.cache.order.erase b := if_pos hzero
    rw [if_pos hzero]
    have hnodup := h.nodup
    refine ⟨?_, ?_, ?_, ?_, ?_, ?_, h.held⟩
    · change LinkedRing _ none ((s.cache.brelse b).order.map some)
      obtain ⟨ys, zs, hb, hsplit, herase⟩ := List.exists_erase_eq (h.mem b)
      have hring := h.ring
      rw [hsplit, List.map_append, List.map_cons] at hring
      rw [horder, herase, List.map_cons, List.map_append]
      refine hring.unlink.pushFront ?_
      have hfresh := (List.nodup_cons.mp (List.nodup_middle.mp
        (List.nodup_cons.mp hring.nodup).2)).1
      rw [List.mem_cons]
      rintro (hhead | hrest)
      · cases hhead
      · exact hfresh hrest
    · intro c
      change c ∈ (s.cache.brelse b).order
      rw [horder, List.mem_cons]
      by_cases hc : c = b
      · exact Or.inl hc
      · exact Or.inr ((List.mem_erase_of_ne hc).mpr (h.mem c))
    · change (s.cache.brelse b).order.Pairwise _
      have hother : ∀ c ∈ s.cache.order.erase b,
          Function.update s.released b (some s.clock) c = s.released c := by
        intro c hc
        refine Function.update_of_ne ?_ ..
        rintro rfl
        exact hnodup.not_mem_erase hc
      rw [horder, List.pairwise_cons]
      refine ⟨?_, ?_⟩
      · intro c hc t ht
        replace ht := (hother c hc).symm.trans ht
        exact ⟨s.clock, Function.update_self .., h.times c t ht⟩
      · refine (h.recent.sublist List.erase_sublist).imp_of_mem ?_
        intro a c ha hc hac t ht
        obtain ⟨t', ht', hlt⟩ := hac t ((hother c hc).symm.trans ht)
        exact ⟨t', (hother a ha).trans ht', hlt⟩
    · intro c t ht
      dsimp only at ht ⊢
      by_cases hc : c = b
      · rw [hc, Function.update_self, Option.some_inj] at ht
        omega
      · rw [Function.update_of_ne hc] at ht
        exact Nat.lt_succ_of_lt (h.times c t ht)
    · intro c hc
      have hcb : c ≠ b := by
        rintro rfl
        rw [hused] at hc
        cases hc
      exact (Function.update_of_ne hcb ..).trans (h.fresh c hc)
    · intro c hc hcount'
      dsimp only at hc hcount' ⊢
      by_cases hcb : c = b
      · rw [hcb, Function.update_self]
        exact Option.some_ne_none _
      · rw [Function.update_of_ne hcb]
        refine h.idle c hc ?_
        rw [← hcount c hcb]
        exact hcount'
  · have horder : (s.cache.brelse b).order = s.cache.order := if_neg hzero
    rw [if_neg hzero]
    refine ⟨?_, ?_, ?_, h.times, h.fresh, ?_, h.held⟩
    · change LinkedRing _ none ((s.cache.brelse b).order.map some)
      rw [horder]
      exact h.ring
    · intro c
      change c ∈ (s.cache.brelse b).order
      rw [horder]
      exact h.mem c
    · change (s.cache.brelse b).order.Pairwise _
      rw [horder]
      exact h.recent
    · intro c hc hcount'
      by_cases hcb : c = b
      · rw [hcb] at hcount'
        exact absurd (hself.symm.trans hcount') hzero
      · refine h.idle c hc ?_
        rw [← hcount c hcb]
        exact hcount'

/-- Every step keeps pointers and history. -/
theorem ListInv.step (h : ListInv s) {a : CacheAction β} (hstep : ptrStep s a = some t) :
    ListInv t := by
  have hother : (∀ u id, a ≠ .bget u id) → (∀ u, a ≠ .brelse u) →
      ((cacheStep s.cache a).map fun c => { s with cache := c }) = some t → ListInv t := by
    intro hget hrel hmap
    rcases Option.map_eq_some_iff.mp hmap with ⟨c, hc, rfl⟩
    exact h.of_quiet (cacheStep_quiet hget hrel hc)
  cases a with
  | bget u id =>
    simp only [ptrStep, Option.ite_none_right_eq_some, Option.map_eq_some_iff] at hstep
    rcases hstep with ⟨_, ⟨b, w⟩, hget, rfl⟩
    rcases PtrState.bget_cases hget with ⟨x, hx, rfl⟩
    refine (h.take hx).goto ?_
    intro c hc
    have hbc : b = c := of_decide_eq_true hc
    rw [← hbc]
    exact Function.update_self ..
  | brelse u =>
    simp only [ptrStep] at hstep
    split at hstep
    · rename_i b hu
      cases hstep
      have hused : s.used b = true := h.held u b (by simp [hu, Pc.uses])
      exact (h.brelse hused).goto (by simp [Pc.uses])
    · cases hstep
  | acquiresleep u | bread u | modify u x | logWrite u | bwrite u | releasesleep u =>
    exact hother (by simp) (by simp) hstep

/-! ## Recycling -/

/-- A buffer that `bget` may recycle. -/
def PtrState.Recyclable (s : PtrState n β) (b : Fin n) : Prop :=
  (s.cache.buf b).refcnt = 0 ∧ (s.cache.buf b).dirty = false

/-- The last of a list that passes a test comes after all others that do. -/
theorem find?_reverse_split {p : Fin n → Bool} {xs : List (Fin n)}
    (h : xs.reverse.find? p = some b) :
    p b = true ∧ ∃ ys zs, xs = ys ++ b :: zs ∧ ∀ c ∈ zs, p c = false := by
  obtain ⟨hb, ys, zs, hsplit, hnone⟩ := List.find?_eq_some_iff_append.mp h
  refine ⟨hb, zs.reverse, ys.reverse, ?_, ?_⟩
  · have hrev := congrArg List.reverse hsplit
    simpa using hrev
  · intro c hc
    simpa using hnone c (List.mem_reverse.mp hc)

/-- The buffer that is recycled was released before all others that could be. -/
theorem ListInv.victim (h : ListInv s) (hb : s.victim = some b) :
    s.Recyclable b ∧ ∀ c, s.Recyclable c → c ≠ b →
      ∀ t, s.released b = some t → ∃ t', s.released c = some t' ∧ t < t' := by
  rw [PtrState.victim_eq h] at hb
  obtain ⟨hpass, ys, zs, hsplit, hnone⟩ := find?_reverse_split hb
  simp only [decide_eq_true_eq] at hpass
  refine ⟨hpass, ?_⟩
  intro c hc hcb
  have hrecent := h.recent
  have hmem := h.mem c
  rw [hsplit] at hrecent hmem
  rcases List.mem_append.mp hmem with hbefore | hafter
  · exact (List.pairwise_append.mp hrecent).2.2 c hbefore b List.mem_cons_self
  · rcases List.mem_cons.mp hafter with hself | hlater
    · exact absurd hself hcb
    · have hfail := hnone c hlater
      simp only [decide_eq_false_iff_not] at hfail
      exact absurd hc hfail

theorem ListInv.victim_none (h : ListInv s) (hnone : s.victim = none) (c : Fin n) :
    ¬s.Recyclable c := by
  rw [PtrState.victim_eq h] at hnone
  have hc := List.find?_eq_none.mp hnone c (List.mem_reverse.mpr (h.mem c))
  simpa [PtrState.Recyclable] using hc

theorem ListInv.lookup_none (h : ListInv s) {id : BlockId} (hmiss : ∀ b, (s.cache.buf b).id ≠ id) :
    s.lookup id = none := by
  rw [PtrState.lookup_eq h]
  refine List.find?_eq_none.mpr ?_
  intro b _
  simpa using hmiss b

/-- A buffer that nobody references was used exactly if it was released. -/
theorem ListInv.used_iff (h : ListInv s) (hzero : (s.cache.buf b).refcnt = 0) :
    s.used b = true ↔ s.released b ≠ none := by
  constructor
  · intro hused
    exact h.idle b hused hzero
  · intro hreleased
    by_contra hunused
    exact hreleased (h.fresh b (Bool.eq_false_of_not_eq_true hunused))

end Steps

/-! ## Runs -/

/-- In every state that any interleaving reaches from `binit`: the pointers link the head and
each buffer once, in both directions; of two buffers that nobody references the one ahead was
released later, or the one behind was never used; and a `bget` that finds no buffer of the
block recycles an unreferenced buffer that is not dirty, unless there is none, and this buffer
was never used if any such buffer was never used, and was released before all the others if
not. -/
theorem buffer_list_lru {n : Nat} {β : Type} (zero : β) (disk : BlockId → β)
    (as : List (CacheAction β)) (s : PtrState n β)
    (hrun : runFrom ptrStep (ptrInit n zero disk) as = some s) :
    (∃ order : List (Fin n), LinkedRing s.links none (order.map some) ∧
      (∀ b, order.count b = 1) ∧
      order.Pairwise fun a b => (s.cache.buf a).refcnt = 0 → (s.cache.buf b).refcnt = 0 →
        s.used b = true → ∃ t t', s.released b = some t ∧ s.released a = some t' ∧ t < t') ∧
    ∀ id, (∀ b, (s.cache.buf b).id ≠ id) →
      match s.bget id with
      | none => ∀ c, ¬s.Recyclable c
      | some (b, _) => s.Recyclable b ∧
          ((∃ c, s.Recyclable c ∧ s.used c = false) → s.used b = false) ∧
          ((∀ c, s.Recyclable c → s.used c = true) → ∃ t, s.released b = some t ∧
            ∀ c, s.Recyclable c → c ≠ b → ∃ t', s.released c = some t' ∧ t < t') := by
  have h : ListInv s :=
    runFrom_invariant (fun s a t hs hst => hs.step hst) (ptrInit_inv zero disk) hrun
  refine ⟨⟨s.cache.order, h.ring, ?_, ?_⟩, ?_⟩
  · intro b
    exact List.count_eq_one_of_mem h.nodup (h.mem b)
  · refine h.recent.imp ?_
    intro a b hab _ hb hused
    obtain ⟨t, ht⟩ := Option.ne_none_iff_exists'.mp ((h.used_iff hb).mp hused)
    obtain ⟨t', ht', hlt⟩ := hab t ht
    exact ⟨t, t', ht, ht', hlt⟩
  · intro id hmiss
    have hget : s.bget id = s.victim.map fun b => (b, s.take b
        { s.cache.buf b with id := id, valid := false, dirty := false, refcnt := 1 }) := by
      unfold PtrState.bget
      rw [h.lookup_none hmiss]
    rw [hget]
    cases hvictim : s.victim with
    | none => exact h.victim_none hvictim
    | some b =>
      obtain ⟨hb, holdest⟩ := h.victim hvictim
      refine ⟨hb, ?_, ?_⟩
      · -- a buffer that was never used has no release before which the victim's could be
        rintro ⟨c, hc, hfresh⟩
        by_contra hused
        obtain ⟨t, ht⟩ := Option.ne_none_iff_exists'.mp
          ((h.used_iff hb.1).mp (Bool.eq_true_of_not_eq_false hused))
        have hcb : c ≠ b := by
          rintro rfl
          exact hused hfresh
        obtain ⟨t', ht', -⟩ := holdest c hc hcb t ht
        rw [h.fresh c hfresh] at ht'
        cases ht'
      · intro hall
        obtain ⟨t, ht⟩ := Option.ne_none_iff_exists'.mp ((h.used_iff hb.1).mp (hall b hb))
        exact ⟨t, ht, fun c hc hcb => holdest c hc hcb t ht⟩

/-- Two users read a block each and give the buffers back in the other order. -/
def readTwoBack : List (CacheAction Nat) :=
  [.bget 0 ⟨1, 5⟩, .bget 1 ⟨1, 6⟩, .acquiresleep 0, .acquiresleep 1, .bread 0, .bread 1,
    .releasesleep 1, .brelse 1, .releasesleep 0, .brelse 0]

theorem buffer_list_lru_readTwoBack :
    ∃ s : PtrState 2 Nat, runFrom ptrStep (ptrInit 2 0 fun _ => 3) readTwoBack = some s ∧
      (s.bget ⟨1, 7⟩).map Prod.fst = some 1 ∧ s.released 1 = some 0 ∧ s.released 0 = some 1 ∧
      ∃ order : List (Fin 2), LinkedRing s.links none (order.map some) ∧
        ∀ b, order.count b = 1 := by
  have hvalues : (runFrom ptrStep (ptrInit 2 0 fun _ => 3) readTwoBack).map
      (fun s : PtrState 2 Nat => ((s.bget ⟨1, 7⟩).map Prod.fst, s.released 1, s.released 0)) =
        some (some 1, some 0, some 1) := by decide +kernel
  obtain ⟨s, hrun, hs⟩ := Option.map_eq_some_iff.mp hvalues
  simp only [Prod.mk.injEq] at hs
  obtain ⟨hget, hone, hzero⟩ := hs
  obtain ⟨order, hring, hcount, -⟩ := (buffer_list_lru 0 (fun _ => 3) readTwoBack s hrun).1
  exact ⟨s, hrun, hget, hone, hzero, order, hring, hcount⟩

end Xv6.Bio
