import Mathlib
import Xv6.Fs.Directory

/-!
# File system - The elements of a path

`skipelem` splits a path in place, one element at a time, and copies each element to the array
`name`, without a terminating zero when it fills the array.  Here the elements of a path are those
of the plain split at the slashes, and `namex` is given the array that it fills.

Main results:

- Theorem {lit}`skipelem_some`: {lit}`skipelem` takes the first element off.
- Theorem {lit}`copyName_holds`: what the array holds.
- Theorem {lit}`namexInto_eq`: {lit}`namex` with its array is {lit}`namexLoop`.
-/

namespace Xv6.Fs

open Foundations

/-! ## Elements -/

/-- The maximal non-empty parts of a path without slashes. -/
def parts (path : Path) : List (List UInt8) :=
  (path.splitOn slash).filter fun e => e ≠ []

/-- The elements of a path: its parts, cut to `DIRSIZ` bytes. -/
def elements (path : Path) : List (List UInt8) :=
  (parts path).map (List.take dirsiz)

theorem parts_cons_slash (path : Path) : parts (slash :: path) = parts path := by
  have hslash : (slash == slash) = true := beq_self_eq_true slash
  have hsplit := List.splitOnP_append_cons (p := fun c => c == slash) [] path hslash
  unfold parts List.splitOn
  rw [List.nil_append] at hsplit
  rw [hsplit, List.splitOnP_nil, List.filter_append]
  rfl

theorem parts_dropWhile (path : Path) :
    parts (path.dropWhile fun c => c = slash) = parts path := by
  induction path with
  | nil => rfl
  | cons c path ih =>
    by_cases hc : c = slash
    · subst hc
      rw [List.dropWhile_cons_of_pos (by simp), parts_cons_slash, ih]
    · rw [List.dropWhile_cons_of_neg (by simpa using hc)]

theorem parts_of_no_slash {e : List UInt8} (hne : e ≠ []) (h : ∀ c ∈ e, c ≠ slash) :
    parts e = [e] := by
  have hsplit : List.splitOnP (fun c => c == slash) e = [e] :=
    List.splitOnP_eq_singleton fun c hc => by simpa using h c hc
  unfold parts List.splitOn
  rw [hsplit]
  simp [hne]

theorem parts_append {e : List UInt8} (hne : e ≠ []) (h : ∀ c ∈ e, c ≠ slash) (path : Path) :
    parts (e ++ slash :: path) = e :: parts path := by
  have hslash : (slash == slash) = true := beq_self_eq_true slash
  have hsplit := List.splitOnP_append_cons (p := fun c => c == slash) e path hslash
  have hsingle : List.splitOnP (fun c => c == slash) e = [e] :=
    List.splitOnP_eq_singleton fun c hc => by simpa using h c hc
  unfold parts List.splitOn
  rw [hsplit, hsingle, List.filter_append]
  simp [hne]

/-- The first element of a path, as `skipelem` finds it. -/
def firstPart (path : Path) : List UInt8 :=
  (path.dropWhile fun c => c = slash).takeWhile fun c => c ≠ slash

/-- What `skipelem` leaves of a path. -/
def restOf (path : Path) : Path :=
  ((path.dropWhile fun c => c = slash).drop (firstPart path).length).dropWhile fun c => c = slash

theorem skipelem_eq (path : Path) :
    skipelem path = if path.dropWhile (fun c => c = slash) = [] then none
      else some (restOf path, (firstPart path).take dirsiz) := by
  unfold skipelem
  simp only
  split
  · rename_i hnil
    rw [if_pos hnil]
  · rename_i c rest hcons
    rw [if_neg (by rw [hcons]; simp)]
    rfl

/-- The parts of a path are the first one and those of the rest. -/
theorem parts_eq_cons {path : Path} (h : path.dropWhile (fun c => c = slash) ≠ []) :
    parts path = firstPart path :: parts (restOf path) := by
  generalize hstart : path.dropWhile (fun c => c = slash) = start at h
  have hfirst : firstPart path = start.takeWhile fun c => c ≠ slash := by
    unfold firstPart
    rw [hstart]
  have hrest : restOf path =
      (start.dropWhile fun c => c ≠ slash).dropWhile fun c => c = slash := by
    unfold restOf
    rw [hstart, hfirst]
    congr 1
    have hsplit := List.takeWhile_append_dropWhile (p := fun c => decide (c ≠ slash)) (l := start)
    calc start.drop (start.takeWhile fun c => c ≠ slash).length
        = ((start.takeWhile fun c => c ≠ slash) ++ start.dropWhile fun c => c ≠ slash).drop
            (start.takeWhile fun c => c ≠ slash).length := by rw [hsplit]
      _ = start.dropWhile fun c => c ≠ slash := List.drop_left
  have hne : firstPart path ≠ [] := by
    rw [hfirst]
    cases hs : start with
    | nil => exact absurd hs h
    | cons c cs =>
      have hhead := List.head_dropWhile_not (fun c => decide (c = slash)) (l := path)
        (by rw [hstart, hs]; simp)
      have hc : c ≠ slash := by simpa [hstart, hs] using hhead
      rw [List.takeWhile_cons_of_pos (by simpa using hc)]
      simp
  have hclean : ∀ c ∈ firstPart path, c ≠ slash := by
    intro c hc
    rw [hfirst] at hc
    have hall := List.all_eq_true.mp (List.all_takeWhile (l := start)
      (p := fun c => decide (c ≠ slash))) c hc
    simpa using hall
  rw [← parts_dropWhile path, hstart, hrest, parts_dropWhile]
  have hsplit := List.takeWhile_append_dropWhile (p := fun c => decide (c ≠ slash)) (l := start)
  rw [← hfirst] at hsplit
  cases htail : start.dropWhile (fun c => c ≠ slash) with
  | nil =>
    rw [htail, List.append_nil] at hsplit
    rw [← hsplit, parts_of_no_slash hne hclean]
    rfl
  | cons c cs =>
    have hhead := List.head_dropWhile_not (fun c => decide (c ≠ slash)) (l := start)
      (by rw [htail]; simp)
    have hc : c = slash := by
      simp only [htail, List.head_cons] at hhead
      simpa using hhead
    subst hc
    rw [htail] at hsplit
    rw [← hsplit, parts_append hne hclean, parts_cons_slash]

/-- A path without elements. -/
theorem skipelem_none {path : Path} (h : skipelem path = none) : parts path = [] := by
  rw [skipelem_eq] at h
  split at h
  · rename_i hnil
    rw [← parts_dropWhile, hnil]
    rfl
  · exact absurd h (by simp)

/-- `skipelem` takes the first element off a path. -/
theorem skipelem_some {path rest : Path} {name : List UInt8}
    (h : skipelem path = some (rest, name)) :
    parts path = firstPart path :: parts rest ∧ name = (firstPart path).take dirsiz := by
  rw [skipelem_eq] at h
  split at h
  · exact absurd h (by simp)
  · rename_i hne
    rw [Option.some.injEq, Prod.mk.injEq] at h
    rw [← h.1, ← h.2]
    exact ⟨parts_eq_cons hne, rfl⟩

/-- The last element is reached when nothing is left of the path. -/
theorem rest_nil_iff {path rest : Path} {name : List UInt8}
    (h : skipelem path = some (rest, name)) : rest = [] ↔ parts rest = [] := by
  constructor
  · intro hnil
    rw [hnil]
    rfl
  · intro hparts
    rw [skipelem_eq] at h
    split at h
    · exact absurd h (by simp)
    rw [Option.some.injEq, Prod.mk.injEq] at h
    have hdrop : rest.dropWhile (fun c => c = slash) = rest := by
      rw [← h.1]
      exact List.dropWhile_idempotent _ _
    by_contra hne
    rw [← hdrop] at hne
    rw [parts_eq_cons hne] at hparts
    exact absurd hparts (by simp)

/-! ## The array -/

/-- The array `name` after `skipelem` copied an element to it. -/
def copyName (name : Bytes dirsiz) (elem : List UInt8) : Bytes dirsiz :=
  if dirsiz ≤ elem.length then name.overwrite 0 (elem.take dirsiz)
  else (name.overwrite 0 elem).overwrite elem.length [0]

/-- The array holds a name: its bytes, and a zero behind them when there is room. -/
def HoldsName (name : Bytes dirsiz) (c : List UInt8) : Prop :=
  name.slice 0 c.length = c ∧ (c.length < dirsiz → name.byteAt c.length = 0)

theorem copyName_holds (name : Bytes dirsiz) (elem : List UInt8) :
    HoldsName (copyName name elem) (elem.take dirsiz) := by
  unfold HoldsName copyName
  by_cases hlong : dirsiz ≤ elem.length
  · have hlen : (elem.take dirsiz).length = dirsiz := List.length_take_of_le (by omega)
    rw [if_pos hlong]
    refine ⟨Bytes.slice_overwrite_same (by omega), ?_⟩
    intro hshort
    omega
  · have htake : elem.take dirsiz = elem := List.take_of_length_le (by omega)
    rw [if_neg hlong, htake]
    constructor
    · rw [Bytes.slice_overwrite_disjoint (by omega)]
      exact Bytes.slice_overwrite_same (by omega)
    · intro _
      have hbyte : ((name.overwrite 0 elem).overwrite elem.length [0]).byteAt (elem.length + 0) =
          [0].getD 0 0 :=
        Bytes.byteAt_overwrite_inside (by simp) (by rw [List.length_singleton]; omega)
      exact hbyte

/-- As a string, the array is the name it holds. -/
theorem HoldsName.cstr_eq {name : Bytes dirsiz} {c : List UInt8} (h : HoldsName name c)
    (hlen : c.length ≤ dirsiz) : cstr dirsiz (List.ofFn name) = cstr dirsiz c := by
  obtain ⟨hslice, hzero⟩ := h
  have hbyte : ∀ k (hk : k < dirsiz), (List.ofFn name)[k]? = some (name.byteAt k) := by
    intro k hk
    rw [List.getElem?_ofFn, dif_pos hk, Bytes.byteAt, dif_pos hk]
  have hstart : (List.ofFn name).take c.length = c := by
    apply List.ext_getElem?
    intro k
    rw [List.getElem?_take]
    split
    · rename_i hk
      have hget := Bytes.getD_slice name 0 hk
      rw [hslice, Nat.zero_add] at hget
      rw [hbyte k (by omega), ← hget, List.getD_eq_getElem?_getD,
        List.getElem?_eq_getElem hk, Option.getD_some]
    · rename_i hk
      rw [List.getElem?_eq_none (by omega)]
  have hsplit := List.take_append_drop c.length (List.ofFn name)
  rw [hstart] at hsplit
  unfold cstr
  rw [List.take_of_length_le (by rw [List.length_ofFn]), List.take_of_length_le hlen, ← hsplit]
  rcases Nat.lt_or_eq_of_le hlen with hshort | hfull
  · have hcons : (List.ofFn name).drop c.length =
        0 :: (List.ofFn name).drop (c.length + 1) := by
      rw [List.drop_eq_getElem_cons (by rw [List.length_ofFn]; exact hshort)]
      congr 1
      have hat := hbyte c.length hshort
      rw [List.getElem?_eq_getElem (by rw [List.length_ofFn]; exact hshort),
        Option.some.injEq] at hat
      rw [hat, hzero hshort]
    rw [hcons, List.takeWhile_append]
    split
    · rename_i hall
      rw [List.takeWhile_cons_of_neg (by simp), List.append_nil]
      exact (List.takeWhile_prefix _).eq_of_length hall |>.symm
    · rfl
  · rw [List.drop_eq_nil_of_le (by rw [List.length_ofFn]; omega), List.append_nil]

/-! ## namex with its array -/

/-- `skipelem` with the array that it fills. -/
def skipelemInto (path : Path) (name : Bytes dirsiz) : Option (Path × Bytes dirsiz) :=
  let path := path.dropWhile fun c => c = slash
  match path with
  | [] => none
  | _ :: _ =>
    let elem := path.takeWhile fun c => c ≠ slash
    some ((path.drop elem.length).dropWhile fun c => c = slash, copyName name elem)

/-- The loop of `namex` with the array that it fills. -/
def namexInto (parent : Bool) :
    Nat → Fin ninode → Path → Bytes dirsiz → FsProg (Option (Fin ninode × Bytes dirsiz))
  | 0, _, _, _ => return none
  | fuel + 1, ip, path, name =>
    match skipelemInto path name with
    | none =>
      if parent then do
        perform (.iput ip)
        return none
      else return some (ip, name)
    | some (path, name) => do
      perform (.ilock ip)
      let x ← perform (.attr ip)
      if x.type ≠ tDir then do
        iunlockput ip
        return none
      else if parent ∧ path = [] then do
        perform (.iunlock ip)
        return some (ip, name)
      else do
        match ← dirlookup ip (List.ofFn name) with
        | none => do
          iunlockput ip
          return none
        | some (next, _) => do
          iunlockput ip
          namexInto parent fuel next path name

/-- `nameiparent` with the array `name` of its caller. -/
def nameiparentInto (path : Path) (name : Bytes dirsiz) :
    FsProg (Option (Fin ninode × Bytes dirsiz)) :=
  if path.head? = some slash then do
    let ip ← perform (.iget rootino)
    namexInto true (path.length + 1) ip path name
  else do
    let cwd ← perform .cwd
    perform (.idup cwd)
    namexInto true (path.length + 1) cwd path name

theorem skipelemInto_eq (path : Path) (name : Bytes dirsiz) :
    skipelemInto path name =
      (skipelem path).map fun q => (q.1, copyName name (firstPart path)) := by
  unfold skipelemInto skipelem firstPart
  simp only
  cases hstart : path.dropWhile (fun c => decide (c = slash)) with
  | nil => rfl
  | cons c cs => rfl

/-- `dirlookup` sees a name up to its end only. -/
theorem dirlookup_congr (dp : Fin ninode) {a b : List UInt8} (h : cstr dirsiz a = cstr dirsiz b) :
    dirlookup dp a = dirlookup dp b := by
  have hcmp : ∀ c, namecmp a c = 0 ↔ namecmp b c = 0 := by
    intro c
    rw [namecmp_eq_zero, namecmp_eq_zero, h]
  have hloop : ∀ fuel off, dirlookupLoop dp a fuel off = dirlookupLoop dp b fuel off := by
    intro fuel
    induction fuel with
    | zero =>
      intro off
      rfl
    | succ fuel ih =>
      intro off
      unfold dirlookupLoop
      simp only [hcmp, ih]
  unfold dirlookup
  simp only [hloop]

/-- `namex` with its array does what `namexLoop` does, and leaves the last element in the array. -/
theorem namexInto_eq (parent : Bool) (fuel : Nat) (ip : Fin ninode) (path : Path)
    (name : Bytes dirsiz) (last : List UInt8) :
    namexInto parent fuel ip path name = (do
      let r ← namexLoop parent fuel ip path last
      return r.map fun q => (q.1, (parts path).foldl copyName name)) := by
  induction fuel generalizing ip path name last with
  | zero => rfl
  | succ fuel ih =>
    unfold namexInto namexLoop
    rw [skipelemInto_eq]
    cases hskip : skipelem path with
    | none =>
      rw [skipelem_none hskip]
      cases parent with
      | false => rfl
      | true => rfl
    | some q =>
      obtain ⟨rest, elem⟩ := q
      obtain ⟨hparts, helem⟩ := skipelem_some hskip
      have hname : cstr dirsiz (List.ofFn (copyName name (firstPart path))) =
          cstr dirsiz elem := by
        rw [helem]
        exact (copyName_holds name (firstPart path)).cstr_eq (List.length_take_le ..)
      rw [hparts, List.foldl_cons, Option.map_some]
      simp only [bind_assoc]
      congr 1
      funext _
      congr 1
      funext x
      by_cases hdir : x.type ≠ tDir
      · rw [if_pos hdir, if_pos hdir, bind_assoc]
        rfl
      rw [if_neg hdir, if_neg hdir]
      by_cases hlast : parent = true ∧ rest = []
      · rw [if_pos hlast, if_pos hlast, bind_assoc, hlast.2]
        rfl
      rw [if_neg hlast, if_neg hlast, bind_assoc, dirlookup_congr ip hname]
      congr 1
      funext r
      cases r with
      | none =>
        simp only [bind_assoc]
        rfl
      | some q =>
        simp only [bind_assoc]
        congr 1
        funext _
        exact ih q.1 rest (copyName name (firstPart path)) elem

/-- The array holds the last element at the end. -/
theorem foldl_copyName_holds {path : Path} {c : List UInt8} (h : (elements path).getLast? = some c)
    (name : Bytes dirsiz) : HoldsName ((parts path).foldl copyName name) c := by
  unfold elements at h
  rw [List.getLast?_map, Option.map_eq_some_iff] at h
  obtain ⟨e, he, rfl⟩ := h
  obtain ⟨es, hes⟩ := List.getLast?_eq_some_iff.mp he
  rw [hes, List.foldl_append]
  exact copyName_holds _ e

end Xv6.Fs
