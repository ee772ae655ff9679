import CivetWeb.Bytes
import CivetWeb.Match.Sort
import Mathlib.Order.Lex

namespace CivetWeb

open Comparison

/-- A `struct de` with what its order is made of. -/
structure De where
  fileName : List Byte
  size : Nat
  lastModified : Int
  isDirectory : Bool
  /-- The name is a C string. -/
  fileName_plain : NUL ∉ fileName

/-- `strcmp` of two C strings given without their NUL. -/
def strcmp : List Byte → List Byte → Int
  | [], [] => 0
  | [], b :: _ => - (b.toNat : Int)
  | a :: _, [] => a.toNat
  | a :: s, b :: t => if a = b then strcmp s t else a.toNat - b.toNat

/-- `compare_dir_entries` with the query string of the request. -/
def compareDirEntries (arg : Option (List Byte)) (a b : De) : Int :=
  let queryString := arg.getD []
  let queryString := if deref queryString = NUL then ascii "n" else queryString
  if a.isDirectory && !b.isDirectory then -1
  else if !a.isDirectory && b.isDirectory then 1
  else
    let cmpResult : Int :=
      if deref queryString = 115 then (if a.size = b.size then 0 else if b.size < a.size then 1 else -1)
      else if deref queryString = 100 then
        (if a.lastModified = b.lastModified then 0 else if b.lastModified < a.lastModified then 1 else -1)
      else 0
    let cmpResult := if cmpResult = 0 then strcmp a.fileName b.fileName else cmpResult
    if deref queryString.tail = 100 then -cmpResult else cmpResult

/-! ### The order of the entries -/

/-- `strcmp` is the order of the names as lists of bytes. -/
theorem ordering_strcmp (s t : List Byte) (hs : NUL ∉ s) (ht : NUL ∉ t) : ordering strcmp s t = compare s t := by
  have hpos (c : Byte) (hc : c ≠ NUL) : 0 < (c.toNat : Int) := by
    have hne : c.toNat ≠ 0 := fun h => hc (UInt8.toNat_inj.mp h)
    omega
  induction s generalizing t with
  | nil =>
    cases t with
    | nil => rfl
    | cons b t =>
      have hb := hpos b fun h => ht (by simp [h])
      rw [List.compare_nil_cons, ordering_lt, strcmp]
      omega
  | cons a s ih =>
    cases t with
    | nil =>
      have ha := hpos a fun h => hs (by simp [h])
      rw [List.compare_cons_nil, ordering_gt, strcmp]
      exact ha
    | cons b t =>
      rw [List.compare_cons_cons]
      by_cases hab : a = b
      · have hrest := ih t (fun h => hs (List.mem_cons_of_mem a h)) (fun h => ht (List.mem_cons_of_mem b h))
        have hsame : strcmp (a :: s) (b :: t) = strcmp s t := if_pos hab
        have hself : compare b b = .eq := Std.ReflCmp.compare_self
        rw [ordering, hsame, hab, hself]
        exact hrest
      · have hdiff : strcmp (a :: s) (b :: t) = (a.toNat : Int) - b.toNat := if_neg hab
        rcases Nat.lt_or_gt_of_ne fun h => hab (UInt8.toNat_inj.mp h) with hlt | hgt
        · rw [Std.compare_eq_lt.mpr (UInt8.lt_iff_toNat_lt.mpr hlt), ordering_lt.mpr (by omega)]
          rfl
        · rw [Std.compare_eq_gt.mpr (UInt8.lt_iff_toNat_lt.mpr hgt), ordering_gt.mpr (by omega)]
          rfl

/-- The key that a query asks for, in front of the name. -/
def sortKey (arg : Option (List Byte)) (a : De) : Int :=
  if deref (arg.getD []) = 115 then a.size else if deref (arg.getD []) = 100 then a.lastModified else 0

/-- A query string with a second `d` asks for the descending order. -/
def descending (arg : Option (List Byte)) : Bool := deref (arg.getD []) ≠ NUL ∧ deref (arg.getD []).tail = 100

/-- The entries in the order of a query: directories first, then the key, then the name. -/
def entryOrdering (arg : Option (List Byte)) : De → De → Ordering :=
  let ascending : De → De → Ordering := compareLex (compareOn (sortKey arg)) (compareOn De.fileName)
  compareLex (compareOn fun a => !a.isDirectory)
    (if descending arg then fun a b => ascending b a else ascending)

instance (arg : Option (List Byte)) : Std.TransCmp (entryOrdering arg) := by
  unfold entryOrdering
  split <;> infer_instance

/-- The query string that is looked at asks for the same key and direction. -/
theorem queryString_default (arg : Option (List Byte)) :
    let queryString := if deref (arg.getD []) = NUL then ascii "n" else arg.getD []
    (deref queryString = 115 ↔ deref (arg.getD []) = 115) ∧ (deref queryString = 100 ↔ deref (arg.getD []) = 100) ∧
      (deref queryString.tail = 100 ↔ descending arg = true) := by
  dsimp only
  unfold descending
  by_cases h : deref (arg.getD []) = NUL
  · rw [if_pos h, h]
    exact ⟨by decide, by decide, iff_of_false (by decide) (by simp)⟩
  · rw [if_neg h]
    simp [h]

/-- `compare_dir_entries` is the order of its query. -/
theorem ordering_compareDirEntries (arg : Option (List Byte)) (a b : De) :
    ordering (compareDirEntries arg) a b = entryOrdering arg a b := by
  obtain ⟨hsize, hdate, hdesc⟩ := queryString_default arg
  have hname := ordering_strcmp a.fileName b.fileName a.fileName_plain b.fileName_plain
  unfold ordering at hname ⊢
  unfold compareDirEntries entryOrdering
  dsimp only at hsize hdate hdesc ⊢
  generalize (if deref (arg.getD []) = NUL then ascii "n" else arg.getD []) = queryString at hsize hdate hdesc ⊢
  have hkey : compare
      (if deref queryString = 115 then (if a.size = b.size then 0 else if b.size < a.size then 1 else -1)
      else if deref queryString = 100 then
        (if a.lastModified = b.lastModified then 0 else if b.lastModified < a.lastModified then 1 else -1)
      else 0 : Int) 0 = compare (sortKey arg a) (sortKey arg b) := by
    unfold sortKey
    by_cases hs : deref queryString = 115
    · have hcast := compare_threeWay a.size b.size
      simp only [Nat.cast_inj, Nat.cast_lt] at hcast
      rw [if_pos hs, if_pos (hsize.mp hs), if_pos (hsize.mp hs), hcast]
    · rw [if_neg hs, if_neg (fun h => hs (hsize.mpr h)), if_neg (fun h => hs (hsize.mpr h))]
      by_cases hd : deref queryString = 100
      · rw [if_pos hd, if_pos (hdate.mp hd), if_pos (hdate.mp hd), compare_threeWay]
      · rw [if_neg hd, if_neg (fun h => hd (hdate.mpr h)), if_neg (fun h => hd (hdate.mpr h))]
  generalize (if deref queryString = 115 then (if a.size = b.size then 0 else if b.size < a.size then 1 else -1)
      else if deref queryString = 100 then
        (if a.lastModified = b.lastModified then 0 else if b.lastModified < a.lastModified then 1 else -1)
      else 0 : Int) = cmpResult at hkey ⊢
  have hresult := compare_ite_zero cmpResult (strcmp a.fileName b.fileName)
  rw [hkey, hname] at hresult
  generalize (if cmpResult = 0 then strcmp a.fileName b.fileName else cmpResult) = result at hresult ⊢
  -- the ascending order, and turned round the descending one
  obtain ⟨ascending, hasc⟩ : ∃ ascending : De → De → Ordering,
      ascending = compareLex (compareOn (sortKey arg)) (compareOn De.fileName) := ⟨_, rfl⟩
  have hascending : compare result 0 = ascending a b := by rw [hresult, hasc]; rfl
  have hswap : ascending b a = (ascending a b).swap := by
    rw [hasc]
    exact Std.OrientedCmp.eq_swap
  have hdirected : compare (if deref queryString.tail = 100 then -result else result) 0 =
      (if descending arg then fun a b => ascending b a else ascending) a b := by
    by_cases h : deref queryString.tail = 100
    · rw [if_pos h, if_pos (hdesc.mp h), compare_neg_zero, hascending, hswap]
    · rw [if_neg h, if_neg (fun hd => h (hdesc.mpr hd)), hascending]
  rw [← hasc]
  have hkind (directed : De → De → Ordering) : compareLex (compareOn fun a => !a.isDirectory) directed a b =
      (compare (!a.isDirectory) (!b.isDirectory)).then (directed a b) := rfl
  rw [hkind]
  cases a.isDirectory with
  | true =>
    cases b.isDirectory with
    | true => exact hdirected
    | false => rfl
  | false =>
    cases b.isDirectory with
    | true => rfl
    | false => exact hdirected

theorem compareDirEntries_preorder (arg : Option (List Byte)) : TotalPreorder (compareDirEntries arg) := by
  have heq : ordering (compareDirEntries arg) = entryOrdering arg := by
    funext a b
    exact ordering_compareDirEntries arg a b
  have hlawful : Std.TransCmp (ordering (compareDirEntries arg)) := heq ▸ inferInstance
  exact totalPreorder_of_transCmp (compareDirEntries arg)

/-- Equal entries are of one kind and have one name. -/
theorem compareDirEntries_eq_zero {arg : Option (List Byte)} {a b : De} (h : compareDirEntries arg a b = 0) :
    a.isDirectory = b.isDirectory ∧ a.fileName = b.fileName := by
  have hord : entryOrdering arg a b = .eq := by
    rw [← ordering_compareDirEntries]
    exact ordering_eq.mpr h
  obtain ⟨hkind, hrest⟩ := Ordering.then_eq_eq.mp hord
  have hname : compare a.fileName b.fileName = .eq := by
    split at hrest
    · exact Std.OrientedCmp.eq_symm (Ordering.then_eq_eq.mp hrest).2
    · exact (Ordering.then_eq_eq.mp hrest).2
  refine ⟨?_, Std.LawfulEqCmp.eq_of_compare hname⟩
  have hbool : (!a.isDirectory) = !b.isDirectory := Std.LawfulEqCmp.eq_of_compare hkind
  simpa using hbool

/-- A directory stands in front of a file, whatever the direction. -/
theorem compareDirEntries_directory (arg : Option (List Byte)) {a b : De} (ha : a.isDirectory = true)
    (hb : b.isDirectory = false) : compareDirEntries arg a b < 0 := by
  have hfirst : compareDirEntries arg a b = -1 := by
    unfold compareDirEntries
    rw [ha, hb]
    rfl
  rw [hfirst]
  decide

/-- Every sort by a total preorder leaves the elements in order, and the entries of a directory are in the order
of the query, directories first. -/
theorem directory_sorted :
    (∀ (α : Type) (compfunc : α → α → Int), TotalPreorder compfunc → ∀ data : List α,
      (Match.mgSort compfunc data).Perm data ∧ (Match.mgSort compfunc data).Pairwise (fun a b => compfunc a b ≤ 0)) ∧
    ∀ queryString : Option (List Byte),
      TotalPreorder (compareDirEntries queryString) ∧
      (∀ a b, compareDirEntries queryString a b = 0 → a.isDirectory = b.isDirectory ∧ a.fileName = b.fileName) ∧
      (∀ a b, a.isDirectory = true → b.isDirectory = false → compareDirEntries queryString a b < 0) ∧
      ∀ entries : List De,
        (Match.mgSort (compareDirEntries queryString) entries).Perm entries ∧
        (Match.mgSort (compareDirEntries queryString) entries).Pairwise
          (fun a b => compareDirEntries queryString a b ≤ 0 ∧ (b.isDirectory = true → a.isDirectory = true)) := by
  have hsorted (α : Type) (compfunc : α → α → Int) (h : TotalPreorder compfunc) (data : List α) :
      (Match.mgSort compfunc data).Perm data ∧
        (Match.mgSort compfunc data).Pairwise (fun a b => compfunc a b ≤ 0) :=
    ⟨Match.mgSort_perm compfunc data, Match.mgSort_ordered (fun a b hab => ((h.swap a b).mp hab).le) h.trans data⟩
  refine ⟨hsorted, fun queryString => ⟨compareDirEntries_preorder queryString, fun a b h => compareDirEntries_eq_zero h,
    fun a b ha hb => compareDirEntries_directory queryString ha hb, fun entries => ?_⟩⟩
  obtain ⟨hperm, hordered⟩ :=
    hsorted De (compareDirEntries queryString) (compareDirEntries_preorder queryString) entries
  refine ⟨hperm, hordered.imp fun {a b} hab => ⟨hab, fun hb => ?_⟩⟩
  by_contra ha
  have hlt := compareDirEntries_directory queryString hb (Bool.eq_false_iff.mpr ha)
  have := ((compareDirEntries_preorder queryString).swap a b).mpr hlt
  omega

/-- A directory in front of two files of one size, in descending order of their size. -/
theorem directory_sorted_descending :
    ((Match.mgSort (compareDirEntries (some (ascii "sd"))) [⟨ascii "a", 5, 0, false, by decide⟩,
      ⟨ascii "b", 5, 0, false, by decide⟩, ⟨ascii "d", 0, 0, true, by decide⟩]).map De.fileName) =
        [ascii "d", ascii "b", ascii "a"] ∧
      (Match.mgSort (fun a b : Int => a - b) [3, 1, 2]).Pairwise (fun a b => a - b ≤ 0) := by
  have h := directory_sorted.1 Int (fun a b => a - b) ⟨fun a b => by omega, fun a b c hab hbc => by omega⟩ [3, 1, 2]
  exact ⟨by decide +kernel, h.2⟩

end CivetWeb
