import Mathlib.Data.List.Nodup
import Mathlib.Data.List.Perm.Subperm
import Mathlib.Data.List.Basic

namespace LinkedList

variable {A V : Type*}

/-- A cell of memory: a value and the address of the next cell. -/
structure Cell (A V : Type*) where
  value : V
  next : Option A
  deriving DecidableEq, Repr

/-- The cells that are allocated, each with its address. -/
abbrev Memory (A V : Type*) := List (A × Cell A V)

section
variable [DecidableEq A]

def read (m : Memory A V) (a : A) : Option (Cell A V) := (m.find? (fun e => e.1 = a)).map (·.2)

/-- Writes to the cell at `a`. -/
def modify (m : Memory A V) (a : A) (f : Cell A V → Cell A V) : Memory A V :=
  m.map fun e => if e.1 = a then (e.1, f e.2) else e

def modifyValue (m : Memory A V) (a : A) (f : V → V) : Memory A V :=
  modify m a fun c => { c with value := f c.value }

def free (m : Memory A V) (a : A) : Memory A V := m.filter fun e => e.1 ≠ a

/-- The addresses and values on the way from the pointer `p` to the end of its list, at most `n` cells;
`none` where the way leaves the allocated memory. -/
def walk (m : Memory A V) : Nat → Option A → Option (List (A × V))
  | _, none => some []
  | 0, some _ => none
  | n + 1, some a =>
    match read m a with
    | none => none
    | some c => (walk m n c.next).map ((a, c.value) :: ·)

/-- The list behind a pointer. -/
def listAt (m : Memory A V) (p : Option A) : Option (List (A × V)) := walk m m.length p

/-- Writes `q` to the pointer that leads to a cell: the one in the cell `prev`, or the head of the list. -/
def relink (m : Memory A V) (head prev q : Option A) : Memory A V × Option A :=
  match prev with
  | none => (m, q)
  | some b => (modify m b fun c => { c with next := q }, head)

/-- A new cell at the end of a list whose last cell is `prev`. -/
def insertLast (m : Memory A V) (head prev : Option A) (a : A) (v : V) : Memory A V × Option A :=
  relink ((a, ⟨v, none⟩) :: m) head prev (some a)

/-- Takes the cell at `a`, which is behind `prev`, out of its list and frees it. -/
def remove (m : Memory A V) (head prev : Option A) (a : A) : Memory A V × Option A :=
  let (m', head') := relink m head prev ((read m a).bind (·.next))
  (free m' a, head')

/-- The pointer `p` leads through the cells of `l` to the end of the list. -/
inductive Chain (m : Memory A V) : Option A → List (A × V) → Prop
  | nil : Chain m none []
  | cons (a : A) (c : Cell A V) (l : List (A × V)) : read m a = some c → Chain m c.next l →
      Chain m (some a) ((a, c.value) :: l)

/-! ### Reading and writing -/

theorem read_cons (m : Memory A V) (a b : A) (c : Cell A V) :
    read ((a, c) :: m) b = if a = b then some c else read m b := by
  unfold read
  rw [List.find?_cons]
  by_cases h : a = b
  · simp [h]
  · simp [h]

theorem read_modify (m : Memory A V) (a b : A) (f : Cell A V → Cell A V) :
    read (modify m a f) b = if b = a then (read m b).map f else read m b := by
  induction m with
  | nil =>
    unfold read
    simp [modify]
  | cons e m ih =>
    obtain ⟨x, c⟩ := e
    have hcons : modify ((x, c) :: m) a f = (x, if x = a then f c else c) :: modify m a f := by
      unfold modify
      rw [List.map_cons]
      split_ifs <;> rfl
    rw [hcons, read_cons, read_cons, ih]
    by_cases hx : x = b
    · subst hx
      split_ifs <;> rfl
    · rw [if_neg hx, if_neg hx]

theorem read_free (m : Memory A V) (a b : A) :
    read (free m a) b = if b = a then none else read m b := by
  induction m with
  | nil =>
    unfold read
    simp [free]
  | cons e m ih =>
    obtain ⟨x, c⟩ := e
    by_cases hx : x = a
    · have hcons : free ((x, c) :: m) a = free m a := by
        unfold free
        rw [List.filter_cons_of_neg (by simp [hx])]
      rw [hcons, ih, read_cons]
      by_cases hb : b = a
      · rw [if_pos hb, if_pos hb]
      · rw [if_neg hb, if_neg hb, if_neg (fun h => hb (h.symm.trans hx))]
    · have hcons : free ((x, c) :: m) a = (x, c) :: free m a := by
        unfold free
        rw [List.filter_cons_of_pos (by simp [hx])]
      rw [hcons, read_cons, ih, read_cons]
      by_cases hb : x = b
      · rw [if_pos hb, if_pos hb, if_neg (fun h => hx (hb.trans h))]
      · rw [if_neg hb, if_neg hb]

theorem read_mem (m : Memory A V) (a : A) (c : Cell A V) (h : read m a = some c) : a ∈ m.map (·.1) := by
  unfold read at h
  rw [Option.map_eq_some_iff] at h
  obtain ⟨e, he, rfl⟩ := h
  have ha := List.find?_some he
  rw [decide_eq_true_eq] at ha
  exact ha ▸ List.mem_map_of_mem (List.mem_of_find?_eq_some he)

/-! ### Lists in memory -/

theorem Chain.unique (m : Memory A V) (p : Option A) (l l' : List (A × V)) (h : Chain m p l)
    (h' : Chain m p l') : l = l' := by
  induction h generalizing l' with
  | nil =>
    cases h'
    rfl
  | cons a c l hread _ ih =>
    cases h' with
    | cons _ c' l' hread' hrest =>
      obtain rfl : c = c' := Option.some.inj (hread.symm.trans hread')
      rw [ih l' hrest]

/-- The part of a list from one of its cells on. -/
theorem Chain.suffix (m : Memory A V) (p : Option A) (l₁ l₂ : List (A × V)) (a : A) (v : V)
    (h : Chain m p (l₁ ++ (a, v) :: l₂)) : Chain m (some a) ((a, v) :: l₂) := by
  induction l₁ generalizing p with
  | nil =>
    cases h with
    | cons _ c _ hread hrest => exact Chain.cons a c l₂ hread hrest
  | cons e l₁ ih =>
    cases h with
    | cons _ c _ hread hrest => exact ih c.next hrest

/-- No cell comes twice. -/
theorem Chain.nodup (m : Memory A V) (p : Option A) (l : List (A × V)) (h : Chain m p l) :
    (l.map (·.1)).Nodup := by
  induction h with
  | nil => exact List.nodup_nil
  | cons a c l hread hrest ih =>
    rw [List.map_cons, List.nodup_cons]
    refine ⟨?_, ih⟩
    intro ha
    obtain ⟨⟨b, v⟩, hmem, rfl⟩ := List.mem_map.mp ha
    obtain ⟨l₁, l₂, rfl⟩ := List.append_of_mem hmem
    have hlong := Chain.cons b c _ hread hrest
    have hlen := congrArg List.length (Chain.unique m _ _ _ hlong (hrest.suffix m c.next l₁ l₂ b v))
    simp only [List.length_cons, List.length_append] at hlen
    omega

theorem Chain.read (m : Memory A V) (p : Option A) (l : List (A × V)) (h : Chain m p l) (a : A) (v : V)
    (ha : (a, v) ∈ l) : ∃ next, LinkedList.read m a = some ⟨v, next⟩ := by
  obtain ⟨l₁, l₂, rfl⟩ := List.append_of_mem ha
  cases h.suffix m p l₁ l₂ a v with
  | cons _ c _ hread _ => exact ⟨c.next, hread⟩

theorem Chain.length_le (m : Memory A V) (p : Option A) (l : List (A × V)) (h : Chain m p l) :
    l.length ≤ m.length := by
  have hsub : l.map (·.1) ⊆ m.map (·.1) := by
    intro a ha
    obtain ⟨⟨b, v⟩, hmem, rfl⟩ := List.mem_map.mp ha
    obtain ⟨next, hread⟩ := h.read m p l b v hmem
    exact read_mem m b _ hread
  have hle := (List.Nodup.subperm (h.nodup m p l) hsub).length_le
  rwa [List.length_map, List.length_map] at hle

theorem walk_chain (m : Memory A V) (n : Nat) (p : Option A) (l : List (A × V))
    (h : walk m n p = some l) : Chain m p l := by
  induction n generalizing p l with
  | zero =>
    cases p with
    | none =>
      rw [walk, Option.some.injEq] at h
      exact h ▸ Chain.nil
    | some a => cases h
  | succ n ih =>
    cases p with
    | none =>
      rw [walk, Option.some.injEq] at h
      exact h ▸ Chain.nil
    | some a =>
      rw [walk] at h
      cases hread : LinkedList.read m a with
      | none =>
        rw [hread] at h
        cases h
      | some c =>
        rw [hread] at h
        dsimp only at h
        rw [Option.map_eq_some_iff] at h
        obtain ⟨rest, hrest, rfl⟩ := h
        exact Chain.cons a c rest hread (ih c.next rest hrest)

theorem Chain.walk (m : Memory A V) (p : Option A) (l : List (A × V)) (h : Chain m p l) (n : Nat)
    (hn : l.length ≤ n) : LinkedList.walk m n p = some l := by
  induction h generalizing n with
  | nil => cases n <;> rfl
  | cons a c l hread _ ih =>
    obtain ⟨n, rfl⟩ : ∃ k, n = k + 1 := ⟨n - 1, by rw [List.length_cons] at hn; omega⟩
    rw [LinkedList.walk, hread]
    dsimp only
    rw [ih n (by rw [List.length_cons] at hn; omega), Option.map_some]

theorem listAt_eq (m : Memory A V) (p : Option A) (l : List (A × V)) :
    listAt m p = some l ↔ Chain m p l :=
  ⟨walk_chain m m.length p l, fun h => h.walk m p l m.length (h.length_le m p l)⟩

/-! ### What the operations do to a list -/

/-- Cells that are not on the list do not matter. -/
theorem Chain.frame (m m' : Memory A V) (p : Option A) (l : List (A × V)) (h : Chain m p l)
    (hread : ∀ a ∈ l.map (·.1), LinkedList.read m' a = LinkedList.read m a) : Chain m' p l := by
  induction h with
  | nil => exact Chain.nil
  | cons a c l hc _ ih =>
    apply Chain.cons a c l
    · rw [hread a (by simp), hc]
    · exact ih fun b hb => hread b (List.mem_cons_of_mem a hb)

theorem Chain.modifyValue (m : Memory A V) (p : Option A) (l : List (A × V)) (h : Chain m p l) (a : A)
    (f : V → V) :
    Chain (modifyValue m a f) p (l.map fun e => if e.1 = a then (e.1, f e.2) else e) := by
  induction h with
  | nil => exact Chain.nil
  | cons b c l hread _ ih =>
    have hb := read_modify m a b fun c => { c with value := f c.value }
    rw [hread] at hb
    rw [List.map_cons]
    by_cases heq : b = a
    · rw [if_pos heq] at hb ⊢
      exact Chain.cons b { c with value := f c.value } _ hb ih
    · rw [if_neg heq] at hb ⊢
      exact Chain.cons b c _ hb ih

/-- The address of the last cell. -/
def lastCell (l : List (A × V)) : Option A := l.getLast?.map (·.1)

/-- A pointer in the middle of a list that is changed leads on to another list. -/
theorem Chain.relink (m : Memory A V) (head : Option A) (l₁ l₂ l₃ : List (A × V)) (q : Option A)
    (h : Chain m head (l₁ ++ l₂)) (hq : Chain m q l₃)
    (hdisjoint : ∀ a ∈ l₁.map (·.1), a ∉ l₃.map (·.1)) :
    Chain (relink m head (lastCell l₁) q).1 (relink m head (lastCell l₁) q).2 (l₁ ++ l₃) := by
  obtain rfl | ⟨l₁, ⟨b, v⟩, rfl⟩ := List.eq_nil_or_concat' l₁
  · exact hq
  · have hlast : lastCell (l₁ ++ [(b, v)]) = some b := by simp [lastCell]
    rw [hlast]
    have hnodup := h.nodup m head _
    simp only [List.append_assoc, List.singleton_append, List.map_append, List.map_cons] at h hnodup
    obtain ⟨next, hb⟩ := h.read m head _ b v (by simp)
    have hfresh : ∀ l : List (A × V), b ∉ l.map (·.1) → ∀ a ∈ l.map (·.1),
        LinkedList.read (modify m b fun c => { c with next := q }) a = LinkedList.read m a := by
      intro l hl a ha
      rw [read_modify, if_neg]
      rintro rfl
      exact hl ha
    have htail : Chain (modify m b fun c => { c with next := q }) (some b) ((b, v) :: l₃) := by
      apply Chain.cons b ⟨v, q⟩ l₃
      · rw [read_modify, if_pos rfl, hb]
        rfl
      · exact hq.frame m _ q l₃ (hfresh l₃ (hdisjoint b (by simp)))
    have hb₁ : b ∉ l₁.map (·.1) := by
      intro hmem
      exact (List.nodup_append.mp hnodup).2.2 b hmem b (by simp) rfl
    -- the cells in front of the changed one lead to it as before
    suffices hfront : ∀ (p : Option A) (l : List (A × V)), b ∉ l.map (·.1) →
        Chain m p (l ++ (b, v) :: l₂) →
        Chain (modify m b fun c => { c with next := q }) p (l ++ (b, v) :: l₃) by
      rw [List.append_assoc]
      exact hfront head l₁ hb₁ h
    intro p l
    induction l generalizing p with
    | nil =>
      intro _ hp
      cases hp with
      | cons _ _ _ _ _ => exact htail
    | cons e l ih =>
      intro hnotin hp
      rw [List.map_cons, List.mem_cons, not_or] at hnotin
      cases hp with
      | cons a c _ hread hrest =>
        apply Chain.cons a c
        · rw [read_modify, if_neg (fun heq => hnotin.1 heq.symm), hread]
        · exact ih c.next hnotin.2 hrest

theorem Chain.insertLast (m : Memory A V) (head : Option A) (l : List (A × V)) (a : A) (v : V)
    (h : Chain m head l) (hfresh : LinkedList.read m a = none) :
    Chain (insertLast m head (lastCell l) a v).1 (insertLast m head (lastCell l) a v).2
      (l ++ [(a, v)]) := by
  have hnotin : ∀ b ∈ l.map (·.1), b ≠ a := by
    intro b hb heq
    obtain ⟨⟨x, w⟩, hmem, rfl⟩ := List.mem_map.mp hb
    obtain ⟨next, hread⟩ := h.read m head l x w hmem
    dsimp only at heq
    rw [heq, hfresh] at hread
    cases hread
  have hkeep : Chain ((a, ⟨v, none⟩) :: m) head l := by
    apply h.frame
    intro b hb
    rw [read_cons, if_neg (fun heq => hnotin b hb heq.symm)]
  apply Chain.relink
  · rw [List.append_nil]
    exact hkeep
  · apply Chain.cons a ⟨v, none⟩ []
    · rw [read_cons, if_pos rfl]
    · exact Chain.nil
  · intro b hb hmem
    exact hnotin b hb (by simpa using hmem)

theorem Chain.remove (m : Memory A V) (head : Option A) (l₁ l₂ : List (A × V)) (a : A) (v : V)
    (h : Chain m head (l₁ ++ (a, v) :: l₂)) :
    Chain (remove m head (lastCell l₁) a).1 (remove m head (lastCell l₁) a).2 (l₁ ++ l₂) := by
  have hnodup := h.nodup m head _
  rw [List.map_append, List.map_cons] at hnodup
  obtain ⟨-, htail, hdisj⟩ := List.nodup_append.mp hnodup
  obtain ⟨next, hread⟩ := h.read m head _ a v (by simp)
  have hnext : Chain m next l₂ := by
    cases h.suffix m head l₁ l₂ a v with
    | cons _ c _ hc hrest =>
      rw [hread, Option.some.injEq] at hc
      rw [← hc] at hrest
      exact hrest
  have hlink := Chain.relink m head l₁ ((a, v) :: l₂) l₂ next h hnext
    (fun b hb hmem => hdisj b hb b (List.mem_cons_of_mem a hmem) rfl)
  unfold LinkedList.remove
  rw [hread]
  apply hlink.frame
  intro b hb
  dsimp only [Option.bind_some]
  rw [read_free, if_neg]
  rintro rfl
  rw [List.map_append, List.mem_append] at hb
  rcases hb with hb | hb
  · exact hdisj b hb b List.mem_cons_self rfl
  · exact (List.nodup_cons.mp htail).1 hb

end

/-! ### Values changed everywhere -/

/-- Every cell with a value that goes by its address and its value. -/
def mapValues (g : A → V → V) (m : Memory A V) : Memory A V :=
  m.map fun e => (e.1, { e.2 with value := g e.1 e.2.value })

variable [DecidableEq A]

theorem read_mapValues (g : A → V → V) (m : Memory A V) (a : A) :
    read (mapValues g m) a = (read m a).map fun c => { c with value := g a c.value } := by
  induction m with
  | nil => rfl
  | cons e m ih =>
    obtain ⟨x, c⟩ := e
    have hcons : mapValues g ((x, c) :: m) = (x, { c with value := g x c.value }) :: mapValues g m := rfl
    rw [hcons, read_cons, read_cons, ih]
    by_cases hx : x = a
    · subst hx
      rw [if_pos rfl, if_pos rfl, Option.map_some]
    · rw [if_neg hx, if_neg hx]

theorem walk_mapValues (g : A → V → V) (m : Memory A V) (n : Nat) (p : Option A) :
    walk (mapValues g m) n p = (walk m n p).map (List.map fun e => (e.1, g e.1 e.2)) := by
  induction n generalizing p with
  | zero => cases p <;> rfl
  | succ n ih =>
    cases p with
    | none => rfl
    | some a =>
      rw [walk, walk, read_mapValues]
      cases read m a with
      | none => rfl
      | some c =>
        simp only [Option.map_some]
        rw [ih]
        cases walk m n c.next <;> rfl

theorem listAt_mapValues (g : A → V → V) (m : Memory A V) (p : Option A) :
    listAt (mapValues g m) p = (listAt m p).map (List.map fun e => (e.1, g e.1 e.2)) := by
  have hlen : (mapValues g m).length = m.length := by
    unfold mapValues
    rw [List.length_map]
  unfold listAt
  rw [hlen, walk_mapValues]

theorem modifyValue_mapValues (g : A → V → V) (m : Memory A V) (a : A) (f : V → V) :
    modifyValue (mapValues g m) a f = mapValues (fun b v => if b = a then f (g b v) else g b v) m := by
  unfold modifyValue modify mapValues
  rw [List.map_map]
  apply List.map_congr_left
  intro e _
  dsimp only [Function.comp_apply]
  split_ifs <;> rfl

end LinkedList
