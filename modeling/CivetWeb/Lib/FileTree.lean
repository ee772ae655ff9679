import Mathlib.Data.List.Basic
import Mathlib.Data.List.Infix

namespace FileTree

variable {Name Content : Type*}

inductive Node (Content : Type*) where
  | file (content : Content)
  | dir
  deriving DecidableEq, Repr

/-- A component of a path name: a name, `.` or `..`. -/
inductive Comp (Name : Type*) where
  | name (n : Name)
  | here
  | up
  deriving DecidableEq, Repr

/-- A path name from the root on, and whether it ends with a slash. -/
structure FileName (Name : Type*) where
  comps : List (Comp Name)
  slash : Bool
  deriving DecidableEq, Repr

inductive Errno where
  | EACCES
  | EEXIST
  | EINVAL
  | EISDIR
  | ENOENT
  | ENOTDIR
  | ENOTEMPTY
  | other (n : Nat)
  deriving DecidableEq, Repr

/-- A file system without links: a finite map from paths to nodes. -/
structure Tree (Name Content : Type*) where
  node : List Name → Option (Node Content)
  paths : List (List Name)
  covers : ∀ p, node p ≠ none → p ∈ paths

def Comp.follow (p : List Name) : Comp Name → List Name
  | .name n => p ++ [n]
  | .here => p
  | .up => p.dropLast

/-- Path resolution: every component but the last has to lead to a directory. -/
def Tree.walkFrom (t : Tree Name Content) : List Name → List (Comp Name) → Except Errno (List Name)
  | p, [] => .ok p
  | p, c :: cs =>
    match t.node p with
    | none => .error .ENOENT
    | some (.file _) => .error .ENOTDIR
    | some .dir => t.walkFrom (c.follow p) cs

def Tree.walk (t : Tree Name Content) (f : FileName Name) : Except Errno (List Name) :=
  t.walkFrom [] f.comps

/-- The node that a name leads to; behind a slash it has to be a directory. -/
def Tree.find (t : Tree Name Content) (f : FileName Name) :
    Except Errno (List Name × Node Content) :=
  match t.walk f with
  | .error e => .error e
  | .ok p =>
    match t.node p with
    | none => .error .ENOENT
    | some (.file content) => if f.slash then .error .ENOTDIR else .ok (p, .file content)
    | some .dir => .ok (p, .dir)

/-- The name ends with the name of an entry, so the entry can be taken out of its directory. -/
def FileName.plain (f : FileName Name) : Bool :=
  match f.comps.getLast? with
  | some (.name _) => true
  | _ => false

variable [DecidableEq Name]

def Tree.isEmpty (t : Tree Name Content) (p : List Name) : Bool :=
  t.paths.all (fun q => !(p.isPrefixOf q && p != q && (t.node q).isSome))

def Tree.set (t : Tree Name Content) (p : List Name) (n : Option (Node Content)) :
    Tree Name Content where
  node q := if q = p then n else t.node q
  paths := p :: t.paths
  covers q hq := by
    by_cases h : q = p
    · exact List.mem_cons.mpr (Or.inl h)
    · rw [if_neg h] at hq
      exact List.mem_cons_of_mem p (t.covers q hq)

/-- `remove`: a file is unlinked, a directory removed if it is empty. -/
def Tree.remove (t : Tree Name Content) (f : FileName Name) : Except Errno (Tree Name Content) :=
  match t.find f with
  | .error e => .error e
  | .ok (p, n) =>
    if !f.plain then .error .EINVAL
    else
      match n with
      | .file _ => .ok (t.set p none)
      | .dir => if t.isEmpty p then .ok (t.set p none) else .error .ENOTEMPTY

/-- `mkdir`. -/
def Tree.mkdir (t : Tree Name Content) (f : FileName Name) : Except Errno (Tree Name Content) :=
  match t.walk f with
  | .error e => .error e
  | .ok p => if (t.node p).isSome then .error .EEXIST else .ok (t.set p (some .dir))

/-- The file that `fopen` with the mode `"w"` leaves empty, or creates. -/
def Tree.openWrite (t : Tree Name Content) (f : FileName Name) : Except Errno (List Name) :=
  match t.walk f with
  | .error e => .error e
  | .ok p =>
    match t.node p with
    | some .dir => .error .EISDIR
    | some (.file _) => if f.slash then .error .ENOTDIR else .ok p
    | none => if f.slash || !f.plain then .error .EISDIR else .ok p

/-- The tree below `s` is put in the place of the one below `d`. -/
def Tree.move (t : Tree Name Content) (s d : List Name) : Tree Name Content where
  node p :=
    if d <+: p then t.node (s ++ p.drop d.length)
    else if s <+: p then none
    else t.node p
  paths := t.paths.map (fun q => d ++ q.drop s.length) ++ t.paths
  covers p hp := by
    rw [List.mem_append]
    by_cases hd : d <+: p
    · obtain ⟨r, rfl⟩ := hd
      rw [if_pos (List.prefix_append d r), List.drop_left] at hp
      exact Or.inl (List.mem_map.mpr ⟨s ++ r, t.covers _ hp, by rw [List.drop_left]⟩)
    · rw [if_neg hd] at hp
      split_ifs at hp with hs
      · exact absurd rfl hp
      · exact Or.inr (t.covers p hp)

/-- The two ends of a `rename` that can be done. -/
def Tree.renameEnds (t : Tree Name Content) (old new : FileName Name) :
    Except Errno (List Name × List Name) :=
  match t.find old with
  | .error e => .error e
  | .ok (s, n) =>
    match t.walk new with
    | .error e => .error e
    | .ok d =>
      if !old.plain || !new.plain then .error .EINVAL
      else
        match n with
        | .file _ =>
          if new.slash then .error .ENOTDIR
          else if t.node d matches some .dir then .error .EISDIR
          else .ok (s, d)
        | .dir =>
          if s = d then .ok (s, d)
          else if s <+: d then .error .EINVAL
          else
            match t.node d with
            | none => .ok (s, d)
            | some (.file _) => .error .ENOTDIR
            | some .dir => if t.isEmpty d then .ok (s, d) else .error .ENOTEMPTY

/-- `rename`; of a file to itself it does nothing. -/
def Tree.rename (t : Tree Name Content) (old new : FileName Name) :
    Except Errno (Tree Name Content) :=
  match t.renameEnds old new with
  | .error e => .error e
  | .ok (s, d) => .ok (if s = d then t else t.move s d)

omit [DecidableEq Name] in
/-- A path that is resolved leads through directories. -/
theorem walkFrom_parents (t : Tree Name Content) (cs : List (Comp Name)) (p q : List Name)
    (hp : ∀ r, r <+: p → r ≠ p → t.node r = some .dir) (h : t.walkFrom p cs = .ok q) :
    ∀ r, r <+: q → r ≠ q → t.node r = some .dir := by
  induction cs generalizing p with
  | nil =>
    rw [Tree.walkFrom, Except.ok.injEq] at h
    exact h ▸ hp
  | cons c cs ih =>
    rw [Tree.walkFrom] at h
    cases hn : t.node p with
    | none =>
      rw [hn] at h
      cases h
    | some n =>
      cases n with
      | file content =>
        rw [hn] at h
        cases h
      | dir =>
        rw [hn] at h
        refine ih (c.follow p) ?_ h
        have hself : ∀ r, r <+: p → t.node r = some .dir := by
          intro r hr
          by_cases heq : r = p
          · rw [heq]
            exact hn
          · exact hp r hr heq
        intro r hr hne
        cases c with
        | name n =>
          rcases List.prefix_concat_iff.mp hr with heq | hr
          · exact absurd heq hne
          · exact hself r hr
        | here => exact hself r hr
        | up => exact hself r (hr.trans (List.dropLast_prefix p))

omit [DecidableEq Name] in
theorem walk_parents (t : Tree Name Content) (f : FileName Name) (q : List Name)
    (h : t.walk f = .ok q) : ∀ r, r <+: q → r ≠ q → t.node r = some .dir := by
  refine walkFrom_parents t f.comps [] q ?_ h
  intro r hr hne
  exact absurd (List.prefix_nil.mp hr) hne

omit [DecidableEq Name] in
/-- Resolution that works in a part of a tree works in the tree. -/
theorem walkFrom_mono (t u : Tree Name Content) (cs : List (Comp Name)) (p q : List Name)
    (htu : ∀ r n, t.node r = some n → u.node r = some n) (h : t.walkFrom p cs = .ok q) :
    u.walkFrom p cs = .ok q := by
  induction cs generalizing p with
  | nil => exact h
  | cons c cs ih =>
    rw [Tree.walkFrom] at h ⊢
    cases hn : t.node p with
    | none =>
      rw [hn] at h
      cases h
    | some n =>
      rw [hn] at h
      rw [htu p n hn]
      cases n with
      | file content => cases h
      | dir => exact ih (c.follow p) h

omit [DecidableEq Name] in
theorem find_spec (t : Tree Name Content) (f : FileName Name) (p : List Name) (n : Node Content)
    (h : t.find f = .ok (p, n)) : t.walk f = .ok p ∧ t.node p = some n := by
  unfold Tree.find at h
  cases hw : t.walk f with
  | error e =>
    rw [hw] at h
    cases h
  | ok q =>
    rw [hw] at h
    cases hn : t.node q with
    | none =>
      simp only [hn] at h
      cases h
    | some m =>
      cases m with
      | file content =>
        simp only [hn] at h
        split_ifs at h
        obtain ⟨rfl, rfl⟩ := Prod.mk.inj (Except.ok.inj h)
        exact ⟨rfl, hn⟩
      | dir =>
        simp only [hn] at h
        obtain ⟨rfl, rfl⟩ := Prod.mk.inj (Except.ok.inj h)
        exact ⟨rfl, hn⟩

/-- What is removed is one node that was there. -/
theorem remove_spec (t u : Tree Name Content) (f : FileName Name) (h : t.remove f = .ok u) :
    ∃ p n, t.walk f = .ok p ∧ t.node p = some n ∧ u = t.set p none := by
  unfold Tree.remove at h
  cases hf : t.find f with
  | error e =>
    rw [hf] at h
    cases h
  | ok r =>
    obtain ⟨p, n⟩ := r
    obtain ⟨hw, hn⟩ := find_spec t f p n hf
    simp only [hf] at h
    by_cases hplain : (!f.plain) = true
    · rw [if_pos hplain] at h
      cases h
    rw [if_neg hplain] at h
    cases n with
    | file content => exact ⟨p, _, hw, hn, (Except.ok.inj h).symm⟩
    | dir =>
      simp only at h
      split_ifs at h
      exact ⟨p, _, hw, hn, (Except.ok.inj h).symm⟩

theorem isEmpty_iff (t : Tree Name Content) (p : List Name) :
    t.isEmpty p = true ↔ ∀ q, p <+: q → p ≠ q → t.node q = none := by
  rw [Tree.isEmpty, List.all_eq_true]
  constructor
  · intro h q hpre hne
    by_contra hsome
    have hq := h q (t.covers q hsome)
    simp only [Bool.not_eq_true', Bool.and_eq_false_iff] at hq
    rcases hq with (hq | hq) | hq
    · rw [List.isPrefixOf_iff_prefix.mpr hpre] at hq
      cases hq
    · exact hne (by simpa using hq)
    · exact hsome (by simpa using hq)
  · intro h q _
    by_cases hpre : p <+: q ∧ p ≠ q
    · simp [h q hpre.1 hpre.2]
    · simp only [Bool.not_eq_true', Bool.and_eq_false_iff]
      rw [not_and_or, not_not] at hpre
      rcases hpre with hpre | hpre
      · exact Or.inl (Or.inl (by rwa [← Bool.not_eq_true, List.isPrefixOf_iff_prefix]))
      · exact Or.inl (Or.inr (by simpa using hpre))

theorem renameEnds_spec (t : Tree Name Content) (old new : FileName Name) (s d : List Name)
    (h : t.renameEnds old new = .ok (s, d)) :
    ∃ n, t.walk old = .ok s ∧ t.node s = some n ∧ t.walk new = .ok d ∧
      (s = d ∨ ¬ s <+: d ∧ ¬ d <+: s) := by
  unfold Tree.renameEnds at h
  cases hf : t.find old with
  | error e =>
    rw [hf] at h
    cases h
  | ok r =>
    obtain ⟨s', n⟩ := r
    obtain ⟨hw, hn⟩ := find_spec t old s' n hf
    cases hd : t.walk new with
    | error e =>
      simp only [hf, hd] at h
      cases h
    | ok d' =>
      simp only [hf, hd] at h
      by_cases hplain : (!old.plain || !new.plain) = true
      · rw [if_pos hplain] at h
        cases h
      rw [if_neg hplain] at h
      -- a path below another leads through it as a directory
      have hbelow : ¬ s' <+: d' → ¬ (t.node d' = some .dir ∧ t.isEmpty d' = false) → ¬ d' <+: s' := by
        intro hsd hd' hpre
        have hne : d' ≠ s' := fun heq => hsd (heq ▸ List.prefix_rfl)
        have hdir := walk_parents t old s' hw d' hpre hne
        refine hd' ⟨hdir, ?_⟩
        rw [← Bool.not_eq_true, isEmpty_iff]
        intro hempty
        rw [hempty s' hpre hne] at hn
        cases hn
      cases n with
      | file content =>
        simp only at h
        split_ifs at h with hslash hdir
        obtain ⟨rfl, rfl⟩ := Prod.mk.inj (Except.ok.inj h)
        refine ⟨_, hw, hn, rfl, ?_⟩
        by_cases heq : s' = d'
        · exact Or.inl heq
        · have hsd : ¬ s' <+: d' := by
            intro hpre
            rw [walk_parents t new d' hd s' hpre heq] at hn
            cases hn
          refine Or.inr ⟨hsd, hbelow hsd ?_⟩
          rintro ⟨hdir', -⟩
          rw [hdir'] at hdir
          exact hdir rfl
      | dir =>
        simp only at h
        by_cases heq : s' = d'
        · rw [if_pos heq] at h
          obtain ⟨rfl, rfl⟩ := Prod.mk.inj (Except.ok.inj h)
          exact ⟨_, hw, hn, rfl, Or.inl heq⟩
        rw [if_neg heq] at h
        by_cases hpre : s' <+: d'
        · rw [if_pos hpre] at h
          cases h
        · rw [if_neg hpre] at h
          have hends (hok : ¬ (t.node d' = some .dir ∧ t.isEmpty d' = false))
              (h : (.ok (s', d') : Except Errno (List Name × List Name)) = .ok (s, d)) :
              ∃ n, Except.ok (ε := Errno) s' = .ok s ∧ t.node s = some n ∧
                Except.ok (ε := Errno) d' = .ok d ∧ (s = d ∨ ¬ s <+: d ∧ ¬ d <+: s) := by
            obtain ⟨rfl, rfl⟩ := Prod.mk.inj (Except.ok.inj h)
            exact ⟨_, rfl, hn, rfl, Or.inr ⟨hpre, hbelow hpre hok⟩⟩
          rw [hw]
          cases hnd : t.node d' with
          | none =>
            simp only [hnd] at h
            exact hends (by simp [hnd]) h
          | some m =>
            cases m with
            | file content =>
              simp only [hnd] at h
              cases h
            | dir =>
              simp only [hnd] at h
              split_ifs at h with hempty
              exact hends (by simp [hempty]) h

/-- After a `rename` the destination holds what the source held, and the source is gone. -/
theorem rename_spec (t u : Tree Name Content) (old new : FileName Name) (h : t.rename old new = .ok u) :
    ∃ s d n, t.walk old = .ok s ∧ t.node s = some n ∧ t.walk new = .ok d ∧
      (s = d ∧ u = t ∨
        (∀ q, u.node (d ++ q) = t.node (s ++ q)) ∧ (∀ q, u.node (s ++ q) = none) ∧
          ¬ s <+: d ∧ ∀ p, ¬ s <+: p → ¬ d <+: p → u.node p = t.node p) := by
  unfold Tree.rename at h
  cases he : t.renameEnds old new with
  | error e =>
    rw [he] at h
    cases h
  | ok r =>
    obtain ⟨s, d⟩ := r
    obtain ⟨n, hs, hn, hd, hcase⟩ := renameEnds_spec t old new s d he
    simp only [he, Except.ok.injEq] at h
    refine ⟨s, d, n, hs, hn, hd, ?_⟩
    rcases hcase with heq | ⟨hsd, hds⟩
    · exact Or.inl ⟨heq, by rw [← h, if_pos heq]⟩
    · have hne : s ≠ d := fun heq => hsd (heq ▸ List.prefix_rfl)
      rw [if_neg hne] at h
      subst h
      refine Or.inr ⟨?_, ?_, hsd, ?_⟩
      · intro q
        simp [Tree.move]
      · intro q
        have hdq : ¬ d <+: s ++ q := by
          intro hpre
          rcases List.prefix_or_prefix_of_prefix hpre (List.prefix_append s q) with h | h
          · exact hds h
          · exact hsd h
        simp [Tree.move, hdq]
      · intro p hsp hdp
        simp [Tree.move, hsp, hdp]

end FileTree
