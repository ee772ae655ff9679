import CivetWeb.Lib.FileTree
import Mathlib.Data.List.Dedup

namespace FileTree

variable {Name Content : Type*}

/-! ### Trees without loose nodes -/

/-- The root is a directory, every other node lies in one, and all names are as they have to be. -/
structure Tree.Sound (Proper : Name → Prop) (t : Tree Name Content) : Prop where
  root : t.node [] = some .dir
  parent : ∀ p n, t.node (p ++ [n]) ≠ none → t.node p = some .dir
  proper : ∀ p, t.node p ≠ none → ∀ n ∈ p, Proper n

variable {Proper : Name → Prop}

theorem Tree.Sound.above {t : Tree Name Content} (h : t.Sound Proper) (p q : List Name) (hq : q ≠ [])
    (hnode : t.node (p ++ q) ≠ none) : t.node p = some .dir := by
  induction q generalizing p with
  | nil => exact absurd rfl hq
  | cons n q ih =>
    by_cases hnil : q = []
    · subst hnil
      exact h.parent p n hnode
    · have hnext : t.node (p ++ [n]) = some .dir := ih (p ++ [n]) hnil (by simpa using hnode)
      exact h.parent p n (by simp [hnext])

theorem Tree.Sound.nothing_below {t : Tree Name Content} (h : t.Sound Proper) (p q : List Name) (hq : q ≠ [])
    (hp : t.node p ≠ some .dir) : t.node (p ++ q) = none := by
  by_contra hnode
  exact hp (h.above p q hq hnode)

theorem Tree.Sound.congr {t u : Tree Name Content} (h : t.Sound Proper) (hsame : ∀ q, u.node q = t.node q) :
    u.Sound Proper where
  root := by rw [hsame, h.root]
  parent p n hnode := by
    rw [hsame] at hnode ⊢
    exact h.parent p n hnode
  proper p hnode := by
    rw [hsame] at hnode
    exact h.proper p hnode

variable [DecidableEq Name]

/-- A node that is put below a directory, where a file or nothing comes with nothing below it. -/
theorem Tree.Sound.set {t : Tree Name Content} (h : t.Sound Proper) (p : List Name) (n : Option (Node Content))
    (hp : p ≠ []) (hdirs : ∀ r, r <+: p → r ≠ p → t.node r = some .dir) (hproper : ∀ m ∈ p, Proper m)
    (hbelow : n = some .dir ∨ ∀ q, q ≠ [] → t.node (p ++ q) = none) : (t.set p n).Sound Proper where
  root := by
    rw [Tree.set]
    dsimp only
    rw [if_neg (Ne.symm hp), h.root]
  parent q m hnode := by
    simp only [Tree.set] at hnode ⊢
    by_cases hqp : q = p
    · rw [if_pos hqp]
      have hne : q ++ [m] ≠ p := by simp [hqp]
      rw [if_neg hne] at hnode
      rcases hbelow with hdir | hnone
      · exact hdir
      · exact absurd (hnone [m] (by simp)) (hqp ▸ hnode)
    · rw [if_neg hqp]
      by_cases hmp : q ++ [m] = p
      · exact hdirs q (hmp ▸ List.prefix_append q [m]) hqp
      · rw [if_neg hmp] at hnode
        exact h.parent q m hnode
  proper q hnode := by
    simp only [Tree.set] at hnode
    by_cases hqp : q = p
    · exact hqp ▸ hproper
    · rw [if_neg hqp] at hnode
      exact h.proper q hnode

/-- What is taken out has nothing below it. -/
theorem Tree.Sound.unset {t : Tree Name Content} (h : t.Sound Proper) (p : List Name) (hp : p ≠ [])
    (hbelow : ∀ q, q ≠ [] → t.node (p ++ q) = none) : (t.set p none).Sound Proper := by
  by_cases hnode : t.node p = none
  · refine h.congr fun q => ?_
    by_cases hq : q = p
    · simp [Tree.set, hq, hnode]
    · simp [Tree.set, hq]
  · refine h.set p none hp ?_ (h.proper p hnode) (Or.inr hbelow)
    rintro r ⟨s, rfl⟩ hne
    exact h.above r s (by simpa using hne) hnode

/-! ### The entries of a directory -/

/-- The names of the nodes in a directory. -/
def Tree.children (t : Tree Name Content) (p : List Name) : List Name :=
  (t.paths.filterMap fun q =>
    if p <+: q ∧ (t.node q).isSome then
      match q.drop p.length with
      | [n] => some n
      | _ => none
    else none).dedup

theorem mem_children (t : Tree Name Content) (p : List Name) (n : Name) :
    n ∈ t.children p ↔ t.node (p ++ [n]) ≠ none := by
  rw [Tree.children, List.mem_dedup, List.mem_filterMap]
  constructor
  · rintro ⟨q, -, hq⟩
    split_ifs at hq with hcond
    obtain ⟨⟨r, rfl⟩, hsome⟩ := hcond
    rw [List.drop_left] at hq
    split at hq
    · obtain rfl := Option.some.inj hq
      exact Option.isSome_iff_ne_none.mp hsome
    · cases hq
  · intro hnode
    refine ⟨p ++ [n], t.covers _ hnode, ?_⟩
    rw [if_pos ⟨List.prefix_append p [n], Option.isSome_iff_ne_none.mpr hnode⟩, List.drop_left]

theorem children_nodup (t : Tree Name Content) (p : List Name) : (t.children p).Nodup := List.nodup_dedup _

/-- `rmdir`: a directory is removed if it is empty. -/
def Tree.rmdir (t : Tree Name Content) (f : FileName Name) : Except Errno (Tree Name Content) :=
  match t.find f with
  | .error e => .error e
  | .ok (_, .file _) => .error .ENOTDIR
  | .ok (p, .dir) =>
    if !f.plain then .error .EINVAL
    else if t.isEmpty p then .ok (t.set p none)
    else .error .ENOTEMPTY

/-! ### Where names lead -/

omit [DecidableEq Name] in
theorem walkFrom_append (t : Tree Name Content) (cs ds : List (Comp Name)) (p q : List Name)
    (h : t.walkFrom p cs = .ok q) : t.walkFrom p (cs ++ ds) = t.walkFrom q ds := by
  induction cs generalizing p with
  | nil =>
    rw [Tree.walkFrom, Except.ok.injEq] at h
    rw [h, List.nil_append]
  | cons c cs ih =>
    rw [List.cons_append, Tree.walkFrom]
    rw [Tree.walkFrom] at h
    cases hn : t.node p with
    | none =>
      rw [hn] at h
      cases h
    | some n =>
      rw [hn] at h
      cases n with
      | file content => cases h
      | dir => exact ih (c.follow p) h

omit [DecidableEq Name] in
/-- The names on the way come out of the path. -/
theorem walkFrom_names (t : Tree Name Content) (cs : List (Comp Name)) (p q : List Name)
    (h : t.walkFrom p cs = .ok q) : ∀ n ∈ q, n ∈ p ∨ .name n ∈ cs := by
  induction cs generalizing p with
  | nil =>
    rw [Tree.walkFrom, Except.ok.injEq] at h
    intro n hn
    exact Or.inl (h ▸ hn)
  | cons c cs ih =>
    rw [Tree.walkFrom] at h
    split at h
    · cases h
    · cases h
    · intro n hn
      rcases ih (c.follow p) h n hn with hp | hcs
      · cases c with
        | name m =>
          rcases List.mem_append.mp hp with hp | hm
          · exact Or.inl hp
          · exact Or.inr (by simp [List.mem_singleton.mp hm])
        | here => exact Or.inl hp
        | up => exact Or.inl (List.mem_of_mem_dropLast hp)
      · exact Or.inr (List.mem_cons_of_mem _ hcs)

omit [DecidableEq Name] in
theorem walkFrom_append_ok (t : Tree Name Content) (cs ds : List (Comp Name)) (p q : List Name)
    (h : t.walkFrom p (cs ++ ds) = .ok q) : ∃ r, t.walkFrom p cs = .ok r ∧ t.walkFrom r ds = .ok q := by
  induction cs generalizing p with
  | nil => exact ⟨p, rfl, h⟩
  | cons c cs ih =>
    rw [List.cons_append, Tree.walkFrom] at h
    cases hn : t.node p with
    | none =>
      rw [hn] at h
      cases h
    | some n =>
      rw [hn] at h
      cases n with
      | file content => cases h
      | dir =>
        obtain ⟨r, hr, hq⟩ := ih (c.follow p) h
        refine ⟨r, ?_, hq⟩
        rw [Tree.walkFrom, hn]
        exact hr

omit [DecidableEq Name] in
/-- A name that ends with that of an entry leads into a directory. -/
theorem walk_plain (t : Tree Name Content) (f : FileName Name) (q : List Name) (hplain : f.plain = true)
    (h : t.walk f = .ok q) : q ≠ [] := by
  unfold FileName.plain at hplain
  cases hlast : f.comps.getLast? with
  | none =>
    rw [hlast] at hplain
    cases hplain
  | some c =>
    rw [hlast] at hplain
    cases c with
    | here => cases hplain
    | up => cases hplain
    | name n =>
      obtain ⟨cs, hcs⟩ := List.getLast?_eq_some_iff.mp hlast
      rw [Tree.walk, hcs] at h
      obtain ⟨r, -, hr⟩ := walkFrom_append_ok t cs [.name n] [] q h
      rw [Tree.walkFrom] at hr
      split at hr
      · cases hr
      · cases hr
      · rw [Tree.walkFrom, Except.ok.injEq] at hr
        simp [← hr, Comp.follow]

/-- What is left of a tree when a directory is emptied. -/
def Tree.clear (t : Tree Name Content) (p : List Name) : Tree Name Content where
  node q := if p <+: q ∧ p ≠ q then none else t.node q
  paths := t.paths
  covers q hq := by
    by_cases hpq : p <+: q ∧ p ≠ q
    · rw [if_pos hpq] at hq
      exact absurd rfl hq
    · rw [if_neg hpq] at hq
      exact t.covers q hq

/-- The name leads to `p` whatever is below it. -/
def Tree.Leads (t : Tree Name Content) (f : FileName Name) (p : List Name) : Prop :=
  (t.clear p).walk f = .ok p

theorem clear_le (t u : Tree Name Content) (p r : List Name) (n : Node Content)
    (hsame : ∀ q, ¬ (p <+: q ∧ p ≠ q) → u.node q = t.node q) (h : (t.clear p).node r = some n) :
    u.node r = some n := by
  simp only [Tree.clear] at h
  by_cases hpr : p <+: r ∧ p ≠ r
  · rw [if_pos hpr] at h
    cases h
  · rw [if_neg hpr] at h
    rw [hsame r hpr, h]

/-- What happens below a node does not change the way to it. -/
theorem Tree.Leads.walk {t u : Tree Name Content} {f : FileName Name} {p : List Name} (h : t.Leads f p)
    (hsame : ∀ q, ¬ (p <+: q ∧ p ≠ q) → u.node q = t.node q) : u.walk f = .ok p :=
  walkFrom_mono (t.clear p) u f.comps [] p (fun r n => clear_le t u p r n hsame) h

theorem Tree.Leads.of_same {t u : Tree Name Content} {f : FileName Name} {p : List Name} (h : t.Leads f p)
    (hsame : ∀ q, ¬ (p <+: q ∧ p ≠ q) → u.node q = t.node q) : u.Leads f p := by
  refine Tree.Leads.walk (u := u.clear p) h ?_
  intro q hq
  rw [← hsame q hq]
  exact if_neg hq

/-- The way to an entry of a directory. -/
theorem Tree.Leads.child {t : Tree Name Content} {f g : FileName Name} {p : List Name} {n : Name} (h : t.Leads f p)
    (hp : t.node p = some .dir) (hg : g.comps = f.comps ++ [.name n]) : t.Leads g (p ++ [n]) := by
  have hlonger : ¬ p ++ [n] <+: p := by
    intro hpre
    have hle := hpre.length_le
    rw [List.length_append, List.length_singleton] at hle
    omega
  have hwalk : (t.clear (p ++ [n])).walk f = .ok p := by
    refine h.walk ?_
    intro q hq
    refine if_neg ?_
    rintro ⟨hpre, -⟩
    refine hq ⟨(List.prefix_append p [n]).trans hpre, ?_⟩
    rintro rfl
    exact hlonger hpre
  have hnode : (t.clear (p ++ [n])).node p = some .dir := (if_neg fun h => hlonger h.1).trans hp
  rw [Tree.Leads, Tree.walk, hg, walkFrom_append _ f.comps [.name n] [] p hwalk, Tree.walkFrom, hnode]
  rfl

/-! ### What the calls do where they lead -/

omit [DecidableEq Name] in
theorem find_dir {t : Tree Name Content} {f : FileName Name} {p : List Name} (hw : t.walk f = .ok p)
    (hp : t.node p = some .dir) : t.find f = .ok (p, .dir) := by
  rw [Tree.find, hw]
  dsimp only
  rw [hp]

omit [DecidableEq Name] in
theorem find_file {t : Tree Name Content} {f : FileName Name} {p : List Name} {content : Content}
    (hw : t.walk f = .ok p) (hslash : f.slash = false) (hp : t.node p = some (.file content)) :
    t.find f = .ok (p, .file content) := by
  rw [Tree.find, hw]
  dsimp only
  rw [hp]
  simp [hslash]

theorem remove_file {t : Tree Name Content} {f : FileName Name} {p : List Name} {content : Content}
    (hw : t.walk f = .ok p) (hslash : f.slash = false) (hplain : f.plain = true)
    (hp : t.node p = some (.file content)) : t.remove f = .ok (t.set p none) := by
  rw [Tree.remove, find_file hw hslash hp]
  simp [hplain]

theorem remove_dir {t : Tree Name Content} {f : FileName Name} {p : List Name} (hw : t.walk f = .ok p)
    (hplain : f.plain = true) (hp : t.node p = some .dir) :
    t.remove f = if t.isEmpty p then .ok (t.set p none) else .error .ENOTEMPTY := by
  rw [Tree.remove, find_dir hw hp]
  simp [hplain]

theorem rmdir_dir {t : Tree Name Content} {f : FileName Name} {p : List Name} (hw : t.walk f = .ok p)
    (hp : t.node p = some .dir) :
    t.rmdir f = if !f.plain then .error .EINVAL
      else if t.isEmpty p then .ok (t.set p none) else .error .ENOTEMPTY := by
  rw [Tree.rmdir, find_dir hw hp]

/-- What is removed has nothing below it. -/
theorem Tree.Sound.removed {t u : Tree Name Content} {f : FileName Name} (h : t.Sound Proper)
    (hu : t.remove f = .ok u) :
    ∃ p, t.walk f = .ok p ∧ p ≠ [] ∧ u = t.set p none ∧ ∀ q, q ≠ [] → t.node (p ++ q) = none := by
  unfold Tree.remove at hu
  cases hf : t.find f with
  | error e =>
    rw [hf] at hu
    cases hu
  | ok r =>
    obtain ⟨p, n⟩ := r
    obtain ⟨hw, hn⟩ := find_spec t f p n hf
    simp only [hf] at hu
    by_cases hplain : (!f.plain) = true
    · rw [if_pos hplain] at hu
      cases hu
    rw [if_neg hplain] at hu
    have hne : p ≠ [] := walk_plain t f p (by simpa using hplain) hw
    cases n with
    | file content =>
      refine ⟨p, hw, hne, (Except.ok.inj hu).symm, ?_⟩
      exact fun q hq => h.nothing_below p q hq (by simp [hn])
    | dir =>
      simp only at hu
      split_ifs at hu with hempty
      refine ⟨p, hw, hne, (Except.ok.inj hu).symm, ?_⟩
      intro q hq
      exact (isEmpty_iff t p).mp hempty (p ++ q) (List.prefix_append p q) (by simpa using hq)

theorem Tree.Sound.remove {t u : Tree Name Content} {f : FileName Name} (h : t.Sound Proper)
    (hu : t.remove f = .ok u) : u.Sound Proper := by
  obtain ⟨p, -, hne, rfl, hbelow⟩ := h.removed hu
  exact h.unset p hne hbelow

theorem Tree.Sound.mkdir {t u : Tree Name Content} {f : FileName Name} (h : t.Sound Proper)
    (hf : ∀ n, .name n ∈ f.comps → Proper n) (hu : t.mkdir f = .ok u) :
    ∃ p, t.walk f = .ok p ∧ t.node p = none ∧ u = t.set p (some .dir) ∧ u.Sound Proper := by
  unfold Tree.mkdir at hu
  cases hw : t.walk f with
  | error e =>
    rw [hw] at hu
    cases hu
  | ok p =>
    simp only [hw] at hu
    split_ifs at hu with hsome
    have hnone : t.node p = none := Option.not_isSome_iff_eq_none.mp hsome
    obtain rfl := Except.ok.inj hu
    refine ⟨p, rfl, hnone, rfl, h.set p _ ?_ (walk_parents t f p hw) ?_ (Or.inl rfl)⟩
    · rintro rfl
      rw [h.root] at hnone
      cases hnone
    · intro n hn
      rcases walkFrom_names t f.comps [] p hw n hn with hnil | hcomp
      · cases hnil
      · exact hf n hcomp

/-- A file may be put where `fopen` opens one. -/
theorem Tree.Sound.openWrite {t : Tree Name Content} {f : FileName Name} {p : List Name} (h : t.Sound Proper)
    (hf : ∀ n, .name n ∈ f.comps → Proper n) (hp : t.openWrite f = .ok p) (content : Content) :
    t.walk f = .ok p ∧ (t.set p (some (.file content))).Sound Proper := by
  unfold Tree.openWrite at hp
  cases hw : t.walk f with
  | error e =>
    rw [hw] at hp
    cases hp
  | ok q =>
    simp only [hw] at hp
    have hopen (hnode : t.node q ≠ some .dir) (hq : q = p) :
        Except.ok (ε := Errno) q = .ok p ∧ (t.set p (some (.file content))).Sound Proper := by
      subst hq
      refine ⟨rfl, h.set q _ ?_ (walk_parents t f q hw) ?_ (Or.inr ?_)⟩
      · rintro rfl
        exact hnode h.root
      · intro n hn
        rcases walkFrom_names t f.comps [] q hw n hn with hnil | hcomp
        · cases hnil
        · exact hf n hcomp
      · exact fun r hr => h.nothing_below q r hr hnode
    cases hn : t.node q with
    | none =>
      simp only [hn] at hp
      split_ifs at hp
      exact hopen (by simp [hn]) (Except.ok.inj hp)
    | some n =>
      cases n with
      | dir =>
        simp only [hn] at hp
        cases hp
      | file old =>
        simp only [hn] at hp
        split_ifs at hp
        exact hopen (by simp [hn]) (Except.ok.inj hp)

/-- A tree that is moved to another place, where it does not lie in itself. -/
theorem Tree.Sound.move {t : Tree Name Content} (h : t.Sound Proper) (s d : List Name) (hd : d ≠ [])
    (hsd : ¬ s <+: d) (hdirs : ∀ r, r <+: d → r ≠ d → t.node r = some .dir) (hproper : ∀ n ∈ d, Proper n) :
    (t.move s d).Sound Proper where
  root := by
    have hs : ¬ s <+: [] := by
      intro hpre
      exact hsd (List.prefix_nil.mp hpre ▸ List.nil_prefix)
    have hd' : ¬ d <+: [] := fun hpre => hd (List.prefix_nil.mp hpre)
    simp only [Tree.move]
    rw [if_neg hd', if_neg hs, h.root]
  parent p n hnode := by
    simp only [Tree.move] at hnode ⊢
    by_cases hdp : d <+: p
    · obtain ⟨r, rfl⟩ := hdp
      have hin : d <+: d ++ r ++ [n] := ⟨r ++ [n], by simp⟩
      rw [if_pos hin, List.append_assoc, List.drop_left, ← List.append_assoc] at hnode
      rw [if_pos (List.prefix_append d r), List.drop_left]
      exact h.parent (s ++ r) n hnode
    · rw [if_neg hdp]
      by_cases hdn : d <+: p ++ [n]
      · -- the directory that the moved tree is put in
        have heq : d = p ++ [n] := (List.prefix_concat_iff.mp hdn).resolve_right hdp
        have hsp : ¬ s <+: p := fun hpre => hsd (heq ▸ hpre.trans (List.prefix_append p [n]))
        rw [if_neg hsp]
        exact hdirs p (heq ▸ List.prefix_append p [n]) (by simp [heq])
      · rw [if_neg hdn] at hnode
        split_ifs at hnode with hsn
        · exact absurd rfl hnode
        · have hsp : ¬ s <+: p := fun hpre => hsn (hpre.trans (List.prefix_append p [n]))
          rw [if_neg hsp]
          exact h.parent p n hnode
  proper p hnode := by
    simp only [Tree.move] at hnode
    by_cases hdp : d <+: p
    · obtain ⟨r, rfl⟩ := hdp
      rw [if_pos (List.prefix_append d r), List.drop_left] at hnode
      intro n hn
      rcases List.mem_append.mp hn with hn | hn
      · exact hproper n hn
      · exact h.proper (s ++ r) hnode n (List.mem_append_right s hn)
    · rw [if_neg hdp] at hnode
      split_ifs at hnode
      · exact absurd rfl hnode
      · exact h.proper p hnode

theorem Tree.Sound.rename {t u : Tree Name Content} {old new : FileName Name} (h : t.Sound Proper)
    (hf : ∀ n, .name n ∈ new.comps → Proper n) (hu : t.rename old new = .ok u) : u.Sound Proper := by
  unfold Tree.rename at hu
  cases he : t.renameEnds old new with
  | error e =>
    rw [he] at hu
    cases hu
  | ok r =>
    obtain ⟨s, d⟩ := r
    obtain ⟨n, -, -, hw, hcase⟩ := renameEnds_spec t old new s d he
    simp only [he, Except.ok.injEq] at hu
    subst hu
    split_ifs with heq
    · exact h
    · obtain ⟨hsd, hds⟩ := hcase.resolve_left heq
      refine h.move s d ?_ hsd (walk_parents t new d hw) ?_
      · rintro rfl
        exact hds List.nil_prefix
      · intro m hm
        rcases walkFrom_names t new.comps [] d hw m hm with hnil | hcomp
        · cases hnil
        · exact hf m hcomp

/-! ### What lies outside of a part of a tree -/

/-- Where a name leads if every directory on the way is there. -/
def FileName.target (f : FileName Name) : List Name := f.comps.foldl (fun p c => c.follow p) []

omit [DecidableEq Name] in
theorem walkFrom_target (t : Tree Name Content) (cs : List (Comp Name)) (p q : List Name)
    (h : t.walkFrom p cs = .ok q) :
    q = cs.foldl (fun p c => c.follow p) p ∧
      ∀ ds, ds <+: cs → ds ≠ cs → t.node (ds.foldl (fun p c => c.follow p) p) = some .dir := by
  induction cs generalizing p with
  | nil =>
    rw [Tree.walkFrom, Except.ok.injEq] at h
    exact ⟨h.symm, fun ds hds hne => absurd (List.prefix_nil.mp hds) hne⟩
  | cons c cs ih =>
    rw [Tree.walkFrom] at h
    split at h
    · cases h
    · cases h
    · rename_i hdir
      obtain ⟨hq, hbefore⟩ := ih (c.follow p) h
      refine ⟨hq, ?_⟩
      intro ds hds hne
      rcases List.prefix_cons_iff.mp hds with rfl | ⟨es, rfl, hes⟩
      · exact hdir
      · exact hbefore es hes (by simpa using hne)

omit [DecidableEq Name] in
theorem walk_target {t : Tree Name Content} {f : FileName Name} {q : List Name} (h : t.walk f = .ok q) :
    q = f.target := (walkFrom_target t f.comps [] q h).1

/-- The trees agree outside of what is at `r` and below. -/
def Tree.AgreesOutside (t u : Tree Name Content) (r : List Name) : Prop := ∀ q, ¬ r <+: q → u.node q = t.node q

omit [DecidableEq Name] in
theorem Tree.AgreesOutside.refl (t : Tree Name Content) (r : List Name) : t.AgreesOutside t r := fun _ _ => rfl

omit [DecidableEq Name] in
theorem Tree.AgreesOutside.trans {t u v : Tree Name Content} {r : List Name} (h : t.AgreesOutside u r)
    (h' : u.AgreesOutside v r) : t.AgreesOutside v r := fun q hq => (h' q hq).trans (h q hq)

theorem set_agreesOutside (t : Tree Name Content) (n : Option (Node Content)) {r p : List Name} (h : r <+: p) :
    t.AgreesOutside (t.set p n) r := by
  intro q hq
  refine if_neg ?_
  rintro rfl
  exact hq h

end FileTree
