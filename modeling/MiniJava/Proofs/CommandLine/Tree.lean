import MiniJava.CommandLine.Tree
import MiniJava.Proofs.CommandLine.Paths

/-!
# Files in trees

In a tree of files a write reaches the file that its path leads to, and no other; and there are no
links.

* **`FileSystem.NoLinks`** — what is said above of files of any kind.
* **`Tree.exists_of_walk`** — a path leads into a directory, and from there to its last name.
* **`Tree.walk_holds`** — what is written to a file does not change where paths lead.
* **`Tree.writesOnly`**, **`Tree.noLinks`** — what is said above, for all trees.
-/

namespace MiniJava.CommandLine

/-- There are no links: no file has two names in one directory, and what is written to one file
does not change which files other paths lead to. -/
structure FileSystem.NoLinks (F : FileSystem) : Prop where
  apart : ∀ s front name name' f, IsFront front → '/'.toUInt8 ∉ name → '/'.toUInt8 ∉ name' →
    F.file? s (front ++ name) = some f → F.file? s (front ++ name') = some f → name = name'
  kept : ∀ s path text other f, F.file? s other = some f →
    F.file? (F.write s path text).2 other = some f

/-- A name that leads from a directory to something in it. -/
structure IsName (part : Bytes) : Prop where
  ne_nil : part ≠ []
  ne_here : part ≠ "."
  ne_up : part ≠ ".."

/-- The place of a file that there is or could be. -/
def Node.place? : Node → Option Path
  | file p _ => some p
  | vacant p => some p
  | _ => none

/-- What is found instead when a text was written to the file at a place. -/
def Node.written (p : Path) (text : Bytes) : Node → Node
  | file q content => if q = p then file p text else file q content
  | vacant q => if q = p then file p text else vacant q
  | node => node

/-- What is in front of the last name is the same for all last names. -/
theorem exists_parts_append (hfront : IsFront front) :
    ∃ init, ∀ name, '/'.toUInt8 ∉ name → Path.parts (front ++ name) = init ++ [name] := by
  rcases hfront with rfl | ⟨dirs, rfl⟩
  · exact ⟨[], fun name hname => List.splitOn_eq_singleton hname⟩
  · refine ⟨dirs.splitOn '/'.toUInt8, fun name hname => ?_⟩
    have hslash : dirs ++ utf8 "/" ++ name = dirs ++ '/'.toUInt8 :: name := by
      rw [List.append_assoc]
      rfl
    rw [Path.parts, hslash, List.splitOn_append_cons_self, List.splitOn_eq_singleton hname]

theorem Node.written_of_place {node : Node} {p : Path} {text : Bytes}
    (h : node.place? = some p) : node.written p text = file p text := by
  cases node with
  | file q content => obtain rfl := Option.some.inj h; exact if_pos rfl
  | vacant q => obtain rfl := Option.some.inj h; exact if_pos rfl
  | directory => cases h
  | absentDirectory => cases h
  | null => cases h

namespace Tree

variable {t : Tree} {dir : Path} {part : Bytes} {rest : List Bytes}

/-! ### Steps of a walk -/

theorem walk_skip (h : part = [] ∨ part = ".") :
    t.walk dir (part :: rest) = t.walk dir rest := by
  rw [walk.eq_def]
  exact if_pos (by rcases h with rfl | rfl <;> decide)

theorem walk_up : t.walk dir (utf8 ".." :: rest) = t.walk dir.dropLast rest := by
  rw [walk.eq_def]
  rfl

/-- A step to what has a name of its own. -/
theorem walk_name (h : IsName part) :
    t.walk dir (part :: rest) =
      if Path.nameLimit < part.length then .error .nameTooLong
      else match t.files.lookup (dir ++ [part]) with
        | some content =>
            if rest.isEmpty then .ok (.file (dir ++ [part]) content) else .error .notDirectory
        | none =>
            if t.directories.contains (dir ++ [part]) then t.walk (dir ++ [part]) rest
            else if rest.isEmpty then .ok (.vacant (dir ++ [part]))
            else if rest.all (·.isEmpty) then .ok .absentDirectory
            else .error .notFound := by
  have hskip : ¬ (part.isEmpty || part == utf8 ".") = true := by
    simp [h.ne_nil, h.ne_here]
  have hup : ¬ (part == utf8 "..") = true := by simp [h.ne_up]
  rw [walk.eq_def]
  exact (if_neg hskip).trans (if_neg hup)

/-- A step into a directory. -/
theorem walk_enter (h : IsName part) (hlength : ¬ Path.nameLimit < part.length)
    (hnone : t.files.lookup (dir ++ [part]) = none)
    (hdir : t.directories.contains (dir ++ [part]) = true) :
    t.walk dir (part :: rest) = t.walk (dir ++ [part]) rest := by
  rw [walk_name h, if_neg hlength, hnone]
  exact if_pos hdir

/-- What a step can be: one that stays, one that leads up, or one to a name. -/
theorem step_cases (part : Bytes) : (part = [] ∨ part = ".") ∨ part = ".." ∨ IsName part := by
  by_cases hskip : part = [] ∨ part = utf8 "."
  · exact .inl hskip
  by_cases hup : part = utf8 ".."
  · exact .inr (.inl hup)
  · exact .inr (.inr ⟨fun h => hskip (.inl h), fun h => hskip (.inr h), hup⟩)

/-! ### The last step -/

/-- The place of what a path leads to is below the directory of the last step, and there any other
name could follow. -/
theorem exists_of_walk {parts : List Bytes} {node : Node} {p : Path}
    (h : t.walk dir parts = .ok node) (hplace : node.place? = some p) :
    ∃ init name last, parts = init ++ [name] ∧ IsName name ∧ p = last ++ [name] ∧
      t.walk last [name] = .ok node ∧
      ∀ other, t.walk dir (init ++ [other]) = t.walk last [other] := by
  induction parts generalizing dir with
  | nil =>
    obtain rfl := Except.ok.inj h
    cases hplace
  | cons part rest ih =>
    -- a first step that is the same whatever follows
    have hstep : ∀ there, (∀ more, t.walk dir (part :: more) = t.walk there more) →
        ∃ init name last, part :: rest = init ++ [name] ∧ IsName name ∧ p = last ++ [name] ∧
          t.walk last [name] = .ok node ∧
          ∀ other, t.walk dir (init ++ [other]) = t.walk last [other] := by
      intro there hthere
      rw [hthere] at h
      obtain ⟨init, name, last, rfl, hname, hp, hnode, hothers⟩ := ih h
      exact ⟨part :: init, name, last, rfl, hname, hp, hnode,
        fun other => (hthere _).trans (hothers other)⟩
    rcases step_cases part with hskip | rfl | hname
    · exact hstep dir fun _ => walk_skip hskip
    · exact hstep _ fun _ => walk_up
    -- the last step, or one into a directory
    have hlast : rest = [] → p = dir ++ [part] →
        ∃ init name last, part :: rest = init ++ [name] ∧ IsName name ∧ p = last ++ [name] ∧
          t.walk last [name] = .ok node ∧
          ∀ other, t.walk dir (init ++ [other]) = t.walk last [other] := by
      rintro rfl rfl
      exact ⟨[], part, dir, rfl, hname, rfl, h, fun _ => rfl⟩
    have hwalk := h
    by_cases hlength : Path.nameLimit < part.length
    · rw [walk_name hname, if_pos hlength] at h
      cases h
    rw [walk_name hname, if_neg hlength] at hwalk
    split at hwalk
    · split at hwalk
      · rename_i hend
        obtain rfl := Except.ok.inj hwalk
        exact hlast (List.isEmpty_iff.mp hend) (Option.some.inj hplace).symm
      · cases hwalk
    · rename_i hnone
      split at hwalk
      · rename_i hdir
        exact hstep _ fun _ => walk_enter hname hlength hnone hdir
      split at hwalk
      · rename_i hend
        obtain rfl := Except.ok.inj hwalk
        exact hlast (List.isEmpty_iff.mp hend) (Option.some.inj hplace).symm
      split at hwalk
      · obtain rfl := Except.ok.inj hwalk
        cases hplace
      · cases hwalk

/-- At this place there is a file, or one can be made. -/
def Free (t : Tree) (p : Path) : Prop :=
  t.files.lookup p = none → t.directories.contains p = false

/-- What a name in a directory can be the place of. -/
theorem free_of_walk_name {node : Node} {p : Path} (hname : IsName part)
    (h : t.walk dir [part] = .ok node) (hplace : node.place? = some p) : t.Free p := by
  rw [walk_name hname] at h
  split at h
  · cases h
  split at h
  · rename_i content hcontent
    obtain rfl := Except.ok.inj h
    obtain rfl := Option.some.inj hplace
    intro hnone
    rw [hcontent] at hnone
    cases hnone
  split at h
  · obtain rfl := Except.ok.inj h
    cases hplace
  · rename_i hdir
    obtain rfl := Except.ok.inj h
    obtain rfl := Option.some.inj hplace
    exact fun _ => Bool.eq_false_iff.mpr hdir

/-! ### Walks after a write -/

/-- The tree with a text in the file at a place. -/
def holds (t : Tree) (p : Path) (text : Bytes) : Tree := { t with files := put t.files p text }

/-- What is written to a file does not change where paths lead. -/
theorem walk_holds {p : Path} {node : Node} {parts : List Bytes} (text : Bytes) (hp : t.Free p)
    (h : t.walk dir parts = .ok node) (hplace : node.place?.isSome) :
    (t.holds p text).walk dir parts = .ok (node.written p text) := by
  induction parts generalizing dir with
  | nil =>
    obtain rfl := Except.ok.inj h
    cases hplace
  | cons part rest ih =>
    rcases step_cases part with hskip | rfl | hname
    · rw [walk_skip hskip] at h ⊢
      exact ih h
    · rw [walk_up] at h ⊢
      exact ih h
    by_cases hlength : Path.nameLimit < part.length
    · rw [walk_name hname, if_pos hlength] at h
      cases h
    rw [walk_name hname, if_neg hlength] at h ⊢
    by_cases hhere : dir ++ [part] = p
    · -- the place itself: no directory, so this is the last step
      subst hhere
      rw [show (t.holds (dir ++ [part]) text).files.lookup (dir ++ [part]) = some text from
        lookup_put_self _ _ _]
      split at h
      · split at h
        · rename_i hlast
          obtain rfl := Except.ok.inj h
          simp [hlast, Node.written]
        · cases h
      · rename_i hnone
        rw [if_neg (by rw [hp hnone]; exact Bool.false_ne_true)] at h
        split at h
        · rename_i hlast
          obtain rfl := Except.ok.inj h
          simp [hlast, Node.written]
        split at h
        · obtain rfl := Except.ok.inj h
          cases hplace
        · cases h
    · rw [show (t.holds p text).files.lookup (dir ++ [part]) = t.files.lookup (dir ++ [part]) from
        lookup_put_ne _ _ hhere]
      split at h
      · split at h
        · rename_i hlast
          obtain rfl := Except.ok.inj h
          simp [hlast, Node.written, hhere]
        · cases h
      · split at h
        · rename_i hdir
          exact (if_pos hdir).trans (ih h)
        · rename_i hdir
          split at h
          · rename_i hlast
            obtain rfl := Except.ok.inj h
            exact (if_neg hdir).trans ((if_pos hlast).trans (by rw [Node.written, if_neg hhere]))
          split at h
          · obtain rfl := Except.ok.inj h
            cases hplace
          · cases h

/-! ### Paths -/

/-- What has a place is walked to. -/
theorem walk_of_resolve {path : Bytes} {node : Node} (h : t.resolve path = .ok node)
    (hplace : node.place?.isSome) : t.walk (t.start path) (Path.parts path) = .ok node := by
  unfold resolve at h
  split at h
  · cases h
  split at h
  · cases h
  split at h
  · cases h
  split at h
  · obtain rfl := Except.ok.inj h
    cases hplace
  · exact h

theorem walk_ne_null {parts : List Bytes} : t.walk dir parts ≠ .ok .null := by
  induction parts generalizing dir with
  | nil => exact nofun
  | cons part rest ih =>
    rcases step_cases part with hskip | rfl | hname
    · rw [walk_skip hskip]
      exact ih
    · rw [walk_up]
      exact ih
    rw [walk_name hname]
    split
    · exact nofun
    split
    · split <;> exact nofun
    split
    · exact ih
    split
    · exact nofun
    split <;> exact nofun

theorem resolve_ne_null {path : Bytes} (h : path ≠ "/dev/null") : t.resolve path ≠ .ok .null := by
  intro hnull
  unfold resolve at hnull
  split at hnull
  · cases hnull
  split at hnull
  · cases hnull
  split at hnull
  · cases hnull
  split at hnull
  · rename_i hpath
    exact h (by simpa using hpath)
  · exact walk_ne_null hnull

theorem free_of_resolve {path : Bytes} {node : Node} {p : Path} (h : t.resolve path = .ok node)
    (hplace : node.place? = some p) : t.Free p := by
  obtain ⟨init, name, last, -, hname, -, hnode, -⟩ :=
    exists_of_walk (walk_of_resolve h (by rw [hplace]; rfl)) hplace
  exact free_of_walk_name hname hnode hplace

/-- What is written to a file does not change where paths lead. -/
theorem resolve_holds {path : Bytes} {node : Node} {p : Path} (text : Bytes) (hp : t.Free p)
    (h : t.resolve path = .ok node) (hplace : node.place?.isSome) :
    (t.holds p text).resolve path = .ok (node.written p text) := by
  have hwalk := walk_holds text hp (walk_of_resolve h hplace) hplace
  unfold resolve at h ⊢
  split at h
  · cases h
  split at h
  · cases h
  split at h
  · cases h
  split at h
  · obtain rfl := Except.ok.inj h
    cases hplace
  · rename_i hinvalid hempty hlength hnull
    rw [if_neg hinvalid, if_neg hempty, if_neg hlength, if_neg hnull]
    exact hwalk

theorem file?_eq_some_iff {path : Bytes} {p : Path} :
    t.file? path = some p ↔ ∃ content, t.resolve path = .ok (.file p content) := by
  unfold file?
  constructor
  · intro h
    split at h
    · rename_i q content hnode
      obtain rfl := Option.some.inj h
      exact ⟨content, hnode⟩
    · cases h
  · rintro ⟨content, hnode⟩
    rw [hnode]

/-! ### Writing -/

theorem write_of_place {path text : Bytes} {node : Node} {p : Path}
    (h : t.resolve path = .ok node) (hplace : node.place? = some p) :
    t.write path text = (.ok (), t.holds p text) := by
  unfold write
  rw [h]
  cases node with
  | file q content => obtain rfl := Option.some.inj hplace; rfl
  | vacant q => obtain rfl := Option.some.inj hplace; rfl
  | directory => cases hplace
  | absentDirectory => cases hplace
  | null => cases hplace

/-- A write changes nothing, or it reaches the place that its path leads to. -/
theorem write_cases (t : Tree) (path text : Bytes) :
    ((t.write path text).2 = t ∧
        (t.resolve path = .ok .null ∨ ∃ e, (t.write path text).1 = .error e)) ∨
      ∃ node p, t.resolve path = .ok node ∧ node.place? = some p ∧
        t.write path text = (.ok (), t.holds p text) := by
  cases hnode : t.resolve path with
  | error e => exact .inl (by simp [write, hnode])
  | ok node =>
    cases node with
    | file p content => exact .inr ⟨_, p, rfl, rfl, write_of_place hnode rfl⟩
    | vacant p => exact .inr ⟨_, p, rfl, rfl, write_of_place hnode rfl⟩
    | directory => exact .inl (by simp [write, hnode])
    | absentDirectory => exact .inl (by simp [write, hnode])
    | null => exact .inl (by simp [write, hnode])

/-- A write that fails changes nothing. -/
theorem write_of_error {path text : Bytes} {e : PathError}
    (h : (t.write path text).1 = .error e) : (t.write path text).2 = t := by
  rcases write_cases t path text with ⟨hsame, -⟩ | ⟨node, p, -, -, hwrite⟩
  · exact hsame
  · rw [hwrite] at h
    cases h

/-- A write that succeeds reaches the file that its path leads to, and no other. -/
theorem write_of_ok {path text : Bytes} (hpath : path ≠ "/dev/null")
    (h : (t.write path text).1 = .ok ()) :
    ∃ p, (∀ q, t.file? path = some q → q = p) ∧
      (t.write path text).2.file? path = some p ∧
      (t.write path text).2.files.lookup p = some text ∧
      ∀ q, q ≠ p → (t.write path text).2.files.lookup q = t.files.lookup q := by
  rcases write_cases t path text with ⟨-, hnull | ⟨e, he⟩⟩ | ⟨node, p, hnode, hplace, hwrite⟩
  · exact absurd hnull (resolve_ne_null hpath)
  · rw [he] at h
    cases h
  · rw [hwrite]
    have hafter := resolve_holds text (free_of_resolve hnode hplace) hnode
      (by rw [hplace]; rfl)
    rw [Node.written_of_place hplace] at hafter
    refine ⟨p, fun q hq => ?_, file?_eq_some_iff.mpr ⟨text, hafter⟩, lookup_put_self _ _ _,
      fun q hq => lookup_put_ne _ _ hq⟩
    obtain ⟨content, hfile⟩ := file?_eq_some_iff.mp hq
    obtain rfl := Except.ok.inj (hnode.symm.trans hfile)
    exact Option.some.inj hplace

/-- What paths led to a file before a write lead to it still. -/
theorem file?_write {path text other : Bytes} {q : Path} (h : t.file? other = some q) :
    (t.write path text).2.file? other = some q := by
  rcases write_cases t path text with ⟨hsame, -⟩ | ⟨node, p, hnode, hplace, hwrite⟩
  · rw [hsame, h]
  · rw [hwrite]
    obtain ⟨content, hother⟩ := file?_eq_some_iff.mp h
    have hafter := resolve_holds text (free_of_resolve hnode hplace) hother rfl
    by_cases hq : q = p
    · rw [Node.written, if_pos hq] at hafter
      exact file?_eq_some_iff.mpr ⟨text, hq ▸ hafter⟩
    · rw [Node.written, if_neg hq] at hafter
      exact file?_eq_some_iff.mpr ⟨content, hafter⟩

/-- Writing to a path reaches the file that it leads to, and no other. -/
theorem writesOnly {path : Bytes} (h : path ≠ "/dev/null") : fileSystem.WritesOnly path where
  failed t text e herror f := by
    have hsame := write_of_error herror
    exact congrArg (fileSystem.content? · f) hsame
  replaced _ _ hok := write_of_ok h hok

/-- The file at a path is called like the last name of the path. -/
theorem exists_of_file? {front name : Bytes} {f : Path} (hfront : IsFront front)
    (hname : '/'.toUInt8 ∉ name) (h : t.file? (front ++ name) = some f) :
    ∃ dir, f = dir ++ [name] := by
  obtain ⟨content, hnode⟩ := file?_eq_some_iff.mp h
  obtain ⟨init, last, dir, hparts, -, rfl, -⟩ := exists_of_walk (walk_of_resolve hnode rfl) rfl
  obtain ⟨init', hfrontParts⟩ := exists_parts_append hfront
  rw [hfrontParts name hname] at hparts
  obtain ⟨-, hlast⟩ := List.append_inj' hparts rfl
  exact ⟨dir, by rw [hlast]⟩

theorem noLinks : fileSystem.NoLinks where
  apart t front name name' f hfront hname hname' h h' := by
    obtain ⟨dir, hf⟩ := exists_of_file? hfront hname h
    obtain ⟨dir', hf'⟩ := exists_of_file? hfront hname' h'
    obtain ⟨-, hlast⟩ := List.append_inj' (hf.symm.trans hf') rfl
    exact List.head_eq_of_cons_eq hlast
  kept _ _ _ _ _ hfile := file?_write hfile

end Tree

end MiniJava.CommandLine
