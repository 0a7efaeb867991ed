import MiniJava.CommandLine.World
import MiniJava.Text.Quoted

/-!
# Trees of files

Files in directories, kept as a value.  A path leads from the root or from the working directory
through directories to a file; `.` stays where it is, `..` leads to the directory above, and above
the root there is nothing.  There are no links.

* **`Tree`** — the files and directories; `Tree.holding`: some files and all that they need.
* **`Tree.resolve`** — what is at a path.
* **`Tree.fileSystem`** — trees as files of a world.

The null device is at its usual place: it is empty, and what is written to it is lost.
-/

namespace MiniJava.CommandLine

/-- The names on the way from the root to a place. -/
abbrev Path := List Bytes

namespace Path

/-- The length of the longest name. -/
def nameLimit : Nat := 255

/-- The length of the longest path. -/
def lengthLimit : Nat := 4095

/-- The names in a path that is written out. -/
def parts (s : Bytes) : List Bytes := s.splitOn '/'

/-- The directories that are passed on the way to a place. -/
def above (p : Path) : List Path := (List.range p.length).map p.take

end Path

/-- What can be in the way. -/
inductive Obstacle where
  | notFound
  | isDirectory
  /-- What should be a directory is a file. -/
  | notDirectory
  | nameTooLong
  /-- No file can have this path. -/
  | invalid
  deriving DecidableEq, Repr

/-- What is said about an obstacle. -/
def Obstacle.text : Obstacle → Bytes
  | notFound => "no such file or directory"
  | isDirectory => "is a directory"
  | notDirectory => "not a directory"
  | nameTooLong => "file name too long"
  | invalid => "invalid argument"

/-- What can be at a path. -/
inductive Node where
  | file (place : Path) (content : Bytes)
  | directory
  /-- Nothing, but a file could be made there. -/
  | vacant (place : Path)
  /-- Nothing, and the path is one of a directory. -/
  | absentDirectory
  /-- The null device. -/
  | null
  deriving DecidableEq, Repr

/-- Files in directories. -/
structure Tree where
  /-- The working directory. -/
  here : Path
  directories : List Path
  files : List (Path × Bytes)
  deriving DecidableEq, Repr

namespace Tree

/-- Some files, their directories and the working directory. -/
def holding (here : Path) (files : List (Path × Bytes)) : Tree where
  here := here
  directories := here :: here.above ++ files.flatMap fun (p, _) => p.above
  files := files

/-! ### Paths -/

/-- What is at the end of `parts`, seen from a directory. -/
def walk (t : Tree) (dir : Path) : List Bytes → Except Obstacle Node
  | [] => .ok .directory
  | part :: rest =>
      if part.isEmpty || part == "." then walk t dir rest
      else if part == ".." then walk t dir.dropLast rest
      else if Path.nameLimit < part.length then .error .nameTooLong
      else
        let p := dir ++ [part]
        match t.files.lookup p with
        | some content => if rest.isEmpty then .ok (.file p content) else .error .notDirectory
        | none =>
            if t.directories.contains p then walk t p rest
            else if rest.isEmpty then .ok (.vacant p)
            else if rest.all (·.isEmpty) then .ok .absentDirectory
            else .error .notFound

/-- The directory that a path starts from. -/
def start (t : Tree) (path : Bytes) : Path := if path.head? == some '/' then [] else t.here

/-- What is at a path. -/
def resolve (t : Tree) (path : Bytes) : Except Obstacle Node :=
  if path.contains 0 then .error .invalid
  else if path.isEmpty then .error .notFound
  else if Path.lengthLimit < path.length then .error .nameTooLong
  else if path == "/dev/null" then .ok .null
  else t.walk (t.start path) (Path.parts path)

/-- The place of the file at a path. -/
def file? (t : Tree) (path : Bytes) : Option Path :=
  match t.resolve path with
  | .ok (.file p _) => some p
  | _ => none

/-! ### Reading and writing -/

/-- Read the file at a path.  A directory can be opened, but not read. -/
def read (t : Tree) (path : Bytes) : Except PathError Bytes :=
  match t.resolve path with
  | .ok (.file _ content) => .ok content
  | .ok .directory => .error ⟨"read", path, Obstacle.isDirectory.text⟩
  | .ok (.vacant _) | .ok .absentDirectory => .error ⟨"open", path, Obstacle.notFound.text⟩
  | .ok .null => .ok []
  | .error e => .error ⟨"open", path, e.text⟩

/-- The files with one of them replaced or added. -/
def put (files : List (Path × Bytes)) (p : Path) (content : Bytes) : List (Path × Bytes) :=
  match files with
  | [] => [(p, content)]
  | (q, old) :: rest => if q = p then (p, content) :: rest else (q, old) :: put rest p content

theorem lookup_put_self (files : List (Path × Bytes)) (p : Path) (content : Bytes) :
    (put files p content).lookup p = some content := by
  induction files with
  | nil => simp [put]
  | cons f files ih =>
      obtain ⟨q, old⟩ := f
      by_cases h : q = p
      · simp [put, h]
      · have : (p == q) = false := by simpa using Ne.symm h
        simp [put, h, List.lookup_cons, this, ih]

theorem lookup_put_ne (files : List (Path × Bytes)) {p q : Path} (content : Bytes)
    (h : q ≠ p) : (put files p content).lookup q = files.lookup q := by
  induction files with
  | nil =>
      have : (q == p) = false := by simpa using h
      simp [put, List.lookup_cons, this]
  | cons f files ih =>
      obtain ⟨r, old⟩ := f
      by_cases hr : r = p
      · subst hr
        have : (q == r) = false := by simpa using h
        simp [put, List.lookup_cons, this]
      · simp only [put, if_neg hr, List.lookup_cons, ih]

/-- Write a text to the file at a path. -/
def write (t : Tree) (path text : Bytes) : Except PathError Unit × Tree :=
  match t.resolve path with
  | .ok (.file p _) | .ok (.vacant p) => (.ok (), { t with files := put t.files p text })
  | .ok .directory | .ok .absentDirectory =>
      (.error ⟨"open", path, Obstacle.isDirectory.text⟩, t)
  | .ok .null => (.ok (), t)
  | .error e => (.error ⟨"open", path, e.text⟩, t)

/-- Trees as files of a world.  A file is known by its place. -/
abbrev fileSystem : FileSystem where
  State := Tree
  File := Path
  file? := file?
  content? t p := t.files.lookup p
  read := read
  write := write

/-- Why the program at a path cannot be started: there are no programs in a tree. -/
def launchText (t : Tree) (path : Bytes) : Bytes :=
  let reason : Bytes :=
    if path.contains '/' then
      match t.resolve path with
      | .ok (.vacant _) | .ok .absentDirectory =>
          PathError.message ⟨"stat", path, Obstacle.notFound.text⟩
      | .ok .directory => Obstacle.isDirectory.text
      | .ok _ => "permission denied"
      | .error e => PathError.message ⟨"stat", path, e.text⟩
    else "executable file not found in $PATH"
  "exec: " ++ Quoted.quote path ++ ": " ++ reason

end Tree

end MiniJava.CommandLine
