import Lpl.Cli.Run

/-!
# A file tree as a value

The directories, files and devices of a system, by the names on the way to them from the root,
and the directory in which a program runs. Paths are followed as Linux follows them:

- a path that begins with a slash starts at the root, any other where the program runs;
- every name but the last has to lead to a directory, and the root is its own parent;
- a name has at most 255 bytes and a whole path at most 4095.

`Transcript` makes the tree a host, so that all that a run of the program does can be computed:
what it prints, its exit status and the files it leaves.
-/

namespace Lpl.Cli

/-- What the system says when a file cannot be used as it is asked to be. -/
inductive FileFault where
  | missing
  | outOfMemory
  | notDirectory
  | isDirectory
  | noSpace
  | nameTooLong
deriving DecidableEq, Repr

/-- The fault in the system's words. -/
def FileFault.text : FileFault → String
  | missing => "No such file or directory (os error 2)"
  | outOfMemory => "Cannot allocate memory (os error 12)"
  | notDirectory => "Not a directory (os error 20)"
  | isDirectory => "Is a directory (os error 21)"
  | noSpace => "No space left on device (os error 28)"
  | nameTooLong => "File name too long (os error 36)"

/-- The devices that a program finds on every system. -/
inductive Device where
  /-- Takes everything and holds nothing. -/
  | null
  /-- Takes everything, and holds bytes without end. -/
  | endless
  /-- Takes nothing, and holds bytes without end. -/
  | full
  /-- The standard output of the program. -/
  | stdout
  /-- The standard error of the program. -/
  | stderr
deriving DecidableEq, Repr

/-- All that a device holds. -/
def Device.contents : Device → Except FileFault ByteArray
  | endless | full => .error .outOfMemory
  | null | stdout | stderr => .ok .empty

/-- What stands at a place of the tree. -/
inductive Entry where
  | directory
  | file (contents : ByteArray)
  | device (d : Device)

/-- A path, taken apart. -/
structure Path where
  /-- Whether it starts at the root. -/
  absolute : Bool
  /-- The names between its slashes. -/
  names : List String
  /-- Whether it ends in a slash. -/
  slash : Bool
deriving DecidableEq, Repr

/-- Takes a path apart. Slashes in a row count as one. -/
def Path.ofString (path : String) : Path where
  absolute := path.toList.head? = some '/'
  names := (path.splitOn "/").filter (· ≠ "")
  slash := path.toList.getLast? = some '/'

/-- The largest number of bytes of a name. -/
def maxName : Nat := 255

/-- The largest number of bytes of a path. -/
def maxPath : Nat := 4095

/-- A file tree and the place in it where a program runs. A place is given by the names that
lead to it from the root. -/
structure FileTree where
  here : List String
  entries : List (List String × Entry)

namespace FileTree

/-- What stands at a place. The root is always there. -/
def lookup (t : FileTree) (p : List String) : Option Entry :=
  if p = [] then some .directory else (t.entries.find? fun e => e.1 = p).map Prod.snd

/-- Puts an entry at a place instead of what stands there. -/
def put (t : FileTree) (p : List String) (e : Entry) : FileTree :=
  { t with entries := (p, e) :: t.entries.filter fun f => f.1 ≠ p }

/-- Whether there is a directory at a place. -/
def isDir (t : FileTree) (p : List String) : Bool :=
  match t.lookup p with
  | some .directory => true
  | _ => false

/-- Where a name leads from the directory `here`. The root is its own parent. -/
def next (here : List String) (name : String) : List String :=
  if name = "." then here else if name = ".." then here.dropLast else here ++ [name]

/-- Where a path starts. -/
def start (t : FileTree) (path : Path) : List String := if path.absolute then [] else t.here

/-- The place that a path names, whatever stands on the way to it. -/
def place (t : FileTree) (path : String) : List String :=
  let path := Path.ofString path
  path.names.foldl next (t.start path)

/-- Goes from the directory `here` by names, and makes a directory wherever nothing is. -/
def makeDirs (t : FileTree) (here : List String) : List String → FileTree
  | [] => t
  | n :: ns =>
    let there := next here n
    makeDirs (if (t.lookup there).isSome then t else t.put there .directory) there ns

/-- Adds a directory and those on the way to it that are not there. A directory that the path
leaves again through dots is on the way too. -/
def addDir (t : FileTree) (path : String) : FileTree :=
  let path := Path.ofString path
  t.makeDirs (t.start path) path.names

/-- Adds a file. -/
def addFile (t : FileTree) (path : String) (contents : ByteArray) : FileTree :=
  t.put (t.place path) (.file contents)

/-- Goes from the directory `here` through directories. -/
def walk (t : FileTree) (here : List String) : List String → Except FileFault (List String)
  | [] => .ok here
  | n :: ns =>
    if maxName < n.utf8ByteSize then .error .nameTooLong
    else
      match t.lookup (next here n) with
      | some .directory => walk t (next here n) ns
      | some _ => .error .notDirectory
      | none => .error .missing

/-- Where a path leads, and whether it says that a directory is there: it ends in a slash or in
dots then. Only the directories on the way have to exist. -/
def follow (t : FileTree) (path : String) : Except FileFault (List String × Bool) := do
  if path = "" then throw .missing
  if maxPath < path.utf8ByteSize then throw .nameTooLong
  let path := Path.ofString path
  match path.names.getLast? with
  | none => return (t.start path, true)
  | some n =>
    let here ← t.walk (t.start path) path.names.dropLast
    return (next here n, path.slash ∨ n = "." ∨ n = "..")

/-- Reads what is at a path. A path that cannot be followed counts as one to nothing. -/
def read (t : FileTree) (path : String) : Except ReadFault ByteArray :=
  match t.follow path with
  | .error _ => .error .missing
  | .ok (p, asDir) =>
    match t.lookup p, asDir with
    | some .directory, _ => .error (.failed FileFault.isDirectory.text)
    | some (.file contents), false => .ok contents
    | some (.device d), false => d.contents.mapError fun e => .failed e.text
    | _, _ => .error .missing

/-- The place that is written when a path is. A path that says that a directory is there is
refused before its last name is looked at. -/
def target (t : FileTree) (path : String) : Except FileFault (List String) := do
  let (p, asDir) ← t.follow path
  if asDir ∨ t.isDir p then throw .isDirectory
  if p.getLast?.any fun n => maxName < n.utf8ByteSize then throw .nameTooLong
  return p

/-- The directories at the root of a Linux system. -/
def topLevel : List String :=
  ["bin", "dev", "etc", "home", "lib", "media", "mnt", "opt", "proc", "root", "run", "sbin",
    "srv", "sys", "tmp", "usr", "var"]

/-- The devices, by their names. Nothing comes from the standard input. -/
def devices : List (String × Device) :=
  [("null", .null), ("zero", .endless), ("random", .endless), ("urandom", .endless),
    ("full", .full), ("stdin", .null), ("stdout", .stdout), ("stderr", .stderr)]

/-- A system on which a program runs in an empty directory. -/
def system : FileTree where
  here := ["tmp", "work"]
  entries :=
    (["tmp", "work"], .directory) :: topLevel.map (fun n => ([n], .directory)) ++
      devices.map fun (n, d) => (["dev", n], .device d)

end FileTree

/-- What a run has done so far. -/
structure Transcript where
  tree : FileTree := .system
  stdout : String := ""
  stderr : String := ""

namespace Transcript

/-- Adds to the standard output. -/
def print (text : String) (t : Transcript) : Transcript := { t with stdout := t.stdout ++ text }

/-- Adds to the standard error. -/
def printErr (text : String) (t : Transcript) : Transcript := { t with stderr := t.stderr ++ text }

/-- Writes a text to what a path leads to. -/
def write (t : Transcript) (path text : String) : Except FileFault Transcript := do
  let p ← t.tree.target path
  match t.tree.lookup p with
  | some (.device .null) | some (.device .endless) => return t
  | some (.device .full) => throw .noSpace
  | some (.device .stdout) => return t.print text
  | some (.device .stderr) => return t.printErr text
  | _ => return { t with tree := t.tree.put p (.file text.toUTF8) }

end Transcript

instance : Host (StateM Transcript) where
  readFile path := return (← get).tree.read path
  writeFile path text := do
    match (← get).write path text with
    | .ok t =>
      set t
      return .ok ()
    | .error e => return .error e.text
  out text := modify (·.print text)
  err text := modify (·.printErr text)

end Lpl.Cli
