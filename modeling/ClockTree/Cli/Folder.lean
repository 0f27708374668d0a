import ClockTree.Cli.Job

/-!
# Jobs over a folder

A folder is a working directory whose files are known. A path leads from there, or from the root of
the file system, through directories to its last name. Carrying out a job over a folder shows what
the job prints and which files it leaves.
-/
namespace ClockTree.Cli

/-- Where the names of a place start: so many directories above the working directory, or at the
root. -/
inductive Start where
  | above (levels : Nat)
  | root
deriving DecidableEq, Repr

structure Place where
  start : Start := .above 0
  names : List String := []
deriving DecidableEq, Repr

namespace Place

def child (p : Place) (name : String) : Place := { p with names := p.names ++ [name] }

def parent (p : Place) : Place :=
  match p.names, p.start with
  | [], .above n => ⟨.above (n + 1), []⟩
  | [], .root => p
  | names, start => ⟨start, names.dropLast⟩

def holds (p q : Place) : Bool :=
  p.start == q.start && p.names.isPrefixOf q.names && p.names.length < q.names.length

end Place

def pathNames (path : String) : List String := (String.splitOn path "/").filter (· != "")

def endsInSlash (path : String) : Bool := path.toList.getLast? == some '/'

def startOf (path : String) : Place := if path.toList.head? = some '/' then ⟨.root, []⟩ else {}

/-- Files and their texts, the newest first. A directory exists if a file lies in it, if it is
above the working directory, or if every system has it. -/
structure Folder where
  files : List (Place × String) := []

namespace Folder

def absent : String := "No such file or directory (os error 2)"
def notDirectory : String := "Not a directory (os error 20)"
def isDirectory : String := "Is a directory (os error 21)"
def tooLong : String := "File name too long (os error 36)"

def nameLimit : Nat := 255

def pathLimit : Nat := 4095

def systemDirectories : List String :=
  ["bin", "dev", "etc", "home", "lib", "mnt", "opt", "proc", "root", "sbin", "sys", "tmp", "usr",
    "var"]

def nullDevice : Place := ⟨.root, ["dev", "null"]⟩

def file? (f : Folder) (p : Place) : Option String :=
  if p = nullDevice then some "" else f.files.lookup p

def hasDirectory (f : Folder) (p : Place) : Bool :=
  p.names.isEmpty || (p.start == .root && systemDirectories.any fun d => p.names == [d])
    || f.files.any fun (q, _) => p.holds q

def put (f : Folder) (p : Place) (text : String) : Folder :=
  if p = nullDevice then f else ⟨(p, text) :: f.files.filter fun (q, _) => q != p⟩

/-- The directory that names lead to: each must be a directory, and two dots lead up. -/
def enter (f : Folder) (p : Place) : List String → Except String Place
  | [] => .ok p
  | name :: names =>
    if name = "." then f.enter p names
    else if name = ".." then f.enter p.parent names
    else if nameLimit < name.utf8ByteSize then .error tooLong
    else if f.hasDirectory (p.child name) then f.enter (p.child name) names
    else .error (if (f.file? (p.child name)).isSome then notDirectory else absent)

/-- The place of a path below its directory, or nothing if the path leads to a directory by dots
or slashes alone. -/
def locate (f : Folder) (path : String) : Except String (Option Place) := do
  if path = "" then throw absent
  if pathLimit < path.utf8ByteSize then throw tooLong
  let names := pathNames path
  let directory ← f.enter (startOf path) names.dropLast
  return (names.getLast?.filter fun n => n != "." && n != "..").map directory.child

def read (f : Folder) (path : String) : Except String String := do
  let some p ← f.locate path | throw isDirectory
  if nameLimit < (p.names.getLastD "").utf8ByteSize then throw tooLong
  if f.hasDirectory p then throw isDirectory
  let some text := f.file? p | throw absent
  if endsInSlash path then throw notDirectory
  return text

def create (f : Folder) (path text : String) : Except String Folder := do
  let some p ← f.locate path | throw isDirectory
  if endsInSlash path then throw isDirectory
  if nameLimit < (p.names.getLastD "").utf8ByteSize then throw tooLong
  if f.hasDirectory p then throw isDirectory
  return f.put p text

def ofFiles (files : List (String × String)) : Folder :=
  files.foldl (fun f (path, text) => f.put ⟨.above 0, (pathNames path).filter (· != ".")⟩ text) {}

end Folder

structure Outcome where
  code : Nat
  out : String := ""
  err : String := ""
  folder : Folder

def Job.over (f : Folder) : Job Nat → Outcome
  | .done code => { code, folder := f }
  | .fail message => { code := 1, err := "error: " ++ message ++ "\n", folder := f }
  | .out text next => let o := next.over f; { o with out := text ++ o.out }
  | .err text next => let o := next.over f; { o with err := text ++ o.err }
  | .find path next => (next (f.read path).isOk).over f
  | .read path next => (next (f.read path)).over f
  | .create path text next => match f.create path text with
    | .ok f => (next (.ok ())).over f
    | .error reason => (next (.error reason)).over f

end ClockTree.Cli
