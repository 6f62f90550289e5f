import Covenant.Files.Path

namespace Covenant

inductive FileError
  | nulByte
  | tooLong
  | notFound
  | notDirectory
  | isDirectory
  deriving DecidableEq, Repr

def FileError.message : FileError → String
  | .nulByte => "file name contained an unexpected NUL byte"
  | .tooLong => "File name too long (os error 36)"
  | .notFound => "No such file or directory (os error 2)"
  | .notDirectory => "Not a directory (os error 20)"
  | .isDirectory => "Is a directory (os error 21)"

-- What can be asked of files.
structure Files (m : Type → Type) where
  isFile : Path → m Bool
  read : Path → m (Except String String)

-- Files and directories by their names from the root on, and the current directory. The directories
-- above a file or a directory are there too.
structure FileTree where
  files : List (List String × String)
  directories : List (List String)
  current : List String
  deriving Repr

inductive Node
  | file (names : List String)
  | directory (names : List String)
  deriving DecidableEq, Repr

namespace FileTree

def hasDirectory (t : FileTree) (names : List String) : Bool :=
  names.isPrefixOf t.current ||
  t.directories.any names.isPrefixOf ||
  t.files.any fun (file, _) => names.isPrefixOf file && names ≠ file

def enter (t : FileTree) (names : List String) (name : String) : Except FileError Node :=
  if name = "" ∨ name = "." then .ok (.directory names)
  else if name = ".." then .ok (.directory names.dropLast)
  else if 255 < name.utf8ByteSize then .error .tooLong
  else
    let below := names ++ [name]
    if (t.files.lookup below).isSome then .ok (.file below)
    else if t.hasDirectory below then .ok (.directory below)
    else .error .notFound

def walk (t : FileTree) : Node → List String → Except FileError Node
  | node, [] => .ok node
  | .file _, _ :: _ => .error .notDirectory
  | .directory names, name :: rest => do
      let node ← t.enter names name
      t.walk node rest

def names (p : Path) : List String := p.names.map String.ofList

-- What a path leads to. A path that is not absolute starts in the current directory. A name has
-- at most 255 bytes and a path at most 4095.
def find (t : FileTree) (p : Path) : Except FileError Node :=
  if '\x00' ∈ p then .error .nulByte
  else if 4095 < p.byteSize then .error .tooLong
  else
    match p with
    | [] => .error .notFound
    | '/' :: rest => t.walk (.directory []) (names rest)
    | p => t.walk (.directory t.current) (names p)

def isFile (t : FileTree) (p : Path) : Bool :=
  match t.find p with
  | .ok (.file _) => true
  | _ => false

def read (t : FileTree) (p : Path) : Except FileError String := do
  match ← t.find p with
  | .directory _ => throw .isDirectory
  | .file names =>
      match t.files.lookup names with
      | some text => return text
      | none => throw .notFound

def access (t : FileTree) : Files Id where
  isFile p := t.isFile p
  read p := (t.read p).mapError FileError.message

end FileTree

end Covenant
