import DesignTokens.Path
import DesignTokens.Table

/-!
# File systems

A file system is a tree of directories with files and symbolic links, together with the directory
that relative paths start from. All operations are functions on this value.

A path is followed from name to name (`FileSystem.locate`). That ends at something that is there
(`occupied`), at a name that is missing in a directory that is there (`vacant`), or earlier.
-/

namespace DesignTokens

/-- What a name in a directory stands for. -/
inductive Node where
  | file (content : ByteArray)
  | directory (entries : List (String × Node))
  | link (target : Path)
  deriving Inhabited

/-- The names that lead to a node from the root. -/
abbrev Location := List String

namespace Node

/-- Whether a node is a directory. -/
def isDirectory : Node → Bool
  | directory _ => true
  | _ => false

/-- The node at a location below a node. -/
def get? : Node → Location → Option Node
  | node, [] => some node
  | .directory entries, name :: rest => (Table.get? entries name).bind fun node => node.get? rest
  | _, _ :: _ => none

/-- Put a node at a location below a node. The directory that the last name is in must be there;
otherwise nothing changes. -/
def set : Node → Location → Node → Node
  | _, [], new => new
  | .directory entries, [name], new => .directory (Table.insert entries name new)
  | .directory entries, name :: rest, new =>
    match Table.get? entries name with
    | some node => .directory (Table.insert entries name (node.set rest new))
    | none => .directory entries
  | node, _ :: _, _ => node

/-- Take away the node at a location below a node. -/
def erase : Node → Location → Node
  | .directory entries, [name] => .directory (Table.erase entries name)
  | .directory entries, name :: rest =>
    match Table.get? entries name with
    | some node => .directory (Table.insert entries name (node.erase rest))
    | none => .directory entries
  | node, _ => node

mutual

/-- The regular files of a node, with the names that lead to them. Links are not followed. -/
def files : Node → List (Location × ByteArray)
  | .file content => [([], content)]
  | .link _ => []
  | .directory entries => filesOf entries

/-- The regular files of the entries of a directory. -/
def filesOf : List (String × Node) → List (Location × ByteArray)
  | [] => []
  | (name, node) :: rest => (node.files.map fun f => (name :: f.1, f.2)) ++ filesOf rest

end

end Node

/-- A tree of directories and the directory that relative paths start from. -/
structure FileSystem where
  root : Node
  current : Location

/-- Where following a path ends. -/
inductive Place where
  | occupied (location : Location) (node : Node)
  /-- The last name is missing in the directory at the location. -/
  | vacant (directory : Location) (name : String)
  /-- A name before the last one is missing. -/
  | missing
  /-- The path cannot be followed: it leads through a file or too many links, or is no path. -/
  | blocked

namespace FileSystem

/-- How many links may be followed on the way. -/
def maxLinks : Nat := 40

/-- The names of a path in the order in which they are followed. A slash at the end asks for a
directory, as a point does. -/
def steps (p : Path) : List String :=
  let names := p.pieces.filter (· ≠ "")
  if p.text.toList.getLast? == some '/' then names ++ ["."] else names

/-- Where the names of a path are followed from. -/
def start (fs : FileSystem) (p : Path) : Location :=
  if p.isAbsolute then [] else fs.current

/-- Follow names from a directory to their end, or to the first link, where `follow` goes on. A link
at the end is followed only if `through` says so. -/
def descend (fs : FileSystem) (through : Bool) (follow : Location → List String → Place)
    (at_ : Location) : List String → Place
  | [] =>
    match fs.root.get? at_ with
    | some node => .occupied at_ node
    | none => .missing
  | name :: rest =>
    if name = "." then descend fs through follow at_ rest
    else if name = ".." then descend fs through follow at_.dropLast rest
    else if 255 < name.utf8ByteSize then .blocked
    else
      match fs.root.get? (at_ ++ [name]) with
      | none =>
        if rest.isEmpty && (fs.root.get? at_).any Node.isDirectory then .vacant at_ name
        else .missing
      | some (.directory _) => descend fs through follow (at_ ++ [name]) rest
      | some (.file content) =>
        if rest.isEmpty then .occupied (at_ ++ [name]) (.file content) else .blocked
      | some (.link target) =>
        if rest.isEmpty && !through then .occupied (at_ ++ [name]) (.link target)
        else follow (if target.isAbsolute then [] else at_) (steps target ++ rest)

/-- Follow names from a directory. The number of links that may be followed comes first. -/
def walk (fs : FileSystem) (through : Bool) : Nat → Location → List String → Place
  | 0 => fs.descend through fun _ _ => .blocked
  | links + 1 => fs.descend through (walk fs through links)

/-- Whether a text can be a path at all: it has no null characters and is not too long. -/
def isFollowable (p : Path) : Bool :=
  !p.text.toList.contains '\x00' && p.text.utf8ByteSize < 4096

/-- Follow a path. A link at its end is followed if `through` says so. -/
def locate (fs : FileSystem) (p : Path) (through : Bool) : Place :=
  if !isFollowable p then .blocked
  else if p.text.isEmpty then .missing
  else walk fs through maxLinks (fs.start p) (steps p)

/-- The node a path leads to. -/
def node? (fs : FileSystem) (p : Path) : Option Node :=
  match fs.locate p true with
  | .occupied _ node => some node
  | _ => none

/-- Whether a path leads to something. -/
def contains (fs : FileSystem) (p : Path) : Bool :=
  (fs.node? p).isSome

/-- Whether a path leads to a directory. -/
def isDirectory (fs : FileSystem) (p : Path) : Bool :=
  (fs.node? p).any Node.isDirectory

/-- The content of the file a path leads to. -/
def read? (fs : FileSystem) (p : Path) : Option ByteArray :=
  match fs.node? p with
  | some (.file content) => some content
  | _ => none

/-- The content of the file a path leads to, if it is text. -/
def readText? (fs : FileSystem) (p : Path) : Option String :=
  (fs.read? p).bind String.fromUTF8?

/-- Whether a path leads to a regular file. -/
def isFile (fs : FileSystem) (p : Path) : Bool :=
  (fs.read? p).isSome

/-! ## Changes -/

/-- Why a directory was not made. -/
inductive MakeError where
  /-- The directory it would stand in is missing. -/
  | noParent
  | other

/-- Make the directory at a path, in a directory that is there. Slashes at the end of the path count
for its length only. -/
def makeDirectory (fs : FileSystem) (p : Path) : Except MakeError FileSystem :=
  if !isFollowable p then .error .other
  else
    match fs.locate p.withoutSlashes false with
    | .vacant directory name =>
      .ok { fs with root := fs.root.set (directory ++ [name]) (.directory []) }
    | .missing => .error .noParent
    | _ => .error .other

/-- Make the directory at a path and the directories above it as far as they are missing. The
directories made before a failure stay. `fuel` bounds the number of components. -/
def makeDirectoriesFrom (fs : FileSystem) : Nat → Path → FileSystem × Bool
  | 0, p => (fs, fs.isDirectory p)
  | fuel + 1, p =>
    if p.text.isEmpty then (fs, true)
    else
      match fs.makeDirectory p with
      | .ok fs => (fs, true)
      | .error .other => (fs, fs.isDirectory p)
      | .error .noParent =>
        match p.parent? with
        | none => (fs, false)
        | some parent =>
          let (fs, made) := makeDirectoriesFrom fs fuel parent
          if !made then (fs, false)
          else
            match fs.makeDirectory p with
            | .ok fs => (fs, true)
            | .error _ => (fs, fs.isDirectory p)

/-- Make a directory and the directories above it; the answer tells whether it is there now. -/
def makeDirectories (fs : FileSystem) (p : Path) : FileSystem × Bool :=
  fs.makeDirectoriesFrom (p.components.length + 1) p

/-- Write a file, in a directory that is there; an existing file is replaced. -/
def write? (fs : FileSystem) (p : Path) (content : ByteArray) : Option FileSystem :=
  match fs.locate p true with
  | .vacant directory name =>
    some { fs with root := fs.root.set (directory ++ [name]) (.file content) }
  | .occupied location (.file _) => some { fs with root := fs.root.set location (.file content) }
  | _ => none

/-- Make a symbolic link at a path where nothing is. -/
def link? (fs : FileSystem) (p target : Path) : Option FileSystem :=
  match fs.locate p false with
  | .vacant directory name =>
    some { fs with root := fs.root.set (directory ++ [name]) (.link target) }
  | _ => none

/-- Remove what is at a path: a file, a link, or a directory with all that is in it. -/
def remove (fs : FileSystem) (p : Path) : FileSystem :=
  match fs.locate p false with
  | .occupied location _ => { fs with root := fs.root.erase location }
  | _ => fs

/-! ## Views -/

/-- The regular files below the current directory with their paths from there, in the order of the
paths. -/
def currentFiles (fs : FileSystem) : List (String × ByteArray) :=
  let files := ((fs.root.get? fs.current).map Node.files).getD []
  (files.map fun f => ("/".intercalate f.1, f.2)).mergeSort fun f g => f.1 ≤ g.1

/-- The regular files below the current directory that are not in another file system with the
same content. -/
def changesSince (fs old : FileSystem) : List (String × ByteArray) :=
  let before := old.currentFiles
  fs.currentFiles.filter fun f => (before.lookup f.1).all fun content => content != f.2

end FileSystem

end DesignTokens
