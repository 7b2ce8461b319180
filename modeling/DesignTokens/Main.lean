import DesignTokens.Command.Outcome

/-!
# The program

The files below the current directory and the files that the arguments name are read, a run is
computed from them (`Run.ofArguments`), and the files that it changed are written. Of links only
those that lead to files are followed.
-/

namespace DesignTokens.Main

/-- The entry of a directory as a name with a node, unless it is neither a file nor a directory or
cannot be read. -/
partial def entryNode (entry : IO.FS.DirEntry) : IO (Option (String × Node)) := do
  try
    if (← entry.path.symlinkMetadata).type == .dir then
      let entries ← (← entry.path.readDir).toList.filterMapM entryNode
      return some (entry.fileName, .directory entries)
    else if ← entry.path.isDir then return none
    else return some (entry.fileName, .file (← IO.FS.readBinFile entry.path))
  catch _ => return none

/-- The files below the current directory. -/
def currentFiles : IO FileSystem := do
  let current ← IO.currentDir
  let entries ← (← current.readDir).toList.filterMapM entryNode
  let location := current.toString.splitOn "/" |>.filter (· ≠ "")
  let root := location.foldr (fun name node => Node.directory [(name, node)]) (.directory entries)
  return { root := root, current := location }

/-- Add the file that an argument names, if it names one. -/
def addNamed (fs : FileSystem) (arg : String) : IO FileSystem := do
  try
    let file ← IO.FS.realPath arg
    if ← file.isDir then return fs
    let content ← IO.FS.readBinFile file
    let path : Path := ⟨file.toString⟩
    let fs := (path.parent?.map fun parent => (fs.makeDirectories parent).1).getD fs
    return (fs.write? path content).getD fs
  catch _ => return fs

/-- The files that a run can read. -/
def snapshot (args : List String) : IO FileSystem := do
  args.foldlM addNamed (← currentFiles)

/-- Write the files that a run changed, wherever they are. -/
def writeChanges (before after : FileSystem) : IO Unit := do
  let changes := { after with current := [] }.changesSince { before with current := [] }
  for (path, content) in changes do
    let file := "/" ++ path
    if let some directory := (Path.mk file).parent? then IO.FS.createDirAll directory.text
    IO.FS.writeBinFile file content

/-- Run the program: its log and its complaint go to the standard error. -/
def run (args : List String) : IO UInt32 := do
  let before ← snapshot args
  let run := Run.ofArguments before args (← IO.getEnv "RUST_LOG")
  writeChanges before run.files
  for line in run.log do
    IO.eprintln line
  if let some complaint := run.complaint then IO.eprintln complaint
  match Command.ofArguments args with
  | .error .help => IO.print Command.usage
  | .error .version => pure ()
  | .error _ => IO.eprint Command.usage
  | .ok _ => pure ()
  IO.print run.output
  return run.exitCode.toUInt32

end DesignTokens.Main

/-- The entry point of the program. -/
def main (args : List String) : IO UInt32 :=
  DesignTokens.Main.run args
