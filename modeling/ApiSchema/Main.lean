/-
# The program

Reads the current folder, runs the command that the arguments ask for, and writes the files that it
has changed.
-/
import ApiSchema.Command.Run

namespace ApiSchema

/-- The files and empty folders below a folder of the disk, as a listing. Files that are no texts
and links are left out. -/
partial def readListing (base : String) : IO (List (String × String)) := do
  let root ← IO.FS.realPath (if base.isEmpty then "." else base)
  let entries ← root.readDir
  let mut listing : List (String × String) := []
  for entry in entries do
    let path := Path.join base entry.fileName
    match (← entry.path.symlinkMetadata).type with
    | .dir => listing := listing ++ [(path ++ "/", "")] ++ (← readListing path)
    | .file =>
      try
        let text ← IO.FS.readFile path
        listing := listing ++ [(path, text)]
      catch _ => pure ()
    | _ => pure ()
  return listing

def writeListing (listing : List (String × String)) : IO Unit := do
  for (path, text) in listing do
    let directory := Path.directory path
    if !directory.isEmpty then IO.FS.createDirAll directory
    IO.FS.writeFile path text

end ApiSchema

/-- Runs the program in the current folder. -/
def main (arguments : List String) : IO UInt32 := do
  let location := (← IO.currentDir).toString
  let folder := ApiSchema.Folder.ofListing (← ApiSchema.readListing "")
  let outcome := ApiSchema.Command.run location folder arguments
  ApiSchema.writeListing (outcome.folder.changesSince folder)
  (← IO.getStdout).putStr outcome.out
  (← IO.getStderr).putStr outcome.err
  return outcome.exit.toUInt32
