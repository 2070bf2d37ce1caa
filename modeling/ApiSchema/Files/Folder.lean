/-
# Folders

The contents of a folder as a value: its files with their texts and the folders inside it. A place
is given by the names that lead to it. Paths are followed name by name, so that a step up is only
possible out of a folder that is there.
-/
import ApiSchema.Assoc
import ApiSchema.Files.Path

namespace ApiSchema

/-- Files and folders below a folder; that folder itself is not listed. -/
structure Folder where
  files : List (List String × String)
  folders : List (List String)
deriving Inhabited

/-- What can be found under a path. -/
inductive Place
  | file (text : String)
  | folder (names : List String)
deriving DecidableEq, Inhabited

namespace Folder

/-! ## Contents -/

/-- Nothing. -/
def empty : Folder := ⟨[], []⟩

def isFolderAt (folder : Folder) (names : List String) : Bool :=
  names.isEmpty || folder.folders.contains names

def addFolder (folder : Folder) (names : List String) : Folder :=
  if folder.isFolderAt names then folder
  else { folder with folders := folder.folders ++ [names] }

/-- Adds the folders on the way to some names, themselves included; `before` are the names passed.
-/
def addFolders (folder : Folder) (before : List String) : List String → Folder
  | [] => folder
  | name :: rest => (folder.addFolder (before ++ [name])).addFolders (before ++ [name]) rest

def putFile (folder : Folder) (names : List String) (text : String) : Folder :=
  { folder with files := Assoc.put folder.files names text }

/-- Adds what a listing has under a path: a text, or with a slash at the end an empty folder. -/
def addListed (folder : Folder) (path text : String) : Folder :=
  let names := (Path.parts path).filter fun name => name != "" && name != "."
  if path.toList.getLast? == some '/' then folder.addFolders [] names
  else (folder.addFolders [] names.dropLast).putFile names text

/-- The folder of a listing of paths and texts. -/
def ofListing (listing : List (String × String)) : Folder :=
  listing.foldl (fun folder (path, text) => folder.addListed path text) empty

/-- The files with their paths, in ascending order of these. -/
def listing (folder : Folder) : List (String × String) :=
  (folder.files.map fun (names, text) => ("/".intercalate names, text)).mergeSort
    fun a b => a.1 ≤ b.1

/-- The files that another folder does not have in the same form, as a listing. -/
def changesSince (folder before : Folder) : List (String × String) :=
  let changed := folder.files.filter fun (names, text) =>
    Assoc.get? before.files names != some text
  listing ⟨changed, []⟩

/-! ## Finding -/

/-- What the names of a path lead to, starting in a folder. There is nothing above the outermost
folder, and nothing can follow a file. -/
def follow (folder : Folder) (current : List String) : List String → Option Place
  | [] => some (.folder current)
  | name :: rest =>
    if name = "" || name = "." then folder.follow current rest
    else if name = ".." then
      if current.isEmpty then none else folder.follow current.dropLast rest
    else
      let next := current ++ [name]
      if folder.isFolderAt next then folder.follow next rest
      else
        match Assoc.get? folder.files next with
        | some text => if rest.isEmpty then some (.file text) else none
        | none => none

/-- What is under a path. A path that starts with a slash leads out of the folder. -/
def find? (folder : Folder) (path : String) : Option Place :=
  if path.isEmpty || path.toList.head? == some '/' then none
  else folder.follow [] (Path.parts path)

def has (folder : Folder) (path : String) : Bool := (folder.find? path).isSome

/-- The names that lead to the folder under a path. -/
def folder? (folder : Folder) (path : String) : Option (List String) :=
  match folder.find? path with
  | some (.folder names) => some names
  | _ => none

/-- The text of the file under a path, as it is stored. -/
def stored? (folder : Folder) (path : String) : Option String :=
  match folder.find? path with
  | some (.file text) => some text
  | _ => none

def hasFile (folder : Folder) (path : String) : Bool := (folder.stored? path).isSome

/-! ## Reading -/

/-- Writes every line end as a line feed. -/
def unifyLines : List Char → List Char
  | [] => []
  | '\r' :: '\n' :: cs => '\n' :: unifyLines cs
  | '\r' :: cs => '\n' :: unifyLines cs
  | c :: cs => c :: unifyLines cs

/-- The text of the file under a path, with unified line ends. -/
def read? (folder : Folder) (path : String) : Option String :=
  (folder.stored? path).map fun text => String.ofList (unifyLines text.toList)

/-- The names inside a folder that lead to all files and folders below it; the flag tells files. -/
def below (folder : Folder) (names : List String) : List (List String × Bool) :=
  ((folder.files.map fun file => (file.1, true)) ++
      (folder.folders.map fun path => (path, false))).filterMap fun (path, isFile) =>
    if names.isPrefixOf path && names.length < path.length then
      some (path.drop names.length, isFile)
    else none

/-! ## Writing -/

/-- Why a file cannot be written. -/
inductive WriteError
  /-- A file is in the place of the folder for it. -/
  | occupied
  | isFolder
  /-- The path leads nowhere. -/
  | missing
  /-- The path leads through a file. -/
  | notFolder
deriving DecidableEq, Inhabited

/-- Makes the folders on a path that are not there yet. -/
def makeFolders (folder : Folder) (current : List String) :
    List String → Except WriteError Folder
  | [] => .ok folder
  | name :: rest =>
    if name = "" || name = "." then folder.makeFolders current rest
    else if name = ".." then
      if current.isEmpty then .error .missing else folder.makeFolders current.dropLast rest
    else
      let next := current ++ [name]
      if Assoc.has folder.files next then
        .error (if rest.isEmpty then .occupied else .notFolder)
      else (folder.addFolder next).makeFolders next rest

/-- Sets the text of the file under a path whose folder is there. -/
def store (folder : Folder) (path text : String) : Except WriteError Folder :=
  let name := Path.base path
  let parent := Path.directory path
  if path.isEmpty then .error .missing
  else
    match if parent.isEmpty then some [] else folder.folder? parent with
    | none => .error .missing
    | some names =>
      if name = "" || name = "." || name = ".." || folder.isFolderAt (names ++ [name]) then
        .error .isFolder
      else .ok (folder.putFile (names ++ [name]) text)

/-- Writes a file and makes the folders on the way to it. -/
def write (folder : Folder) (path text : String) : Except WriteError Folder := do
  let parent := Path.directory path
  let folder ← if parent.isEmpty then pure folder else folder.makeFolders [] (Path.parts parent)
  folder.store path text

end Folder

end ApiSchema
