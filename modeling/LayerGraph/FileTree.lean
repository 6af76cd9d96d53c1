/-!
# File trees

A tree of directories and files, with paths that lead through it. A path is followed part by part.
Only a directory leads further. An empty part and `.` stay in it, `..` leads to the directory above,
and a name leads to what has that name there, whether it exists or not.

A directory is made together with those that it lies in. Making it is tried as it stands first. Only
when something on the way is missing are the directories above it made, from the top down. Those are
the beginnings of the path that end in a name or in `..`, and not what a `.` at its end would lead
to, so a path to a missing directory that ends in `.` still leads nowhere.
-/

namespace LayerGraph

/-- Why a file or directory cannot be read or written. -/
inductive FileError where
  | missing
  | alreadyExists
  | notDirectory
  | isDirectory
  | nameTooLong
  | zeroByte
  | notText
  | other (reason : String)
deriving DecidableEq

def FileError.text : FileError → String
  | missing => "No such file or directory (os error 2)"
  | alreadyExists => "File exists (os error 17)"
  | notDirectory => "Not a directory (os error 20)"
  | isDirectory => "Is a directory (os error 21)"
  | nameTooLong => "File name too long (os error 36)"
  | zeroByte => "file name contained an unexpected NUL byte"
  | notText => "stream did not contain valid UTF-8"
  | other reason => reason

/-- What has a name in a directory. -/
inductive FileEntry where
  | directory
  | file (bytes : ByteArray)

/-- A place in a tree: the names on the way to it. The root is the empty list. -/
abbrev Place : Type := List String

/-- Directories and files. -/
structure FileTree where
  entries : List (Place × FileEntry) := []
  home : Place := []

namespace FileTree

def entry? (tree : FileTree) (place : Place) : Option FileEntry :=
  if place.isEmpty then some .directory else tree.entries.lookup place

def put (tree : FileTree) (place : Place) (entry : FileEntry) : FileTree :=
  { tree with entries := (place, entry) :: tree.entries.filter fun entry => entry.1 != place }

/-- Puts something at a place, and directories where there is nothing on the way to it. -/
def plant (tree : FileTree) (place : Place) (entry : FileEntry) : FileTree :=
  let grown := (List.range place.length).foldl (fun tree length =>
    let above := place.take length
    if (tree.entry? above).isSome then tree else tree.put above .directory) tree
  grown.put place entry

/-! ## Paths -/

def nameLimit : Nat := 255

def pathLimit : Nat := 4095

def parts (path : String) : Except FileError (List String) :=
  if path.toList.contains '\x00' then .error .zeroByte
  else if pathLimit < path.utf8ByteSize then .error .nameTooLong
  else .ok (path.splitOn "/")

def isIdle (part : String) : Bool := part == "" || part == "."

def enter (tree : FileTree) (place : Place) (part : String) : Except FileError Place :=
  match tree.entry? place with
  | none => .error .missing
  | some (.file _) => .error .notDirectory
  | some .directory =>
    if isIdle part then .ok place
    else if part = ".." then .ok place.dropLast
    else if nameLimit < part.utf8ByteSize then .error .nameTooLong
    else .ok (place ++ [part])

/-- The place where a path begins: the root if the path begins with a slash. -/
def start (tree : FileTree) : List String → Place
  | "" :: _ :: _ => []
  | _ => tree.home

def follow (tree : FileTree) (parts : List String) : Except FileError Place :=
  parts.foldlM tree.enter (tree.start parts)

/-- The place that a path leads to; the empty path leads nowhere. -/
def locate (tree : FileTree) (path : String) : Except FileError Place :=
  if path = "" then .error .missing else do tree.follow (← parts path)

/-! ## Files -/

def read (tree : FileTree) (path : String) : Except FileError String := do
  match tree.entry? (← tree.locate path) with
  | none => throw .missing
  | some .directory => throw .isDirectory
  | some (.file bytes) =>
    match String.fromUTF8? bytes with
    | some text => return text
    | none => throw .notText

def write (tree : FileTree) (path text : String) : Except FileError FileTree := do
  let place ← tree.locate path
  match tree.entry? place with
  | some .directory => throw .isDirectory
  | _ => return tree.put place (.file text.toUTF8)

/-- The texts of the files below the home directory that were not there before, with the paths that
lead to them from there. -/
def newTexts (tree before : FileTree) : List (String × String) :=
  tree.entries.filterMap fun (place, entry) =>
    match entry, before.entry? place with
    | .file bytes, none =>
      if tree.home.isPrefixOf place then
        (String.fromUTF8? bytes).map fun text =>
          ("/".intercalate (place.drop tree.home.length), text)
      else none
    | _, _ => none

/-! ## Directories -/

/-- A list without those of its last elements that have a property. -/
def dropLastWhile (property : String → Bool) (parts : List String) : List String :=
  (parts.reverse.dropWhile property).reverse

def ensureDirectory (tree : FileTree) (parts : List String) : Except FileError FileTree := do
  let place ← tree.follow parts
  match tree.entry? place with
  | none => return tree.put place .directory
  | some .directory => return tree
  | some (.file _) => throw .alreadyExists

/-- The directories that a directory lies in, from the top down. -/
def ancestors (parts : List String) : List (List String) :=
  let parts := dropLastWhile isIdle parts
  ((List.range parts.length).map parts.take).filter fun above => !above.getLast?.all isIdle

def makeDirectories (tree : FileTree) (path : String) : Except FileError FileTree :=
  if path = "" then .ok tree
  else do
    let parts := dropLastWhile (· == "") (← parts path)
    match tree.ensureDirectory parts with
    | .error .missing => (ancestors parts ++ [parts]).foldlM ensureDirectory tree
    | result => result

end FileTree

end LayerGraph
