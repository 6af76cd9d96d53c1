import LayerGraph.CommandLine.Execution

/-!
# The program

Reads the files that a command line names, carries it out, writes the listings and prints the
answer. Everything that is decided is decided in `CommandLine.run`; only a listing that cannot be
written is found out here.
-/

namespace LayerGraph.CommandLine

/-- Why something could not be done with a file or directory. -/
def fileError : IO.Error → FileError
  | .noFileOrDirectory _ _ _ => .missing
  | error =>
    let text := error.toString.toLower
    if text.contains "is a directory" then .isDirectory
    else if text.contains "not a directory" then .notDirectory
    else if text.contains "name too long" then .nameTooLong
    else .other error.toString

/-- Why a listing could not be written: a file may stand in the place of its directory, or in the
place of one that the directory lies in. -/
def dumpError (directory : String) : IO.Error → FileError
  | .alreadyExists file _ _ => if file == some directory then .alreadyExists else .notDirectory
  | error => fileError error

def readText (path : String) : IO (Except FileError String) := do
  try
    let bytes ← IO.FS.readBinFile path
    match String.fromUTF8? bytes with
    | some text => return .ok text
    | none => return .error .notText
  catch error => return .error (fileError error)

def pathsRead (arguments : List String) : List String :=
  match parse arguments with
  | .ok invocation => invocation.topology :: invocation.options.toList
  | .error _ => []

/-- Writes a listing; the result is the error that keeps it from being written, if there is one. -/
def writeListing (dump : DumpFile) : IO (Option FileError) := do
  try
    unless dump.directory == "" do IO.FS.createDirAll dump.directory
    IO.FS.writeFile dump.path dump.text
    return none
  catch error => return some (dumpError dump.directory error)

/-- Writes all listings; the answer becomes another one when this fails. -/
def writeListings (response : Response) : IO Response := do
  for dump in response.dumps do
    if let some error ← writeListing dump then
      let (code, message) := failureAnswer (.refused (.dump error.text))
      return { code, stderr := message, warnings := response.warnings }
  return response

end LayerGraph.CommandLine

open LayerGraph.CommandLine in
def main (arguments : List String) : IO UInt32 := do
  let texts ← (pathsRead arguments).mapM fun path => return (path, ← readText path)
  let files : Files := { read := fun path => (texts.lookup path).getD (.error .missing) }
  let response ← writeListings (run arguments files)
  IO.print response.stdout
  IO.eprint response.warningLines
  IO.eprint response.stderr
  return UInt32.ofNat response.code
