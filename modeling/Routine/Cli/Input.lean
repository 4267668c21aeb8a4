/-! # Getting the source text

The source text is the content of a file or of the standard input, which has to be text in UTF-8.
What can go wrong is told as what was being done and why it failed. -/

namespace Routine.Cli

/-- Why bytes or text cannot be had. -/
inductive Cause where
  | notFound
  | notDirectory
  | isDirectory
  | nameTooLong
  | notText
  /-- Any other failure, as the system tells it. -/
  | system (text : String) (code : Nat)
deriving DecidableEq, Repr, Inhabited

/-- What was being done when it failed. -/
inductive InputFault where
  | opening (path : String) (cause : Cause)
  | reading (cause : Cause)
  | readingInput (cause : Cause)
deriving DecidableEq, Repr, Inhabited

/-- A failure of the system is told with its number. -/
def Cause.message : Cause → String
  | notFound => "No such file or directory (os error 2)"
  | notDirectory => "Not a directory (os error 20)"
  | isDirectory => "Is a directory (os error 21)"
  | nameTooLong => "File name too long (os error 36)"
  | notText => "stream did not contain valid UTF-8"
  | system text code => text ++ " (os error " ++ code.repr ++ ")"

namespace InputFault

/-- What was being done. -/
def context : InputFault → String
  | opening path _ => "Could not open source file " ++ path ++ "."
  | reading _ => "Could not read file."
  | readingInput _ => "Error reading input."

/-- Why it failed. -/
def cause : InputFault → Cause
  | opening _ c | reading c | readingInput c => c

/-- What the user is told. -/
def message (f : InputFault) : String :=
  "Error: " ++ f.context ++ "\n\nCaused by:\n    " ++ f.cause.message ++ "\n"

end InputFault

/-- The text that bytes are, or the fault made of the reason why they are none. -/
def decodeText (bytes : ByteArray) (fault : Cause → InputFault) : Except InputFault String :=
  match String.fromUTF8? bytes with
  | some s => .ok s
  | none => .error (fault .notText)

/-- What a path leads to. -/
inductive Entry where
  | file (content : ByteArray)
  | directory

/-- Entries by their places, each place given as the names from the root down. -/
structure FileSystem where
  entries : List (List String × Entry)

/-- What a run finds around it: its standard input, and the files of the directory in which it
begins, by their paths from there. -/
structure Surroundings where
  stdin : ByteArray
  files : List (String × ByteArray)

namespace FileSystem

/-- The parts of a path. -/
def parts (path : String) : List String := path.splitOn "/"

/-- A part of a path that stays where it is. -/
def stays (part : String) : Bool := part = "" || part = "."

/-- The place of the directory in which a run begins. It is a new directory for temporary files, and
its name is one that no path can tell. -/
def home : List String := ["tmp", ""]

/-- The directories at the root that are relied on. -/
def rootNames : List String :=
  ["bin", "dev", "etc", "home", "lib", "opt", "proc", "run", "sbin", "sys", "tmp", "usr", "var"]

/-- The files of a run, and of the rest what is the same everywhere: directories at the root, the
device that is always empty, and the standard input. -/
def ofSurroundings (s : Surroundings) : FileSystem :=
  ⟨(home, .directory) :: (["dev", "null"], .file .empty) :: (["dev", "stdin"], .file s.stdin) ::
    rootNames.map (fun name => ([name], .directory)) ++
    s.files.map fun f => (home ++ (parts f.1).filter (!stays ·), .file f.2)⟩

/-- What stands at a place. Whatever has something below it is a directory. -/
def entryAt? (fs : FileSystem) (place : List String) : Option Entry :=
  match fs.entries.find? fun e => e.1 = place with
  | some e => some e.2
  | none => if fs.entries.any fun e => place.isPrefixOf e.1 then some .directory else none

/-- How many bytes a name may have. -/
def nameLimit : Nat := 255

/-- How many bytes a path may have. -/
def pathLimit : Nat := 4095

/-- Follows the parts of a path from a place. Two dots go up, and stay at the root. Every part needs
a directory to begin in, also one that stays. -/
def walk (fs : FileSystem) (place : List String) : List String → Except Cause Entry
  | [] =>
    match fs.entryAt? place with
    | some e => .ok e
    | none => .error .notFound
  | part :: rest =>
    match fs.entryAt? place with
    | none => .error .notFound
    | some (.file _) => .error .notDirectory
    | some .directory =>
      if stays part then fs.walk place rest
      else if part = ".." then fs.walk place.dropLast rest
      else if nameLimit < part.utf8ByteSize then .error .nameTooLong
      else fs.walk (place ++ [part]) rest

/-- What a path leads to from where the run begins, or from the root if it begins with a slash. The
empty path leads nowhere. -/
def open? (fs : FileSystem) (path : String) : Except Cause Entry :=
  if path = "" then .error .notFound
  else if pathLimit < path.utf8ByteSize then .error .nameTooLong
  else fs.walk (if path.toList.head? = some '/' then [] else home) (parts path)

/-- The text of the file at a path. -/
def readText (fs : FileSystem) (path : String) : Except InputFault String :=
  match fs.open? path with
  | .error c => .error (.opening path c)
  | .ok .directory => .error (.reading .isDirectory)
  | .ok (.file content) => decodeText content .reading

end FileSystem

end Routine.Cli
