/-
  LoxSyntax.CommandLine.Folder — a folder of files held in memory, and how names find
  their way through it.

  A name is followed part by part from the folder, or from the root of the system if it
  begins with `/`, which also stands between the parts; an empty part and `.` stay where
  they are, `..` goes up. Only from a folder does a way lead on, even to itself. Of the
  system only what every system has is known: some folders, and a file without content.
  Of the folders above the folder nothing is known. A name cannot hold a zero character;
  parts and whole names have a greatest length in bytes.

  - `up_down?`: a step down and one up lead back.
-/

namespace LoxSyntax.CommandLine

/-- A reason why a file cannot be read: its number and its words. -/
structure FileError where
  number : Nat
  reason : String
  deriving DecidableEq, Repr

namespace FileError

def notFound : FileError := ⟨2, "No such file or directory"⟩

def notADirectory : FileError := ⟨20, "Not a directory"⟩

def isADirectory : FileError := ⟨21, "Is a directory"⟩

def nameTooLong : FileError := ⟨36, "File name too long"⟩

def notPermitted : FileError := ⟨13, "Permission denied"⟩

/-- The reason with a number; `words` stand for one that has no entry here. -/
def ofNumber (n : Nat) (words : String) : FileError :=
  ([notFound, notPermitted, notADirectory, isADirectory, nameTooLong].find? (·.number == n)).getD ⟨n, words⟩

end FileError

inductive ReadFailure where
  | unreadable (e : FileError)
  /-- The name holds a zero character. -/
  | badName
  deriving DecidableEq, Repr

/-- A content of bytes, or a folder. -/
inductive Content where
  | bytes (data : ByteArray)
  | folder

structure Folder where
  /-- Names, with `/` between their parts, and contents. -/
  entries : List (String × Content)

namespace Folder

/-- Where a name has led: down these parts from the folder or from the root of the
    system, or above the folder. -/
inductive Place where
  | inside (parts : List String)
  | system (parts : List String)
  | above
  deriving DecidableEq, Repr

namespace Place

def up : Place → Place
  | .inside [] => .above
  | .inside parts => .inside parts.dropLast
  | .system parts => .system parts.dropLast
  | .above => .above

def down? (part : String) : Place → Option Place
  | .inside parts => some (.inside (parts ++ [part]))
  | .system parts => some (.system (parts ++ [part]))
  | .above => none

theorem up_down? {p q : Place} {part : String} (h : p.down? part = some q) : q.up = p := by
  cases p <;> cases h
  · rename_i parts
    cases parts with
    | nil => rfl
    | cons first parts => exact congrArg Place.inside List.dropLast_concat
  · simp [up]

end Place

def partsOf (name : String) : List String := (name.toList.splitOnP (· == '/')).map String.ofList

def cleanParts (name : String) : List String := (partsOf name).filter fun p => p != "" && p != "."

def content? (f : Folder) (parts : List String) : Option Content :=
  match f.entries.find? fun e => cleanParts e.1 == parts with
  | some e => some e.2
  | none =>
    if parts.isEmpty || f.entries.any (fun e => parts.isPrefixOf (cleanParts e.1)) then some .folder else none

def maxPartBytes : Nat := 255

def maxNameBytes : Nat := 4095

/-- The folders at the root of every system. -/
def systemFolders : List String :=
  ["bin", "boot", "dev", "etc", "home", "lib", "media", "mnt", "opt", "proc", "run", "sbin", "srv", "sys", "tmp",
    "usr", "var"]

def systemContent? : List String → Option Content
  | [] => some .folder
  | [part] => if systemFolders.contains part then some .folder else none
  | ["dev", "null"] => some (.bytes .empty)
  | _ => none

def contentAt? (f : Folder) : Place → Option Content
  | .inside parts => f.content? parts
  | .system parts => systemContent? parts
  | .above => some .folder

/-- One part further down. -/
def descend (f : Folder) (part : String) (place : Place) : Except FileError Place :=
  if maxPartBytes < part.utf8ByteSize then .error .nameTooLong
  else
    match (place.down? part).filter fun p => (f.contentAt? p).isSome with
    | some place => .ok place
    | none => .error .notFound

/-- One part further. -/
def enter (f : Folder) (part : String) (place : Place) : Except FileError Place :=
  match f.contentAt? place with
  | some .folder =>
    if part = "" || part = "." then .ok place
    else if part = ".." then .ok place.up
    else f.descend part place
  | some (.bytes _) => .error .notADirectory
  | none => .error .notFound

def walk (f : Folder) : List String → Place → Except FileError Place
  | [], place => .ok place
  | part :: parts, place =>
    match f.enter part place with
    | .ok place => walk f parts place
    | .error e => .error e

def locate (f : Folder) (name : String) : Except FileError Place :=
  if name = "" then .error .notFound
  else if maxNameBytes < name.utf8ByteSize then .error .nameTooLong
  else walk f (partsOf name) (if name.toList.head? = some '/' then .system [] else .inside [])

def read (f : Folder) (name : String) : Except ReadFailure ByteArray :=
  if name.toList.contains '\x00' then .error .badName
  else
    match f.locate name with
    | .error e => .error (.unreadable e)
    | .ok place =>
      match f.contentAt? place with
      | some (.bytes data) => .ok data
      | some .folder => .error (.unreadable .isADirectory)
      | none => .error (.unreadable .notFound)

end Folder

end LoxSyntax.CommandLine
