/-
  StyleNesting/Directory/Basic.lean
  =================================
  **The files in reach of a command.**  A directory holds files, each of them
  text or bytes that are no text, at their places.  A path is followed name by
  name; every name but the last has to be a folder, and so has the last one if a
  slash stands behind it.
-/
import StyleNesting.Directory.Place

namespace StyleNesting

/-- The content of a file. -/
inductive Stored where
  | text (t : Text)
  /-- Bytes that are not text. -/
  | bytes (bs : List UInt8)
deriving DecidableEq, Repr

/-- The content that the bytes of a file are, read as UTF-8. -/
def Stored.ofBytes (bs : ByteArray) : Stored :=
  match String.fromUTF8? bs with
  | some s => .text s.toList
  | none => .bytes bs.toList

/-- Why a file cannot be opened. -/
inductive PathError where
  /-- The path holds the character that ends all paths. -/
  | hasNull
  | missing
  | notFolder
  | isFolder
  | tooLong
deriving DecidableEq, Repr

def PathError.message : PathError → String
  | .hasNull => "embedded null byte"
  | .missing => "No such file or directory"
  | .notFolder => "Not a directory"
  | .isFolder => "Is a directory"
  | .tooLong => "File name too long"

namespace Path

/-- The number of bytes of a text in UTF-8. -/
def byteSize (t : Text) : Nat := t.foldl (fun n c => n + c.utf8Size) 0

/-- A name has at most 255 bytes. -/
def isLongName (name : Text) : Bool := 255 < byteSize name

/-- A path has at most 4095 bytes. -/
def isLong (path : Text) : Bool := 4095 < byteSize path

end Path

/-- The files in reach of a command. -/
structure Directory where
  files : List (Place × Stored) := []
  /-- The folders that are known besides those that files lie in. -/
  folders : List Place := []

/-- What the last name of a path stands for. -/
inductive Spot where
  /-- A folder that was already met on the way, or that lies above. -/
  | folder
  /-- What may be at a place; a slash after its name makes it a folder. -/
  | entry (place : Place) (slash : Bool)
deriving DecidableEq, Repr

namespace Directory

/-- The file at a place. -/
def fileAt? (d : Directory) (p : Place) : Option Stored :=
  (d.files.find? fun f => f.1 == p).map (·.2)

/-- Whether a place is a folder.  The working directory and all above it are. -/
def isFolder (d : Directory) (p : Place) : Bool :=
  p.names.isEmpty || d.folders.contains p || d.files.any fun f => f.1.isBelow p

/-- Go on to the folder that a name leads to. -/
def enter (d : Directory) (p : Place) (name : Text) : Except PathError Place :=
  if name == Path.dot || name == Path.dots then .ok (p.follow name)
  else if Path.isLongName name then .error .tooLong
  else if d.isFolder (p.child name) then .ok (p.child name)
  else if (d.fileAt? (p.child name)).isSome then .error .notFolder
  else .error .missing

/-- Go on to the folder that names lead to, one after another. -/
def enterAll (d : Directory) : Place → List Text → Except PathError Place
  | p, [] => .ok p
  | p, name :: rest =>
    match d.enter p name with
    | .ok q => d.enterAll q rest
    | .error e => .error e

/-- Follow a path up to its last name. -/
def locate (d : Directory) (path : Text) : Except PathError Spot :=
  if path.contains '\x00' then .error .hasNull
  else if path.isEmpty then .error .missing
  else if Path.isLong path then .error .tooLong
  else
    match (Path.names path).getLast? with
    | none => .ok .folder
    | some last =>
      match d.enterAll (Path.start path) (Path.names path).dropLast with
      | .error e => .error e
      | .ok p =>
        if last == Path.dot || last == Path.dots then .ok .folder
        else .ok (.entry (p.child last) (Path.hasFinalSlash path))

/-- The content of the file at a path. -/
def read (d : Directory) (path : Text) : Except PathError Stored :=
  match d.locate path with
  | .error e => .error e
  | .ok .folder => .error .isFolder
  | .ok (.entry p slash) =>
    if d.isFolder p then .error .isFolder
    else
      match d.fileAt? p with
      | some content => if slash then .error .notFolder else .ok content
      | none => .error .missing

/-- The files with a text at a place; if there is no file yet, it comes last. -/
def putAmong (p : Place) (t : Text) : List (Place × Stored) → List (Place × Stored)
  | [] => [(p, .text t)]
  | f :: fs => if f.1 == p then (p, .text t) :: fs else f :: putAmong p t fs

/-- The directory with a text at a place, whether there was a file or not. -/
def put (d : Directory) (p : Place) (t : Text) : Directory :=
  { d with files := putAmong p t d.files }

/-- A text that was put at a place is the file there, and no other file changes. -/
theorem fileAt?_put (d : Directory) (p q : Place) (t : Text) :
    (d.put p t).fileAt? q = if q = p then some (.text t) else d.fileAt? q := by
  obtain ⟨files, folders⟩ := d
  simp only [put, fileAt?]
  induction files with
  | nil =>
    by_cases h : q = p
    · simp [putAmong, h]
    · have hpq : p ≠ q := fun e => h e.symm
      simp [putAmong, h, hpq]
  | cons f fs ih =>
    by_cases hf : f.1 = p
    · by_cases h : q = p
      · simp [putAmong, hf, h]
      · have hpq : p ≠ q := fun e => h e.symm
        simp [putAmong, hf, h, hpq]
    · by_cases hfq : f.1 = q
      · have h : q ≠ p := fun e => hf (hfq.trans e)
        simp [putAmong, hfq, h]
      · simp [putAmong, hf, hfq, ih]

/-- The place of the file that is opened for writing at a path; there need not be a file
    yet. -/
def openForWriting (d : Directory) (path : Text) : Except PathError Place :=
  match d.locate path with
  | .error e => .error e
  | .ok .folder => .error .isFolder
  | .ok (.entry p slash) =>
    if slash || d.isFolder p then .error .isFolder
    else if Path.isLongName (p.names.getLast?.getD []) then .error .tooLong
    else .ok p

end Directory

end StyleNesting
