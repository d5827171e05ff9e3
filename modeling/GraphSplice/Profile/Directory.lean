import GraphSplice.Profile.Store

/-!
Profiles as files of one directory. A profile is the file with its name and the ending `.json`.
Writing goes through a temporary file that is then renamed, so no reader meets half a profile;
the temporary name starts with a dot, which no profile name does.
-/

namespace GraphSplice

inductive Entry where
  | file (content : Bytes)
  | folder

/-- A directory by file name; none once the directory is gone. -/
structure Directory where
  entries : Option (List (String × Entry))

namespace Directory

def empty : Directory := ⟨some []⟩

def gone : Directory := ⟨none⟩

def fileName (name : ProfileName) : String := name.text ++ ".json"

def temporaryName (name : ProfileName) : String := "." ++ name.text ++ ".json.tmp"

def listing (d : Directory) : List (String × Entry) := d.entries.getD []

def entry? (d : Directory) (file : String) : Option Entry := d.listing.lookup file

def erase (file : String) (entries : List (String × Entry)) : List (String × Entry) :=
  entries.filter fun e => e.1 ≠ file

/-- Puts an entry there in place of what had its name. -/
def put (d : Directory) (file : String) (entry : Entry) : Directory :=
  ⟨d.entries.map fun entries => erase file entries ++ [(file, entry)]⟩

/-- Writes a file. A folder of that name is in the way, and so is a missing directory. -/
def writeFile (d : Directory) (file : String) (content : Bytes) : Except StoreError Directory :=
  match d.entries, d.entry? file with
  | none, _ => .error .fileSystem
  | some _, some .folder => .error .fileSystem
  | some _, _ => .ok (d.put file (.file content))

/-- Renames a file over another one. A folder cannot be replaced. -/
def rename (d : Directory) (source target : String) : Except StoreError Directory :=
  match d.entry? source, d.entry? target with
  | none, _ => .error .fileSystem
  | some _, some .folder => .error .fileSystem
  | some entry, _ =>
    .ok (Directory.put ⟨d.entries.map (erase source)⟩ target entry)

/-- The profile that an entry of this name is, if its ending and its stem are right. -/
def profileOf? (file : String) : Option ProfileName :=
  let reversed := file.toList.reverse
  let ending := ".json".toList.reverse
  if ending.isPrefixOf reversed then
    ProfileName.ofString? (String.ofList (reversed.drop ending.length).reverse)
  else none

def read (d : Directory) (name : ProfileName) : Except StoreError (Option Bytes) :=
  match d.entry? (fileName name) with
  | none => .ok none
  | some (.file content) => .ok (some content)
  | some .folder => .error .fileSystem

def write (d : Directory) (name : ProfileName) (content : Bytes) : StoreAnswer Directory Unit :=
  match d.writeFile (temporaryName name) content with
  | .error e => ⟨.error e, d⟩
  | .ok written =>
    match written.rename (temporaryName name) (fileName name) with
    | .error e => ⟨.error e, written⟩
    | .ok renamed => ⟨.ok (), renamed⟩

def names (d : Directory) : List ProfileName :=
  Ascending.ofList (d.listing.filterMap fun e => profileOf? e.1)

instance : ProfileStore Directory where
  read name d := ⟨d.read name, d⟩
  write name content d := d.write name content
  names d := .ok d.names

end Directory

end GraphSplice
