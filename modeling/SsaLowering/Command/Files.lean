/-!
# Files

What the command needs from its surroundings, and a store of files that provides it.
-/

namespace SsaLowering.Command

inductive FileError where
  | notFound
  | notDirectory
  | isDirectory
  | notText
  | other (message : String)
  deriving DecidableEq, Repr

def FileError.message : FileError → String
  | notFound => "No such file or directory (os error 2)"
  | notDirectory => "Not a directory (os error 20)"
  | isDirectory => "Is a directory (os error 21)"
  | notText => "stream did not contain valid UTF-8"
  | other message => message

/-- The surroundings of the command: files, and a clock that counts nanoseconds. -/
structure Host (m : Type → Type) where
  read : String → m (Except FileError (List UInt8))
  write : String → List UInt8 → m (Except FileError Unit)
  isPresent : String → m Bool
  now : m Nat

/-- A file: the names that lead to it, and its content. -/
structure StoredFile where
  path : List String
  content : List UInt8
  deriving DecidableEq, Repr

abbrev FileStore := List StoredFile

namespace FileStore

inductive Target where
  | file (content : List UInt8)
  | directory
  deriving DecidableEq, Repr

/-- What is at the end of some names. A directory is there as long as a file is below it. -/
def target? (store : FileStore) (names : List String) : Option Target :=
  match List.find? (·.path = names) store with
  | some file => some (.file file.content)
  | none =>
    if names.isEmpty || store.any (fun file => names.isPrefixOf file.path) then some .directory
    else none

def partsOf (path : String) : List String :=
  (path.splitOn "/").filter fun part => part ≠ "" ∧ part ≠ "."

/-- Goes on from a directory by one part. What lies above the store is not found. -/
def enter (store : FileStore) (names : List String) (part : String) :
    Except FileError (List String) :=
  match store.target? names with
  | none => .error .notFound
  | some (.file _) => .error .notDirectory
  | some .directory =>
    if part ≠ ".." then .ok (names ++ [part])
    else if names.isEmpty then .error .notFound
    else .ok names.dropLast

/-- The names that a path leads to, which need not be there. Only relative paths lead into the
store. -/
def resolve (store : FileStore) (path : String) : Except FileError (List String) :=
  if path.isEmpty || path.startsWith "/" then .error .notFound
  else (partsOf path).foldlM store.enter []

def find (store : FileStore) (path : String) : Except FileError Target := do
  match store.target? (← store.resolve path) with
  | none => throw .notFound
  | some .directory => return .directory
  | some (.file content) =>
    if path.endsWith "/" then throw .notDirectory else return .file content

def read (store : FileStore) (path : String) : Except FileError (List UInt8) := do
  match ← store.find path with
  | .file content => return content
  | .directory => throw .isDirectory

def put (store : FileStore) (path : List String) (content : List UInt8) : FileStore :=
  store.filter (·.path ≠ path) ++ [⟨path, content⟩]

/-- Writes a file; its directory must be there. -/
def write (store : FileStore) (path : String) (content : List UInt8) :
    Except FileError FileStore := do
  let names ← store.resolve path
  if path.endsWith "/" || store.target? names = some .directory then throw .isDirectory
  return store.put names content

/-- A store as the surroundings of the command. Its clock stands still. -/
def host : Host (StateM FileStore) where
  read path := return (← get).read path
  write path content := do
    match (← get).write path content with
    | .ok store =>
      set store
      return .ok ()
    | .error error => return .error error
  isPresent path := return ((← get).find path).isOk
  now := return 0

end FileStore

end SsaLowering.Command
