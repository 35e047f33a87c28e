import SsaLowering.Compilation.Item
import SsaLowering.Decimal.Reading

/-!
# Command line arguments

Words are taken from left to right. The value of an option may be the next word or attached to the
option; a word that starts with a dash is never taken for the value of the option before it, and
behind `--` every word is a path. A value is looked at only when the next option or path begins or
the words end, so that an unknown word right behind it is noticed first.
-/

namespace SsaLowering.Command

inductive Emission where
  | text
  | binary
  | nothing
  deriving DecidableEq, Repr

namespace Emission

def all : List Emission :=
  [text, binary, nothing]

def word : Emission → String
  | text => "text"
  | binary => "binary"
  | nothing => "none"

end Emission

/-- Why words are not arguments, or what else they ask for. -/
inductive UsageError where
  | missingPath
  | unknownArgument
  /-- The value is missing, empty or not one of those allowed. -/
  | invalidValue
  | unreadableNumber
  | repeated
  | unneededValue
  | helpRequested
  | versionRequested
  deriving DecidableEq, Repr

structure Arguments where
  path : String
  emission : Emission
  output : Option String
  source : Option String
  jobs : Option Nat
  maxReports : Option Nat
  sequential : Bool
  cache : Option String
  verbose : Bool
  profile : Bool
  deriving DecidableEq, Repr

def Arguments.options (arguments : Arguments) : Compilation.Options :=
  { maxReports := arguments.maxReports }

inductive Valued where
  | path
  | emission
  | output
  | source
  | jobs
  | maxReports
  | cache
  deriving DecidableEq, Repr

inductive Flag where
  | sequential
  | verbose
  | profile
  | help
  | version
  deriving DecidableEq, Repr

def longOption? : String → Option (Valued ⊕ Flag)
  | "emit" => some (.inl .emission)
  | "output" => some (.inl .output)
  | "source" => some (.inl .source)
  | "jobs" => some (.inl .jobs)
  | "max-diagnostics" => some (.inl .maxReports)
  | "cache" => some (.inl .cache)
  | "sequential" => some (.inr .sequential)
  | "verbose" => some (.inr .verbose)
  | "profile" => some (.inr .profile)
  | "help" => some (.inr .help)
  | "version" => some (.inr .version)
  | _ => none

def shortOption? : Char → Option (Valued ⊕ Flag)
  | 'o' => some (.inl .output)
  | 'j' => some (.inl .jobs)
  | 'h' => some (.inr .help)
  | 'V' => some (.inr .version)
  | _ => none

structure Draft where
  path : Option String := none
  emission : Option Emission := none
  output : Option String := none
  source : Option String := none
  jobs : Option Nat := none
  maxReports : Option Nat := none
  cache : Option String := none
  sequential : Bool := false
  verbose : Bool := false
  profile : Bool := false
  deriving DecidableEq, Repr

structure Progress where
  draft : Draft := {}
  /-- What was named last and not yet looked at, with its value. -/
  pending : Option (Valued × Option String) := none
  /-- Whether the next word may be a value. -/
  awaiting : Bool := false
  placed : Bool := false
  trailing : Bool := false
  deriving DecidableEq, Repr

def readPath (value : String) : Except UsageError String :=
  if value.isEmpty then .error .invalidValue else .ok value

/-- Reads a number of at most 64 bits: digits, with a plus in front if desired. -/
def readCount (value : String) : Except UsageError Nat :=
  let digits := match value.toList with
    | '+' :: rest => rest
    | chars => chars
  let number := digits.foldl (fun total c => total * 10 + Decimal.digitValue c) 0
  if digits ≠ [] ∧ digits.all Char.isDigit ∧ number < 0x10000000000000000 then .ok number
  else .error .unreadableNumber

def readEmission (value : String) : Except UsageError Emission :=
  match Emission.all.find? (·.word = value) with
  | some emission => .ok emission
  | none => .error .invalidValue

/-- Sets a field that must not be set yet to a value that is then read. -/
def setOnce {α : Type} (present : Option α) (read : String → Except UsageError α)
    (value : String) : Except UsageError (Option α) :=
  if present.isSome then .error .repeated else some <$> read value

namespace Draft

def take (draft : Draft) (target : Valued) (value : Option String) : Except UsageError Draft := do
  let some value := value | throw .invalidValue
  match target with
  | .path => return { draft with path := ← setOnce draft.path readPath value }
  | .emission => return { draft with emission := ← setOnce draft.emission readEmission value }
  | .output => return { draft with output := ← setOnce draft.output readPath value }
  | .source => return { draft with source := ← setOnce draft.source readPath value }
  | .jobs => return { draft with jobs := ← setOnce draft.jobs readCount value }
  | .maxReports => return { draft with maxReports := ← setOnce draft.maxReports readCount value }
  | .cache => return { draft with cache := ← setOnce draft.cache readPath value }

def raise (draft : Draft) : Flag → Except UsageError Draft
  | .sequential =>
    if draft.sequential then .error .repeated else .ok { draft with sequential := true }
  | .verbose => if draft.verbose then .error .repeated else .ok { draft with verbose := true }
  | .profile => if draft.profile then .error .repeated else .ok { draft with profile := true }
  | .help => .error .helpRequested
  | .version => .error .versionRequested

def finish (draft : Draft) : Except UsageError Arguments :=
  match draft.path with
  | none => .error .missingPath
  | some path => .ok
    { path
      emission := draft.emission.getD .text
      output := draft.output
      source := draft.source
      jobs := draft.jobs
      maxReports := draft.maxReports
      sequential := draft.sequential
      cache := draft.cache
      verbose := draft.verbose
      profile := draft.profile }

end Draft

namespace Progress

def settle (progress : Progress) : Except UsageError Progress := do
  match progress.pending with
  | none => return { progress with awaiting := false }
  | some (target, value) =>
    return { progress with
      draft := ← progress.draft.take target value, pending := none, awaiting := false }

/-- Takes an option with the value attached to it, if there is one. -/
def takeOption (progress : Progress) (attached : Option String) :
    Valued ⊕ Flag → Except UsageError Progress
  | .inl target => do
    let settled ← progress.settle
    match attached with
    | some value => return { settled with draft := ← settled.draft.take target (some value) }
    | none => return { settled with pending := some (target, none), awaiting := true }
  | .inr flag =>
    match attached with
    | some _ => .error .unneededValue
    | none => do
      let settled ← progress.settle
      return { settled with draft := ← settled.draft.raise flag }

def takePath (progress : Progress) (word : String) : Except UsageError Progress := do
  if progress.placed then throw .unknownArgument
  let settled ← progress.settle
  return { settled with pending := some (.path, some word), placed := true }

def takeFound (progress : Progress) (attached : Option String) (found : Option (Valued ⊕ Flag)) :
    Except UsageError Progress :=
  match found with
  | some option => progress.takeOption attached option
  | none => .error .unknownArgument

/-- Takes a long option, given what stands behind its dashes. -/
def takeLong (progress : Progress) (chars : List Char) : Except UsageError Progress :=
  let name := String.ofList (chars.takeWhile (· ≠ '='))
  let attached := match chars.dropWhile (· ≠ '=') with
    | [] => none
    | _ :: value => some (String.ofList value)
  progress.takeFound attached (longOption? name)

/-- Takes a short option, given what stands behind its letter. -/
def takeShort (progress : Progress) (letter : Char) (rest : List Char) :
    Except UsageError Progress :=
  match shortOption? letter with
  | some (.inr flag) => progress.takeOption none (.inr flag)
  | found =>
    let attached := match rest with
      | [] => none
      | '=' :: value => some (String.ofList value)
      | value => some (String.ofList value)
    progress.takeFound attached found

def takePlain (progress : Progress) (word : String) : Except UsageError Progress :=
  match progress.awaiting, progress.pending with
  | true, some (target, _) =>
    .ok { progress with pending := some (target, some word), awaiting := false }
  | _, _ => progress.takePath word

def step (progress : Progress) (word : String) : Except UsageError Progress :=
  if progress.trailing then progress.takePath word
  else
    match word.toList with
    | ['-', '-'] => .ok { progress with trailing := true }
    | '-' :: '-' :: chars => progress.takeLong chars
    | '-' :: letter :: rest => progress.takeShort letter rest
    | _ => progress.takePlain word

end Progress

def Arguments.ofWords (words : List String) : Except UsageError Arguments := do
  let progress ← words.foldlM Progress.step {}
  let settled ← progress.settle
  settled.draft.finish

end SsaLowering.Command
