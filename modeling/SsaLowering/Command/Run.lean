import SsaLowering.Command.Arguments
import SsaLowering.Command.Files
import SsaLowering.Command.Profile
import SsaLowering.Compilation.Module
import SsaLowering.Ir.Encoding
import SsaLowering.Ir.Listing
import SsaLowering.Source.Loading
import SsaLowering.Source.Schema

/-!
# Running the command

A run loads a tree, lowers it with the cache, and writes the module. It says on the error stream
what went wrong, and with what the arguments ask for: a log, a profile.
-/

namespace SsaLowering.Command

open SsaLowering.Compilation SsaLowering.Lowering

structure Outcome where
  exit : Nat
  output : List UInt8
  errors : String

structure Failure where
  context : String
  causes : List String := []
  deriving DecidableEq, Repr

namespace Failure

/-- Indents a cause; its further lines are indented as deep as the first. -/
def indent (first : String) (cause : String) : String :=
  let blank := String.ofList (List.replicate first.length ' ')
  first ++ ("\n" ++ blank).intercalate (cause.splitOn "\n")

/-- The causes, numbered if there is more than one. -/
def renderCauses : List String → List String
  | [cause] => [indent "    " cause]
  | causes => causes.zipIdx.map fun (cause, place) =>
    indent (Profile.padStart 5 (toString place) ++ ": ") cause

def render (failure : Failure) : String :=
  let causes := match failure.causes with
    | [] => ""
    | causes => "\n\nCaused by:\n" ++ "\n".intercalate (renderCauses causes)
  "error: " ++ failure.context ++ causes ++ "\n"

end Failure

inductive Stop where
  | failed (failure : Failure)
  | fault (fault : Fault)
  deriving DecidableEq, Repr

/-- What a run has written so far, and the stages that it has gone through. -/
structure Session where
  output : List UInt8 := []
  errors : String := ""
  profile : Profile

abbrev RunM (m : Type → Type) := ExceptT Stop (StateT Session m)

section Steps

variable {m : Type → Type} [Monad m] (digest : Digest) (host : Host m)

def fail {α : Type} (context : String) (causes : List String) : RunM m α :=
  throw (.failed { context, causes })

def complain (text : String) : RunM m Unit :=
  modify fun session => { session with errors := session.errors ++ text }

/-- Notes an event in the log, if there is one. A message of several lines is indented. -/
def note (verbose : Bool) (event : Event) : RunM m Unit := do
  if verbose then complain ("\n    ".intercalate (event.render.splitOn "\n") ++ "\n")

def stage {α : Type} (name : String) (action : RunM m α) : RunM m α := ExceptT.mk do
  let before ← host.now
  let result ← action.run
  let after ← host.now
  modify fun session =>
    { session with profile := session.profile.record { name, nanos := after - before } }
  return result

def textOf (bytes : List UInt8) : Except FileError String :=
  match String.fromUTF8? ⟨bytes.toArray⟩ with
  | some text => .ok text
  | none => .error .notText

def readText (path : String) : RunM m (Except FileError String) :=
  return (← host.read path).bind textOf

def loadProgram (path : String) : RunM m Source.Program := do
  let context := "failed to load " ++ path
  match ← readText host path with
  | .error error =>
    fail context ["failed to read `" ++ path ++ "`: " ++ error.message, error.message]
  | .ok text =>
    match (Source.Tree.ofText? text).map Source.Tree.load with
    | none => fail context [Source.LoadError.message .malformed]
    | some (.error error) => fail context [error.message]
    | some (.ok program) => return program

/-- The source text to quote. Without one, nothing can be quoted. -/
def openSource (arguments : Arguments) : RunM m SourceText := do
  match arguments.source with
  | none => return { path := arguments.path, text := "" }
  | some path =>
    match ← readText host path with
    | .ok text => return { path, text }
    | .error error => fail ("failed to read source file " ++ path) [error.message]

def cacheFileMessage (error : FileError) : String :=
  "failed to access the cache file: " ++ error.message

/-- Opens the cache. A cache that cannot be read is as good as none. -/
def openCache (arguments : Arguments) : RunM m Cache := do
  match arguments.cache with
  | none => return {}
  | some path =>
    if !(← host.isPresent path) then return {}
    let loaded : Except String Cache := match ← host.read path with
      | .error error => .error (cacheFileMessage error)
      | .ok bytes => (Cache.load bytes).mapError CacheError.message
    match loaded with
    | .ok cache =>
      note arguments.verbose (.cacheLoaded cache.size)
      return cache
    | .error cause =>
      note arguments.verbose (.cacheIgnored path cause)
      return {}

def saveCache (path : String) (cache : Cache) : RunM m Unit := do
  match ← host.write path cache.save with
  | .ok () => return
  | .error error =>
    fail ("failed to write cache " ++ path) [cacheFileMessage error, error.message]

def writeModule (arguments : Arguments) (module : Ir.Module) : RunM m Unit := do
  let bytes : Option (List UInt8) := match arguments.emission with
    | .nothing => none
    | .text => some module.render.toUTF8.toList
    | .binary => some module.encode
  match bytes, arguments.output with
  | none, _ => return
  | some bytes, none =>
    modify fun session => { session with output := session.output ++ bytes }
  | some bytes, some path =>
    match ← host.write path bytes with
    | .ok () => return
    | .error error => fail ("failed to write " ++ path) [error.message]

def complainOf (source : SourceText) (outcome : ModuleOutcome) : RunM m Unit := do
  match outcome.render source with
  | .ok text => complain text
  | .error fault => throw (.fault fault)

/-- The module, if there is one and nothing was reported. What was reported besides an error is
shown only if it is the cause of the error. -/
def accept (source : SourceText) (outcome : ModuleOutcome) : RunM m Ir.Module := do
  match outcome.result with
  | .error (.fault fault) => throw (.fault fault)
  | .error (.aborted _) =>
    complainOf source outcome
    fail "exiting due to lowering errors" []
  | .error _ =>
    complainOf source { outcome with reports := [] }
    fail "exiting due to lowering errors" []
  | .ok module =>
    if outcome.reports.isEmpty then return module
    complainOf source outcome
    fail s!"exiting due to {outcome.reports.length} lowering errors" []

def lowerProgram (arguments : Arguments) (program : Source.Program) (cache : Cache) :
    RunM m ModuleOutcome := do
  let outcome := lowerModule digest program arguments.options (some cache)
  outcome.events.forM (note arguments.verbose)
  return outcome

def work (arguments : Arguments) : RunM m Unit := do
  let program ← stage host "Load" (loadProgram host arguments.path)
  let source ← openSource host arguments
  let cache ← openCache host arguments
  let outcome ← stage host "Lower" (lowerProgram digest arguments program cache)
  let module ← accept source outcome
  let cache := outcome.cache.getD cache
  note arguments.verbose (.cacheUsed cache.hits cache.misses cache.size)
  if let some path := arguments.cache then
    stage host "Cache Save" (saveCache host path cache)
  stage host "Emit" (writeModule host arguments module)

/-- Runs the command with its arguments. A profile comes before the failure. -/
def perform (arguments : Arguments) : m Outcome := do
  let start : Session := { profile := { enabled := arguments.profile } }
  let (result, session) ← (work digest host arguments).run.run start
  let errors := session.errors ++ session.profile.report
  match result with
  | .ok () => return { exit := 0, output := session.output, errors }
  | .error (.failed failure) =>
    return { exit := 1, output := session.output, errors := errors ++ failure.render }
  | .error (.fault _) => return { exit := 101, output := session.output, errors := session.errors }

def usage : String :=
  "Usage: kilnc [OPTIONS] <PATH>\n"

def version : String :=
  "kiln 0.1.0\n"

def refuse : UsageError → Outcome
  | .helpRequested => { exit := 0, output := usage.toUTF8.toList, errors := "" }
  | .versionRequested => { exit := 0, output := version.toUTF8.toList, errors := "" }
  | _ => { exit := 2, output := [], errors := usage }

def run (words : List String) : m Outcome :=
  match Arguments.ofWords words with
  | .ok arguments => perform digest host arguments
  | .error error => return refuse error

end Steps

end SsaLowering.Command
