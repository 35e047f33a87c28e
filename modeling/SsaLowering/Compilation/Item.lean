import SsaLowering.Compilation.Cache
import SsaLowering.Compilation.Event
import SsaLowering.Core.Desugaring
import SsaLowering.Lowering.Body

/-!
# Lowering an item

The way of one function from its source to SSA form. It consults the cache once, and after a miss
stores what it has made.
-/

namespace SsaLowering.Compilation

open SsaLowering.Ir SsaLowering.Lowering
open SsaLowering.Core (Body)

/-- How a module is lowered. -/
structure Options where
  maxReports : Option Nat := none
  verify : Bool := true
  deriving DecidableEq, Repr

/-- What lowering an item has led to: an entry if the item has a body, or an error. -/
structure ItemOutcome where
  result : Except LowerError (Option CacheEntry)
  events : List Event := []

inductive Task where
  | settled (result : Except LowerError (Option CacheEntry))
  /-- To lower a body of some stamp, unless it is in the cache. -/
  | pending (body : Body) (stamp : Stamp)

def taskOf (env : Environment) (item : Source.LoadedItem) : Task :=
  match Core.desugar env.types item with
  | .error error => .settled (.error (.internal error))
  | .ok none => .settled (.ok none)
  | .ok (some body) => .pending body (body.stamp env.digest env.fingerprint)

def checkFunction (env : Environment) (options : Options) (function : Function) :
    Except LowerError Unit :=
  if options.verify then
    match function.verify env.layouts with
    | .error fault => .error (.fault fault)
    | .ok (.error problem) => .error (.malformed function.name problem)
    | .ok (.ok ()) => .ok ()
  else .ok ()

def lowerFresh (env : Environment) (options : Options) (body : Body) (stamp : Stamp) :
    Except LowerError CacheEntry × List Event :=
  let lowered := lowerBody env body
  let noted := lowered.reports.map (Event.reported body.name)
  match lowered.function with
  | .error error => (.error error, noted)
  | .ok slotForm =>
    match Ssa.construct slotForm with
    | .error fault => (.error (.fault fault), noted)
    | .ok (stats, function) =>
      let result := do
        checkFunction env options function
        return { stamp, function, reports := lowered.reports }
      (result, noted ++ [.constructed function.name stats])

def lowerItem (env : Environment) (options : Options) (cache : Option Cache)
    (item : Source.LoadedItem) : ItemOutcome × Option Cache :=
  match taskOf env item with
  | .settled result => ({ result }, cache)
  | .pending body stamp =>
    match cache with
    | none =>
      let (result, events) := lowerFresh env options body stamp
      ({ result := result.map some, events }, none)
    | some cache =>
      match cache.get body.name stamp with
      | (some entry, cache) =>
        ({ result := .ok (some entry), events := [.reused body.name] }, some cache)
      | (none, cache) =>
        match lowerFresh env options body stamp with
        | (.error error, events) => ({ result := .error error, events }, some cache)
        | (.ok entry, events) =>
          let (held, cache) := cache.insert body.name entry
          ({ result := .ok (some held), events }, some cache)

def lowerItems (env : Environment) (options : Options) (cache : Option Cache) :
    List Source.LoadedItem → List ItemOutcome × Option Cache
  | [] => ([], cache)
  | item :: rest =>
    let (outcome, cache) := lowerItem env options cache item
    let (outcomes, cache) := lowerItems env options cache rest
    (outcome :: outcomes, cache)

end SsaLowering.Compilation
