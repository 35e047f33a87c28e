import SsaLowering.Core.Digest
import SsaLowering.Ir.Decoding
import SsaLowering.Lowering.Report

/-!
# The cache of lowered functions

An entry is found by the name of its item and is good for one stamp. A cache is saved as a binary
module: every function has a global of its name that holds the stamp. Functions with reports are
not saved.
-/

namespace SsaLowering.Compilation

open SsaLowering.Ir SsaLowering.Lowering

/-- A lowered function, the stamp of the body that it comes from, and what was reported. -/
structure CacheEntry where
  stamp : Stamp
  function : Function
  reports : List Report
  deriving DecidableEq, Repr

/-- The lowered functions by the names of their items, and how often one was found or not. -/
structure Cache where
  entries : List (String × CacheEntry) := []
  hits : Nat := 0
  misses : Nat := 0
  deriving Repr

/-- Why a saved cache is not loaded. -/
inductive CacheError where
  | undecodable (error : DecodeError)
  | missingStamp (function : String)
  deriving DecidableEq, Repr

def CacheError.message : CacheError → String
  | undecodable error => "corrupt cache file: " ++ error.message
  | missingStamp function => s!"corrupt cache file: no stamp for `{function}`"

def setEntry (entries : List (String × CacheEntry)) (name : String) (entry : CacheEntry) :
    List (String × CacheEntry) :=
  match entries with
  | [] => [(name, entry)]
  | (other, present) :: rest =>
    if other = name then (name, entry) :: rest else (other, present) :: setEntry rest name entry

namespace Cache

/-- The entry of an item, if it was made from a body of the same stamp. -/
def find? (cache : Cache) (name : String) (stamp : Stamp) : Option CacheEntry :=
  (cache.entries.lookup name).filter (·.stamp = stamp)

def get (cache : Cache) (name : String) (stamp : Stamp) : Option CacheEntry × Cache :=
  match cache.find? name stamp with
  | some entry => (some entry, { cache with hits := cache.hits + 1 })
  | none => (none, { cache with misses := cache.misses + 1 })

/-- Stores an entry, unless there is one of the same stamp; returns the entry that is held. -/
def insert (cache : Cache) (name : String) (entry : CacheEntry) : CacheEntry × Cache :=
  match cache.find? name entry.stamp with
  | some present => (present, cache)
  | none => (entry, { cache with entries := setEntry cache.entries name entry })

def size (cache : Cache) : Nat :=
  cache.entries.length

def saved (cache : Cache) : List (String × CacheEntry) :=
  (cache.entries.filter fun (_, entry) => entry.reports.isEmpty).mergeSort
    fun a b => decide (a.1 ≤ b.1)

def toModule (cache : Cache) : Module :=
  { name := "cache"
    globals := (cache.saved.map fun (name, entry) =>
      { name, ty := .i64, init := .int entry.stamp.toInt64 : Global }).toArray
    functions := (cache.saved.map fun (_, entry) => entry.function).toArray }

def save (cache : Cache) : List UInt8 :=
  cache.toModule.encode

def stampIn? (module : Module) (name : String) : Option Stamp :=
  match module.global? name with
  | some { init := .int stamp, .. } => some stamp.toUInt64
  | _ => none

def takeIn (module : Module) (entries : List (String × CacheEntry)) (function : Function) :
    Except CacheError (List (String × CacheEntry)) :=
  match stampIn? module function.name with
  | some stamp => .ok (setEntry entries function.name { stamp, function, reports := [] })
  | none => .error (.missingStamp function.name)

def load (bytes : List UInt8) : Except CacheError Cache := do
  match Module.decode bytes with
  | .error error => throw (.undecodable error)
  | .ok module => return { entries := ← module.functions.toList.foldlM (takeIn module) [] }

end Cache

end SsaLowering.Compilation
