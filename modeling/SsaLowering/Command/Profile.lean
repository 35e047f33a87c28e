/-!
# Profiles

The time that each stage of a run took, as a table.
-/

namespace SsaLowering.Command

structure Stage where
  name : String
  nanos : Nat
  deriving DecidableEq, Repr

structure Profile where
  enabled : Bool
  stages : List Stage := []
  deriving DecidableEq, Repr

namespace Profile

def record (profile : Profile) (stage : Stage) : Profile :=
  if profile.enabled then { profile with stages := profile.stages ++ [stage] } else profile

def padEnd (width : Nat) (text : String) : String :=
  text ++ String.ofList (List.replicate (width - text.length) ' ')

def padStart (width : Nat) (text : String) : String :=
  String.ofList (List.replicate (width - text.length) ' ') ++ text

/-- A time in milliseconds: whole microseconds count, and four places are shown. -/
def renderTime (nanos : Nat) : String :=
  let micros := nanos / 1000
  let places := toString (micros % 1000)
  toString (micros / 1000) ++ "." ++ String.ofList (List.replicate (3 - places.length) '0')
    ++ places ++ "0"

/-- A share of a total in per cent, to one place. -/
def renderShare (nanos total : Nat) : String :=
  let tenths := if total = 0 then 0 else (2000 * nanos + total) / (2 * total)
  toString (tenths / 10) ++ "." ++ toString (tenths % 10)

def renderLine (width : Nat) (name time share : String) : String :=
  padEnd width name ++ " : " ++ padStart 10 time ++ "ms (" ++ padStart 5 share ++ "%)\n"

/-- The table of some stages. The first column is as wide as the longest name has bytes. -/
def render (stages : List Stage) : String :=
  let width := (stages.map fun stage => stage.name.utf8ByteSize).foldl max "Total".utf8ByteSize
  let total := (stages.map Stage.nanos).foldl (· + ·) 0
  let rule := String.ofList (List.replicate (width + 28) '-') ++ "\n"
  let lines := stages.map fun stage =>
    renderLine width stage.name (renderTime stage.nanos) (renderShare stage.nanos total)
  rule ++ "Lowering Profile\n" ++ rule ++ String.join lines ++ rule ++
    renderLine width "Total" (renderTime total) "100.0" ++ rule

def report (profile : Profile) : String :=
  if profile.enabled then render profile.stages else ""

end Profile

end SsaLowering.Command
