import SsaLowering.Span

/-!
# Inconsistencies

Lowering takes for granted what a type checker has established. Where a tree breaks such an
assumption, lowering stops with an internal error: the inconsistency and where it was found.
-/

namespace SsaLowering

/-- What is inconsistent about a tree. Types are given by their names. -/
inductive Inconsistency where
  | chainWithoutIf
  | assignmentToNonPlace
  | shortCircuitAssignment
  | initializerOfNonData
  | initializerIncomplete
  | unknownField (name : String)
  | fieldInitializedTwice
  | patternOnNonResult
  | accessOfNonData
  | immutableAssignment (name : String)
  | storeIntoNonData (ty : String)
  | undefinedOperator (op ty : String)
  | valuelessOperand (ty : String)
  | noLayout (ty : String)
  | constructorOfNonResult
  | refutableOnValueless
  | noConversion (source target : String)
  | propagationOfNonResult (ty : String)
  | propagationInNonResult (ty : String)
  | resultWithoutLayout
  | unpropagatable (source target : String)
  | negatedNonNumeric
  | nonConstantInitializer
  deriving DecidableEq, Repr

def Inconsistency.message : Inconsistency → String
  | chainWithoutIf => "`else if` does not continue with an `if`"
  | assignmentToNonPlace => "assignment to a non-place expression"
  | shortCircuitAssignment => "short-circuit operator in compound assignment"
  | initializerOfNonData => "data initializer of a non-data type"
  | initializerIncomplete => "data initializer does not cover every field"
  | unknownField name => s!"unknown field `{name}`"
  | fieldInitializedTwice => "field initialized twice"
  | patternOnNonResult => "result pattern on a non-result scrutinee"
  | accessOfNonData => "field access on a non-data value"
  | immutableAssignment name => s!"assignment to immutable local `{name}`"
  | storeIntoNonData ty => s!"field store into `{ty}`"
  | undefinedOperator op ty => s!"operator {op} is not defined on `{ty}`"
  | valuelessOperand ty => s!"expression of type `{ty}` used as a value"
  | noLayout ty => s!"`{ty}` has no aggregate layout"
  | constructorOfNonResult => "result constructor of a non-result type"
  | refutableOnValueless => "refutable pattern on a value-less scrutinee"
  | noConversion source target => s!"no conversion from `{source}` to `{target}`"
  | propagationOfNonResult ty => s!"`?` applied to `{ty}`"
  | propagationInNonResult ty => s!"`?` in a function returning `{ty}`"
  | resultWithoutLayout => "result type without a layout"
  | unpropagatable source target => s!"cannot propagate `{source}` as `{target}`"
  | negatedNonNumeric => "negated non-numeric constant"
  | nonConstantInitializer => "global initializer is not a constant"

structure InternalError where
  span : Span
  cause : Inconsistency
  deriving DecidableEq, Repr

end SsaLowering
