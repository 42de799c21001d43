import HiveQuery.Tree
import HiveQuery.Value.Arithmetic

/-!
# Lowerings and their supply of aliases

A lowering replaces parts of a tree and may need aliases that nothing else uses. They come from a
counter, which keeps its value when the lowering fails. The counter has no greatest value: where it has 32
bits, this is about lowerings that end before it overflows.
-/

namespace HiveQuery
set_option autoImplicit false

/-- Why a tree cannot be lowered. -/
inductive LoweringError where
  /-- A select without repeated rows is sorted by what is none of its columns. -/
  | distinctOrdering (label : Alias)
  | missingOrder
  | unknownEntity (name : String)
  | unmappedMember (entity member : String)
  | evaluation (e : ValueError)

def LoweringError.message : LoweringError → String
  | .distinctOrdering label =>
    "structural precondition violated: ordering key of DISTINCT select " ++ label.text ++
      " is not among its columns"
  | .missingOrder => "SKIP requires ORDER BY"
  | .unknownEntity name => "mapping error: unknown entity '" ++ name ++ "'"
  | .unmappedMember entity member =>
    "mapping error: '" ++ entity ++ "." ++ member ++ "' is not a mapped column"
  | .evaluation e => "evaluation error: " ++ e.message

/-- Computations that may fail and draw aliases. The state is the next alias. -/
abbrev Lowering := ExceptT LoweringError (StateM Alias)

/-- Draws the next alias. -/
def fresh : StateM Alias Alias :=
  modifyGet fun next => (next, next + 1)

/-- The error of an evaluation is an error of the lowering. -/
def evaluating {α : Type} : Except ValueError α → Lowering α
  | .ok a => pure a
  | .error e => throw (.evaluation e)

end HiveQuery
