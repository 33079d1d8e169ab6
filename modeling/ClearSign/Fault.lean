/-!
This module contains the reasons for which a request is refused, and how the review screen sees
them.
-/

namespace ClearSign

inductive Fault where
  | noData
  | emptyContext
  | itemOutOfRange
  | pageOutOfRange
  | unexpected
  | endOfBuffer
  | badCharacters
  | badValue
  | valueOutOfRange
  | unparsedBytes
  | expertModeRequired
  | emptyTransaction
  | unknownTransactionType
  | tooManyTokens
  | incompleteJson
  | noTokens
  | nestedTooDeep
  | tooManyItems
  | emptyText
  | textTooLong
  deriving DecidableEq, Repr

namespace Fault

def code : Fault → Nat
  | .noData => 0
  | .emptyContext => 1
  | .itemOutOfRange => 2
  | .pageOutOfRange => 3
  | .unexpected => 4
  | .endOfBuffer => 5
  | .badCharacters => 6
  | .badValue => 7
  | .valueOutOfRange => 8
  | .unparsedBytes => 9
  | .expertModeRequired => 10
  | .emptyTransaction => 11
  | .unknownTransactionType => 12
  | .tooManyTokens => 13
  | .incompleteJson => 14
  | .noTokens => 15
  | .nestedTooDeep => 16
  | .tooManyItems => 17
  | .emptyText => 18
  | .textTooLong => 19

def all : List Fault :=
  [.noData, .emptyContext, .itemOutOfRange, .pageOutOfRange, .unexpected, .endOfBuffer,
   .badCharacters, .badValue, .valueOutOfRange, .unparsedBytes, .expertModeRequired,
   .emptyTransaction, .unknownTransactionType, .tooManyTokens, .incompleteJson, .noTokens,
   .nestedTooDeep, .tooManyItems, .emptyText, .textTooLong]

theorem getElem?_all_code (fault : Fault) : all[fault.code]? = some fault := by
  cases fault <;> rfl

def message : Fault → String
  | .noData => "No more data"
  | .emptyContext => "Initialized empty context"
  | .itemOutOfRange => "display index out of range"
  | .pageOutOfRange => "display page out of range"
  | .unexpected => "Unexpected error"
  | .endOfBuffer => "Unexpected buffer end"
  | .badCharacters => "Unexpected characters"
  | .badValue => "Unexpected value"
  | .valueOutOfRange => "Value out of range"
  | .unparsedBytes => "Unexpected unparsed bytes"
  | .expertModeRequired => "Expert mode required for this operation"
  | .emptyTransaction => "Transaction object empty"
  | .unknownTransactionType => "Invalid transaction type"
  | .tooManyTokens => "JSON: Too many tokens"
  | .incompleteJson => "JSON: Incomplete JSON"
  | .noTokens => "JSON: Zero tokens"
  | .nestedTooDeep => "JSON: Nesting too deep"
  | .tooManyItems => "Too many items"
  | .emptyText => "Data length zero"
  | .textTooLong => "Data too large"

end Fault

inductive ScreenError where
  | unknown
  | noData
  | reject
  deriving DecidableEq, Repr

def ScreenError.ofFault : Fault → ScreenError
  -- The screen is told apart only that it asked for something that is not there.
  | .noData | .itemOutOfRange | .pageOutOfRange => .noData
  | _ => .unknown

end ClearSign
