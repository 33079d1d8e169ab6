import ClearSign.Bytes

/-!
This module contains the status words that end every reply to a command.
-/

namespace ClearSign

inductive Status where
  | executionError
  | wrongLength
  | emptyBuffer
  | outputBufferTooSmall
  | dataInvalid
  | conditionsNotSatisfied
  | commandNotAllowed
  | transactionNotInitialized
  | badKeyHandle
  | invalidParameters
  | instructionNotSupported
  | classNotSupported
  | unknown
  | signVerifyError
  | success
  | busy
  deriving DecidableEq, Repr

namespace Status

def code : Status → UInt16
  | .executionError => 0x6400
  | .wrongLength => 0x6700
  | .emptyBuffer => 0x6982
  | .outputBufferTooSmall => 0x6983
  | .dataInvalid => 0x6984
  | .conditionsNotSatisfied => 0x6985
  | .commandNotAllowed => 0x6986
  | .transactionNotInitialized => 0x6987
  | .badKeyHandle => 0x6A80
  | .invalidParameters => 0x6B00
  | .instructionNotSupported => 0x6D00
  | .classNotSupported => 0x6E00
  | .unknown => 0x6F00
  | .signVerifyError => 0x6F01
  | .success => 0x9000
  | .busy => 0x9001

def toBytes (status : Status) : Bytes :=
  bigEndian16 status.code

def all : List Status :=
  [.executionError, .wrongLength, .emptyBuffer, .outputBufferTooSmall, .dataInvalid,
   .conditionsNotSatisfied, .commandNotAllowed, .transactionNotInitialized, .badKeyHandle,
   .invalidParameters, .instructionNotSupported, .classNotSupported, .unknown, .signVerifyError,
   .success, .busy]

theorem mem_all (status : Status) : status ∈ all := by
  cases status <;> decide

def ofCode? (code : UInt16) : Option Status :=
  all.find? fun status => status.code == code

theorem ofCode?_code (status : Status) : ofCode? status.code = some status := by
  cases status <;> rfl

inductive DecodeError where
  | length (expected found : Nat)
  | unknown (code : UInt16)
  deriving DecidableEq, Repr

def ofBytes : Bytes → Except DecodeError Status
  | [high, low] =>
    let code := high.toUInt16 <<< 8 ||| low.toUInt16
    match ofCode? code with
    | some status => .ok status
    | none => .error (.unknown code)
  | bytes => .error (.length 2 bytes.length)

theorem ofBytes_toBytes (status : Status) : ofBytes status.toBytes = .ok status := by
  cases status <;> rfl

end Status

end ClearSign
