/-!
This module contains the reader of version files: lines of the form `NAME=VALUE` between blank lines
and comments.
-/

namespace ClearSign

namespace VersionFile

structure Definition where
  name : List Char
  value : Nat
  deriving DecidableEq, Repr

inductive NumberError where
  | empty
  | invalidDigit
  | overflow
  deriving DecidableEq, Repr

inductive Error where
  | noEquals (line : Nat) (text : List Char)
  | badValue (line : Nat) (reason : NumberError)
  | duplicate (name : List Char)
  deriving DecidableEq, Repr

def NumberError.name : NumberError → String
  | .empty => "Empty"
  | .invalidDigit => "InvalidDigit"
  | .overflow => "PosOverflow"

def Error.message? : Error → Option String
  | .noEquals line text =>
    some ("Line #" ++ toString line ++ " is not of the form NAME=VALUE: " ++ String.ofList text)
  | .badValue line reason =>
    some ("Line #" ++ toString line ++ "'s value is not a valid u8; err=ParseIntError " ++
      "\x7b kind: " ++ reason.name ++ " \x7d")
  -- A name that is defined twice stops the build without a report.
  | .duplicate _ => none

def isSpace (c : Char) : Bool :=
  -- what Unicode counts as white space
  let n := c.toNat
  (9 ≤ n && n ≤ 13) || n == 0x20 || n == 0x85 || n == 0xA0 || n == 0x1680 ||
    (0x2000 ≤ n && n ≤ 0x200A) || n == 0x2028 || n == 0x2029 || n == 0x202F || n == 0x205F ||
    n == 0x3000

def trim (text : List Char) : List Char :=
  ((text.dropWhile isSpace).reverse.dropWhile isSpace).reverse

def lines : List Char → List (List Char)
  -- A line end at the very end of the text opens no further line, and the carriage return of a line
  -- end is left to `trim`.
  | [] => []
  | c :: rest =>
    if c = '\n' then [] :: lines rest
    else
      match lines rest with
      | [] => [[c]]
      | line :: others => (c :: line) :: others

def digits (value : Nat) : List Char → Except NumberError Nat
  | [] => .ok value
  | c :: rest =>
    if !c.isDigit then .error .invalidDigit
    else
      let value := 10 * value + (c.toNat - '0'.toNat)
      if value > 255 then .error .overflow else digits value rest

def number : List Char → Except NumberError Nat
  | [] => .error .empty
  | ['+'] => .error .invalidDigit
  | '+' :: rest => digits 0 rest
  | text => digits 0 text

def split? : List Char → Option (List Char × List Char)
  | [] => none
  | c :: rest =>
    if c = '=' then some ([], rest)
    else (split? rest).map fun (name, value) => (c :: name, value)

def isIgnored (line : List Char) : Bool :=
  line.isEmpty || line.head? == some '#'

def readLines (n : Nat) (before : List Definition) :
    List (List Char) → Except Error (List Definition)
  | [] => .ok before
  | line :: rest =>
    let line := trim line
    if isIgnored line then readLines (n + 1) before rest
    else
      match split? line with
      | none => .error (.noEquals n line)
      | some (name, value) =>
        match number (trim value) with
        | .error reason => .error (.badValue n reason)
        | .ok value =>
          let name := trim name
          if before.any (·.name == name) then .error (.duplicate name)
          else readLines (n + 1) (before ++ [{ name, value }]) rest

def read (text : List Char) : Except Error (List Definition) :=
  readLines 1 [] (lines text)

end VersionFile

end ClearSign
