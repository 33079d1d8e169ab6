import ClearSign.Device
import ClearSign.Fault
import ClearSign.Json.Token

/-!
This module contains the scanner that turns a JSON text into its tokens in one pass, one byte at a
time. It keeps no stack: the innermost container is the last token that is still open.
-/

namespace ClearSign.Json

namespace Byte

def isBlank (c : UInt8) : Bool :=
  c == 32 || c == 9 || c == 13 || c == 10

def quote : UInt8 := 34
def backslash : UInt8 := 92
def comma : UInt8 := 44
def colon : UInt8 := 58
def openBrace : UInt8 := 123
def closeBrace : UInt8 := 125
def openBracket : UInt8 := 91
def closeBracket : UInt8 := 93

def isEscapable (c : UInt8) : Bool :=
  (ascii "\"\\/bfrnt").contains c

def codePoint : UInt8 := 117

def isHexDigit (c : UInt8) : Bool :=
  (48 ≤ c && c ≤ 57) || (65 ≤ c && c ≤ 70) || (97 ≤ c && c ≤ 102)

def startsPrimitive (c : UInt8) : Bool :=
  c == 45 || (48 ≤ c && c ≤ 57) || c == 116 || c == 102 || c == 110

def endsPrimitive (c : UInt8) : Bool :=
  isBlank c || c == comma || c == colon || c == closeBracket || c == closeBrace || c == quote ||
    c == openBracket || c == openBrace

def isPrintable (c : UInt8) : Bool :=
  32 ≤ c && c ≤ 126

end Byte

inductive Expect where
  | firstValue
  | value
  | firstKey
  | key
  | colon
  | separator
  deriving DecidableEq, Repr

inductive Mode where
  | between
  | string (start : Nat)
  | escape (start : Nat)
  -- `left` more hexadecimal digits are due behind this one.
  | codePoint (start left : Nat)
  | primitive (start : Nat)
  deriving DecidableEq, Repr

structure Scanner where
  pos : Nat := 0
  mode : Mode := .between
  expect : Expect := .value
  depth : Nat := 0
  rootDone : Bool := false
  -- The newest token is the first one.
  tokens : List Token := []
  deriving DecidableEq, Repr

namespace Scanner

def expectsValue (s : Scanner) : Bool :=
  s.expect == .value || s.expect == .firstValue

def push (s : Scanner) (token : Token) : Except Fault Scanner :=
  if s.tokens.length < Limit.tokens then .ok { s with tokens := token :: s.tokens }
  else .error .tooManyTokens

def innermost? (s : Scanner) : Option Token :=
  s.tokens.find? Token.isOpen

def closeInnermost (stop : Nat) : List Token → List Token
  | [] => []
  | token :: tokens =>
    if token.isOpen then token.close stop :: tokens else token :: closeInnermost stop tokens

def openContainer (s : Scanner) (kind : Token.Kind) (expect : Expect) : Except Fault Scanner :=
  if !s.expectsValue then .error .badCharacters
  else if s.depth + 1 > Limit.depth then .error .nestedTooDeep
  else do
    let s ← s.push (.opened kind s.pos)
    return { s with depth := s.depth + 1, expect }

def closeContainer (s : Scanner) (kind : Token.Kind) (first : Expect) : Except Fault Scanner :=
  -- It may be closed right after a value in it, or while nothing is in it yet.
  if s.expect != .separator && s.expect != first then .error .badCharacters
  else match s.innermost? with
    | none => .error .badCharacters
    | some container =>
      if container.kind != kind then .error .badCharacters
      else .ok
        { s with
          tokens := closeInnermost (s.pos + 1) s.tokens
          depth := s.depth - 1
          expect := .separator
          rootDone := s.depth - 1 == 0 }

def separate (s : Scanner) : Except Fault Scanner :=
  if s.expect != .separator then .error .badCharacters
  else match s.innermost? with
    | none => .error .badCharacters
    | some container =>
      .ok { s with expect := if container.kind == .object then .key else .value }

def closeString (s : Scanner) (start : Nat) : Except Fault Scanner := do
  let expect ← match s.expect with
    | .value | .firstValue => pure Expect.separator
    | .key | .firstKey => pure Expect.colon
    | .colon | .separator => throw .badCharacters
  let s ← s.push (.closed .string start s.pos)
  return { s with mode := .between, expect, rootDone := s.depth == 0 }

def closePrimitive (s : Scanner) (start : Nat) : Except Fault Scanner := do
  let s ← s.push (.closed .primitive start s.pos)
  return { s with mode := .between, expect := .separator, rootDone := s.depth == 0 }

def between (s : Scanner) (c : UInt8) : Except Fault Scanner :=
  if Byte.isBlank c then .ok s
  else if s.rootDone then .error .badCharacters
  else if c == Byte.openBrace then s.openContainer .object .firstKey
  else if c == Byte.openBracket then s.openContainer .array .firstValue
  else if c == Byte.closeBrace then s.closeContainer .object .firstKey
  else if c == Byte.closeBracket then s.closeContainer .array .firstValue
  else if c == Byte.quote then .ok { s with mode := .string (s.pos + 1) }
  else if c == Byte.colon then
    if s.expect == .colon then .ok { s with expect := .value } else .error .badCharacters
  else if c == Byte.comma then s.separate
  else if Byte.startsPrimitive c then
    if s.expectsValue then .ok { s with mode := .primitive s.pos } else .error .badCharacters
  else .error .badCharacters

def take (s : Scanner) (c : UInt8) : Except Fault Scanner :=
  match s.mode with
  | .between => s.between c
  | .string start =>
    if c == Byte.quote then s.closeString start
    else if c == Byte.backslash then .ok { s with mode := .escape start }
    else .ok s
  | .escape start =>
    if c == Byte.codePoint then .ok { s with mode := .codePoint start 3 }
    else if Byte.isEscapable c then .ok { s with mode := .string start }
    else .error .badCharacters
  | .codePoint start left =>
    if Byte.isHexDigit c then
      match left with
      | 0 => .ok { s with mode := .string start }
      | left + 1 => .ok { s with mode := .codePoint start left }
    else .error .badCharacters
  | .primitive start =>
    if Byte.endsPrimitive c then do
      let s ← s.closePrimitive start
      s.between c
    else if Byte.isPrintable c then .ok s
    else .error .badCharacters

def step (s : Scanner) (c : UInt8) : Except Fault Scanner := do
  let s ← s.take c
  return { s with pos := s.pos + 1 }

def finish (s : Scanner) : Except Fault (List Token) := do
  let s ← match s.mode with
    | .between => pure s
    | .primitive start => s.closePrimitive start
    | .string _ | .escape _ | .codePoint _ _ => throw .incompleteJson
  if s.tokens.isEmpty then throw .noTokens
  if s.depth != 0 then throw .incompleteJson
  return s.tokens.reverse

end Scanner

/--
Turn a JSON text into its tokens. The text is one value, surrounded by optional blanks; the first
token is that value.
-/
def tokenize (text : Bytes) : Except Fault (List Token) :=
  if text.length ≥ Limit.jsonLength then .error .valueOutOfRange
  else do
    let s ← text.foldlM Scanner.step {}
    s.finish

end ClearSign.Json
