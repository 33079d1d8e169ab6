import ClearSign.Fault
import ClearSign.Json.Token

/-!
This module contains the navigation of a JSON text through its tokens. A value is named by the index
of its token. A lookup answers `none` for a key that is absent, an index out of range and a
container of the wrong kind alike. A lookup that computes with a word stops the program where the
result does not fit into a word.
-/

namespace ClearSign.Json

structure Document where
  source : Bytes
  tokens : List Token
  deriving DecidableEq, Repr

inductive Crash where
  | overflow
  deriving DecidableEq, Repr

def inWord (size m : Nat) : Except Crash Nat :=
  if m < size then .ok m else .error .overflow

theorem inWord_of_lt (h : m < size) : inWord size m = .ok m := if_pos h

theorem inWord_of_le (h : size ≤ m) : inWord size m = .error .overflow := if_neg (Nat.not_lt.2 h)

namespace Document

def empty : Document := ⟨[], []⟩

def root : Nat := 0

def token? (doc : Document) (i : Nat) : Option Token :=
  doc.tokens[i]?

def kind? (doc : Document) (i : Nat) : Option Token.Kind :=
  (doc.token? i).map Token.kind

def isArray (doc : Document) (i : Nat) : Bool :=
  doc.kind? i == some .array

def isObject (doc : Document) (i : Nat) : Bool :=
  doc.kind? i == some .object

def isString (doc : Document) (i : Nat) : Bool :=
  doc.kind? i == some .string

def text (doc : Document) (i : Nat) : Except Fault Bytes :=
  match doc.token? i with
  | none => .error .noData
  | some token =>
    if token.start ≤ token.stop ∧ token.stop ≤ doc.source.length then
      .ok (doc.source.extract token.start token.stop)
    else .error .endOfBuffer

def reads (doc : Document) (i : Nat) (content : Bytes) : Bool :=
  match doc.text i with
  | .ok text => text == content
  | .error _ => false

def isNull (doc : Document) (i : Nat) : Bool :=
  doc.kind? i == some .primitive && doc.reads i (ascii "null")

def isStringOf (doc : Document) (i : Nat) (content : Bytes) : Bool :=
  doc.isString i && doc.reads i content

def siblings (stop : Nat) : (i taken : Nat) → List Token → List Nat
  -- The last token taken ends at `taken`, and what starts in front of that is inside of it.
  | _, _, [] => []
  | i, taken, token :: tokens =>
    if token.start ≥ stop then []
    else if token.start < taken then siblings stop (i + 1) taken tokens
    else i :: siblings stop (i + 1) token.stop tokens

theorem lt_of_mem_siblings {c : Nat} {tokens : List Token} {i : Nat}
    (h : c ∈ siblings stop i taken tokens) : i ≤ c ∧ c < i + tokens.length := by
  induction tokens generalizing i taken with
  | nil => simp [siblings] at h
  | cons token tokens ih =>
    simp only [siblings] at h
    split at h
    · simp at h
    · split at h
      · have := ih h
        simp only [List.length_cons]
        omega
      · simp only [List.mem_cons] at h
        simp only [List.length_cons]
        cases h with
        | inl h => omega
        | inr h =>
          have := ih h
          omega

def children (doc : Document) (i : Nat) : List Nat :=
  match doc.token? i with
  | none => []
  | some token =>
    siblings (if token.isContainer then token.stop else token.start) (i + 1) token.start
      (doc.tokens.drop (i + 1))

theorem lt_of_mem_children {doc : Document} {i c : Nat} (h : c ∈ doc.children i) :
    i < c ∧ c < doc.tokens.length := by
  simp only [children] at h
  split at h
  · simp at h
  · rename_i heq
    have hi : i < doc.tokens.length := by
      simp only [token?] at heq
      exact (List.getElem?_eq_some_iff.1 heq).1
    have := lt_of_mem_siblings h
    simp only [List.length_drop] at this
    omega

def children? (doc : Document) (i : Nat) : Option (List Nat) :=
  (doc.token? i).map fun _ => doc.children i

def pairs : List Nat → List (Nat × Nat)
  | key :: value :: rest => (key, value) :: pairs rest
  -- A key without a value is left out.
  | _ => []

theorem mem_of_mem_pairs {member : Nat × Nat} {is : List Nat} (h : member ∈ pairs is) :
    member.1 ∈ is ∧ member.2 ∈ is := by
  fun_induction pairs is with
  | case1 key value rest ih =>
    simp only [List.mem_cons] at h
    cases h with
    | inl h => simp [h]
    | inr h => simp [ih h]
  | case2 => simp at h

def members (doc : Document) (i : Nat) : List (Nat × Nat) :=
  pairs (doc.children i)

def arrayCount? (doc : Document) (i : Nat) : Option Nat :=
  if doc.isArray i then some (doc.children i).length else none

def arrayElement? (doc : Document) (i n : Nat) : Option Nat :=
  if doc.isArray i then (doc.children i)[n]? else none

def objectCount? (doc : Document) (i : Nat) : Option Nat :=
  if doc.isObject i then some ((doc.children i).length / 2) else none

def objectKey? (doc : Document) (i : Nat) (n : Fin size) : Except Crash (Option Nat) :=
  if doc.isObject i then do
    let place ← inWord size (2 * n)
    return (doc.children i)[place]?
  else .ok none

def objectValue? (doc : Document) (i : Nat) (n : Fin size) : Except Crash (Option Nat) :=
  if doc.isObject i then do
    let place ← inWord size (2 * n + 1)
    return (doc.children i)[place]?
  else .ok none

def field? (doc : Document) (i : Nat) (key : Bytes) : Option Nat :=
  if doc.isObject i then
    ((doc.members i).find? fun member => doc.isStringOf member.1 key).map Prod.snd
  else none

/--
The value of the first member with key `key` at any depth inside of a container. Everything inside
of the value of a member comes before the member itself.
-/
def search? (doc : Document) (key : Bytes) (i : Nat) : Option Nat :=
  match doc.kind? i with
  | some .object =>
    (doc.members i).attach.findSome? fun ⟨(name, value), _⟩ =>
      doc.search? key value <|> if doc.isStringOf name key then some value else none
  | some .array => (doc.children i).attach.findSome? fun ⟨c, _⟩ => doc.search? key c
  | some .string | some .primitive | none => none
termination_by doc.tokens.length - i
decreasing_by
  · rename_i h
    have := lt_of_mem_children (mem_of_mem_pairs h).2
    dsimp only at this
    omega
  · rename_i h
    have := lt_of_mem_children h
    omega

def nestedField? (doc : Document) (i : Nat) (key : Bytes) : Option Nat :=
  if doc.isObject i then doc.search? key i else none

end Document

end ClearSign.Json
