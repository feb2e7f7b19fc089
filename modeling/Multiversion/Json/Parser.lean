import Multiversion.Json.Value

/-!
# Reading JSON text

The strict grammar: no comments, no trailing commas, no leading zeros, nothing after the value but
blanks.  Every step works on the list of characters that are left; `parse?` bounds the depth of the
grammar by the length of the text.
-/

namespace Multiversion
namespace Json
namespace Parser

/-- Whether a character may stand between tokens. -/
def isBlank (c : Char) : Bool := c = ' ' || c = '\n' || c = '\t' || c = '\r'

/-- The text without its leading blanks. -/
def dropBlanks (cs : List Char) : List Char := cs.dropWhile isBlank

/-- The value of a hexadecimal digit. -/
def hexValue? (c : Char) : Option Nat :=
  if '0' ≤ c ∧ c ≤ '9' then some (c.toNat - 48)
  else if 'a' ≤ c ∧ c ≤ 'f' then some (c.toNat - 87)
  else if 'A' ≤ c ∧ c ≤ 'F' then some (c.toNat - 55)
  else none

/-- One piece of a text: a character, or a 16-bit unit named by an escape. -/
inductive Piece where
  | char (c : Char)
  | unit (n : Nat)

/-- The character that a letter after a backslash stands for. -/
def escaped? (c : Char) : Option Char :=
  if c = '"' ∨ c = '\\' ∨ c = '/' then some c
  else if c = 'b' then some (Char.ofNat 8)
  else if c = 'f' then some (Char.ofNat 12)
  else if c = 'n' then some '\n'
  else if c = 'r' then some '\r'
  else if c = 't' then some '\t'
  else none

/-- The unit that four hexadecimal digits name. -/
def unit? (a b c d : Char) : Option Nat := do
  let a ← hexValue? a
  let b ← hexValue? b
  let c ← hexValue? c
  let d ← hexValue? d
  return ((a * 16 + b) * 16 + c) * 16 + d

/-- The pieces of a text up to its closing quote, and what follows the quote. -/
def pieces : List Char → Option (List Piece × List Char)
  | [] => none
  | '"' :: rest => some ([], rest)
  | '\\' :: 'u' :: a :: b :: c :: d :: rest => do
      let n ← unit? a b c d
      let (others, rest) ← pieces rest
      return (.unit n :: others, rest)
  | '\\' :: c :: rest => do
      let c ← escaped? c
      let (others, rest) ← pieces rest
      return (.char c :: others, rest)
  | c :: rest =>
      if c.toNat < 32 then none
      else do
        let (others, rest) ← pieces rest
        return (.char c :: others, rest)

/-- The characters that pieces stand for; none if a unit is half of a surrogate pair. -/
def characters : List Piece → Option (List Char)
  | [] => some []
  | .char c :: rest => (characters rest).map (c :: ·)
  | .unit high :: .unit low :: rest =>
      if 0xD800 ≤ high ∧ high < 0xDC00 then
        if 0xDC00 ≤ low ∧ low < 0xE000 then
          (characters rest).map
            (Char.ofNat (0x10000 + (high - 0xD800) * 1024 + (low - 0xDC00)) :: ·)
        else none
      else if 0xDC00 ≤ high ∧ high < 0xE000 then none
      else (characters (.unit low :: rest)).map (Char.ofNat high :: ·)
  | .unit n :: rest =>
      if 0xD800 ≤ n ∧ n < 0xE000 then none else (characters rest).map (Char.ofNat n :: ·)

/-- Reads a text after its opening quote. -/
def text (cs : List Char) : Option (Option String × List Char) := do
  let (found, rest) ← pieces cs
  return ((characters found).map String.ofList, rest)

/-- Takes at least one digit. -/
def digits (cs : List Char) : Option (List Char × List Char) :=
  match cs.takeWhile Char.isDigit with
  | [] => none
  | ds => some (ds, cs.dropWhile Char.isDigit)

/-- The number that decimal digits stand for. -/
def ofDigits (ds : List Char) : Nat := ds.foldl (fun n c => 10 * n + (c.toNat - 48)) 0

/-- Takes the fraction of a number, if there is one. -/
def fraction : List Char → Option (Bool × List Char)
  | '.' :: rest => (digits rest).map fun (_, rest) => (true, rest)
  | cs => some (false, cs)

/-- Takes the sign of an exponent, if there is one. -/
def dropSign : List Char → List Char
  | '+' :: rest => rest
  | '-' :: rest => rest
  | cs => cs

/-- Takes the exponent of a number, if there is one. -/
def exponent : List Char → Option (Bool × List Char)
  | c :: rest =>
      if c = 'e' ∨ c = 'E' then (digits (dropSign rest)).map fun (_, rest) => (true, rest)
      else some (false, c :: rest)
  | [] => some (false, [])

/-- Reads a number without its sign; a whole part of several digits does not start with zero. -/
def unsigned (cs : List Char) : Option (Value × List Char) := do
  let (whole, rest) ← digits cs
  if whole.length > 1 && whole.head? = some '0' then none
  let (hasFraction, rest) ← fraction rest
  let (hasExponent, rest) ← exponent rest
  return (if hasFraction || hasExponent then .number else .natural (ofDigits whole), rest)

/-- Reads a number. -/
def number : List Char → Option (Value × List Char)
  | '-' :: rest => (unsigned rest).map fun (_, rest) => (.number, rest)
  | cs => unsigned cs

/-- Takes a fixed word. -/
def word (w : List Char) (v : Value) (cs : List Char) : Option (Value × List Char) :=
  if cs.take w.length = w then some (v, cs.drop w.length) else none

/-- Reads the rest of a sequence after its first value, by a reader of values. -/
def moreItems (value : List Char → Option (Value × List Char)) :
    (fuel : Nat) → List Char → Option (List Value × List Char)
  | 0, _ => none
  | fuel + 1, cs =>
      match dropBlanks cs with
      | ']' :: rest => some ([], rest)
      | ',' :: rest => do
          let (v, rest) ← value (dropBlanks rest)
          let (others, rest) ← moreItems value fuel rest
          return (v :: others, rest)
      | _ => none

/-- Reads a name with its value, by a reader of values. -/
def member (value : List Char → Option (Value × List Char)) (cs : List Char) :
    Option ((Option String × Value) × List Char) :=
  match dropBlanks cs with
  | '"' :: rest => do
      let (name, rest) ← text rest
      match dropBlanks rest with
      | ':' :: rest => do
          let (v, rest) ← value (dropBlanks rest)
          return ((name, v), rest)
      | _ => none
  | _ => none

/-- Reads the rest of an object after its first member, by a reader of values. -/
def moreMembers (value : List Char → Option (Value × List Char)) :
    (fuel : Nat) → List Char → Option (List (Option String × Value) × List Char)
  | 0, _ => none
  | fuel + 1, cs =>
      match dropBlanks cs with
      | '\x7d' :: rest => some ([], rest)
      | ',' :: rest => do
          let (m, rest) ← member value rest
          let (others, rest) ← moreMembers value fuel rest
          return (m :: others, rest)
      | _ => none

/-- Reads a sequence after its opening bracket, by a reader of values. -/
def array (value : List Char → Option (Value × List Char)) (cs : List Char) :
    Option (Value × List Char) :=
  match dropBlanks cs with
  | ']' :: rest => some (.array [], rest)
  | cs => do
      let (v, rest) ← value cs
      let (others, rest) ← moreItems value rest.length rest
      return (.array (v :: others), rest)

/-- Reads an object after its opening brace, by a reader of values. -/
def object (value : List Char → Option (Value × List Char)) (cs : List Char) :
    Option (Value × List Char) :=
  match dropBlanks cs with
  | '\x7d' :: rest => some (.object [], rest)
  | cs => do
      let (m, rest) ← member value cs
      let (others, rest) ← moreMembers value rest.length rest
      return (.object (m :: others), rest)

/-- Reads a value that is nested at most `depth` deep. -/
def value : (depth : Nat) → List Char → Option (Value × List Char)
  | 0, _ => none
  | depth + 1, cs =>
      match cs with
      | [] => none
      | c :: rest =>
          if c = '"' then (text rest).map fun (content, rest) => (.text content, rest)
          else if c = '[' then array (value depth) rest
          else if c = '\x7b' then object (value depth) rest
          else if c = 'n' then word "null".toList .null cs
          else if c = 't' then word "true".toList (.bool true) cs
          else if c = 'f' then word "false".toList (.bool false) cs
          else number cs

/-- The value that a text stands for. -/
def parse? (s : String) : Option Value :=
  let cs := s.toList
  match value (cs.length + 1) (dropBlanks cs) with
  | some (v, rest) => if (dropBlanks rest).isEmpty then some v else none
  | none => none

end Parser
end Json
end Multiversion
