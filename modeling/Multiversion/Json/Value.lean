/-!
# JSON values

What settings and transaction records are read from and written as.  Numbers are told apart only as
far as they matter: plain digits are a natural number, every other number is just a number.  A text
keeps whether its escapes name characters, since a text that nobody looks at may hold anything.
-/

namespace Multiversion
namespace Json

/-- A JSON value. -/
inductive Value where
  | null
  | bool (b : Bool)
  -- A number written with digits alone.
  | natural (n : Nat)
  | number
  -- A text; none if an escape names half of a surrogate pair.
  | text (content : Option String)
  | array (items : List Value)
  | object (members : List (Option String × Value))
  deriving Repr, Inhabited

namespace Value

/-- A text value. -/
def ofString (s : String) : Value := text (some s)

/-- A natural number below a bound. -/
def below? (bound : Nat) : Value → Option Nat
  | natural n => if n < bound then some n else none
  | _ => none

/-- An unsigned 64-bit integer. -/
def word? (v : Value) : Option UInt64 := (v.below? 18446744073709551616).map UInt64.ofNat

/-- A truth value. -/
def bool? : Value → Option Bool
  | bool b => some b
  | _ => none

/-- A text. -/
def text? : Value → Option String
  | text content => content
  | _ => none

/-- A value that may be null. -/
def optional? {α : Type} (read : Value → Option α) : Value → Option (Option α)
  | null => some none
  | v => (read v).map some

/-- A sequence of values of one type. -/
def list? {α : Type} (read : Value → Option α) : Value → Option (List α)
  | array items => items.mapM read
  | _ => none

/-- A variant: its name, or an object that gives the name a null value. -/
def variant? {α : Type} (ofName? : String → Option α) : Value → Option α
  | text (some s) => ofName? s
  | object [(some s, null)] => ofName? s
  | _ => none

end Value
end Json
end Multiversion
