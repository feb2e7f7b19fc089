import Multiversion.Bytes
import Multiversion.Json.Value

/-!
# Reports

The JSON value under which a value of the library is shown to people and tools.  Options are null or
their content, lists are arrays, pairs are arrays of two, and byte strings are hexadecimal texts.
-/

namespace Multiversion

open Json (Value)

/-- Types whose values can be shown as JSON. -/
class Reportable (α : Type) where
  report : α → Value

export Reportable (report)

namespace Json.Value

/-- An object with the given members. -/
def ofMembers (members : List (String × Value)) : Value :=
  object (members.map fun (name, v) => (some name, v))

/-- An object of counters. -/
def ofCounters (counters : List (String × Nat)) : Value :=
  ofMembers (counters.map fun (name, n) => (name, natural n))

end Json.Value

instance : Reportable Value := ⟨id⟩

instance : Reportable Unit := ⟨fun _ => .null⟩

instance : Reportable Bool := ⟨.bool⟩

instance : Reportable Nat := ⟨.natural⟩

instance : Reportable UInt64 := ⟨fun n => .natural n.toNat⟩

instance : Reportable String := ⟨.ofString⟩

instance : Reportable Bytes := ⟨fun bs => .ofString bs.toHex⟩

instance {α : Type} [Reportable α] : Reportable (Option α) := ⟨fun a => a.elim .null report⟩

instance {α : Type} [Reportable α] : Reportable (List α) := ⟨fun as => .array (as.map report)⟩

instance {α β : Type} [Reportable α] [Reportable β] : Reportable (α × β) :=
  ⟨fun (a, b) => .array [report a, report b]⟩

end Multiversion
