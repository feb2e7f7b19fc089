import Multiversion.Json.Value
import Multiversion.Log.Payload

/-!
# Transaction records as JSON

The same fields under the same names as in a record payload.  An object may give them in any order,
with unknown members beside them; an array gives all of them in order.
-/

namespace Multiversion
namespace View

open Json (Value)

/-- The JSON value of a field. -/
def fieldJson (v : View) : Field → Value
  | .id => .natural v.id.val.toNat
  | .begin => .natural v.begin.val.toNat
  | .parent => v.parent.elim .null fun id => .natural id.val.toNat
  | .commit => v.commit.elim .null fun ts => .natural ts.val.toNat
  | .globalCommit => v.globalCommit.elim .null fun ts => .natural ts.val.toNat
  | .isolation => .ofString v.isolation.name
  | .additive => .bool v.additive
  | .phase => .ofString v.phase.name
  | .tables => .array (v.tables.map Value.ofString)

/-- The JSON value of a transaction record. -/
def toJson (v : View) : Value :=
  .object (Field.all.map fun f => (some f.name, v.fieldJson f))

/-- Sets a field of a draft from its JSON value. -/
def Draft.setJson (d : Draft) (v : Value) : Field → Option Draft
  | .id => do return { d with id := some ⟨← v.word?⟩ }
  | .begin => do return { d with begin := some ⟨← v.word?⟩ }
  | .parent => do return { d with parent := some ((← v.optional? Value.word?).map TxnId.mk) }
  | .commit => do return { d with commit := some ((← v.optional? Value.word?).map Timestamp.mk) }
  | .globalCommit => do
      return { d with globalCommit := some ((← v.optional? Value.word?).map Timestamp.mk) }
  | .isolation => do return { d with isolation := some (← v.variant? Isolation.ofName?) }
  | .additive => do return { d with additive := some (← v.bool?) }
  | .phase => do return { d with phase := some (← v.variant? Phase.ofName?) }
  | .tables => do return { d with tables := some (← v.list? Value.text?) }

/-- Sets the field that a member names, if there is one; a repeated field is refused. -/
def Draft.setMember (d : Draft) (m : Option String × Value) : Option Draft := do
  match Field.ofName? (← m.1) with
  | none => return d
  | some f => if d.has f then none else d.setJson m.2 f

/-- The transaction record that a JSON value stands for. -/
def ofJson? : Value → Option View
  | .object members => do (← members.foldlM Draft.setMember {}).finish
  | .array items =>
      if items.length = Field.all.length then do
        let d ← (Field.all.zip items).foldlM (fun d (f, v) => d.setJson v f) ({} : Draft)
        d.finish
      else
        none
  | _ => none

end View
end Multiversion
