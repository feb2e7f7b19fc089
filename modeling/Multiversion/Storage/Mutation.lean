import Multiversion.Bytes

/-!
# Mutations

What a client asks to be done to one row.
-/

namespace Multiversion

/-- What a mutation does to its row. -/
inductive MutationKind where
  -- Write a row that is expected not to exist.
  | insert
  | update
  | upsert
  | delete
  deriving DecidableEq, Repr, Inhabited

namespace MutationKind

/-- The name of a kind. -/
def name : MutationKind → String
  | insert => "Insert"
  | update => "Update"
  | upsert => "Upsert"
  | delete => "Delete"

/-- The kind of a name. -/
def ofName? (s : String) : Option MutationKind :=
  [insert, update, upsert, delete].find? (·.name = s)

/-- Whether the mutation only ever adds a row. -/
def isInsertLike : MutationKind → Bool
  | insert | upsert => true
  | update | delete => false

end MutationKind

/-- A mutation of one row.  A delete may carry a value: it counts for the size, and is not stored. -/
structure Mutation where
  kind : MutationKind
  key : Bytes
  value : Bytes := []
  deriving DecidableEq, Repr, Inhabited

namespace Mutation

/-- The size that a buffer accounts for the mutation. -/
def heapSize (m : Mutation) : Nat := m.key.length + m.value.length

end Mutation

end Multiversion
