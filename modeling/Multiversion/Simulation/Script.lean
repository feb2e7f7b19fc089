/-!
# Scripts

Answers laid down in advance: for every key a queue, from which each question about the key takes the
next answer.
-/

namespace Multiversion

/-- Queues of answers by key. -/
structure Script (κ α : Type) where
  queues : List (κ × List α) := []
  deriving DecidableEq, Repr

namespace Script

variable {κ α : Type} [DecidableEq κ]

/-- Takes the next answer for a key from a list of queues. -/
def takeFrom (key : κ) : List (κ × List α) → Option α × List (κ × List α)
  | [] => (none, [])
  | (k, answers) :: rest =>
      if k = key then
        match answers with
        | [] => (none, (k, []) :: rest)
        | next :: later => (some next, (k, later) :: rest)
      else
        let (found, rest) := takeFrom key rest
        (found, (k, answers) :: rest)

/-- Takes the next answer for a key, if there is one left. -/
def take (s : Script κ α) (key : κ) : Option α × Script κ α :=
  let (found, queues) := takeFrom key s.queues
  (found, { queues })

end Script

end Multiversion
