import NetRanges.Error
import NetRanges.Json.Basic

/-!
# Records in JSON

A record with named fields is read from an object or from an array. In an object the
fields may stand in any order, may be missing and may be joined by fields of other names. In
an array they stand in the order of the record; the last ones may be missing, and there may
be no further elements.
-/

namespace NetRanges.Json

/-- Why a JSON value is refused. -/
inductive Refusal where
  /-- The value does not have the right form. -/
  | form
  /-- The value has the right form, but what it describes is refused. -/
  | content (e : Error)

/-- The result of a check as the result of reading. -/
def checked {α : Type} : Except Error α → Except Refusal α
  | .ok a => .ok a
  | .error e => .error (.content e)

/-- The values for the fields of a record, missing ones as none. -/
def slots (names : List String) : Json → Except Refusal (List (Option Json))
  | object fields => .ok (names.map fun name => (object fields).field? name)
  | array vs =>
    if vs.length ≤ names.length then
      .ok (vs.map some ++ List.replicate (names.length - vs.length) none)
    else .error .form
  | _ => .error .form

/-- A truth value, or the given one for a missing field. -/
def flag (missing : Bool) : Option Json → Except Refusal Bool
  | none => .ok missing
  | some (bool b) => .ok b
  | some _ => .error .form

end NetRanges.Json
