import NetRanges.Json.Basic
import NetRanges.Loose.Contents

/-!
# Reporting the addresses that match

A report names those of some addresses that the contents of a free text hold. One address
is reported by its bare text, several by a JSON array of their texts in the given order.
Without a match there is no report. Nothing is looked for in a blank text, in contents without
an address or a range, or where there is no address to report.
-/

namespace NetRanges.Loose

/-- The report on the addresses that match: none, one or several. -/
def report : List Address → Option Text
  | [] => none
  | [a] => some a.text
  | as => some (Json.array (as.map fun a => .string a.text)).render

/-- The report on those addresses that the contents of a text hold. -/
def matching (t : Text) (as : List Address) : Option Text :=
  if (Text.trim t).isEmpty || as.isEmpty then none
  else
    let contents := contentsOf t
    if contents.isEmpty then none
    else report (as.filter fun a => contains contents a false)

end NetRanges.Loose
