import NetRanges.RangeSet

/-!
# The command line

The first argument is a list of ranges, each further argument a query. For every query one
line goes to the output: the address as the library writes it and whether the ranges hold
it, or the query itself if it is no address. What the ranges are, and what is wrong with
arguments, goes to the error output.
-/

namespace NetRanges.CommandLine

/-- What a run writes and how it ends. -/
structure Report where
  ok : Bool
  output : Text
  errors : Text
deriving DecidableEq

namespace Report

/-- The exit status: zero for success, one for failure. -/
def status (r : Report) : UInt32 :=
  if r.ok then 0 else 1

/-- A failure with one line on the error output. -/
def failure (line : Text) : Report :=
  ⟨false, [], line ++ ['\n']⟩

end Report

/-- How the program is called. -/
def usage : Text :=
  "usage: iprange-check <range[,range...]> <ip> [ip...]".toList

/-- What is known about a query. -/
inductive Verdict where
  | address (a : Address) (held : Bool)
  | invalid
deriving DecidableEq

/-- Looks up the address that a query writes. -/
def verdict (s : RangeSet) (query : Text) : Verdict :=
  match Address.ofText? (Text.trim query) with
  | some a => .address a (contains s a false)
  | none => .invalid

/-- The output line of a query. -/
def outputLine (query : Text) : Verdict → Text
  | .address a held => a.text ++ ['\t'] ++ (if held then "in" else "out").toList ++ ['\n']
  | .invalid => query ++ "\tinvalid\n".toList

/-- What the error output says about a query. -/
def warning (query : Text) : Verdict → Text
  | .address _ _ => []
  | .invalid => "Not an IP address: ".toList ++ Error.quoted query ++ ['\n']

/-- What the error output says about the ranges. -/
def summary (s : RangeSet) : Text :=
  "Ranges: ".toList ++ s.text ++ "\nMerged: ".toList ++ Numeral.write 10 s.joined.length ++
    ['\n']

/-- The answers to queries about a set. -/
def answers (s : RangeSet) (queries : List Text) : Report where
  ok := true
  output := queries.flatMap fun q => outputLine q (verdict s q)
  errors := summary s ++ queries.flatMap fun q => warning q (verdict s q)

/-- What the program does with its arguments. -/
def run : List Text → Report
  | [] => .failure usage
  | ranges :: queries =>
    match RangeSet.ofText ranges with
    | .error e => .failure e.message
    | .ok s => answers s queries

end NetRanges.CommandLine
