import NetRanges.Cover.Blocks
import NetRanges.Loose.Contents
import NetRanges.RangeSet
import NetRanges.Record.Reader

/-!
# Sessions

A session works on a pool of ranges, a matcher compiled from an earlier pool and bytes
written from an earlier pool. Each step gives a reply and changes one of the three, or asks
the matcher. A step that fails leaves the session as it was, and the run goes on from there.
-/

namespace NetRanges

/-- The state of a session. -/
structure Session where
  /-- The ranges collected so far. -/
  pool : List Range := []
  /-- The matcher compiled last. -/
  matcher : Compiled := .ofRanges []
  /-- The bytes written last. -/
  bytes : Bytes := []

namespace Session

/-- A step of a session. -/
inductive Step where
  /-- Add the range that a text writes to the pool. -/
  | add (t : Text)
  /-- Add what a free text contains to the pool. -/
  | extract (t : Text)
  /-- Sort the pool and drop its repetitions. -/
  | sort
  /-- Compile the pool. -/
  | compile (options : Options)
  /-- Compile the ranges of the matcher again. -/
  | recompile (options : Options)
  /-- Replace the pool by the joined ranges of the matcher. -/
  | merge
  /-- Replace the pool by its blocks. -/
  | collapse
  /-- Write the pool as records. -/
  | encode
  | patch (place : Nat) (byte : UInt8)
  /-- Drop all but the first bytes. -/
  | cut (length : Nat)
  /-- Replace the pool by the records that the bytes hold. -/
  | decode
  /-- Ask the matcher about one address. -/
  | ask (a : Address) (foreign : Bool)
  /-- Ask the matcher about several addresses. -/
  | askAny (as : List Address) (foreign : Bool)
  | clear

/-- What a step replies. -/
inductive Reply where
  | nothing
  | range (r : Range)
  | set (s : RangeSet)
  | compiled (m : Compiled)
  /-- The new matcher, and whether it equals the one before. -/
  | recompiled (same : Bool) (m : Compiled)
  | blocks (bs : List Block)
  | bytes (bs : Bytes)
  | count (n : Nat)
  | verdict (found : Bool)

/-- The reply to a step and the session after it. -/
def step (s : Session) : Step → Except Error (Reply × Session)
  | .add t => do
    let r ← Range.ofText t
    .ok (.range r, { s with pool := s.pool ++ [r] })
  | .extract t =>
    let found := (Loose.contentsOf t).toRangeSet
    .ok (.set found, { s with pool := s.pool ++ found.ranges })
  | .sort =>
    let set := RangeSet.ofRanges s.pool
    .ok (.set set, { s with pool := set.ranges })
  | .compile options =>
    let m := Compiled.ofRanges s.pool options
    .ok (.compiled m, { s with matcher := m })
  | .recompile options =>
    let m := Compiled.ofRanges s.matcher.ranges options
    .ok (.recompiled (m = s.matcher) m, { s with matcher := m })
  | .merge => .ok (.nothing, { s with pool := s.matcher.ranges })
  | .collapse =>
    let bs := Block.covering s.pool
    .ok (.blocks bs, { s with pool := bs.map Block.range })
  | .encode => written s (Range.records s.pool)
  | .patch place byte => written s (s.bytes.set place byte)
  | .cut length => written s (s.bytes.take length)
  | .decode => do
    let rs ← Record.decodeAll s.bytes
    .ok (.count rs.length, { s with pool := rs })
  | .ask a foreign => .ok (.verdict (contains s.matcher a foreign), s)
  | .askAny as foreign => .ok (.verdict (containsAny s.matcher as foreign), s)
  | .clear => .ok (.nothing, { s with pool := [] })
where
  /-- The session with other bytes. -/
  written (s : Session) (bytes : Bytes) : Except Error (Reply × Session) :=
    .ok (.bytes bytes, { s with bytes })

/-- The answer to a step, with the session after it: the same one if the step fails. -/
def turn (s : Session) (x : Step) : Except Error Reply × Session :=
  match s.step x with
  | .ok (reply, next) => (.ok reply, next)
  | .error e => (.error e, s)

/-- The answers to steps one after the other, each with the session after it. -/
def run (s : Session) : List Step → List (Except Error Reply × Session)
  | [] => []
  | x :: xs =>
    let (answer, next) := s.turn x
    (answer, next) :: next.run xs

end Session

end NetRanges
