import NetRanges.Proofs.Cuts
import NetRanges.Proofs.WrittenAddresses
import NetRanges.Main
import NetRanges.Session
import NetRanges.Matcher.Scan
import NetRanges.Pattern
import NetRanges.Loose.Report
import NetRanges.Json.Records
import NetRanges.Proofs.Coverage
import NetRanges.Proofs.Gaps
import NetRanges.Proofs.Joining
import NetRanges.Proofs.Cutting
import NetRanges.Proofs.Paths
import NetRanges.Proofs.Tries
import NetRanges.Proofs.Scans
import NetRanges.Proofs.Answers
import NetRanges.Proofs.Canonical
import NetRanges.Proofs.Minimal
import NetRanges.Proofs.Tokens
import NetRanges.Proofs.RecordLists
import NetRanges.Proofs.Changes
import NetRanges.Proofs.Origins
import NetRanges.Proofs.Patterns
import NetRanges.Proofs.Reports
import NetRanges.Proofs.Precedence
import NetRanges.Proofs.BlockSizes
import NetRanges.Proofs.WordCutting
import NetRanges.Proofs.PrefixClasses
import NetRanges.Proofs.RangeSets
import NetRanges.Proofs.BlockTexts
import NetRanges.Proofs.DamagedRecords
import NetRanges.Proofs.JsonForms
import NetRanges.Proofs.Runs
import NetRanges.Proofs.CommandLines
import NetRanges.Proofs.OutputLines
import NetRanges.Proofs.Histories
import NetRanges.Proofs.Sessions
