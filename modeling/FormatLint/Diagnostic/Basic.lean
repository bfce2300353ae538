import FormatLint.Order
import FormatLint.Source.Position

/-!
Diagnostics: what is wrong, where, and what could be done about it.
-/

namespace FormatLint

inductive Severity where
  | error
  | warning
  deriving DecidableEq

def Severity.name : Severity → Text
  | .error => "error"
  | .warning => "warning"

inductive Problem where
  | nonLiteralFormat
  | invalidDirective
  | excessDirectives
  | excessArguments
  | typeMismatch
  | unclosed
  | unbalancedParentheses
  | missingArguments
  | emptyArgument
  deriving DecidableEq

namespace Problem

def all : List Problem :=
  [.nonLiteralFormat, .invalidDirective, .excessDirectives, .excessArguments, .typeMismatch,
   .unclosed, .unbalancedParentheses, .missingArguments, .emptyArgument]

def name : Problem → Text
  | .nonLiteralFormat => "NonLiteralFormatString"
  | .invalidDirective => "InvalidSpecifier"
  | .excessDirectives => "ExcessSpecifiers"
  | .excessArguments => "ExcessArguments"
  | .typeMismatch => "TypeMismatch"
  | .unclosed => "UnterminatedLiteralOrComment"
  | .unbalancedParentheses => "UnbalancedParentheses"
  | .missingArguments => "MissingArguments"
  | .emptyArgument => "EmptyArgument"

def ofName? (t : Text) : Option Problem := all.find? (·.name = t)

/-- A call that reads nothing it was not given is only worth a warning. -/
def severity : Problem → Severity
  | .excessArguments | .typeMismatch => .warning
  | _ => .error

end Problem

/-- A remark on a span. Primary labels mark the problem itself, others what belongs to it. -/
structure Label where
  span : Span
  message : Text
  primary : Bool
  deriving DecidableEq

structure Diagnostic where
  problem : Problem
  message : Text
  labels : List Label
  help : Option Text
  deriving DecidableEq

namespace Diagnostic

def severity (d : Diagnostic) : Severity := d.problem.severity

def isError (d : Diagnostic) : Bool := d.severity = .error

/-- Where the problem is: at the first primary label, or else at the first label. -/
def primarySpan? (d : Diagnostic) : Option Span :=
  match d.labels.find? (·.primary) with
  | some label => some label.span
  | none => d.labels.head?.map (·.span)

/-- Diagnostics come in the order of their places, those without a place first. -/
def sortKey (d : Diagnostic) : Int × Int :=
  match d.primarySpan? with
  | some span => (span.start.offset, span.stop.offset)
  | none => (-1, -1)

def sort (ds : List Diagnostic) : List Diagnostic := sortByPair sortKey ds

def hasErrors (ds : List Diagnostic) : Bool := ds.any isError

def headline (d : Diagnostic) : Text :=
  d.severity.name ++ "[" ++ d.problem.name ++ "]: " ++ d.message

def summary (d : Diagnostic) : Text :=
  match d.primarySpan? with
  | some span => span.location ++ ": " ++ d.headline
  | none => d.headline

theorem hasErrors_append (before after : List Diagnostic) :
    hasErrors (before ++ after) = (hasErrors before || hasErrors after) := List.any_append

theorem hasErrors_sort (ds : List Diagnostic) : hasErrors (sort ds) = hasErrors ds :=
  (sortByPair_perm sortKey ds).any_eq

end Diagnostic

end FormatLint
