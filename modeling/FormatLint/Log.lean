import FormatLint.Analysis

/-!
The log of a run: what was found and decided on the way, graded by level.
-/

namespace FormatLint

/-- Levels of log entries, the least important first. -/
inductive Level where
  | debug
  | info
  | warning
  | error
  deriving DecidableEq

namespace Level

def name : Level → Text
  | .debug => "DEBUG"
  | .info => "INFO"
  | .warning => "WARNING"
  | .error => "ERROR"

def rank : Level → Nat
  | .debug => 0
  | .info => 1
  | .warning => 2
  | .error => 3

end Level

/-- An entry, with the part of the tool that made it. -/
structure LogEntry where
  level : Level
  origin : Text
  message : Text
  deriving DecidableEq

def LogEntry.render (e : LogEntry) : Text :=
  e.level.name ++ ": " ++ e.origin ++ ": " ++ e.message ++ "\n"

/-- The entries that are at least as important as the threshold. -/
def LogEntry.atLeast (threshold : Level) (entries : List LogEntry) : List LogEntry :=
  entries.filter fun e => threshold.rank ≤ e.level.rank

namespace Mention

/-- Mentions that are no calls are noted. -/
def log? : Mention → Option LogEntry
  | .value name =>
    some ⟨.debug, "safeprintf.calls",
      name.span.location ++ ": `" ++ name.lexeme ++ "` used as a value, not a call"⟩
  | .declared name =>
    some ⟨.debug, "safeprintf.calls",
      name.span.location ++ ": `" ++ name.lexeme ++ "` is declared or a member, not a call"⟩
  | _ => none

end Mention

namespace Verdict

/-- How many arguments a call demands and has. -/
def log? (v : Verdict) : Option LogEntry :=
  match v.format with
  | some format =>
    if v.call.printer.variadic then
      some ⟨.debug, "safeprintf.matcher",
        v.call.span.location ++ ": " ++ Text.ofNat format.demands.length ++ " specifier(s), " ++
          Text.ofNat v.call.trailingArguments.length ++ " argument(s)"⟩
    else none
  | none => none

/-- Calls that cannot be turned into safe ones are noted. -/
def revisionLog? (v : Verdict) : Option LogEntry :=
  match v.safeEdits? with
  | some _ => none
  | none =>
    some ⟨.debug, "safeprintf.rewrite",
      v.call.span.location ++ ": not optimizable, left unchanged"⟩

end Verdict

namespace Analysis

/-- What the analysis notes on its way. -/
def log (a : Analysis) : List LogEntry :=
  let note (message : Text) : LogEntry :=
    ⟨.debug, "safeprintf.api", a.source.name ++ ": " ++ message⟩
  match a.fault with
  | some fault => [note ("lexing failed: " ++ fault.form.message)]
  | none =>
    a.mentions.filterMap Mention.log? ++ a.verdicts.filterMap Verdict.log? ++
      [note (Text.ofNat a.verdicts.length ++ " call(s), " ++ Text.ofNat a.diagnostics.length ++
        " diagnostic(s)")]

/-- What the revision to safe calls notes. -/
def optimizeLog (a : Analysis) : List LogEntry := a.verdicts.filterMap Verdict.revisionLog?

end Analysis

end FormatLint
