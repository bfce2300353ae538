import FormatLint.Call.Mention
import FormatLint.Revision.SafeCall
import FormatLint.Revision.Typecast

/-!
The analysis of one source text, and its two revisions.
-/

namespace FormatLint

/-- What is known about a source text. If a literal or comment in it is never closed, nothing but
that is known. -/
structure Analysis where
  source : Source
  tokens : List Token
  mentions : List Mention
  verdicts : List Verdict
  diagnostics : List Diagnostic
  fault : Option LexFault

/-- The analysis of a source text for the printers of a table. -/
def Source.analyze (source : Source) (table : PrinterTable) : Analysis :=
  match Token.tokenize source.name source.content with
  | .error fault => ⟨source, [], [], [], [.unclosed fault], some fault⟩
  | .ok tokens =>
    let mentions := Mention.ofTokens table tokens
    let verdicts := (Mention.calls mentions).map (·.check source)
    let diagnostics := Mention.diagnostics mentions ++ verdicts.flatMap (·.diagnostics)
    ⟨source, tokens, mentions, verdicts, Diagnostic.sort diagnostics, none⟩

namespace Analysis

/-- The source text could not be cut into tokens. -/
def isFatal (a : Analysis) : Bool := a.fault.isSome

def hasErrors (a : Analysis) : Bool := Diagnostic.hasErrors a.diagnostics

def errors (a : Analysis) : List Diagnostic := a.diagnostics.filter (·.isError)

def warnings (a : Analysis) : List Diagnostic := a.diagnostics.filter (!·.isError)

/-- The source text with casts on all arguments. -/
def typecast (a : Analysis) : Except Overlap Text :=
  Edit.applyAll a.source.content (a.verdicts.flatMap (·.castEdits))

/-- The source text with safe calls in place of those that can be turned into them. -/
def optimize (a : Analysis) : Except Overlap Text :=
  Edit.applyAll a.source.content (a.verdicts.flatMap fun c => c.safeEdits?.getD [])

theorem isFatal_iff (source : Source) (table : PrinterTable) :
    (source.analyze table).isFatal = true ↔
      ∃ fault, Token.tokenize source.name source.content = .error fault := by
  unfold Source.analyze
  split <;> simp_all [isFatal]

theorem analyze_source (source : Source) (table : PrinterTable) :
    (source.analyze table).source = source := by
  unfold Source.analyze
  split <;> rfl

/-- Without a token list there are no calls, so neither revision changes anything. -/
theorem verdicts_eq_nil_of_isFatal {source : Source} {table : PrinterTable}
    (fatal : (source.analyze table).isFatal = true) : (source.analyze table).verdicts = [] := by
  obtain ⟨fault, failed⟩ := (isFatal_iff source table).1 fatal
  simp [Source.analyze, failed]

/-- What is known of a source text that can be cut into tokens. -/
theorem analyze_eq (source : Source) {table : PrinterTable} {tokens : List Token}
    (read : Token.tokenize source.name source.content = .ok tokens) :
    source.analyze table = ⟨source, tokens, Mention.ofTokens table tokens,
      (Mention.calls (Mention.ofTokens table tokens)).map (·.check source),
      Diagnostic.sort (Mention.diagnostics (Mention.ofTokens table tokens) ++
        ((Mention.calls (Mention.ofTokens table tokens)).map (·.check source)).flatMap
          (·.diagnostics)), none⟩ := by
  unfold Source.analyze
  rw [read]

end Analysis

end FormatLint
