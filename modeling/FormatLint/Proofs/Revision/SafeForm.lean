import FormatLint.Proofs.Format.Segments
import FormatLint.Proofs.Revision.Eligible
import FormatLint.Proofs.Token.Scan
import Mathlib

/-!
What tokens become when the eligible calls in them are turned into safe ones, and how the words of
safe calls are read. `SafeForm` follows the calls to any depth.
-/

namespace FormatLint

namespace Word

def comma : Word := (.comma, ",")

def openParen : Word := (.openParen, "(")

def closeParen : Word := (.closeParen, ")")

def openBrace : Word := (.punct, "\x7b")

def closeBrace : Word := (.punct, "\x7d")

end Word

/-- The words are literals, one at least, that the segment is read as between quotes. -/
def Quoted (segment : Text) (words : List Word) : Prop :=
  ∃ bodies, bodies ≠ [] ∧ ReadsAs segment bodies ∧
    words = bodies.map fun body => (.string, .char '"' :: (body ++ [.char '"']))

/-- An argument of a safe call: the words that it became, its tag, and the literals behind it. -/
structure SafeArgument where
  argument : Argument
  words : List Word
  tag : Text
  segment : List Word

/-- The tagged argument in braces, and then the literals. -/
def SafeArgument.written (a : SafeArgument) : List Word :=
  [Word.comma, Word.openBrace] ++ a.words ++
    [Word.comma, (.ident, a.tag), Word.closeBrace, Word.comma] ++ a.segment

/-- A call of a safe function: the arguments before the format as they became, then the number of
segments, and in braces the segments and the tagged arguments in turns. -/
def safeWords (printer : Printer) (fixed : List (Argument × List Word)) (first : List Word)
    (trailing : List SafeArgument) : List Word :=
  [(.ident, printer.safeName), Word.openParen] ++ fixed.flatMap (fun a => a.2 ++ [Word.comma]) ++
    [(.other, Text.ofNat (trailing.length + 1)), Word.comma, Word.openBrace] ++ first ++
      trailing.flatMap SafeArgument.written ++ [Word.closeBrace, Word.closeParen]

/-- The arguments of a call, one comma between each two of them. -/
def Call.listWords (c : Call) : List Word :=
  [Word.comma].intercalate (c.arguments.map fun a => a.code.map Token.word)

/-- The words that tokens become when every eligible call in them is turned into a safe one. All
other tokens stay what they are. -/
inductive SafeForm (verdicts : List Verdict) : List Token → List Word → Prop
  | nil : SafeForm verdicts [] []
  | keep {t : Token} {rest : List Token} {words : List Word}
      (other : ∀ v ∈ verdicts, v.call.name = t → ∀ f, ¬ v.IsEligible f)
      (later : SafeForm verdicts rest words) : SafeForm verdicts (t :: rest) (t.word :: words)
  | call {v : Verdict} {f : FormatString} {list rest : List Token} {first words : List Word}
      {fixed : List (Argument × List Word)} {trailing : List SafeArgument}
      (listed : v ∈ verdicts) (eligible : v.IsEligible f)
      (spelled : list.map Token.word = v.call.listWords)
      (before : fixed.map Prod.fst = v.call.fixedArguments)
      (behind : trailing.map (·.argument) = v.call.trailingArguments)
      (fixedForms : ∀ a ∈ fixed, SafeForm verdicts a.1.code a.2)
      (trailingForms : ∀ a ∈ trailing, SafeForm verdicts a.argument.code a.words)
      (tags : trailing.map (some ·.tag) = f.demands.map fun d => d.family?.map Family.tag)
      (segments : List.Forall₂ Quoted f.segments (first :: trailing.map (·.segment)))
      (later : SafeForm verdicts rest words) :
      SafeForm verdicts (v.call.name :: v.call.opening :: (list ++ v.call.closing :: rest))
        (safeWords v.call.printer fixed first trailing ++ words)

end FormatLint
