import FormatLint.Text.Basic

/-!
Sample programs: C files with calls of printers that have nothing wrong with them, among comments
and literals that only look like calls.
-/

namespace FormatLint.Corpus

/-- A directive, a type that its argument may be cast to, and expressions that fit it. -/
structure Specimen where
  directive : Text
  cType : Text
  expressions : List Text

/-- Literal text of a format. -/
structure Filler where
  plain : Text
  newline : Bool
  percent : Bool
  quotation : Bool

/-- A directive of a format behind literal text, with its argument. -/
structure Item where
  filler : Filler
  specimen : Specimen
  expression : Text
  isCast : Bool

/-- A printer and arguments for its fixed parameters. -/
structure Target where
  name : Text
  fixed : List Text

structure SampleCall where
  target : Target
  items : List Item
  filler : Filler
  separator : Text

inductive Statement where
  | call (call : SampleCall)
  /-- A call in a line comment. -/
  | lineComment (name : Text)
  /-- A call in a block comment before a statement. -/
  | blockComment (name : Text)
  /-- A call in a literal. -/
  | literal (name : Text)

structure SampleFunction where
  name : Text
  body : List Statement

structure Program where
  hasBanner : Bool
  /-- A printer is used as a value. -/
  hasPointer : Bool
  functions : List SampleFunction

def Filler.text (f : Filler) : Text :=
  f.plain ++ (if f.newline then Text.ofString "\\n" else []) ++
    (if f.percent then Text.ofString "100%%" else []) ++
    (if f.quotation then Text.ofString "\\\"quoted\\\"" else [])

def Item.formatText (i : Item) : Text := i.filler.text ++ i.specimen.directive

def Item.argumentText (i : Item) : Text :=
  if i.isCast then "(" ++ i.specimen.cType ++ ") (" ++ i.expression ++ ")" else i.expression

namespace SampleCall

def formatText (c : SampleCall) : Text := c.items.flatMap Item.formatText ++ c.filler.text

def arguments (c : SampleCall) : List Text :=
  c.target.fixed ++ ["\"" ++ c.formatText ++ "\""] ++ c.items.map Item.argumentText

def text (c : SampleCall) : Text :=
  c.target.name ++ "(" ++ Text.joinWith c.separator c.arguments ++ ");"

end SampleCall

def Statement.text : Statement → Text
  | .call c => c.text
  | .lineComment name => "// printf(\"%s %d\", " ++ name ++ ");"
  | .blockComment name => "/* snprintf(buf, 1, \"%d\"); */ " ++ name ++ "++;"
  | .literal name => "const char *" ++ name ++ " = \"printf(\\\"%s\\\", x)\";"

def SampleFunction.text (f : SampleFunction) : Text :=
  Text.ofLines
    (["int " ++ f.name ++ "(int count, char *name) \x7b", Text.ofString "    char buf[256];"] ++
      f.body.map (fun statement => Text.ofString "    " ++ statement.text) ++
      [Text.ofString "    return 0;", Text.ofString "\x7d"])

def Program.text (p : Program) : Text :=
  Text.ofLines
    ([Text.ofString "#include <stdio.h>", []] ++
      (if p.hasBanner then [Text.ofString "/* generated\n * test case\n */"] else []) ++
      (if p.hasPointer then [Text.ofString "void *fn_ptr = printf;"] else []) ++
      [[]] ++ p.functions.flatMap fun f => [f.text, []])

end FormatLint.Corpus
