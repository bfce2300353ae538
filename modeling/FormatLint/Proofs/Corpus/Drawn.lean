import FormatLint.Corpus.Generator
import FormatLint.Token.Head
import Mathlib.Data.List.Basic

/-!
What can be drawn. A property that each draw of a program secures holds of the program, whatever the
source of draws is: `Corpus.drawProgram_proper` says that all parts of a drawn program are among those
that it may consist of.
-/

namespace FormatLint

namespace Drawn

variable {σ α β : Type} {P : α → Prop}

/-- What is drawn has the property, from whatever state. -/
def Always (draw : Drawn σ α) (P : α → Prop) : Prop := ∀ state, P (draw.run state).1

theorem always_true (draw : Drawn σ α) : draw.Always fun _ => True := fun _ => trivial

theorem always_pure {a : α} (holds : P a) : (pure a : Drawn σ α).Always P := fun _ => holds

theorem Always.bind {draw : Drawn σ α} {next : α → Drawn σ β} {Q : β → Prop} (first : draw.Always P)
    (later : ∀ a, P a → (next a).Always Q) : (draw >>= next).Always Q :=
  fun state => later _ (first state) _

theorem Always.times {draw : Drawn σ α} (each : draw.Always P) (count : Nat) :
    (times count draw).Always fun drawn => ∀ a ∈ drawn, P a := by
  induction count with
  | zero => exact always_pure (by simp)
  | succ count ih =>
      refine each.bind fun first here => ih.bind fun later rest => always_pure ?_
      exact List.forall_mem_cons.2 ⟨here, rest⟩

theorem always_choose [Draws σ] (items : List α) (nonempty : items ≠ []) :
    (choose items nonempty : Drawn σ α).Always (· ∈ items) :=
  choose_mem items nonempty

end Drawn

variable {σ : Type} [Draws σ]

open Drawn (always_true always_pure always_choose)

/-- The text is spelled like an identifier. -/
structure Head.IsIdentifier (name : Text) : Prop where
  start : name.head?.any isWordStart = true
  parts : ∀ g ∈ name, isWordPart g = true

/-- The name of something that is not in the table of printers. -/
structure PrinterTable.Unlisted (name : Text) : Prop where
  spelled : Head.IsIdentifier name
  unlisted : standard.find? name = none

namespace Corpus

theorem nameStart_isWordStart : ∀ g ∈ nameStart, Head.isWordStart g = true ∧
    Head.isWordPart g = true := by
  decide

theorem namePart_isWordPart : ∀ g ∈ namePart, Head.isWordPart g = true := by decide

theorem find?_underscore (name : Text) : PrinterTable.standard.find? (name ++ [.char '_']) = none := by
  have names : ∀ entry ∈ PrinterTable.standard, entry.1.getLast? ≠ some (.char '_') := by decide
  refine Option.eq_none_iff_forall_ne_some.2 fun printer found => ?_
  obtain ⟨front, back, parts, _⟩ := List.lookup_eq_some_iff.1 found
  have listed : (name ++ [.char '_'], printer) ∈ PrinterTable.standard :=
    List.mem_reverse.1 (by simp [parts])
  exact names _ listed (by simp)

theorem freeName_unlisted {first : Glyph} {later : Text} (starts : first ∈ nameStart)
    (parts : ∀ g ∈ later, g ∈ namePart) : PrinterTable.Unlisted (freeName (first :: later)) := by
  obtain ⟨start, part⟩ := nameStart_isWordStart first starts
  have whole : ∀ g ∈ first :: later, Head.isWordPart g = true :=
    List.forall_mem_cons.2 ⟨part, fun g member => namePart_isWordPart g (parts g member)⟩
  unfold freeName
  split
  · exact ⟨⟨by simpa using start, List.forall_mem_append.2 ⟨whole, by decide⟩⟩,
      find?_underscore _⟩
  · rename_i free
    exact ⟨⟨by simpa using start, whole⟩, by simpa using (not_or.1 free).2⟩

theorem drawName_unlisted : (drawName : Drawn σ Text).Always PrinterTable.Unlisted := by
  refine (always_choose _ _).bind fun first starts => (always_true _).bind fun count _ => ?_
  refine ((always_choose _ _).times count).bind fun later parts => always_pure ?_
  exact freeName_unlisted starts parts

def Filler.Proper (f : Filler) : Prop := ∀ g ∈ f.plain, g ∈ fillerGlyphs

structure Item.Proper (i : Item) : Prop where
  filler : i.filler.Proper
  specimen : i.specimen ∈ specimens
  expression : i.expression ∈ i.specimen.expressions

structure SampleCall.Proper (c : SampleCall) : Prop where
  target : c.target ∈ targets
  items : ∀ i ∈ c.items, i.Proper
  filler : c.filler.Proper
  separator : c.separator ∈ separators

theorem drawFiller_proper : (drawFiller : Drawn σ Filler).Always Filler.Proper := by
  refine (always_true _).bind fun count _ => ?_
  refine ((always_choose _ _).times count).bind fun plain glyphs => ?_
  exact (always_true _).bind fun _ _ => (always_true _).bind fun _ _ => (always_true _).bind
    fun _ _ => always_pure glyphs

theorem specimens_expressions : ∀ s ∈ specimens, s.expressions ≠ [] := by simp [specimens]

theorem drawExpression_mem {s : Specimen} (listed : s ∈ specimens) :
    (drawExpression s : Drawn σ Text).Always (· ∈ s.expressions) := by
  unfold drawExpression
  rw [dif_pos (specimens_expressions s listed)]
  exact always_choose _ _

theorem drawItem_proper : (drawItem : Drawn σ Item).Always Item.Proper := by
  refine (always_choose _ _).bind fun specimen listed => drawFiller_proper.bind fun filler glyphs => ?_
  refine (drawExpression_mem listed).bind fun expression fits => (always_true _).bind fun _ _ => ?_
  exact always_pure ⟨glyphs, listed, fits⟩

theorem drawCall_proper : (drawCall : Drawn σ SampleCall).Always SampleCall.Proper := by
  refine (always_true _).bind fun _ _ => (always_choose _ _).bind fun target listed => ?_
  refine (always_true _).bind fun count _ => (drawItem_proper.times count).bind fun items proper => ?_
  refine drawFiller_proper.bind fun filler glyphs => (always_choose _ _).bind fun separator here => ?_
  exact always_pure ⟨listed, proper, glyphs, here⟩

def Statement.Proper : Statement → Prop
  | .call c => c.Proper
  | .lineComment name | .blockComment name | .literal name => PrinterTable.Unlisted name

structure SampleFunction.Proper (f : SampleFunction) : Prop where
  name : PrinterTable.Unlisted f.name
  body : ∀ s ∈ f.body, s.Proper

def Program.Proper (p : Program) : Prop := ∀ f ∈ p.functions, f.Proper

theorem drawStatement_proper : (drawStatement : Drawn σ Statement).Always Statement.Proper := by
  refine (always_true Drawn.lot).bind fun kind _ => ?_
  split
  · exact drawCall_proper.bind fun _ proper => always_pure proper
  · split
    · exact drawName_unlisted.bind fun _ free => always_pure free
    · split
      · exact drawName_unlisted.bind fun _ free => always_pure free
      · exact drawName_unlisted.bind fun _ free => always_pure free

theorem drawFunction_proper : (drawFunction : Drawn σ SampleFunction).Always SampleFunction.Proper := by
  refine drawName_unlisted.bind fun name free => (always_true _).bind fun count _ => ?_
  exact (drawStatement_proper.times count).bind fun body proper => always_pure ⟨free, proper⟩

/-- All parts of a program are proper, whatever it is drawn from. -/
theorem drawProgram_proper : (drawProgram : Drawn σ Program).Always Program.Proper := by
  refine (always_true _).bind fun hasBanner _ => (always_true _).bind fun hasPointer _ => ?_
  refine (always_true _).bind fun count _ => ?_
  exact (drawFunction_proper.times count).bind fun functions proper => always_pure proper

end Corpus

end FormatLint
