import FormatLint.Proofs.Call.Bare
import FormatLint.Proofs.Cast.Operand
import FormatLint.Analysis

/-!
The analysis moves along with the places of the tokens. If the tokens that are no comments stand at
other places, then `Mention.scan_relocate` finds the same mentions at those places, and
`Call.check_relocated` says the same about the calls, with every label at its new place.
-/

namespace FormatLint

namespace Position

theorem line_le_step (p : Position) (g : Glyph) : p.line ≤ (p.step g).line := by
  unfold step
  split
  · exact Nat.le_succ _
  · exact Nat.le_refl _

theorem line_le_after (p : Position) (t : Text) : p.line ≤ (p.after t).line := by
  induction t generalizing p with
  | nil => exact Nat.le_refl _
  | cons g rest ih => exact (p.line_le_step g).trans (ih (p.step g))

end Position

/-- Gives every place a new one, and every file a new name. -/
structure Relocation where
  file : Text → Text
  place : Position → Position

variable {r : Relocation}

def Span.relocate (r : Relocation) (s : Span) : Span :=
  ⟨r.file s.file, r.place s.start, r.place s.stop⟩

namespace Token

def relocate (r : Relocation) (t : Token) : Token := { t with span := t.span.relocate r }

@[simp] theorem relocate_kind (r : Relocation) (t : Token) : (t.relocate r).kind = t.kind := rfl

@[simp] theorem relocate_lexeme (r : Relocation) (t : Token) :
    (t.relocate r).lexeme = t.lexeme := rfl

@[simp] theorem relocate_span (r : Relocation) (t : Token) :
    (t.relocate r).span = t.span.relocate r := rfl

@[simp] theorem relocate_isComment (r : Relocation) (t : Token) :
    (t.relocate r).isComment = t.isComment := rfl

@[simp] theorem relocate_isPunct (r : Relocation) (t : Token) (spellings : List Text) :
    (t.relocate r).isPunct spellings = t.isPunct spellings := rfl

theorem trimComments_relocate (tokens : List Token) :
    trimComments (tokens.map (relocate r)) = (trimComments tokens).map (relocate r) := by
  have same : isComment ∘ relocate r = isComment := rfl
  rw [trimComments, trimComments, List.dropWhile_map, same, ← List.map_reverse,
    List.dropWhile_map, same, ← List.map_reverse]

end Token

namespace Slot

def relocate (r : Relocation) (s : Slot) : Slot := ⟨s.tokens.map (Token.relocate r), s.stop.relocate r⟩

theorem consFirst_relocate (t : Token) (slots : List Slot) :
    consFirst (t.relocate r) (slots.map (relocate r)) = (consFirst t slots).map (relocate r) := by
  cases slots <;> rfl

theorem cut_relocate (d : Nat) (tokens : List Token) :
    cut d (tokens.map (Token.relocate r)) = (cut d tokens).map (List.map (relocate r)) := by
  induction tokens generalizing d with
  | nil => rfl
  | cons t rest ih =>
      have ends : endsStatement (t.relocate r) = endsStatement t := rfl
      have depth : depthAfter d (t.relocate r) = depthAfter d t := rfl
      rw [List.map_cons, cut, cut, ends, Token.relocate_kind, depth]
      split
      · rfl
      · split
        · rfl
        · split
          · rw [ih, Option.map_map, Option.map_map]
            rfl
          · rw [ih, Option.map_map, Option.map_map]
            exact congrArg (Option.map · _) (funext fun slots => consFirst_relocate t slots)

theorem trimmed_relocate (s : Slot) :
    (s.relocate r).trimmed = s.trimmed.map (Token.relocate r) :=
  Token.trimComments_relocate s.tokens

theorem areBare_relocate (slots : List Slot) : areBare (slots.map (relocate r)) = areBare slots := by
  match slots with
  | [] => rfl
  | [s] => simp only [List.map_cons, List.map_nil, areBare, trimmed_relocate, List.map_eq_nil_iff]
  | _ :: _ :: _ => rfl

theorem firstEmpty?_relocate (before : Token) (slots : List Slot) :
    firstEmpty? (before.relocate r) (slots.map (relocate r)) =
      (firstEmpty? before slots).map fun gap => (gap.1.relocate r, gap.2.relocate r) := by
  induction slots generalizing before with
  | nil => rfl
  | cons s later ih =>
      rw [List.map_cons, firstEmpty?, firstEmpty?, trimmed_relocate]
      simp only [List.map_eq_nil_iff]
      split
      · rfl
      · exact ih s.stop

end Slot

def Argument.relocate (r : Relocation) (a : Argument) : Argument where
  tokens := a.tokens.map (Token.relocate r)
  nonempty := by simpa using a.nonempty

def Call.relocate (r : Relocation) (c : Call) : Call where
  printer := c.printer
  name := c.name.relocate r
  opening := c.opening.relocate r
  closing := c.closing.relocate r
  arguments := c.arguments.map (Argument.relocate r)

def Label.relocate (r : Relocation) (l : Label) : Label := { l with span := l.span.relocate r }

def Diagnostic.relocate (r : Relocation) (d : Diagnostic) : Diagnostic :=
  { d with labels := d.labels.map (Label.relocate r) }

namespace Slot

theorem ofTokens?_relocate (tokens : List Token) :
    Argument.ofTokens? (tokens.map (Token.relocate r)) =
      (Argument.ofTokens? tokens).map (Argument.relocate r) := by
  cases tokens <;> rfl

theorem arguments_relocate (slots : List Slot) :
    ((slots.map (relocate r)).filterMap fun s => Argument.ofTokens? s.trimmed) =
      (slots.filterMap fun s => Argument.ofTokens? s.trimmed).map (Argument.relocate r) := by
  rw [List.filterMap_map, List.map_filterMap]
  refine List.filterMap_congr fun s _ => ?_
  rw [Function.comp_apply, trimmed_relocate, ofTokens?_relocate]

end Slot

namespace Mention

def relocate (r : Relocation) : Mention → Mention
  | .value name => .value (name.relocate r)
  | .declared name => .declared (name.relocate r)
  | .call c => .call (c.relocate r)
  | .malformed d => .malformed (d.relocate r)

theorem readCall_relocate (printer : Printer) (name opening : Token) (rest : List Token) :
    readCall printer (name.relocate r) (opening.relocate r) (rest.map (Token.relocate r)) =
      (readCall printer name opening rest).relocate r := by
  unfold readCall
  rw [Slot.cut_relocate]
  cases Slot.cut 0 rest with
  | none => rfl
  | some slots =>
      have closing : ((slots.map (Slot.relocate r)).getLast?.map (·.stop)).getD (opening.relocate r) =
          ((slots.getLast?.map (·.stop)).getD opening).relocate r := by
        rw [List.getLast?_map]
        cases slots.getLast? <;> rfl
      simp only [Option.map_some, Slot.areBare_relocate, Slot.firstEmpty?_relocate, closing,
        Slot.arguments_relocate]
      split
      · rfl
      · cases Slot.firstEmpty? opening slots <;> rfl

theorem classify_relocate (printer : Printer) (previous : Option Token) (name : Token)
    (rest : List Token) :
    classify printer (previous.map (Token.relocate r)) (name.relocate r)
        (rest.map (Token.relocate r)) = (classify printer previous name rest).relocate r := by
  have sameDeclares : (previous.map (Token.relocate r)).any declares = previous.any declares := by
    cases previous <;> rfl
  have same : Token.isComment ∘ Token.relocate r = Token.isComment := rfl
  rw [classify, classify, List.dropWhile_map, same, sameDeclares]
  cases rest.dropWhile Token.isComment with
  | nil => rfl
  | cons next later =>
      by_cases opens : next.kind = .openParen
      · by_cases isDeclared : previous.any declares = true
        · simp [opens, isDeclared, relocate]
        · simp [opens, isDeclared, readCall_relocate]
      · simp [opens, relocate]

/-- Tokens at other places make mentions at other places. -/
theorem scan_relocate (table : PrinterTable) (previous : Option Token) (tokens : List Token) :
    scan table (previous.map (Token.relocate r)) (tokens.map (Token.relocate r)) =
      (scan table previous tokens).map (relocate r) := by
  induction tokens generalizing previous with
  | nil => rfl
  | cons t rest ih =>
      have later := ih (if t.isComment then previous else some t)
      rw [apply_ite (Option.map (Token.relocate r)), Option.map_some] at later
      rw [List.map_cons, scan, scan, Token.relocate_kind, Token.relocate_lexeme,
        Token.relocate_isComment, later]
      split
      · split
        · rw [classify_relocate, List.map_cons]
        · rfl
      · rfl

theorem scan_relocated (table : PrinterTable) (previous : Option Token) {tokens tokens' : List Token}
    (like : Token.code tokens' = (Token.code tokens).map (Token.relocate r)) :
    (scan table (previous.map (Token.relocate r)) tokens').map bare =
      (scan table previous tokens).map (relocate r ∘ bare) := by
  rw [← scan_code, like, scan_relocate, scan_code, List.map_map]

end Mention

namespace Cast

def relocate (r : Relocation) (c : Cast) : Cast := { c with span := c.span.relocate r }

theorem isPostfix_relocate (stack : List Text) (tokens : List Token) :
    isPostfix stack (tokens.map (Token.relocate r)) = isPostfix stack tokens := by
  fun_induction isPostfix stack tokens with
  | case1 => rw [List.map_nil, isPostfix]
  | case2 => rw [List.map_nil, isPostfix]
  | case3 _ _ _ _ _ opens ih =>
      rw [List.map_cons, isPostfix_inside, Token.relocate_lexeme, opens]
      exact ih
  | case4 _ _ _ opens ih =>
      rw [List.map_cons, isPostfix_inside, Token.relocate_lexeme, opens, if_pos rfl]
      exact ih
  | case5 _ _ _ _ opens awaits ih =>
      rw [List.map_cons, isPostfix_inside, Token.relocate_lexeme, opens, if_neg awaits]
      exact ih
  | case6 _ _ opens ih =>
      rw [List.map_cons, isPostfix_behind, Token.relocate_kind, if_pos opens, ih]
  | case7 _ _ paren bracket ih =>
      rw [List.map_cons, isPostfix_behind, Token.relocate_kind, if_neg paren,
        Token.relocate_isPunct, if_pos bracket, ih]
  | case8 _ _ paren bracket increment ih =>
      simp [isPostfix_behind, paren, bracket, increment, ih]
  | case9 _ paren bracket increment access =>
      simp [isPostfix_behind, paren, bracket, increment, access]
  | case10 _ paren bracket increment access _ _ ih =>
      simp [isPostfix_behind, paren, bracket, increment, access, ih]
      rfl
  | case11 _ _ paren bracket increment access =>
      simp [isPostfix_behind, paren, bracket, increment, access]

theorem isPrimary_relocate (tokens : List Token) :
    isPrimary (tokens.map (Token.relocate r)) = isPrimary tokens := by
  cases tokens with
  | nil => rfl
  | cons t rest =>
      simp only [List.map_cons, isPrimary, Token.relocate_kind, List.all_map, List.isEmpty_map,
        isPostfix_relocate]
      rfl

theorem ofTokens?_relocate (opening : Token) (tokens : List Token) :
    ofTokens? (opening.relocate r) (tokens.map (Token.relocate r)) =
      (ofTokens? opening tokens).map (relocate r) := by
  have words : isTypeWord ∘ Token.relocate r = isTypeWord := rfl
  have lexemes : (fun t : Token => t.lexeme) ∘ Token.relocate r = fun t => t.lexeme := rfl
  have first (front : List Token) : (front.map (Token.relocate r)).head?.any (·.kind = .ident) =
      front.head?.any (·.kind = .ident) := by
    cases front <;> rfl
  have operators (operand : List Token) :
      isOperand (operand.map (Token.relocate r)) = isOperand operand := by
    have same : (fun t : Token => t.isPunct unaryOperators) ∘ Token.relocate r =
        fun t => t.isPunct unaryOperators := rfl
    rw [isOperand, isOperand, List.dropWhile_map, same, isPrimary_relocate]
  simp only [ofTokens?, List.takeWhile_map, List.dropWhile_map, words, List.map_map, lexemes, first]
  cases tokens.dropWhile isTypeWord with
  | nil => rfl
  | cons closing operand =>
      simp only [List.map_cons, Token.relocate_kind, operators]
      rw [apply_ite (Option.map (relocate r))]
      rfl

end Cast

namespace Argument

/-- The argument consists of the same code at other places. -/
structure Relocated (r : Relocation) (a a' : Argument) : Prop where
  span : a'.span = a.span.relocate r
  code : a'.code = a.code.map (Token.relocate r)

variable {a a' : Argument}

theorem Relocated.cast? (like : Relocated r a a') : a'.cast? = a.cast?.map (Cast.relocate r) := by
  rw [Argument.cast?, Argument.cast?, like.code]
  cases a.code with
  | nil => rfl
  | cons opening rest =>
      simp only [List.map_cons, Token.relocate_kind, Cast.ofTokens?_relocate]
      split <;> rfl

theorem span_relocate (a : Argument) : (a.relocate r).span = a.span.relocate r := by
  simp only [span, relocate, List.head_map, List.getLast_map]
  rfl

theorem relocate_code (a : Argument) : (a.relocate r).code = a.code.map (Token.relocate r) := by
  rw [code, code, relocate, Token.code, Token.code, List.filter_map]
  rfl

end Argument

namespace Located

def relocate (r : Relocation) (g : Located) : Located := { g with position := r.place g.position }

/-- The place behind the glyph moves along with its own. -/
def Steady (r : Relocation) (g : Located) : Prop :=
  r.place (g.position.step g.glyph) = (r.place g.position).step g.glyph

theorem text_relocate (glyphs : List Located) : text (glyphs.map (relocate r)) = text glyphs := by
  rw [text, text, List.map_map]
  rfl

theorem span_relocate {glyphs : List Located} (steady : ∀ g ∈ glyphs, g.Steady r) (whole : Span) :
    span (whole.relocate r) (glyphs.map (relocate r)) = (span whole glyphs).relocate r := by
  unfold span
  rw [List.head?_map, List.getLast?_map]
  cases glyphs.head? with
  | none => rfl
  | some first =>
      cases ends : glyphs.getLast? with
      | none => rfl
      | some last =>
          have behind : last.Steady r := steady last (List.mem_of_getLast? ends)
          simp only [Option.map_some, relocate, Span.relocate, behind.symm]

end Located

namespace Token

/-- All places in the token move along with the first one. -/
def Steady (r : Relocation) (t : Token) : Prop :=
  ∀ front, front <+: t.lexeme → r.place (t.span.start.after front) = (r.place t.span.start).after front

end Token

namespace Located

theorem ofText_relocate {p : Position} {t : Text}
    (steady : ∀ front, front <+: t → r.place (p.after front) = (r.place p).after front) :
    ofText (r.place p) t = (ofText p t).map (relocate r) ∧ ∀ g ∈ ofText p t, g.Steady r := by
  induction t generalizing p with
  | nil => exact ⟨rfl, by simp [ofText]⟩
  | cons g rest ih =>
      have next : r.place (p.step g) = (r.place p).step g := steady [g] (by simp)
      obtain ⟨equal, later⟩ := ih (p := p.step g) fun front begins => by
        rw [next]
        exact steady (g :: front) (List.cons_prefix_cons.2 ⟨rfl, begins⟩)
      rw [next] at equal
      refine ⟨by rw [ofText, ofText, equal, List.map_cons]; rfl, ?_⟩
      rw [ofText]
      exact List.forall_mem_cons.2 ⟨next, later⟩

end Located

namespace Token

variable {t : Token}

theorem literalBody_relocate (steady : t.Steady r) :
    (t.relocate r).literalBody = t.literalBody.map (Located.relocate r) := by
  have same : (fun g : Located => decide (g.glyph ≠ .char '"')) ∘ Located.relocate r =
      fun g => decide (g.glyph ≠ .char '"') := rfl
  have places := (Located.ofText_relocate steady).1
  unfold literalBody
  change (((Located.ofText (r.place t.span.start) t.lexeme).dropWhile _).tail).dropLast = _
  rw [places, List.dropWhile_map, same, ← List.map_tail, ← List.map_dropLast]

theorem literalBody_steady (steady : t.Steady r) : ∀ g ∈ t.literalBody, g.Steady r := by
  intro g member
  refine (Located.ofText_relocate steady).2 g ?_
  exact (List.dropWhile_suffix _).subset (List.mem_of_mem_tail (List.dropLast_subset _ member))

end Token

namespace PlacedPiece

def relocate (r : Relocation) (p : PlacedPiece) : PlacedPiece := { p with span := p.span.relocate r }

theorem place_relocate (whole : Span) (start : Nat) {content : List Located} (pieces : List Piece)
    (steady : ∀ g ∈ content, g.Steady r) :
    place (whole.relocate r) start (content.map (Located.relocate r)) pieces =
      (place whole start content pieces).map (relocate r) := by
  induction pieces generalizing start content with
  | nil => rfl
  | cons piece later ih =>
      have front : ∀ g ∈ content.take piece.source.length, g.Steady r :=
        fun g member => steady g (List.mem_of_mem_take member)
      have back : ∀ g ∈ content.drop piece.source.length, g.Steady r :=
        fun g member => steady g (List.mem_of_mem_drop member)
      rw [place, place, ← List.map_take, ← List.map_drop, Located.span_relocate front,
        ih _ back, List.map_cons]
      rfl

end PlacedPiece

def Demand.relocate (r : Relocation) (d : Demand) : Demand := { d with span := d.span.relocate r }

namespace FormatString

def relocate (r : Relocation) (f : FormatString) : FormatString where
  content := f.content.map (Located.relocate r)
  breaks := f.breaks
  span := f.span.relocate r
  parts := f.parts.map (PlacedPiece.relocate r)

theorem ofArgument?_relocated {a a' : Argument} (like : a.Relocated r a')
    (steady : ∀ t ∈ a.code, t.kind = .string → t.Steady r) :
    ofArgument? a' = (ofArgument? a).map (relocate r) := by
  have literal : a'.isStringLiteral = a.isStringLiteral := by
    rw [Argument.isStringLiteral, Argument.isStringLiteral, like.code, List.all_map]
    rfl
  rw [ofArgument?, ofArgument?, literal]
  split
  · rename_i strings
    have string : ∀ t ∈ a.code, t.Steady r := by
      intro t member
      exact steady t member (by simpa using List.all_eq_true.1 strings t member)
    have bodies : a'.literalBodies = a.literalBodies.map (List.map (Located.relocate r)) := by
      rw [Argument.literalBodies, Argument.literalBodies, like.code, List.map_map, List.map_map]
      exact List.map_congr_left fun t member => Token.literalBody_relocate (string t member)
    have glyphs : ∀ g ∈ a.literalBodies.flatten, g.Steady r := by
      intro g member
      obtain ⟨body, listed, inside⟩ := List.mem_flatten.1 member
      obtain ⟨t, code, rfl⟩ := List.mem_map.1 listed
      exact Token.literalBody_steady (string t code) g inside
    have starts (total : Nat) (bodies : List (List Located)) :
        Argument.bodyStarts total (bodies.map (List.map (Located.relocate r))) =
          Argument.bodyStarts total bodies := by
      induction bodies generalizing total with
      | nil => rfl
      | cons body later ih => rw [List.map_cons, Argument.bodyStarts, Argument.bodyStarts, ih,
          List.length_map]
    have breaks : a'.literalBreaks = a.literalBreaks := by
      rw [Argument.literalBreaks, Argument.literalBreaks, bodies, starts]
    simp only [Option.map_some, relocate, breaks, like.span, bodies, ← List.map_flatten,
      Located.text_relocate, PlacedPiece.place_relocate _ _ _ glyphs]
  · rfl

variable (f : FormatString)

theorem directives_relocate : (f.relocate r).directives =
    f.directives.map fun d => (d.1, d.2.relocate r) := by
  rw [directives, directives, relocate, List.filterMap_map, List.map_filterMap]
  refine List.filterMap_congr fun p _ => ?_
  obtain ⟨piece, start, span⟩ := p
  cases piece <;> rfl

theorem demands_relocate : (f.relocate r).demands = f.demands.map (Demand.relocate r) := by
  rw [demands, demands, directives_relocate, List.flatMap_map, List.map_flatMap]
  refine List.flatMap_congr fun d _ => ?_
  simp only [Demand.ofDirective, List.map_append]
  split <;> split <;> rfl

theorem diagnostics_relocate :
    (f.relocate r).diagnostics = f.diagnostics.map (Diagnostic.relocate r) := by
  rw [diagnostics, diagnostics, directives_relocate, List.filter_map, List.map_map, List.map_map]
  rfl

end FormatString

/-- The diagnostic says the same at other places. The advice may differ, since it quotes the source. -/
structure Diagnostic.Relocated (r : Relocation) (d d' : Diagnostic) : Prop where
  problem : d'.problem = d.problem
  message : d'.message = d.message
  labels : d'.labels = d.labels.map (Label.relocate r)

theorem Diagnostic.relocated_map (ds : List Diagnostic) :
    List.Forall₂ (Relocated r) ds (ds.map (relocate r)) := by
  rw [List.forall₂_map_right_iff, List.forall₂_same]
  exact fun d _ => ⟨rfl, rfl, rfl⟩

/-- The call consists of the same code at other places. -/
structure Call.Relocated (r : Relocation) (c c' : Call) : Prop where
  printer : c'.printer = c.printer
  opening : c'.opening = c.opening.relocate r
  closing : c'.closing = c.closing.relocate r
  arguments : List.Forall₂ (Argument.Relocated r) c.arguments c'.arguments

theorem forall₂_of_map_eq {α β γ : Type} {f : α → γ} {g : β → γ} {first : List α} {second : List β}
    (same : second.map g = first.map f) : List.Forall₂ (fun a b => g b = f a) first second := by
  have equal : List.Forall₂ Eq (second.map g) (first.map f) := by
    rw [same]
    exact List.forall₂_same.2 fun _ _ => rfl
  rw [List.forall₂_map_left_iff, List.forall₂_map_right_iff] at equal
  exact equal.flip

theorem Call.relocated_of_bare {c c' : Call} (trimmed : ∀ a ∈ c.arguments, a.Trimmed)
    (trimmed' : ∀ a ∈ c'.arguments, a.Trimmed) (same : c'.bare = c.bare.relocate r) :
    Relocated r c c' := by
  have arguments : c'.arguments.map Argument.bare =
      (c.arguments.map Argument.bare).map (Argument.relocate r) := congrArg Call.arguments same
  rw [List.map_map] at arguments
  have pairs := (List.forall₂_and_left _ _).2 ⟨trimmed, forall₂_of_map_eq arguments⟩
  have printer : c'.bare.printer = (c.bare.relocate r).printer := by rw [same]
  have opening : c'.bare.opening = (c.bare.relocate r).opening := by rw [same]
  have closing : c'.bare.closing = (c.bare.relocate r).closing := by rw [same]
  refine ⟨printer, opening, closing, ?_⟩
  refine ((List.forall₂_and_left _ _).2 ⟨trimmed', pairs.flip⟩).flip.imp ?_
  rintro a a' ⟨trimmed', trimmed, same⟩
  constructor
  · rw [← trimmed'.bare_span, same, Function.comp_apply, Argument.span_relocate, trimmed.bare_span]
  · rw [← trimmed'.bare_code, same, Function.comp_apply, Argument.relocate_code, trimmed.bare_code]

namespace Mention

variable (table : PrinterTable) (previous : Option Token) {tokens tokens' : List Token}

/-- The calls in tokens whose code is that of other tokens at other places. -/
theorem calls_relocated (like : Token.code tokens' = (Token.code tokens).map (Token.relocate r)) :
    List.Forall₂ (Call.Relocated r) (calls (scan table previous tokens))
      (calls (scan table (previous.map (Token.relocate r)) tokens')) := by
  have found := congrArg calls (scan_relocated table previous like)
  have moved (mentions : List Mention) : calls (mentions.map (relocate r ∘ bare)) =
      (calls mentions).map (Call.relocate r ∘ Call.bare) := by
    rw [calls, calls, List.filterMap_map, List.map_filterMap]
    refine List.filterMap_congr fun m _ => ?_
    cases m <;> rfl
  rw [calls_bare, moved] at found
  have trimmed {previous : Option Token} {tokens : List Token} :
      ∀ c ∈ calls (scan table previous tokens), ∀ a ∈ c.arguments, a.Trimmed := by
    intro c member
    obtain ⟨m, listed, call⟩ := List.mem_filterMap.1 member
    rw [call?_eq_some_iff.1 call] at listed
    exact trimmed_of_scan listed
  have pairs := (List.forall₂_and_left _ _).2 ⟨trimmed, forall₂_of_map_eq found⟩
  refine ((List.forall₂_and_left _ _).2 ⟨trimmed, pairs.flip⟩).flip.imp ?_
  rintro c c' ⟨trimmed', trimmed, same⟩
  exact Call.relocated_of_bare trimmed trimmed' same

theorem diagnostics_relocated
    (like : Token.code tokens' = (Token.code tokens).map (Token.relocate r)) :
    diagnostics (scan table (previous.map (Token.relocate r)) tokens') =
      (diagnostics (scan table previous tokens)).map (Diagnostic.relocate r) := by
  have found := congrArg diagnostics (scan_relocated table previous like)
  have moved (mentions : List Mention) : diagnostics (mentions.map (relocate r ∘ bare)) =
      (diagnostics mentions).map (Diagnostic.relocate r) := by
    rw [diagnostics, diagnostics, List.filterMap_map, List.map_filterMap]
    refine List.filterMap_congr fun m _ => ?_
    cases m <;> rfl
  rwa [diagnostics_bare, moved] at found

end Mention

namespace Call

variable {c c' : Call}

theorem throughAll?_relocate (spans : List Span) :
    throughAll? (spans.map (Span.relocate r)) = (throughAll? spans).map (Span.relocate r) := by
  unfold throughAll?
  rw [List.head?_map, List.getLast?_map]
  cases spans.head? with
  | none => rfl
  | some first => cases spans.getLast? <;> rfl

theorem spans_relocated {arguments arguments' : List Argument}
    (like : List.Forall₂ (Argument.Relocated r) arguments arguments') :
    arguments'.map (·.span) = (arguments.map (·.span)).map (Span.relocate r) := by
  rw [List.map_map]
  exact map_eq_of_forall₂ (fun a a' like => like.span) like

theorem mismatches_relocated {arguments arguments' : List Argument}
    (like : List.Forall₂ (Argument.Relocated r) arguments arguments') (demands : List Demand) :
    (pair (demands.map (Demand.relocate r)) arguments').filterMap Pair.diagnostic? =
      ((pair demands arguments).filterMap Pair.diagnostic?).map (Diagnostic.relocate r) := by
  induction like generalizing demands with
  | nil => rfl
  | @cons a a' arguments arguments' here _ ih =>
      cases demands with
      | nil => rfl
      | cons d demands =>
          have first : Pair.diagnostic? ⟨a', d.relocate r, a'.cast?⟩ =
              (Pair.diagnostic? ⟨a, d, a.cast?⟩).map (Diagnostic.relocate r) := by
            have family : (d.relocate r).family? = d.family? := rfl
            have cType : (d.relocate r).cType? = d.cType? := rfl
            simp only [Pair.diagnostic?, family, cType, here.cast?]
            cases d.family? with
            | none => rfl
            | some expected =>
                cases a.cast? with
                | none => rfl
                | some cast =>
                    have known : (cast.relocate r).family = cast.family := rfl
                    simp only [Option.map_some, known]
                    cases cast.family with
                    | none => rfl
                    | some given =>
                        simp only
                        split <;> rfl
          have later := ih demands
          unfold pair at later ⊢
          rw [List.map_cons, List.zip_cons_cons, List.zip_cons_cons, List.map_cons, List.map_cons,
            List.filterMap_cons, List.filterMap_cons, first, later]
          cases Pair.diagnostic? ⟨a, d, a.cast?⟩ <;> rfl

theorem countDiagnostics_relocated (like : Relocated r c c') (f : FormatString)
    (demands : List Demand) {arguments arguments' : List Argument}
    (given : List.Forall₂ (Argument.Relocated r) arguments arguments') :
    c'.countDiagnostics (f.relocate r) (demands.map (Demand.relocate r)) arguments' =
      (c.countDiagnostics f demands arguments).map (Diagnostic.relocate r) := by
  have unmet (n : Nat) : ((demands.map (Demand.relocate r)).drop n).map (·.span) =
      ((demands.drop n).map (·.span)).map (Span.relocate r) := by
    rw [← List.map_drop, List.map_map, List.map_map]
    rfl
  have extra (n : Nat) := spans_relocated (List.forall₂_drop n given)
  have whole := spans_relocated given
  unfold countDiagnostics
  simp only [← given.length_eq, unmet, extra, whole, throughAll?_relocate, List.length_drop,
    List.length_map, like.closing]
  cases throughAll? ((demands.drop arguments.length).map (·.span)) with
  | some directives =>
      cases throughAll? (arguments.map (·.span)) <;> rfl
  | none => cases throughAll? ((arguments.drop demands.length).map (·.span)) <;> rfl

/-- The same is said about calls that consist of the same code at other places. -/
theorem check_relocated (like : Relocated r c c') (source source' : Source)
    (steady : ∀ a ∈ c.arguments, ∀ t ∈ a.code, t.kind = .string → t.Steady r) :
    List.Forall₂ (Diagnostic.Relocated r) (c.check source).diagnostics
      (c'.check source').diagnostics := by
  have count := like.arguments.length_eq
  have found := forall₂_getElem? like.arguments c.printer.formatIndex
  have trailing := List.forall₂_drop (c.printer.formatIndex + 1) like.arguments
  unfold check
  rw [format?, format?, trailingArguments, trailingArguments, like.printer]
  cases format : c.arguments[c.printer.formatIndex]? with
  | none =>
      rw [format] at found
      generalize c'.arguments[c.printer.formatIndex]? = other at found
      cases found
      refine .cons ⟨rfl, rfl, ?_⟩ .nil
      simp only [Diagnostic.missingArguments, like.opening, like.closing]
      rfl
  | some a =>
      rw [format] at found
      generalize c'.arguments[c.printer.formatIndex]? = other at found
      cases found with
      | some here =>
          have member : a ∈ c.arguments := List.mem_of_getElem? format
          dsimp only
          rw [FormatString.ofArgument?_relocated here (steady a member)]
          cases FormatString.ofArgument? a with
          | none => exact .cons ⟨rfl, rfl, by simp [Diagnostic.nonLiteralFormat, here.span,
              Label.relocate]⟩ .nil
          | some f =>
              simp only [Option.map_some]
              split
              · simp only [FormatString.demands_relocate, FormatString.diagnostics_relocate,
                  mismatches_relocated trailing, countDiagnostics_relocated like f _ trailing,
                  ← List.map_append]
                exact Diagnostic.relocated_map _
              · rw [FormatString.diagnostics_relocate]
                exact Diagnostic.relocated_map _

end Call

end FormatLint
