import FormatLint.Proofs.Token.Chain

/-!
How the tokens of a file lie in its text. `Token.Laid` puts each token behind a gap at the offsets of
its span; `Token.laid_of_tokenize` says that the tokens of a file lie so in its whole text.
-/

namespace FormatLint.Token

/-- The text that tokens cover, each with the gap in front of it. -/
def textOf (gap : Token → Text) (tokens : List Token) : Text :=
  tokens.flatMap fun t => gap t ++ t.lexeme

@[simp] theorem textOf_nil (gap : Token → Text) : textOf gap [] = [] := rfl

theorem textOf_cons (gap : Token → Text) (t : Token) (later : List Token) :
    textOf gap (t :: later) = gap t ++ (t.lexeme ++ textOf gap later) := by
  simp [textOf]

theorem textOf_append (gap : Token → Text) (before after : List Token) :
    textOf gap (before ++ after) = textOf gap before ++ textOf gap after := by
  simp [textOf]

/-- The tokens lie one behind the other from an offset on, in a text that goes on with `rest`. -/
inductive Laid (gap : Token → Text) : Nat → List Token → Text → Prop
  | nil {o : Nat} {rest : Text} : Laid gap o [] rest
  | cons {o : Nat} {t : Token} {later : List Token} {rest : Text}
      (blank : ∀ g ∈ gap t, Lexeme.isGap g = true)
      (begins : ∀ g ∈ t.lexeme.head?, Lexeme.isGap g = false)
      (start : t.span.start.offset = o + (gap t).length)
      (stop : t.span.stop.offset = t.span.start.offset + t.lexeme.length)
      (form : Head.Form t.kind t.lexeme (textOf gap later ++ rest))
      (next : Laid gap t.span.stop.offset later rest) : Laid gap o (t :: later) rest

theorem laid_append {gap : Token → Text} {o : Nat} {before after : List Token} {rest : Text} :
    Laid gap o (before ++ after) rest ↔ Laid gap o before (textOf gap after ++ rest) ∧
      Laid gap (o + (textOf gap before).length) after rest := by
  induction before generalizing o with
  | nil => exact ⟨fun laid => ⟨.nil, laid⟩, fun laid => laid.2⟩
  | cons t later ih =>
      have offset (start : t.span.start.offset = o + (gap t).length)
          (stop : t.span.stop.offset = t.span.start.offset + t.lexeme.length) :
          o + (textOf gap (t :: later)).length =
            t.span.stop.offset + (textOf gap later).length := by
        rw [textOf_cons]
        simp only [List.length_append]
        omega
      rw [List.cons_append]
      constructor
      · intro laid
        cases laid with
        | cons blank begins start stop form next =>
            obtain ⟨front, back⟩ := ih.1 next
            rw [textOf_append, List.append_assoc] at form
            rw [offset start stop]
            exact ⟨.cons blank begins start stop form front, back⟩
      · rintro ⟨front, back⟩
        cases front with
        | cons blank begins start stop form next =>
            rw [offset start stop] at back
            refine .cons blank begins start stop ?_ (ih.2 ⟨next, back⟩)
            rw [textOf_append, List.append_assoc]
            exact form

theorem Laid.start_ge {gap : Token → Text} {o : Nat} {tokens : List Token} {rest : Text}
    (laid : Laid gap o tokens rest) :
    ∀ t ∈ tokens, o ≤ t.span.start.offset ∧ t.span.start.offset < t.span.stop.offset := by
  induction laid with
  | nil => simp
  | cons _ _ start stop form _ ih =>
      have positive := List.length_pos_iff.2 (Lexeme.form_text_ne_nil form)
      intro other member
      rcases List.mem_cons.1 member with rfl | member
      · omega
      · have bounds := ih other member
        omega

theorem Laid.pairwise {gap : Token → Text} {o : Nat} {tokens : List Token} {rest : Text}
    (laid : Laid gap o tokens rest) :
    tokens.Pairwise fun first second => first.span.stop.offset ≤ second.span.start.offset := by
  induction laid with
  | nil => exact .nil
  | cons _ _ _ _ _ next ih => exact .cons (fun other member => (next.start_ge other member).1) ih

/-- The tokens stand one behind the other, and none of them is empty. -/
structure Ordered (tokens : List Token) : Prop where
  nonempty : ∀ t ∈ tokens, t.span.start.offset < t.span.stop.offset
  pairwise : tokens.Pairwise fun first second => first.span.stop.offset ≤ second.span.start.offset

theorem Ordered.sublist {chosen tokens : List Token} (ordered : Ordered tokens)
    (sublist : chosen.Sublist tokens) : Ordered chosen :=
  ⟨fun t member => ordered.nonempty t (sublist.subset member), ordered.pairwise.sublist sublist⟩

theorem Laid.ordered {gap : Token → Text} {o : Nat} {tokens : List Token} {rest : Text}
    (laid : Laid gap o tokens rest) : Ordered tokens :=
  ⟨fun t member => (laid.start_ge t member).2, laid.pairwise⟩

theorem Ordered.nodup {tokens : List Token} (ordered : Ordered tokens) : tokens.Nodup := by
  refine ordered.pairwise.imp_of_mem ?_
  rintro first second member _ order rfl
  have positive := ordered.nonempty first member
  omega

theorem Laid.kind_ne_eof {gap : Token → Text} {o : Nat} {tokens : List Token} {rest : Text}
    (laid : Laid gap o tokens rest) : ∀ t ∈ tokens, t.kind ≠ .eof := by
  induction laid with
  | nil => simp
  | cons _ _ _ _ form _ ih =>
      intro other member
      rcases List.mem_cons.1 member with rfl | member
      · exact form.kind_ne_eof
      · exact ih other member

theorem Laid.congr {gap : Token → Text} {o : Nat} {tokens : List Token} {rest : Text}
    (laid : Laid gap o tokens rest) (other : Token → Text) (same : ∀ t ∈ tokens, gap t = other t) :
    Laid other o tokens rest ∧ textOf other tokens = textOf gap tokens := by
  induction laid with
  | nil => exact ⟨.nil, rfl⟩
  | cons blank begins start stop form _ ih =>
      obtain ⟨next, text⟩ := ih fun t member => same t (List.mem_cons_of_mem _ member)
      have here := same _ List.mem_cons_self
      rw [here] at blank start
      rw [← text] at form
      exact ⟨.cons blank begins start stop form next, by rw [textOf_cons, textOf_cons, text, here]⟩

/-- Lexemes that form a chain lie where they are placed. The gap of what comes behind them is free
to choose. -/
theorem exists_laid (file : Text) (p : Position) {lexemes : List Lexeme} {rest : Text}
    (chain : Lexeme.Chain lexemes rest) (blanks : Text) :
    ∃ gap, Laid gap p.offset (place file p lexemes) rest ∧
      textOf gap (place file p lexemes) = Lexeme.flatten lexemes ∧
      ∀ t, p.offset + (Lexeme.flatten lexemes).length ≤ t.span.start.offset → gap t = blanks := by
  induction chain generalizing p with
  | nil => exact ⟨fun _ => blanks, .nil, rfl, fun _ _ => rfl⟩
  | @cons l later rest blank starts form _ ih =>
      obtain ⟨gap, laid, text, behind⟩ := ih ((p.after l.blanks).after l.text)
      have positive := List.length_pos_iff.2 (Lexeme.form_text_ne_nil form)
      have first : (p.after l.blanks).offset = p.offset + l.blanks.length :=
        Position.after_offset _ _
      have second : ((p.after l.blanks).after l.text).offset =
          (p.after l.blanks).offset + l.text.length := Position.after_offset _ _
      have here : ∀ t : Token, ((p.after l.blanks).after l.text).offset ≤ t.span.start.offset →
          (if t.span.start = p.after l.blanks then l.blanks else gap t) = gap t := by
        intro t after
        rw [if_neg]
        rintro same
        rw [same] at after
        omega
      obtain ⟨next, same⟩ := laid.congr
        (fun t => if t.span.start = p.after l.blanks then l.blanks else gap t)
        fun t member => (here t (laid.start_ge t member).1).symm
      refine ⟨fun t => if t.span.start = p.after l.blanks then l.blanks else gap t, ?_, ?_, ?_⟩
      · refine .cons (by simpa using blank) starts (by simpa using first) second ?_ next
        rw [same, text]
        exact form
      · rw [place, textOf_cons, same, text, Lexeme.flatten_cons]
        simp
      · intro t after
        rw [Lexeme.flatten_cons, List.length_append, List.length_append] at after
        exact (here t (by omega)).trans (behind t (by omega))

/-- The tokens of a file lie in its text, and nothing but a gap comes behind them. -/
theorem laid_of_tokenize {file text : Text} {tokens : List Token}
    (read : tokenize file text = .ok tokens) :
    ∃ gap lexical eof, tokens = lexical ++ [eof] ∧ eof.kind = .eof ∧ eof.lexeme = [] ∧
      text = textOf gap tokens ∧ Laid gap 0 lexical (gap eof) ∧
      ∀ g ∈ gap eof, Lexeme.isGap g = true := by
  unfold tokenize at read
  split at read
  · rename_i lexemes cut
    cases read
    obtain ⟨chain, blanks, rfl, rfl, chained, blank⟩ := Lexeme.ofText_eq_ok_iff.1 cut
    obtain ⟨gap, laid, text, behind⟩ := exists_laid file .first chained blanks
    generalize ended : Position.first.after (Lexeme.flatten chain) = p
    have offset := Position.after_offset Position.first (Lexeme.flatten chain)
    rw [ended] at offset
    have last : gap ⟨.eof, [], ⟨file, p.after blanks, p.after blanks⟩⟩ = blanks :=
      behind _ (by rw [Position.after_offset]; omega)
    refine ⟨gap, place file .first chain, ⟨.eof, [], ⟨file, p.after blanks, p.after blanks⟩⟩,
      ?_, rfl, rfl, ?_, ?_, ?_⟩
    · rw [place_append, ended]
      rfl
    · rw [place_append, textOf_append, text, ended]
      change _ = Lexeme.flatten chain ++ (gap _ ++ [] ++ [])
      rw [List.append_nil, List.append_nil]
      exact congrArg (Lexeme.flatten chain ++ ·) last.symm
    · rw [last]
      exact laid
    · rw [last]
      exact blank
  · cases read

theorem nodup_of_tokenize {file text : Text} {tokens : List Token}
    (read : tokenize file text = .ok tokens) : tokens.Nodup := by
  obtain ⟨gap, lexical, eof, rfl, ends, _, _, laid, _⟩ := laid_of_tokenize read
  refine List.nodup_append.2 ⟨laid.ordered.nodup, by simp, ?_⟩
  rintro t member other last rfl
  rw [List.mem_singleton.1 last] at member
  exact laid.kind_ne_eof eof member ends

end FormatLint.Token
