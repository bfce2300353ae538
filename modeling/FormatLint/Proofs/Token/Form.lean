import FormatLint.Token.Head

/-!
The forms of lexemes. `Head.Form` says for each form how a lexeme is spelled and what may follow it;
`Head.read_iff_form` says that reading yields a lexeme exactly if it has one of these forms.
-/

namespace FormatLint.Head

/-- The spellings that take more than the glyph they begin with: openings of comments and long
punctuators. -/
def openings : List Text := "//" :: "/*" :: longPunctuators

/-- A lexeme of the given kind and spelling, with a text that may follow it. -/
inductive Form : TokenKind → Text → Text → Prop
  | lineComment {body rest : Text} (ends : Head.lineComment (body ++ rest) = (body, rest)) :
      Form .comment (.char '/' :: .char '/' :: body) rest
  | blockComment {body rest : Text}
      (closed : Head.blockComment (body ++ rest) = some (body, rest)) :
      Form .comment (.char '/' :: .char '*' :: body) rest
  | literal {quote : Quote} {encoding body rest : Text}
      (encoded : encoding = [] ∨ encoding ∈ quote.encodings)
      (closed : literalBody quote (body ++ quote.mark :: rest) = (body, quote.mark :: rest)) :
      Form quote.kind (encoding ++ quote.mark :: (body ++ [quote.mark])) rest
  | ident {g : Glyph} {name rest : Text} (start : isWordStart g = true)
      (parts : ∀ p ∈ name, isWordPart p = true) (ends : ∀ p ∈ rest.head?, isWordPart p = false)
      (bare : ∀ quote : Quote, rest.head? = some quote.mark → g :: name ∉ quote.encodings) :
      Form .ident (g :: name) rest
  | number {word rest : Text} (counted : number? (word ++ rest) = some (word, rest)) :
      Form .other word rest
  | symbol {g : Glyph} {more rest : Text} {kind : TokenKind} (unquoted : Quote.ofMark? g = none)
      (noWord : isWordStart g = false) (noNumber : number? (g :: more ++ rest) = none)
      (longest : ∀ mark ∈ openings, mark <+: g :: more ++ rest → mark.length ≤ more.length + 1)
      (spelled : kind = .punct ∧ g :: more ∈ longPunctuators ∨ kind = glyphKind g ∧ more = []) :
      Form kind (g :: more) rest

theorem Form.kind_ne_eof {kind : TokenKind} {word rest : Text} (form : Form kind word rest) :
    kind ≠ .eof := by
  cases form with
  | @literal quote _ _ _ _ _ => cases quote <;> simp [Quote.kind]
  | symbol _ _ _ _ spelled =>
      rcases spelled with ⟨rfl, _⟩ | ⟨rfl, _⟩
      · simp
      · unfold glyphKind
        repeat' split
        all_goals simp
  | _ => simp

theorem literal_inversion {quote : Quote} {encoding text word rest : Text} {kind : TokenKind}
    (read : literal quote encoding text = .lexeme kind word rest) :
    ∃ body, kind = quote.kind ∧ word = encoding ++ quote.mark :: (body ++ [quote.mark]) ∧
      text = body ++ quote.mark :: rest ∧ literalBody quote text = (body, quote.mark :: rest) := by
  have whole := literalBody_append quote text
  unfold literal at read
  generalize parts : literalBody quote text = parted at read whole
  obtain ⟨body, tail⟩ := parted
  dsimp only at read whole
  split at read
  · cases read
  · rename_i g later
    split at read
    · rename_i closing
      cases read
      subst closing
      exact ⟨body, rfl, by simp, whole.symm, rfl⟩
    · cases read

theorem isWordPart_of_isWordStart {g : Glyph} (start : isWordStart g = true) :
    isWordPart g = true := by
  cases g <;> simp_all [isWordStart, isWordPart]

theorem word_inversion {g : Glyph} {later spelling rest : Text} {kind : TokenKind}
    (start : isWordStart g = true) (read : word (g :: later) = .lexeme kind spelling rest) :
    Form kind spelling rest := by
  have part := isWordPart_of_isWordStart start
  have name : (g :: later).takeWhile isWordPart = g :: later.takeWhile isWordPart :=
    List.takeWhile_cons_of_pos part
  have back : (g :: later).dropWhile isWordPart = later.dropWhile isWordPart :=
    List.dropWhile_cons_of_pos part
  have parts : ∀ p ∈ later.takeWhile isWordPart, isWordPart p = true :=
    fun p member => List.all_eq_true.1 List.all_takeWhile p member
  have ends : ∀ p ∈ (later.dropWhile isWordPart).head?, isWordPart p = false := by
    intro p first
    have stopped := List.head?_dropWhile_not isWordPart later
    rw [Option.mem_def.1 first] at stopped
    simpa using stopped
  unfold word at read
  rw [name, back] at read
  generalize later.dropWhile isWordPart = tail at read ends
  dsimp only at read
  split at read
  · cases read
    exact .ident start parts ends (by simp)
  · rename_i mark later
    split at read
    · rename_i unquoted
      cases read
      refine .ident start parts ends ?_
      intro quote first
      have marked := Quote.ofMark?_eq_some.2 (Option.some.inj first)
      rw [unquoted] at marked
      cases marked
    · rename_i quote marked
      split at read
      · rename_i encodes
        obtain ⟨body, rfl, rfl, rfl, closed⟩ := literal_inversion read
        exact .literal (.inr encodes) closed
      · rename_i encodes
        cases read
        refine .ident start parts ends ?_
        intro other first
        have same : mark = other.mark := Option.some.inj first
        have equal := Quote.ofMark?_eq_some.2 same
        rw [marked] at equal
        cases equal
        exact encodes

theorem longPunctuators_sorted :
    longPunctuators.Pairwise fun longer shorter => shorter.length ≤ longer.length := by
  decide

theorem two_le_length_of_mem_openings {mark : Text} (member : mark ∈ openings) :
    2 ≤ mark.length := by
  have bounds : ∀ other ∈ openings, 2 ≤ other.length := by decide
  exact bounds mark member

theorem no_comment_in_longPunctuators :
    ∀ spelling ∈ longPunctuators, ∀ mark ∈ [Text.ofString "//", Text.ofString "/*"],
      ¬ mark <+: spelling := by
  decide

theorem length_le_of_find? {text mark other : Text}
    (found : longPunctuators.find? (·.isPrefixOf text) = some mark)
    (member : other ∈ longPunctuators) (begins : other <+: text) :
    other.length ≤ mark.length := by
  obtain ⟨_, before, after, split_list, skipped⟩ := List.find?_eq_some_iff_append.1 found
  have sorted := longPunctuators_sorted
  rw [split_list] at member sorted
  rcases List.mem_append.1 member with earlier | later
  · have missed := skipped other earlier
    simp [List.isPrefixOf_iff_prefix.2 begins] at missed
  · rcases List.mem_cons.1 later with rfl | later
    · exact Nat.le_refl _
    · have tail := (List.pairwise_append.1 sorted).2.1
      exact List.rel_of_pairwise_cons tail later

theorem read_cons {g : Glyph} {rest : Text}
    (noComment : ∀ mark ∈ [Text.ofString "//", Text.ofString "/*"], ¬ mark <+: g :: rest) :
    read (g :: rest) =
      match Quote.ofMark? g with
      | some quote => literal quote [] rest
      | none =>
        if isWordStart g then word (g :: rest)
        else match number? (g :: rest) with
          | some (number, tail) => .lexeme .other number tail
          | none => symbol g rest := by
  conv => lhs; unfold read
  split
  · contradiction
  · rename_i later equal
    cases equal
    exact absurd ⟨later, rfl⟩ (noComment "//" (by simp))
  · rename_i later equal
    cases equal
    exact absurd ⟨later, rfl⟩ (noComment "/*" (by simp))
  · rename_i equal
    cases equal
    rfl

theorem symbol_inversion {g : Glyph} {later word rest : Text} {kind : TokenKind}
    (noComment : ∀ mark ∈ [Text.ofString "//", Text.ofString "/*"], ¬ mark <+: g :: later)
    (unquoted : Quote.ofMark? g = none) (noWord : isWordStart g = false)
    (noNumber : number? (g :: later) = none) (read : symbol g later = .lexeme kind word rest) :
    Form kind word rest := by
  unfold symbol at read
  split at read
  · rename_i found
    cases read
    have accepted := List.find?_some found
    have begins := List.isPrefixOf_iff_prefix.1 accepted
    have member := List.mem_of_find?_eq_some found
    have longer := two_le_length_of_mem_openings
      (List.mem_cons_of_mem _ (List.mem_cons_of_mem _ member))
    obtain ⟨tail, whole⟩ := begins
    cases word with
    | nil => simp at longer
    | cons first more =>
        obtain ⟨rfl, equal⟩ := List.cons.inj whole
        have dropped : (first :: later).drop (first :: more).length = tail := by
          rw [← whole, List.drop_left]
        rw [dropped]
        refine .symbol unquoted noWord (by rw [whole]; exact noNumber) ?_ (.inl ⟨rfl, member⟩)
        intro other listed starts
        rw [whole] at starts
        rcases List.mem_cons.1 listed with rfl | listed
        · exact longer
        · rcases List.mem_cons.1 listed with rfl | listed
          · exact longer
          · exact length_le_of_find? found listed starts
  · rename_i missing
    cases read
    refine .symbol unquoted noWord noNumber ?_ (.inr ⟨rfl, rfl⟩)
    intro other listed starts
    rcases List.mem_cons.1 listed with rfl | listed
    · exact absurd starts (noComment _ (by simp))
    · rcases List.mem_cons.1 listed with rfl | listed
      · exact absurd starts (noComment _ (by simp))
      · have missed := List.find?_eq_none.1 missing other listed
        exact absurd (List.isPrefixOf_iff_prefix.2 starts) (by simpa using missed)

theorem form_of_read {text spelling rest : Text} {kind : TokenKind}
    (found : read text = .lexeme kind spelling rest) : Form kind spelling rest := by
  cases text with
  | nil => cases found
  | cons g later =>
      by_cases comment : ∃ mark ∈ [Text.ofString "//", Text.ofString "/*"], mark <+: g :: later
      · obtain ⟨mark, listed, tail, whole⟩ := comment
        rw [← whole] at found
        rcases List.mem_cons.1 listed with rfl | listed
        · cases found
          exact .lineComment (by rw [lineComment_append])
        · rw [List.mem_singleton.1 listed] at found
          change (match blockComment tail with
            | some (body, tail) => lexeme .comment (.char '/' :: .char '*' :: body) tail
            | none => _) = _ at found
          split at found
          · rename_i body after closed
            cases found
            exact .blockComment (by rw [blockComment_append closed, closed])
          · cases found
      · have noComment : ∀ mark ∈ [Text.ofString "//", Text.ofString "/*"],
            ¬ mark <+: g :: later := fun mark listed begins => comment ⟨mark, listed, begins⟩
        rw [read_cons noComment] at found
        split at found
        · rename_i quote marked
          obtain ⟨body, rfl, rfl, rfl, closed⟩ := literal_inversion found
          exact .literal (.inl rfl) closed
        · rename_i unquoted
          split at found
          · rename_i start
            exact word_inversion start found
          · rename_i start
            split at found
            · rename_i number tail counted
              cases found
              obtain ⟨whole, _⟩ := number?_append counted
              exact .number (by rw [← whole]; exact counted)
            · rename_i noNumber
              exact symbol_inversion noComment unquoted (by simpa using start) noNumber found

theorem noComment_of_ne {g : Glyph} {rest : Text} (noSlash : g ≠ .char '/') :
    ∀ mark ∈ [Text.ofString "//", Text.ofString "/*"], ¬ mark <+: g :: rest := by
  intro mark listed begins
  rcases List.mem_cons.1 listed with rfl | listed
  · exact noSlash (List.cons_prefix_cons.1 begins).1.symm
  · rw [List.mem_singleton.1 listed] at begins
    exact noSlash (List.cons_prefix_cons.1 begins).1.symm

theorem isWordStart_slash {g : Glyph} (start : isWordStart g = true) : g ≠ .char '/' := by
  rintro rfl
  exact absurd start (by decide)

theorem ofMark?_of_isWordStart {g : Glyph} (start : isWordStart g = true) :
    Quote.ofMark? g = none := by
  cases marked : Quote.ofMark? g with
  | none => rfl
  | some quote =>
      rw [Quote.ofMark?_eq_some.1 marked] at start
      cases quote <;> exact absurd start (by decide)

theorem isWordPart_mark (quote : Quote) : isWordPart quote.mark = false := by
  cases quote <;> decide

theorem literal_of_body {quote : Quote} {body rest : Text} (encoding : Text)
    (closed : literalBody quote (body ++ quote.mark :: rest) = (body, quote.mark :: rest)) :
    literal quote encoding (body ++ quote.mark :: rest) =
      .lexeme quote.kind (encoding ++ quote.mark :: (body ++ [quote.mark])) rest := by
  unfold literal
  rw [closed]
  simp

theorem takeWhile_word {g : Glyph} {name rest : Text} (start : isWordPart g = true)
    (parts : ∀ p ∈ name, isWordPart p = true) (ends : ∀ p ∈ rest.head?, isWordPart p = false) :
    (g :: name ++ rest).takeWhile isWordPart = g :: name ∧
      (g :: name ++ rest).dropWhile isWordPart = rest := by
  have all : ∀ p ∈ g :: name, isWordPart p = true := by
    intro p member
    rcases List.mem_cons.1 member with rfl | member
    · exact start
    · exact parts p member
  have stopped : rest.takeWhile isWordPart = [] ∧ rest.dropWhile isWordPart = rest := by
    cases rest with
    | nil => exact ⟨rfl, rfl⟩
    | cons next later =>
        have outside := ends next rfl
        simp [outside]
  rw [List.takeWhile_append_of_pos all, List.dropWhile_append_of_pos all]
  simp [stopped]

theorem word_of_bare {g : Glyph} {name rest : Text} (start : isWordPart g = true)
    (parts : ∀ p ∈ name, isWordPart p = true) (ends : ∀ p ∈ rest.head?, isWordPart p = false)
    (bare : ∀ quote : Quote, rest.head? = some quote.mark → g :: name ∉ quote.encodings) :
    word (g :: name ++ rest) = .lexeme .ident (g :: name) rest := by
  obtain ⟨front, back⟩ := takeWhile_word start parts ends
  unfold word
  rw [front, back]
  cases rest with
  | nil => rfl
  | cons next later =>
      cases marked : Quote.ofMark? next with
      | none => simp [marked]
      | some quote =>
          have same := Quote.ofMark?_eq_some.1 marked
          have unlisted := bare quote (by simp [same])
          simp [marked, unlisted]

theorem isAlpha_of_isDigit {c : Char} (digit : c.isDigit = true) : c.isAlpha = false := by
  have high : c.val.toNat ≤ 57 := (Char.isDigit_iff_toNat.1 digit).2
  have noUpper : c.isUpper = false := by
    refine decide_eq_false fun upper => ?_
    have low : 65 ≤ c.val.toNat := UInt32.le_iff_toNat_le.1 upper.1
    omega
  have noLower : decide (c.val ≥ 'a'.val) = false := by
    refine decide_eq_false fun lower => ?_
    have low : 97 ≤ c.val.toNat := UInt32.le_iff_toNat_le.1 lower
    omega
  change (c.isUpper || (decide (c.val ≥ 'a'.val) && decide (c.val ≤ 'z'.val))) = false
  rw [noUpper, noLower]
  rfl

theorem number?_start {g : Glyph} {rest number tail : Text}
    (counted : number? (g :: rest) = some (number, tail)) :
    g ≠ .char '/' ∧ Quote.ofMark? g = none ∧ isWordStart g = false := by
  unfold number? at counted
  split at counted
  · rename_i equal
    cases equal
    decide
  · rename_i equal
    cases equal
    split at counted
    · rename_i digit
      cases g with
      | raw byte => exact absurd digit (by simp [isAsciiDigit])
      | char c =>
          have range : c.isDigit = true := digit
          refine ⟨?_, ?_, ?_⟩
          · rintro equal
            cases equal
            exact absurd range (by decide)
          · cases marked : Quote.ofMark? (.char c) with
            | none => rfl
            | some quote =>
                rw [Quote.ofMark?_eq_some.1 marked] at digit
                cases quote <;> exact absurd digit (by decide)
          · have noAlpha := isAlpha_of_isDigit range
            have noUnderscore : c ≠ '_' := by
              rintro rfl
              exact absurd range (by decide)
            have noDollar : c ≠ '$' := by
              rintro rfl
              exact absurd range (by decide)
            simp [isWordStart, isLetter, noAlpha, noUnderscore, noDollar]
    · cases counted
  · cases counted

theorem symbol_of_longest {g : Glyph} {more rest : Text} {kind : TokenKind}
    (longest : ∀ mark ∈ openings, mark <+: g :: more ++ rest → mark.length ≤ more.length + 1)
    (spelled : kind = .punct ∧ g :: more ∈ longPunctuators ∨ kind = glyphKind g ∧ more = []) :
    symbol g (more ++ rest) = .lexeme kind (g :: more) rest := by
  have listed : ∀ {mark}, mark ∈ longPunctuators → mark ∈ openings :=
    fun member => List.mem_cons_of_mem _ (List.mem_cons_of_mem _ member)
  unfold symbol
  cases found : longPunctuators.find? (·.isPrefixOf (g :: (more ++ rest))) with
  | none =>
      rcases spelled with ⟨rfl, member⟩ | ⟨rfl, rfl⟩
      · have missed := List.find?_eq_none.1 found _ member
        exact absurd (List.isPrefixOf_iff_prefix.2 (List.prefix_append (g :: more) rest)) missed
      · rfl
  | some mark =>
      have accepted := List.find?_some found
      have begins := List.isPrefixOf_iff_prefix.1 accepted
      have member := List.mem_of_find?_eq_some found
      have bounded := longest mark (listed member) begins
      rcases spelled with ⟨rfl, spelled⟩ | ⟨rfl, rfl⟩
      · have starts := List.prefix_append (g :: more) rest
        have reached := length_le_of_find? found spelled starts
        have same : mark = g :: more :=
          (List.prefix_of_prefix_length_le begins starts bounded).eq_of_length
            (Nat.le_antisymm bounded reached)
        subst same
        simp
      · have longer := two_le_length_of_mem_openings (listed member)
        simp at bounded
        omega

/-- A literal is read behind its opening quote, whatever encoding stands in front of that. -/
theorem read_literal {quote : Quote} {encoding : Text}
    (encoded : encoding = [] ∨ encoding ∈ quote.encodings) (text : Text) :
    read (encoding ++ quote.mark :: text) = literal quote encoding text := by
  have marked : Quote.ofMark? quote.mark = some quote := Quote.ofMark?_eq_some.2 rfl
  rcases encoded with rfl | encodes
  · have noSlash : quote.mark ≠ .char '/' := by cases quote <;> decide
    rw [List.nil_append, read_cons (noComment_of_ne noSlash), marked]
  · have words : ∀ name ∈ quote.encodings, name.head?.any isWordStart = true ∧
        ∀ p ∈ name, isWordPart p = true := by
      cases quote <;> decide
    obtain ⟨starts, parts⟩ := words encoding encodes
    have stops : isWordPart quote.mark = false := isWordPart_mark quote
    cases encoding with
    | nil => simp at starts
    | cons g name =>
        have start : isWordStart g = true := by simpa using starts
        rw [List.cons_append, read_cons (noComment_of_ne (isWordStart_slash start)),
          ofMark?_of_isWordStart start, ← List.cons_append]
        simp only [start, if_true]
        unfold word
        rw [List.takeWhile_append_of_pos parts, List.dropWhile_append_of_pos parts]
        simp only [List.takeWhile_cons, List.dropWhile_cons, stops, Bool.false_eq_true, if_false,
          List.append_nil, marked, encodes, if_true]

theorem no_comment_of_longest {g : Glyph} {more rest : Text} {kind : TokenKind}
    (longest : ∀ mark ∈ openings, mark <+: g :: more ++ rest → mark.length ≤ more.length + 1)
    (spelled : kind = .punct ∧ g :: more ∈ longPunctuators ∨ kind = glyphKind g ∧ more = []) :
    ∀ mark ∈ [Text.ofString "//", Text.ofString "/*"], ¬ mark <+: g :: (more ++ rest) := by
  intro mark listed begins
  have opening : mark ∈ openings := List.mem_append_left longPunctuators listed
  have pair : mark.length = 2 := by
    rcases List.mem_cons.1 listed with rfl | listed
    · rfl
    · rw [List.mem_singleton.1 listed]
      rfl
  have within := longest mark opening begins
  have inside : mark <+: g :: more :=
    List.prefix_of_prefix_length_le begins (List.prefix_append (g :: more) rest)
      (by simpa using within)
  rcases spelled with ⟨_, member⟩ | ⟨_, rfl⟩
  · exact no_comment_in_longPunctuators _ member mark listed inside
  · simp [pair] at within

theorem read_of_form {spelling rest : Text} {kind : TokenKind} (form : Form kind spelling rest) :
    read (spelling ++ rest) = .lexeme kind spelling rest := by
  cases form with
  | lineComment ends =>
      simp [read, ends]
  | blockComment closed =>
      simp [read, closed]
  | literal encoded closed =>
      rw [List.append_assoc, List.cons_append, List.append_assoc, List.singleton_append,
        read_literal encoded]
      exact literal_of_body _ closed
  | ident start parts ends bare =>
      rw [List.cons_append, read_cons (noComment_of_ne (isWordStart_slash start)),
        ofMark?_of_isWordStart start]
      simp only [start, if_true]
      exact word_of_bare (isWordPart_of_isWordStart start) parts ends bare
  | number counted =>
      obtain ⟨_, nonempty⟩ := number?_append counted
      cases spelling with
      | nil => exact absurd rfl nonempty
      | cons g more =>
          obtain ⟨noSlash, unquoted, noWord⟩ := number?_start counted
          rw [List.cons_append] at counted ⊢
          rw [read_cons (noComment_of_ne noSlash), unquoted]
          simp [noWord, counted]
  | symbol unquoted noWord noNumber longest spelled =>
      rw [List.cons_append] at noNumber ⊢
      rw [read_cons (no_comment_of_longest longest spelled), unquoted]
      simp only [noWord, noNumber, Bool.false_eq_true, if_false]
      exact symbol_of_longest longest spelled

/-- Reading yields exactly the lexemes of these forms. -/
theorem read_iff_form {spelling rest : Text} {kind : TokenKind} :
    read (spelling ++ rest) = .lexeme kind spelling rest ↔ Form kind spelling rest :=
  ⟨form_of_read, read_of_form⟩

end FormatLint.Head
