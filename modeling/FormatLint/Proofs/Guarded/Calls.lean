import FormatLint.Proofs.Analysis.Exact
import FormatLint.Proofs.Guarded.Steps

/-!
Cutting a file into tokens and finding its calls never fails. The tokens of a file stand in a row, so
every span that is made from one of them to a later one can be made: `Guarded.scan_ok`.
-/

namespace FormatLint

/-- The spans stand in one file, and the second one does not end before the first one begins. -/
def Span.Leads (first second : Span) : Prop :=
  first.file = second.file ∧ first.start.offset ≤ second.stop.offset

/-- All places that the diagnostic shows end where they begin or behind. -/
def Diagnostic.Forward (d : Diagnostic) : Prop :=
  ∀ l ∈ d.labels, l.span.start.offset ≤ l.span.stop.offset

/-- Spans that can be joined from any of them to any that comes later. -/
structure Span.Row (spans : List Span) : Prop where
  forward : ∀ s ∈ spans, s.Leads s
  ordered : spans.Pairwise Span.Leads

namespace Span.Row

variable {spans others : List Span}

theorem sublist (row : Row spans) (part : others.Sublist spans) : Row others :=
  ⟨fun s member => row.forward s (part.subset member), row.ordered.sublist part⟩

theorem cons_leads {s : Span} (row : Row (s :: spans)) : ∀ other ∈ s :: spans, s.Leads other := by
  intro other member
  rcases List.mem_cons.1 member with rfl | later
  · exact row.forward _ List.mem_cons_self
  · exact List.rel_of_pairwise_cons row.ordered later

end Span.Row

/-- The tokens stand in a row, one behind the other. -/
structure Token.InRow (tokens : List Token) : Prop where
  spans : Span.Row (tokens.map (·.span))
  apart : tokens.Pairwise fun t u => t.span.stop.offset ≤ u.span.start.offset

namespace Token.InRow

variable {tokens others : List Token}

theorem sublist (row : InRow tokens) (part : others.Sublist tokens) : InRow others :=
  ⟨row.spans.sublist (part.map _), row.apart.sublist part⟩

theorem forward (row : InRow tokens) {t : Token} (member : t ∈ tokens) : t.span.Leads t.span :=
  row.spans.forward _ (List.mem_map_of_mem member)

theorem pairwise (row : InRow tokens) : tokens.Pairwise fun t u => t.span.Leads u.span :=
  List.pairwise_map.1 row.spans.ordered

theorem leads {t u : Token} (row : InRow tokens) (part : [t, u].Sublist tokens) :
    t.span.Leads u.span :=
  List.rel_of_pairwise_cons (row.sublist part).pairwise (List.mem_singleton.2 rfl)

theorem cons_leads {t : Token} (row : InRow (t :: tokens)) : ∀ u ∈ t :: tokens, t.span.Leads u.span :=
  fun _ member => row.spans.cons_leads _ (List.mem_map_of_mem member)

theorem argument {a : Argument} (row : InRow a.tokens) :
    (a.tokens.head a.nonempty).span.Leads (a.tokens.getLast a.nonempty).span := by
  obtain ⟨t, rest, tokens⟩ := List.exists_cons_of_ne_nil a.nonempty
  have member := List.getLast_mem a.nonempty
  have head : a.tokens.head a.nonempty = t := by simp [tokens]
  rw [tokens] at row
  rw [head]
  refine row.cons_leads _ ?_
  rwa [← tokens]

end Token.InRow

theorem Token.place_inRow (file : Text) (p : Position) (lexemes : List Lexeme) :
    InRow (place file p lexemes) := by
  induction lexemes generalizing p with
  | nil => exact ⟨⟨by simp [place], by simp [place]⟩, by simp [place]⟩
  | cons l later ih =>
      have start := p.after_offset l.blanks
      have stop := (p.after l.blanks).after_offset l.text
      have rest := ih ((p.after l.blanks).after l.text)
      have behind : ∀ t ∈ place file ((p.after l.blanks).after l.text) later, t.span.file = file ∧
          ((p.after l.blanks).after l.text).offset ≤ t.span.start.offset ∧
            t.span.start.offset ≤ t.span.stop.offset := by
        intro t member
        obtain ⟨_, _, _, span⟩ := mem_place member
        obtain ⟨first, order, _⟩ := place_inside member
        exact ⟨by rw [span], first, order⟩
      rw [place]
      refine ⟨⟨fun s member => ?_, List.pairwise_map.2 (List.pairwise_cons.2 ⟨fun t member => ?_,
        rest.pairwise⟩)⟩, List.pairwise_cons.2 ⟨fun t member => (behind t member).2.1, rest.apart⟩⟩
      · rcases List.mem_cons.1 member with rfl | later
        · exact ⟨rfl, by dsimp only; omega⟩
        · exact rest.spans.forward s later
      · obtain ⟨sameFile, first, order⟩ := behind t member
        refine ⟨sameFile.symm, ?_⟩
        dsimp only
        omega

theorem Token.inRow_of_tokenize {file text : Text} {tokens : List Token}
    (read : tokenize file text = .ok tokens) : InRow tokens := by
  unfold tokenize at read
  split at read
  · cases read
    exact place_inRow file .first _
  · cases read

/-- What stands in a file in the order of its tokens. -/
structure Call.Stands (c : Call) : Prop where
  ends : [c.name, c.opening, c.closing].Pairwise fun t u => t.span.Leads u.span
  closing : c.closing.span.Leads c.closing.span
  tokens : ∀ a ∈ c.arguments, Token.InRow a.tokens
  arguments : Span.Row (c.arguments.map (·.span))

/-- A call stands in its order, and what is wrong with an argument list can be shown. -/
def Mention.Stands : Mention → Prop
  | .call c => c.Stands
  | .malformed d => d.Forward
  | _ => True

namespace Guarded

@[simp] theorem ok_bind {α β : Type} (a : α) (f : α → Except Mishap β) :
    (Except.ok a >>= f) = f a := rfl

section

variable {α β : Type} {f : α → Except Mishap β} {l : List α}

theorem mapM_filterMap {make : α → Option β} (each : ∀ a ∈ l, ∃ b, make a = some b ∧ f a = .ok b) :
    l.mapM f = .ok (l.filterMap make) := by
  induction l with
  | nil => rfl
  | cons a l ih =>
      obtain ⟨b, made, here⟩ := each a List.mem_cons_self
      have later := ih fun other member => each other (List.mem_cons_of_mem a member)
      rw [List.mapM_cons, here, ok_bind, later, ok_bind, List.filterMap_cons_some made]
      rfl

theorem mapM_ok {g : α → β} (each : ∀ a ∈ l, f a = .ok (g a)) : l.mapM f = .ok (l.map g) := by
  rw [← List.filterMap_eq_map]
  exact mapM_filterMap fun a member => ⟨g a, rfl, each a member⟩

theorem get_ok {a : α} {i : Nat} (found : l[i]? = some a) : get l i = .ok a := by
  rw [get, found]

theorem last_ok {a : α} (found : l.getLast? = some a) : last l = .ok a := by
  rw [last, found]

end

theorem between_ok {file : Text} {start stop : Position} (forward : start.offset ≤ stop.offset) :
    between file start stop = .ok ⟨file, start, stop⟩ := by
  rw [between, Span.between, if_neg (Nat.not_lt.2 forward)]
  rfl

theorem join_ok {first second : Span} (leads : first.Leads second) :
    join first second = .ok (first.through second) := by
  rw [join, Span.join_pair leads.1 leads.2]
  rfl

theorem argumentSpan_ok {a : Argument} (row : Token.InRow a.tokens) :
    argumentSpan a = .ok a.span := join_ok row.argument

theorem through_ok {spans : List Span} {s : Span} (row : Span.Row spans)
    (all : Call.throughAll? spans = some s) : through spans = .ok s := by
  cases spans with
  | nil => cases all
  | cons first later =>
      obtain ⟨final, ends⟩ : ∃ final, (first :: later).getLast? = some final :=
        ⟨_, List.getLast?_eq_some_getLast (List.cons_ne_nil first later)⟩
      rw [Call.throughAll?, ends] at all
      cases all
      rw [through, get_ok (a := first) rfl, ok_bind, last_ok ends, ok_bind,
        join_ok (row.cons_leads _ (List.mem_of_getLast? ends))]

theorem place_ok (file : Text) (p : Position) (lexemes : List Lexeme) :
    place file p lexemes = .ok (Token.place file p lexemes) := by
  induction lexemes generalizing p with
  | nil => rfl
  | cons l later ih =>
      have stop := (p.after l.blanks).after_offset l.text
      rw [place, between_ok (by omega), ih]
      rfl

theorem tokenize_ok (file text : Text) :
    tokenize file text = .ok (Token.tokenize file text) := by
  rw [tokenize, Token.tokenize]
  cases Lexeme.ofText text with
  | ok lexemes =>
      dsimp only
      rw [place_ok]
      rfl
  | error unclosed =>
      have stop := (Position.first.after unclosed.before).after_offset unclosed.body
      dsimp only
      rw [between_ok (by omega)]
      rfl

theorem emptySlot?_ok {opening : Token} {slots : List Slot}
    (row : Token.InRow (opening :: slots.map (·.stop))) :
    emptySlot? opening slots = .ok ((Slot.firstEmpty? opening slots).map fun gap =>
        gap.1.span.through gap.2.span) ∧
      ∀ gap ∈ Slot.firstEmpty? opening slots, gap.1.span.Leads gap.2.span := by
  induction slots generalizing opening with
  | nil => exact ⟨rfl, by simp [Slot.firstEmpty?]⟩
  | cons s later ih =>
      rw [emptySlot?, List.findIdx?_cons, Slot.firstEmpty?]
      by_cases empty : s.trimmed = []
      · have leads : opening.span.Leads s.stop.span :=
          row.leads (((List.nil_sublist _).cons_cons s.stop).cons_cons opening)
        rw [if_pos empty, if_pos (by simpa using empty)]
        dsimp only
        rw [get_ok (a := opening) rfl, ok_bind, get_ok (a := s.stop) rfl, ok_bind, join_ok leads]
        refine ⟨rfl, fun gap same => ?_⟩
        cases same
        exact leads
      · obtain ⟨rest, gaps⟩ := ih (row.sublist (List.sublist_cons_self _ _))
        rw [if_neg empty, if_neg (by simpa using empty), ← rest, emptySlot?]
        refine ⟨?_, gaps⟩
        cases later.findIdx? (·.trimmed = []) with
        | none => rfl
        | some i => rfl

theorem stops_sublist (slots : List Slot) : (slots.map (·.stop)).Sublist (Slot.written slots) := by
  induction slots with
  | nil => exact List.Sublist.slnil
  | cons s later ih =>
      rw [Slot.written_cons, List.map_cons]
      exact (ih.cons_cons s.stop).trans (List.sublist_append_right _ _)

theorem arguments_row {slots : List Slot} (row : Token.InRow (Slot.written slots)) :
    (∀ a ∈ slots.filterMap (fun s => Argument.ofTokens? s.trimmed), Token.InRow a.tokens) ∧
      Span.Row ((slots.filterMap fun s => Argument.ofTokens? s.trimmed).map (·.span)) := by
  have tokens : ∀ a ∈ slots.filterMap (fun s => Argument.ofTokens? s.trimmed),
      Token.InRow a.tokens := by
    intro a member
    obtain ⟨s, listed, made⟩ := List.mem_filterMap.1 member
    rw [Slot.tokens_of_ofTokens? made]
    exact row.sublist (s.trimmed_sublist.trans (Slot.tokens_infix listed).sublist)
  refine ⟨tokens, ⟨fun s member => ?_, List.pairwise_map.2 (List.pairwise_filterMap.2 ?_)⟩⟩
  · obtain ⟨a, listed, rfl⟩ := List.mem_map.1 member
    exact ⟨rfl, (tokens a listed).argument.2⟩
  · refine (List.pairwise_flatMap.1 row.pairwise).2.imp fun {first second} leads a made b made' => ?_
    have within {s : Slot} {a : Argument} (made : Argument.ofTokens? s.trimmed = some a) {t : Token}
        (member : t ∈ a.tokens) : t ∈ s.tokens ++ [s.stop] := by
      rw [Slot.tokens_of_ofTokens? made] at member
      exact List.mem_append_left _ (s.trimmed_sublist.subset member)
    have whole := leads _ (within made (List.head_mem a.nonempty))
      _ (within made' (List.getLast_mem b.nonempty))
    have start := leads _ (within made (List.head_mem a.nonempty))
      _ (within made' (List.head_mem b.nonempty))
    exact ⟨start.1, whole.2⟩

/-- What is read behind the name of a printer, if the tokens stand in a row. -/
theorem readCall_ok {printer : Printer} {name opening : Token} {rest : List Token}
    (row : Token.InRow (name :: opening :: rest)) :
    readCall printer name opening rest = .ok (Mention.readCall printer name opening rest) ∧
      (Mention.readCall printer name opening rest).Stands := by
  rw [readCall, Mention.readCall]
  cases found : Slot.cut 0 rest with
  | none =>
      refine ⟨rfl, fun l member => ?_⟩
      simp only [Diagnostic.unbalancedParentheses, List.mem_cons, List.not_mem_nil, or_false] at member
      rcases member with rfl | rfl
      · exact (row.forward (by simp)).2
      · exact (row.forward (by simp)).2
  | some slots =>
      obtain ⟨listed, after, rfl⟩ := Slot.cut_eq_some_iff.1 found
      have whole : Token.InRow (name :: opening :: Slot.written slots) :=
        row.sublist (((List.sublist_append_left _ _).cons_cons opening).cons_cons name)
      have list := whole.sublist (List.sublist_cons_self _ _)
      have separators := list.sublist ((stops_sublist slots).cons_cons opening)
      have closing : (opening :: slots.map (·.stop)).getLast? = some (Slot.closing opening slots) := by
        rw [List.getLast?_cons, List.getLast?_map]
        rfl
      obtain ⟨inner, ends, _⟩ := listed.closing_eq opening
      have final : Slot.closing opening slots ∈ Slot.written slots := by
        rw [ends]
        exact List.mem_append_right _ (List.mem_singleton.2 rfl)
      have stands (arguments : List Argument) (tokens : ∀ a ∈ arguments, Token.InRow a.tokens)
          (spans : Span.Row (arguments.map (·.span))) :
          Call.Stands ⟨printer, name, opening, Slot.closing opening slots, arguments⟩ :=
        { ends := (whole.sublist (((List.singleton_sublist.2 final).cons_cons opening).cons_cons
            name)).pairwise
          closing := list.forward (List.mem_cons_of_mem _ final)
          tokens := tokens
          arguments := spans }
      dsimp only
      rw [last_ok closing, ok_bind]
      by_cases bare : Slot.areBare slots = true
      · rw [if_pos bare, if_pos bare]
        exact ⟨rfl, stands [] (by simp) ⟨by simp, by simp⟩⟩
      · obtain ⟨empty, gaps⟩ := emptySlot?_ok separators
        rw [if_neg bare, if_neg bare, empty, ok_bind]
        cases gap : Slot.firstEmpty? opening slots with
        | some ends =>
            refine ⟨rfl, fun l member => ?_⟩
            rw [List.mem_singleton.1 member]
            exact (gaps ends gap).2
        | none =>
            have filled := Slot.firstEmpty?_eq_none_iff.1 gap
            have made : slots.mapM (fun s => argument s.trimmed) =
                .ok (slots.filterMap fun s => Argument.ofTokens? s.trimmed) := by
              refine mapM_filterMap fun s member => ?_
              have present : s.trimmed ≠ [] := fun isEmpty =>
                filled s member (Slot.trimmed_eq_nil_iff.1 isEmpty)
              refine ⟨⟨s.trimmed, present⟩, by simp [Argument.ofTokens?, present], ?_⟩
              simp [argument, Argument.ofTokens?, present]
            obtain ⟨tokens, spans⟩ := arguments_row (list.sublist (List.sublist_cons_self _ _))
            dsimp only [Option.map_none]
            rw [made]
            exact ⟨rfl, stands _ tokens spans⟩

theorem classify_ok {printer : Printer} {previous : Option Token} {name : Token}
    {rest : List Token} (row : Token.InRow (name :: rest))
    (ends : ∃ last ∈ rest.getLast?, last.kind = .eof) :
    classify printer previous name rest = .ok (Mention.classify printer previous name rest) ∧
      (Mention.classify printer previous name rest).Stands := by
  rw [classify, Mention.classify]
  have part : (rest.dropWhile Token.isComment).Sublist rest := List.dropWhile_sublist _
  cases behind : rest.dropWhile Token.isComment with
  | nil =>
      -- The empty token at the end of the file is no comment.
      obtain ⟨last, member, eof⟩ := ends
      have comment := List.dropWhile_eq_nil_iff.1 behind last (List.mem_of_getLast? member)
      rw [Token.isComment, eof] at comment
      cases comment
  | cons next later =>
      rw [behind] at part
      rw [get_ok (a := next) rfl, ok_bind]
      by_cases opens : next.kind ≠ .openParen
      · rw [if_pos opens]
        dsimp only
        rw [if_pos opens]
        exact ⟨rfl, trivial⟩
      · rw [if_neg opens]
        dsimp only
        rw [if_neg opens]
        cases previous.any Mention.declares with
        | true => exact ⟨rfl, trivial⟩
        | false => exact readCall_ok (row.sublist (part.cons_cons name))

/-- Every mention in a file is found, and stands in the order of the tokens. -/
theorem scan_ok {table : PrinterTable} {previous : Option Token} {tokens : List Token}
    (row : Token.InRow tokens) (ends : ∀ last ∈ tokens.getLast?, last.kind = .eof) :
    scan table previous tokens = .ok (Mention.scan table previous tokens) ∧
      ∀ m ∈ Mention.scan table previous tokens, m.Stands := by
  induction tokens generalizing previous with
  | nil => exact ⟨rfl, by simp [Mention.scan]⟩
  | cons t rest ih =>
      have last : ∀ final ∈ rest.getLast?, final.kind = .eof := by
        intro final member
        refine ends final ?_
        rw [List.getLast?_cons, Option.mem_def.1 member]
        rfl
      obtain ⟨later, stands⟩ := ih
        (row.sublist (List.sublist_cons_self _ _)) last
      rw [scan, later, ok_bind, Mention.scan]
      by_cases ident : t.kind = .ident
      · rw [if_pos ident, if_pos ident]
        cases table.find? t.lexeme with
        | none => exact ⟨rfl, stands⟩
        | some printer =>
            have eof : ∃ final ∈ rest.getLast?, final.kind = .eof := by
              cases behind : rest.getLast? with
              | some final => exact ⟨final, rfl, last final behind⟩
              | none =>
                  have only : (t :: rest).getLast? = some t := by
                    rw [List.getLast?_cons, behind]
                    rfl
                  have kind := ends t only
                  rw [ident] at kind
                  cases kind
            obtain ⟨here, stand⟩ := classify_ok row eof
            dsimp only
            rw [here]
            exact ⟨rfl, List.forall_mem_cons.2 ⟨stand, stands⟩⟩
      · rw [if_neg ident, if_neg ident]
        exact ⟨rfl, stands⟩

end Guarded

end FormatLint
