import FormatLint.Proofs.Call.Placement

/-!
Parts of a file that cut no call in two. The whole file is such a part, and so are the slots of its
argument lists, with or without the comments at their ends.
-/

namespace FormatLint.Site

def Closed (sites : List Site) (tokens : List Token) : Prop :=
  ∀ s ∈ sites, ∀ slots after, s.Lists slots after → ∀ front back, tokens = front ++ s.name :: back →
    ∃ more, back = s.comments ++ s.opening :: (Slot.written slots ++ more)

namespace Closed

variable {table : PrinterTable} {sites : List Site}

theorem of_file {lexical : List Token} {eof : Token} (ends : eof.kind = .eof)
    (distinct : lexical.Nodup) : Closed (ofTokens table (lexical ++ [eof])) lexical := by
  intro s member slots after lists front back whole
  obtain ⟨rest, parts⟩ := lists.lexical (mem_ofTokens_iff.1 member).1 ends
  have twice {left between right : List Token} {t : Token}
      (repeated : lexical = left ++ t :: (between ++ t :: right)) : False := by
    rw [repeated] at distinct
    have fresh := (List.nodup_cons.1 (List.nodup_append.1 distinct).2.1).1
    exact fresh (by simp)
  have same : front ++ s.name :: back =
      s.before ++ s.name :: (s.comments ++ s.opening :: (Slot.written slots ++ rest)) := by
    rw [← whole, parts, written]
    simp
  rcases order_cases same with ⟨between, _, inside⟩ | ⟨_, _, equal⟩ | ⟨between, inside, _⟩
  · rw [inside] at whole
    exact (twice whole).elim
  · exact ⟨rest, equal⟩
  · rw [inside, List.append_assoc] at whole
    exact (twice whole).elim

theorem drop {front tokens : List Token} (closed : Closed sites (front ++ tokens)) :
    Closed sites tokens := by
  intro s member slots after lists before back whole
  exact closed s member slots after lists (front ++ before) back (by simp [whole])

/-- A call that begins in a slot ends in it. -/
theorem slot {front back : List Token} {slot : Slot} (tracked : ∀ s ∈ sites, s.Tracked table)
    (fills : Slot.Fills 0 slot.tokens)
    (stops : slot.stop.kind = .comma ∨ slot.stop.kind = .closeParen)
    (closed : Closed sites (front ++ (slot.tokens ++ slot.stop :: back))) :
    Closed sites slot.tokens := by
  intro s member slots after lists before later whole
  obtain ⟨more, written⟩ := closed s member slots after lists (front ++ before)
    (later ++ slot.stop :: back) (by simp [whole])
  rcases order_cases written with ⟨between, inside, _⟩ | ⟨_, same, _⟩ | ⟨between, rfl, inside⟩
  · have comment := (tracked s member).comments slot.stop (by simp [inside])
    rw [comment] at stops
    simp at stops
  · have opens := (tracked s member).opens
    rw [same, opens] at stops
    simp at stops
  · rw [whole, ← List.cons_append, ← List.append_assoc] at fills
    obtain ⟨rest, rfl⟩ := fills.contains (tracked s member).opens lists.listed inside.symm
    exact ⟨rest, rfl⟩

theorem trim {tokens trail : List Token} (comments : ∀ t ∈ trail, t.kind = .comment)
    (closed : Closed sites (tokens ++ trail)) : Closed sites tokens := by
  intro s member slots after lists before later whole
  obtain ⟨more, written⟩ := closed s member slots after lists before (later ++ trail)
    (by simp [whole])
  obtain ⟨inner, closing, list, closes, _⟩ := lists.listed.written_eq
  have noComment : closing ∉ trail := by
    intro last
    rw [comments closing last] at closes
    cases closes
  have parts : later ++ trail = (s.comments ++ s.opening :: inner) ++ closing :: more := by
    rw [written, list]
    simp
  rcases List.append_eq_append_iff.1 parts with ⟨rest, _, tail⟩ | ⟨rest, front, tail⟩
  · exact absurd (by simp [tail]) noComment
  · cases rest with
    | nil =>
        rw [List.nil_append] at tail
        exact absurd (by simp [← tail]) noComment
    | cons first rest =>
        obtain ⟨rfl, _⟩ := List.cons.inj tail
        refine ⟨rest, ?_⟩
        rw [front, list]
        simp

end Closed

theorem names_nodup {table : PrinterTable} {tokens : List Token} (distinct : tokens.Nodup) :
    ((ofTokens table tokens).map (·.name)).Nodup := by
  refine List.pairwise_map.2 ?_
  refine (ofTokens_pairwise table tokens).imp_of_mem ?_
  intro first second front back order same
  have whole : first.tokens = second.tokens :=
    (mem_ofTokens_iff.1 front).1.trans (mem_ofTokens_iff.1 back).1.symm
  rw [← (mem_ofTokens_iff.1 back).1, Site.tokens] at distinct
  rw [Site.tokens, Site.tokens, same] at whole
  have fresh := (List.nodup_append.1 distinct).2.2
  rcases order_cases whole with ⟨between, inside, _⟩ | ⟨equal, _⟩ | ⟨between, inside, _⟩
  · exact fresh second.name (by simp [inside]) second.name List.mem_cons_self rfl
  · rw [equal] at order
    exact absurd order (Nat.lt_irrefl _)
  · have length := congrArg List.length inside
    simp only [List.length_append, List.length_cons] at length
    omega

end FormatLint.Site
