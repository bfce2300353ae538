import FormatLint.Proofs.Command.Writes
import FormatLint.Proofs.Revision.Idempotent

/-!
Writing out casts in a file keeps its bytes. Whatever they are, they are decoded to a text that encodes
to them again, and the revised text is that text with casts between its tokens; so the file gets its
own bytes with ASCII pieces between them (`Run.typecast_parts`). `Run.typecast_restorable` says this of
every file behind a run that succeeds.
-/

namespace FormatLint

/-- A part of a file in which casts are written out. -/
inductive CastPart where
  | kept (bytes : Bytes)
  | opening (cType : Text)
  | closing

namespace CastPart

def bytes : CastPart → Bytes
  | kept bytes => bytes
  | opening cType => Utf8.encode ("(" ++ cType ++ ") (")
  | closing => Utf8.encode ")"

def isKept : CastPart → Bool
  | kept _ => true
  | _ => false

def isOpening : CastPart → Bool
  | opening _ => true
  | _ => false

def isClosing : CastPart → Bool
  | closing => true
  | _ => false

def bytesOf (parts : List CastPart) : Bytes := parts.flatMap bytes

@[simp] theorem bytesOf_nil : bytesOf [] = [] := rfl

@[simp] theorem bytesOf_cons (part : CastPart) (later : List CastPart) :
    bytesOf (part :: later) = part.bytes ++ bytesOf later := rfl

@[simp] theorem bytesOf_append (front back : List CastPart) :
    bytesOf (front ++ back) = bytesOf front ++ bytesOf back := List.flatMap_append

/-- The parts make up the bytes behind a revision, and without the pieces that are inserted, all of
them ASCII, those before it. Each cast is a piece that opens it and one that closes it. -/
structure Restores (parts : List CastPart) (casts : Nat) (before after : Bytes) : Prop where
  before : before = bytesOf (parts.filter isKept)
  after : after = bytesOf parts
  ascii : ∀ part ∈ parts, part.isKept = false → ∀ byte ∈ part.bytes, byte < 128
  openings : parts.countP isOpening = casts
  closings : parts.countP isClosing = casts

theorem Restores.eq {parts : List CastPart} {before after : Bytes}
    (restores : Restores parts 0 before after) : after = before := by
  have all : parts.filter isKept = parts := by
    refine List.filter_eq_self.2 fun part member => ?_
    have opening := List.countP_eq_zero.1 restores.openings part member
    have closing := List.countP_eq_zero.1 restores.closings part member
    cases part with
    | kept => rfl
    | opening => exact absurd rfl opening
    | closing => exact absurd rfl closing
  rw [restores.before, restores.after, all]

end CastPart

def Glyph.isAscii (g : Glyph) : Bool := g.satisfies fun c => c.toNat < 128

theorem Utf8.encode_ascii {t : Text} (ascii : ∀ g ∈ t, g.isAscii = true) :
    ∀ byte ∈ encode t, byte < 128 := by
  intro byte member
  obtain ⟨g, inside, here⟩ := List.mem_flatMap.1 member
  have small := ascii g inside
  cases g with
  | raw _ => cases small
  | char c =>
      have small : c.toNat < 128 := by simpa [Glyph.isAscii, Glyph.satisfies] using small
      have size : c.utf8Size = 1 := by
        rw [Char.utf8Size_eq_one_iff, UInt32.le_iff_toNat_le]
        exact Nat.lt_succ_iff.1 small
      rw [encodeGlyph, String.utf8EncodeChar_eq_singleton size, List.mem_singleton] at here
      rw [here, UInt8.lt_iff_toNat_lt]
      exact Nat.lt_of_le_of_lt (Nat.mod_le _ _) small

theorem CType.isAscii_of_isTypeGlyph {g : Glyph} (glyph : isTypeGlyph g = true) :
    g.isAscii = true := by
  cases g with
  | raw _ => cases glyph
  | char c =>
      have letter (alpha : c.isAlpha = true) : c.toNat < 128 := by
        simp only [Char.isAlpha, Char.isUpper, Char.isLower, Bool.or_eq_true, Bool.and_eq_true,
          decide_eq_true_eq, ge_iff_le, UInt32.le_iff_toNat_le] at alpha
        simp at alpha
        omega
      simp only [isTypeGlyph, Head.isWordStart, Lexeme.isGap, Glyph.satisfies, Head.isLetter,
        Bool.or_eq_true, beq_iff_eq, decide_eq_true_eq, List.mem_cons, List.not_mem_nil, or_false,
        Glyph.char.injEq] at glyph
      rw [Glyph.isAscii, Glyph.satisfies, decide_eq_true_eq]
      rcases glyph with (((alpha | rfl) | rfl) | rfl) | rfl | rfl | rfl | rfl | rfl | rfl
      · exact letter alpha
      all_goals decide

namespace Castable

open CastPart

variable {tokens : List Token} {casts : List (Argument × Text)} {gap : Token → Text}

/-- A token with the casts around it. -/
def parts (gap : Token → Text) (casts : List (Argument × Text)) (t : Token) : List CastPart :=
  .kept (Utf8.encode (gap t)) ::
    ((casts.filter (·.1.first = t)).map (fun cast => .opening cast.2) ++
      (.kept (Utf8.encode t.lexeme) :: (casts.filter (·.1.last = t)).map fun _ => .closing))

theorem bytesOf_map {α : Type} {part : α → CastPart} {insertion : α → Insertion}
    (same : ∀ x, (part x).bytes = Utf8.encode (insertion x).text) (l : List α) :
    bytesOf (l.map part) = Utf8.encode (Insertion.textOf (l.map insertion)) := by
  induction l with
  | nil => rfl
  | cons x later ih =>
      rw [List.map_cons, bytesOf_cons, ih, List.map_cons, same]
      exact (Utf8.encode_append _ _).symm

theorem bytesOf_openings (casts : List (Argument × Text)) :
    bytesOf (casts.map fun cast => .opening cast.2) =
      Utf8.encode (Insertion.textOf (casts.map fun cast => CType.opening cast.2)) :=
  bytesOf_map (fun _ => rfl) casts

theorem bytesOf_closings (casts : List (Argument × Text)) :
    bytesOf (casts.map fun _ => .closing) =
      Utf8.encode (Insertion.textOf (casts.map fun _ => CType.closing)) :=
  bytesOf_map (fun _ => rfl) casts

theorem bytesOf_parts (gap : Token → Text) (casts : List (Argument × Text)) (tokens : List Token) :
    bytesOf (tokens.flatMap (parts gap casts)) =
      Utf8.encode (Insertion.revisedText gap (openings casts) (closings casts) tokens) := by
  induction tokens with
  | nil => rfl
  | cons t later ih =>
      have whole : Insertion.revisedText gap (openings casts) (closings casts) (t :: later) =
          gap t ++ (Insertion.textOf (openings casts t) ++
            (t.lexeme ++ Insertion.textOf (closings casts t))) ++
              Insertion.revisedText gap (openings casts) (closings casts) later := rfl
      rw [List.flatMap_cons, bytesOf_append, ih, whole]
      simp only [parts, bytesOf_cons, bytesOf_append, bytesOf_openings, bytesOf_closings, openings,
        closings, Utf8.encode_append, List.append_assoc, CastPart.bytes]

theorem filter_parts (gap : Token → Text) (casts : List (Argument × Text)) (t : Token) :
    (parts gap casts t).filter isKept =
      [.kept (Utf8.encode (gap t)), .kept (Utf8.encode t.lexeme)] := by
  have dropped {α : Type} (l : List α) (part : α → CastPart) (cast : ∀ x, (part x).isKept = false) :
      (l.map part).filter isKept = [] := by
    rw [List.filter_eq_nil_iff, List.forall_mem_map]
    simp [cast]
  rw [parts, List.filter_cons_of_pos rfl, List.filter_append, dropped _ _ fun _ => rfl,
    List.filter_cons_of_pos rfl, dropped _ _ fun _ => rfl]
  rfl

theorem bytesOf_kept (gap : Token → Text) (casts : List (Argument × Text)) (tokens : List Token) :
    bytesOf ((tokens.flatMap (parts gap casts)).filter isKept) =
      Utf8.encode (Token.textOf gap tokens) := by
  induction tokens with
  | nil => rfl
  | cons t later ih =>
      rw [List.flatMap_cons, List.filter_append, bytesOf_append, ih, filter_parts,
        Token.textOf_cons]
      simp only [bytesOf_cons, bytesOf_nil, CastPart.bytes, Utf8.encode_append, List.append_assoc,
        List.nil_append]

theorem parts_ascii (castable : Castable tokens casts) (others : List Token) :
    ∀ part ∈ others.flatMap (parts gap casts), part.isKept = false →
      ∀ byte ∈ part.bytes, byte < 128 := by
  intro part member inserted
  obtain ⟨t, _, here⟩ := List.mem_flatMap.1 member
  rw [parts, List.mem_cons, List.mem_append, List.mem_cons] at here
  rcases here with rfl | here | rfl | here
  · cases inserted
  · obtain ⟨cast, found, rfl⟩ := List.mem_map.1 here
    have glyphs := castable.glyphs cast (List.mem_filter.1 found).1
    have back : ∀ g ∈ Text.ofString ") (", g.isAscii = true := by decide
    refine Utf8.encode_ascii fun g inside => ?_
    rcases List.mem_append.1 inside with inside | inside
    · rcases List.mem_append.1 inside with inside | inside
      · exact List.mem_singleton.1 inside ▸ rfl
      · exact CType.isAscii_of_isTypeGlyph (glyphs g inside)
    · exact back g inside
  · cases inserted
  · obtain ⟨_, _, rfl⟩ := List.mem_map.1 here
    exact Utf8.encode_ascii (by decide)

theorem sum_map_filter {place : Argument × Text → Token} (distinct : tokens.Nodup)
    (listed : ∀ cast ∈ casts, place cast ∈ tokens) :
    (tokens.map fun t => (casts.filter (place · = t)).length).sum = casts.length := by
  rw [(perm_flatMap_filter place distinct casts listed).length_eq, List.length_flatMap]

theorem countP_openings (castable : Castable tokens casts) (distinct : tokens.Nodup) :
    (tokens.flatMap (parts gap casts)).countP isOpening = casts.length := by
  have each (t : Token) : (parts gap casts t).countP isOpening =
      (casts.filter (·.1.first = t)).length := by
    rw [parts, List.countP_cons_of_neg Bool.false_ne_true, List.countP_append, List.countP_map,
      List.countP_cons_of_neg Bool.false_ne_true, List.countP_map]
    simp [Function.comp_def, isOpening]
  rw [List.countP_flatMap, Function.comp_def]
  simp only [each]
  exact sum_map_filter distinct fun cast member =>
    (castable.inside cast member).subset cast.1.first_mem

theorem countP_closings (castable : Castable tokens casts) (distinct : tokens.Nodup) :
    (tokens.flatMap (parts gap casts)).countP isClosing = casts.length := by
  have each (t : Token) : (parts gap casts t).countP isClosing =
      (casts.filter (·.1.last = t)).length := by
    rw [parts, List.countP_cons_of_neg Bool.false_ne_true, List.countP_append, List.countP_map,
      List.countP_cons_of_neg Bool.false_ne_true, List.countP_map]
    simp [Function.comp_def, isClosing]
  rw [List.countP_flatMap, Function.comp_def]
  simp only [each]
  exact sum_map_filter distinct fun cast member =>
    (castable.inside cast member).subset cast.1.last_mem

end Castable

namespace Run

variable {σ : Type} [FileSystem (StateM σ)] [Console (StateM σ)] {disk : σ → Disk} {o : Options}
  {input : Path} {inputs : List Path} {content final : Bytes} {s : σ} {place : Place}

theorem exists_tokens (clean : (analysis input content).hasErrors = false) :
    ∃ tokens, Token.tokenize input.text (Utf8.decode content) = .ok tokens := by
  cases read : Token.tokenize input.text (Utf8.decode content) with
  | ok tokens => exact ⟨tokens, rfl⟩
  | error fault =>
      unfold analysis Source.analyze at clean
      rw [read] at clean
      cases clean

/-- The casts of a file without errors are pieces between its bytes. -/
theorem typecast_parts (clean : (analysis input content).hasErrors = false) :
    ∃ text parts, (analysis input content).typecast = .ok text ∧
      CastPart.Restores parts (analysis input content).casts.length content
        (Utf8.encode text) := by
  obtain ⟨tokens, read⟩ := exists_tokens clean
  obtain ⟨revised, _, made, _, distinct, castable, _, gap, whole, rfl⟩ :=
    @Analysis.typecast_reads ⟨input.text, Utf8.decode content⟩ tokens read
  dsimp only at whole
  refine ⟨_, tokens.flatMap (Castable.parts gap (analysis input content).casts), made, ?_, ?_,
    castable.parts_ascii tokens, castable.countP_openings distinct,
    castable.countP_closings distinct⟩
  · rw [Castable.bytesOf_kept, ← whole, Utf8.encode_decode]
  · rw [Castable.bytesOf_parts]
    rfl

theorem casts_eq_nil {a : Analysis} (settled : ∀ v ∈ a.verdicts, v.Settled) : a.casts = [] := by
  refine List.flatMap_eq_nil_iff.2 fun v member => ?_
  have unedited := (settled v member).castEdits
  rw [Verdict.castEdits_eq, List.flatMap_eq_nil_iff] at unedited
  refine List.eq_nil_iff_forall_not_mem.2 fun cast listed => ?_
  cases unedited cast listed

/-- What becomes of the bytes of a file if its casts are written out for each of the inputs in turn. -/
inductive Passes : List Path → Bytes → Bytes → Prop
  | nil {content : Bytes} : Passes [] content content
  | cons {input : Path} {later : List Path} {content final : Bytes} {text : Text}
      {parts : List CastPart} (made : (analysis input content).typecast = .ok text)
      (restores : CastPart.Restores parts (analysis input content).casts.length content
        (Utf8.encode text))
      (rest : Passes later (Utf8.encode text) final) : Passes (input :: later) content final

theorem Passes.eq (passes : Passes inputs content final)
    (uncast : ∀ input ∈ inputs, (analysis input content).casts = []) : final = content := by
  induction passes with
  | nil => rfl
  | cons made restores rest ih =>
      obtain ⟨here, others⟩ := List.forall_mem_cons.1 uncast
      rw [here] at restores
      have same := restores.eq
      rw [same] at ih
      exact ih others

theorem Passes.append {front back : List Path} {middle : Bytes}
    (first : Passes front content middle) (second : Passes back middle final) :
    Passes (front ++ back) content final := by
  induction first with
  | nil => exact second
  | cons made restores _ ih => exact .cons made restores (ih second)

/-- Files may be added, and nothing else changes. -/
structure Extends (d d' : Disk) : Prop where
  tree : d.SameTree d'
  kept : d.Keeps d'

theorem write_extends (truthful : FileSystem.Truthful disk) {kind : Revision} {text : Text}
    {destination : Destination} (elsewhere : destination ≠ .inPlace)
    (done : ((write (m := StateM σ) input kind text destination).run s).1.status = 0) :
    Extends (disk s) (disk ((write (m := StateM σ) input kind text destination).run s).2) := by
  cases destination with
  | output =>
      rw [write_output]
      dsimp only
      rw [truthful.print]
      exact ⟨.refl _, .refl _⟩
  | inPlace => exact absurd rfl elsewhere
  | file name =>
      rw [write_file] at done ⊢
      have answered := (written_status kind (.ofText name) _).1 done
      have created := truthful.create (.ofText name) (Utf8.encode text) s answered
      obtain ⟨place, wrote, _⟩ := Disk.create_eq_ok created
      exact ⟨wrote.sameTree, Disk.keeps_create created⟩

theorem writeAll_extends (truthful : FileSystem.Truthful disk)
    {revisions : List (Revision × Destination)}
    (elsewhere : ∀ entry ∈ revisions, entry.2 ≠ .inPlace) {s : σ}
    (done : ((writeAll (m := StateM σ) (analysis input content) input revisions).run s).1.status =
      0) :
    Extends (disk s)
      (disk ((writeAll (m := StateM σ) (analysis input content) input revisions).run s).2) := by
  induction revisions generalizing s with
  | nil => exact ⟨.refl _, .refl _⟩
  | cons entry later ih =>
      obtain ⟨kind, destination⟩ := entry
      obtain ⟨here, others⟩ := List.forall_mem_cons.1 elsewhere
      obtain ⟨text, made⟩ := kind.exists_apply input content
      obtain ⟨first, rest, after⟩ := writeAll_done made done
      have front := write_extends truthful here first
      have back := ih others rest
      rw [after]
      exact ⟨front.tree.trans back.tree, front.kept.trans back.kept⟩

structure CastsInPlace (o : Options) : Prop where
  typecast : o.typecast = some .inPlace
  optimize : o.optimize ≠ some .inPlace

/-- An input that is treated without a failure gets its casts, and no other file changes. -/
theorem file_passes (truthful : FileSystem.Truthful disk) (inPlace : CastsInPlace o)
    (done : ((file (m := StateM σ) o input).run s).1.status = 0) :
    (disk s).SameTree (disk ((file (m := StateM σ) o input).run s).2) ∧
      ∀ place content, (disk s).find? place = some content →
        ∃ next, (disk ((file (m := StateM σ) o input).run s).2).find? place = some next ∧
          Passes ([input].filter fun p => (disk s).resolve p = .ok place) content next := by
  have actual := (truthful.read input s).2
  have course := file_course o input s
  generalize (file (m := StateM σ) o input).run s = result at course done ⊢
  cases course with
  | unread => cases done
  | unprinted => cases done
  | refused => exact absurd (Nat.max_eq_zero_iff.1 done).2 Nat.one_ne_zero
  | @revised held s' s'' read review clean =>
      have kept : disk s'' = disk s := (passive_disk truthful).reported read review
      rw [read] at actual
      obtain ⟨here, there, _, found⟩ := Disk.read_eq_ok_iff.1 (actual held rfl)
      obtain ⟨text, parts, made, restores⟩ := typecast_parts clean
      have revisions : o.revisions = (.typecast, .inPlace) ::
          o.optimize.toList.map ((.optimize, ·)) := by
        simp [Options.revisions, inPlace.typecast]
      have elsewhere : ∀ entry ∈ o.optimize.toList.map ((Revision.optimize, ·)),
          entry.2 ≠ .inPlace := by
        rw [List.forall_mem_map]
        rintro destination given rfl
        exact inPlace.optimize (Option.mem_toList.1 given)
      rw [Outcome.status_append, Nat.max_eq_zero_iff, revisions] at done
      have applied : Revision.typecast.apply (analysis input held) = .ok text := made
      obtain ⟨first, rest, after⟩ := writeAll_done applied done.2
      rw [write_inPlace, written_status] at first
      rw [write_inPlace] at rest after
      obtain ⟨place', wrote⟩ :=
        Disk.overwrite_eq_ok (truthful.overwrite input (Utf8.encode text) s'' first)
      -- What else is written is a new file, and the input is one that was there.
      have others := writeAll_extends truthful elsewhere rest
      rw [revisions]
      dsimp only
      rw [after]
      rw [kept] at wrote
      cases there.symm.trans wrote.resolved
      refine ⟨wrote.sameTree.trans others.tree, fun place content known => ?_⟩
      have next := others.kept place
      rw [wrote.after, Disk.find?_put] at next
      by_cases same : place = here
      · subst same
        cases found.symm.trans known
        rw [List.filter_cons_of_pos (by simpa using there)]
        exact ⟨Utf8.encode text, next _ (if_pos rfl), .cons made restores .nil⟩
      · rw [List.filter_cons_of_neg (by simpa [there] using Ne.symm same)]
        exact ⟨content, next _ (by rw [if_neg same, known]), .nil⟩

theorem files_passes (truthful : FileSystem.Truthful disk) (inPlace : CastsInPlace o)
    (inputs : List Path) (done : ((files (m := StateM σ) o inputs).run s).1.status = 0) :
    (disk s).SameTree (disk ((files (m := StateM σ) o inputs).run s).2) ∧
      ∀ place content, (disk s).find? place = some content →
        ∃ final, (disk ((files (m := StateM σ) o inputs).run s).2).find? place = some final ∧
          Passes (inputs.filter fun p => (disk s).resolve p = .ok place) content final := by
  induction inputs generalizing s with
  | nil => exact ⟨.refl _, fun _ content found => ⟨content, found, .nil⟩⟩
  | cons input later ih =>
      have sound := file_sound o input s
      rw [files_cons] at done ⊢
      dsimp only at done ⊢
      split at done
      · rename_i ended
        rw [sound.ending_eq_none done] at ended
        cases ended
      · rename_i goes
        rw [if_neg goes]
        rw [Outcome.status_append, Nat.max_eq_zero_iff] at done
        obtain ⟨tree, front⟩ := file_passes truthful inPlace done.1
        obtain ⟨tree', back⟩ := ih done.2
        refine ⟨tree.trans tree', fun place content found => ?_⟩
        obtain ⟨middle, found', first⟩ := front place content found
        obtain ⟨final, behind, second⟩ := back place middle found'
        -- Where paths lead depends on the directories, and these have not changed.
        have leads : (fun p => decide ((disk ((file (m := StateM σ) o input).run s).2).resolve p =
            .ok place)) = fun p => decide ((disk s).resolve p = .ok place) :=
          funext fun p => decide_eq_decide.2 tree.resolve_iff
        rw [leads] at second
        refine ⟨final, behind, ?_⟩
        rw [← List.singleton_append, List.filter_append]
        exact first.append second

theorem castsInPlace {arguments : List Text} (asked : Request.ofArguments arguments = .run o)
    (typecast : o.typecast = some .inPlace) : CastsInPlace o := by
  obtain ⟨r, finished⟩ := Request.exists_finish asked
  unfold Command.Reading.finish at finished
  extract_lets files destinations at finished
  split at finished
  · cases finished
  · rename_i accepted
    cases finished
    simp only [not_or, not_and] at accepted
    change r.typecast = some .inPlace at typecast
    refine ⟨typecast, fun optimize => ?_⟩
    exact accepted.2.2.1 (by simp [typecast]) (typecast.trans optimize.symm)

/-- A run that writes casts in place and succeeds leaves bytes from which, pass by pass, those of every
file can be restored, and leaves these as they are if nothing in the file is left to cast. -/
theorem typecast_restorable {arguments : List Text} (truthful : FileSystem.Truthful disk)
    (asked : Request.ofArguments arguments = .run o) (typecast : o.typecast = some .inPlace)
    (s : σ) (done : ((all (m := StateM σ) o).run s).1.exitStatus = 0)
    (found : (disk s).find? place = some content) :
    ∃ final, (disk ((all (m := StateM σ) o).run s).2).find? place = some final ∧
      Passes (o.files.filter fun input => (disk s).resolve input = .ok place) content final ∧
      ((∀ input ∈ o.files, (disk s).resolve input = .ok place →
        ∀ v ∈ (analysis input content).verdicts, v.Settled) → final = content) := by
  rw [all_exitStatus] at done
  obtain ⟨_, passes⟩ := files_passes truthful (castsInPlace asked typecast) o.files done
  obtain ⟨final, behind, made⟩ := passes place content found
  refine ⟨final, behind, made, fun settled => made.eq fun input member => ?_⟩
  obtain ⟨listed, there⟩ := List.mem_filter.1 member
  exact casts_eq_nil (settled input listed (of_decide_eq_true there))

def strayCall : List Lexeme :=
  [⟨[], .ident, "printf"⟩, ⟨[], .openParen, "("⟩, ⟨[], .string, "\"%d\""⟩, ⟨[], .comma, ","⟩,
    ⟨[.char ' '], .other, [.raw 255]⟩, ⟨[], .closeParen, ")"⟩,
    ⟨[.char '\r', .char '\n'], .punct, ";"⟩]

theorem chain_strayCall : Lexeme.Chain strayCall [] := by
  repeat' first
    | exact .nil
    | refine .cons (by decide) (by decide) (Head.read_iff_form.1 rfl) ?_

def strayDisk : Disk := ⟨["home"], [(["home", "a.c"], Utf8.encode (Lexeme.flatten strayCall))]⟩

def strayCast : Text :=
  Text.ofString "printf(\"%d\", (int) (" ++ .raw 255 :: Text.ofString "))\r\n;"

theorem analysis_strayCall (input : Path) :
    let a := analysis input (Utf8.encode (Lexeme.flatten strayCall))
    a.hasErrors = false ∧ Revision.typecast.apply a = .ok strayCast := by
  have content : Utf8.decode (Utf8.encode (Lexeme.flatten strayCall)) =
      Lexeme.flatten strayCall := by
    cbv
  have read := Lexeme.tokenize_words chain_strayCall input.text
  unfold analysis Source.analyze
  dsimp only
  rw [content, read]
  constructor <;> cbv

theorem typecast_restorable_strayDisk :
    ((all (m := StateM Disk) oneInPlace).run strayDisk).2.find? ["home", "a.c"] =
        some (Utf8.encode strayCast) ∧
      Passes [Path.ofText "a.c"] (Utf8.encode (Lexeme.flatten strayCall))
        (Utf8.encode strayCast) := by
  obtain ⟨clean, made⟩ := analysis_strayCall (Path.ofText "a.c")
  have read : (FileSystem.read (m := StateM Disk) (Path.ofText "a.c")).run strayDisk =
      (.ok (Utf8.encode (Lexeme.flatten strayCall)), strayDisk) := by
    rfl
  have done : ((all (m := StateM Disk) oneInPlace).run strayDisk).1.exitStatus = 0 := by
    rw [all_exitStatus, all_oneInPlace read (review_onDisk _ _ _) clean made]
    rfl
  have asked : Request.ofArguments ["a.c", "--typecast"] = .run oneInPlace := by decide
  have found : strayDisk.find? ["home", "a.c"] = some (Utf8.encode (Lexeme.flatten strayCall)) := by
    rfl
  obtain ⟨final, behind, passes, _⟩ :=
    typecast_restorable Disk.truthful asked rfl strayDisk done found
  have once : Passes [Path.ofText "a.c"] (Utf8.encode (Lexeme.flatten strayCall)) final := passes
  cases once with
  | cons made' restores rest =>
      cases rest
      cases made.symm.trans made'
      exact ⟨behind, passes⟩

end Run

end FormatLint
