import FormatLint.Proofs.Command.Writes

/-!
Where a command line sends what it asks for. The last of repeated options counts, and a revision is
made in place if no operand goes with its option; but two operands stand for that as well
(`Run.inPlace_iff`). A run whose options all have other operands leaves every file as it was:
`Run.spares_operands`.
-/

namespace FormatLint

namespace Destination

def ofOperand? : Option Text → Destination
  | some t => ofText t
  | none => .inPlace

/-- The operands that no file can be named by, because they stand for no operand. -/
def IsReserved (t : Text) : Prop := t = Text.ofString "<in-place>" ∨ t = Text.ofString "--"

instance (t : Text) : Decidable (IsReserved t) := by
  unfold IsReserved
  infer_instance

theorem ofText_eq_inPlace_iff {t : Text} : ofText t = .inPlace ↔ IsReserved t := by
  unfold ofText
  split
  · rename_i reserved
    exact iff_of_true rfl reserved
  · rename_i free
    split <;> exact iff_of_false (by rintro ⟨⟩) free

theorem ofOperand?_eq_inPlace_iff {operand : Option Text} :
    ofOperand? operand = .inPlace ↔ ∀ t ∈ operand, IsReserved t := by
  cases operand with
  | none => simp [ofOperand?]
  | some t => simp [ofOperand?, ofText_eq_inPlace_iff]

end Destination

def Options.destination? (o : Options) : Revision → Option Destination
  | .typecast => o.typecast
  | .optimize => o.optimize

theorem Options.mem_revisions_iff {o : Options} {kind : Revision} {destination : Destination} :
    (kind, destination) ∈ o.revisions ↔ o.destination? kind = some destination := by
  cases kind <;> simp [revisions, destination?]

namespace Command

/-- The last option that asks for the revision, with its operand if it has one. -/
def operand? (kind : Revision) : List Word → Option (Option Text)
  | [] => none
  | .revision given (some t) :: rest =>
    (operand? kind rest).or (if given = kind then some (some t) else none)
  | .revision given none :: .operand t :: rest =>
    (operand? kind rest).or (if given = kind then some (some t) else none)
  | .revision given none :: rest =>
    (operand? kind rest).or (if given = kind then some none else none)
  | _ :: rest => operand? kind rest

namespace Reading

variable {r : Reading} (kind : Revision)

def destination? (r : Reading) : Revision → Option Destination
  | .typecast => r.typecast
  | .optimize => r.optimize

theorem destination?_congr {r' : Reading} (typecast : r'.typecast = r.typecast)
    (optimize : r'.optimize = r.optimize) : r'.destination? kind = r.destination? kind := by
  cases kind
  · exact typecast
  · exact optimize

@[simp] theorem destination?_closeInputs : r.closeInputs.destination? kind = r.destination? kind := by
  unfold closeInputs
  split <;> exact destination?_congr kind rfl rfl

@[simp] theorem destination?_operand (t : Text) :
    (r.operand t).destination? kind = r.destination? kind := by
  unfold operand
  split <;> exact destination?_congr kind rfl rfl

@[simp] theorem destination?_separator : r.separator.destination? kind = r.destination? kind := by
  unfold separator
  split <;> exact destination?_congr kind rfl rfl

@[simp] theorem destination?_flags (flags : List Flag) :
    (flags.foldl Reading.flag r).destination? kind = r.destination? kind := by
  induction flags generalizing r with
  | nil => rfl
  | cons flag later ih =>
      rw [List.foldl_cons, ih]
      cases flag <;> exact destination?_congr kind rfl rfl

@[simp] theorem destination?_revise (given : Revision) (destination : Destination) :
    (r.revise given destination).destination? kind =
      if given = kind then some destination else r.destination? kind := by
  cases given <;> cases kind <;> rfl

theorem destination?_finish {o : Options} (asked : r.finish = .run o) :
    o.destination? kind = r.destination? kind := by
  unfold finish at asked
  extract_lets files destinations at asked
  split at asked
  · cases asked
  · cases asked
    cases kind <;> rfl

end Reading

/-- What is read of a command line counts from its end. -/
theorem read_destination? {r : Reading} {words : List Word} {o : Options}
    (asked : read r words = .run o) (kind : Revision) : o.destination? kind =
      ((operand? kind words).map Destination.ofOperand?).or (r.destination? kind) := by
  have last (later : Option (Option Text)) (given : Revision) (operand : Option Text)
      (before : Option Destination) :
      (later.map Destination.ofOperand?).or
          (if given = kind then some (Destination.ofOperand? operand) else before) =
        ((later.or (if given = kind then some operand else none)).map Destination.ofOperand?).or
          before := by
    cases later <;> split <;> rfl
  -- A later option overrides an earlier one in the reading, and is found first in the words.
  fun_induction read r words with
  | case1 r => exact r.destination?_finish kind asked
  | case2 r t rest ih => simpa [operand?] using ih asked
  | case3 r rest ih => simpa [operand?] using ih asked
  | case4 => cases asked
  | case5 r flags rest _ ih => simpa [operand?] using ih asked
  | case6 r given t rest ih =>
      have behind := ih asked
      rw [Reading.destination?_revise, Reading.destination?_closeInputs] at behind
      rw [operand?, behind]
      exact last _ given (some t) _
  | case7 r given t rest ih =>
      have behind := ih asked
      rw [Reading.destination?_revise, Reading.destination?_closeInputs] at behind
      rw [operand?, behind]
      exact last _ given (some t) _
  | case8 r given rest alone ih =>
      have behind := ih asked
      rw [Reading.destination?_revise, Reading.destination?_closeInputs] at behind
      rw [operand?, behind]
      · exact last _ given none _
      · exact alone
  | case9 r rest ih =>
      simp only [operand?]
      rw [ih asked, ← r.destination?_closeInputs kind]
      exact congrArg _ (Reading.destination?_congr kind rfl rfl)
  | case10 => cases asked

end Command

theorem Request.destination? {arguments : List Text} {words : List Command.Word} {o : Options}
    (read : Command.classifyAll arguments = some words) (asked : ofArguments arguments = .run o)
    (kind : Revision) :
    o.destination? kind = (Command.operand? kind words).map Destination.ofOperand? := by
  rw [ofArguments, read] at asked
  rw [Command.read_destination? asked kind]
  cases kind <;> exact Option.or_none

/-- Reading, creating a file and printing leave the files that exist as they are. -/
structure FileSystem.SparesFiles {σ : Type} [FileSystem (StateM σ)] [Console (StateM σ)]
    (disk : σ → Disk) : Prop where
  read (p : Path) (s : σ) :
    (disk s).Keeps (disk ((FileSystem.read (m := StateM σ) p).run s).2)
  create (p : Path) (content : Bytes) (s : σ) :
    (disk s).Keeps (disk ((FileSystem.create (m := StateM σ) p content).run s).2)
  print (t : Text) (s : σ) :
    (disk s).Keeps (disk ((Console.print (m := StateM σ) t).run s).2)

theorem FileSystem.Holds.sparesFiles {σ : Type} [FileSystem (StateM σ)] [Console (StateM σ)]
    {disk : σ → Disk} {leaves : Bytes → Bytes → Prop} (holds : Holds disk leaves) :
    SparesFiles disk where
  read p s := by
    rw [(holds.read p s).1]
    exact .refl _
  create p content s := by
    rcases holds.created p content s with same | ⟨left, created, _⟩
    · rw [same]
      exact .refl _
    · exact Disk.keeps_create created
  print t s := by
    rw [holds.print]
    exact .refl _

namespace Run

variable {σ : Type} [FileSystem (StateM σ)] [Console (StateM σ)] {disk : σ → Disk}
  {arguments : List Text} {words : List Command.Word} {o : Options}

theorem inPlace_iff (read : Command.classifyAll arguments = some words)
    (asked : Request.ofArguments arguments = .run o) (kind : Revision) :
    (kind, .inPlace) ∈ o.revisions ↔
      ∃ operand, Command.operand? kind words = some operand ∧
        ∀ t ∈ operand, Destination.IsReserved t := by
  rw [Options.mem_revisions_iff, Request.destination? read asked kind, Option.map_eq_some_iff]
  simp only [Destination.ofOperand?_eq_inPlace_iff]

theorem write_keepsFiles (spares : FileSystem.SparesFiles disk) (input : Path) (kind : Revision)
    (text : Text) {destination : Destination} (elsewhere : destination ≠ .inPlace) (s : σ) :
    (disk s).Keeps (disk ((write (m := StateM σ) input kind text destination).run s).2) := by
  cases destination with
  | output => exact spares.print text s
  | inPlace => exact absurd rfl elsewhere
  | file name => exact spares.create (.ofText name) (Utf8.encode text) s

theorem writeAll_keepsFiles (spares : FileSystem.SparesFiles disk) (input : Path) (content : Bytes)
    {revisions : List (Revision × Destination)} (elsewhere : ∀ entry ∈ revisions, entry.2 ≠ .inPlace)
    (s : σ) :
    (disk s).Keeps
      (disk ((writeAll (m := StateM σ) (analysis input content) input revisions).run s).2) := by
  induction revisions generalizing s with
  | nil => exact .refl _
  | cons entry later ih =>
      obtain ⟨kind, destination⟩ := entry
      obtain ⟨here, others⟩ := List.forall_mem_cons.1 elsewhere
      obtain ⟨text, made⟩ := kind.exists_apply input content
      have first := write_keepsFiles spares input kind text here s
      rw [writeAll_cons made]
      dsimp only
      split
      · exact first.trans (ih others _)
      · exact first

theorem passive_keepsFiles (spares : FileSystem.SparesFiles disk) :
    Passive fun s s' => (disk s).Keeps (disk s') where
  refl _ := .refl _
  trans := .trans
  read := spares.read
  print := spares.print

theorem file_keepsFiles (spares : FileSystem.SparesFiles disk)
    (elsewhere : ∀ entry ∈ o.revisions, entry.2 ≠ .inPlace) (input : Path) (s : σ) :
    (disk s).Keeps (disk ((file (m := StateM σ) o input).run s).2) := by
  have passive := passive_keepsFiles spares
  have course := file_course o input s
  generalize (file (m := StateM σ) o input).run s = result at course ⊢
  cases course with
  | unread read =>
      have reads := spares.read input s
      rwa [read] at reads
  | unprinted read review => exact passive.reported read review
  | refused read review => exact passive.reported read review
  | @revised content s' s'' read review =>
      have reported := passive.reported read review
      exact reported.trans (writeAll_keepsFiles spares input content elsewhere s'')

theorem files_keepsFiles (spares : FileSystem.SparesFiles disk)
    (elsewhere : ∀ entry ∈ o.revisions, entry.2 ≠ .inPlace) (inputs : List Path) (s : σ) :
    (disk s).Keeps (disk ((files (m := StateM σ) o inputs).run s).2) := by
  induction inputs generalizing s with
  | nil => exact .refl _
  | cons input later ih =>
      have here := file_keepsFiles spares elsewhere input s
      rw [files_cons]
      dsimp only
      split
      · exact here
      · exact here.trans (ih _)

/-- A run leaves every file as it was if each revision that is asked for has an operand, other than
those that stand for none. -/
theorem spares_operands (spares : FileSystem.SparesFiles disk)
    (read : Command.classifyAll arguments = some words)
    (asked : Request.ofArguments arguments = .run o)
    (named : ∀ kind operand, Command.operand? kind words = some operand →
      ∃ t, operand = some t ∧ ¬ Destination.IsReserved t)
    (s : σ) {place : Place} {content : Bytes} (found : (disk s).find? place = some content) :
    (disk ((all (m := StateM σ) o).run s).2).find? place = some content := by
  refine files_keepsFiles spares ?_ o.files s place content found
  rintro ⟨kind, _⟩ inPlace rfl
  obtain ⟨operand, given, reserved⟩ := (inPlace_iff read asked kind).1 inPlace
  obtain ⟨t, rfl, free⟩ := named kind operand given
  exact absurd (reserved t rfl) free

/-- A file that exists may be named as the destination, too: it is not written to. -/
theorem spares_operands_existingFile :
    Request.ofArguments ["a.c", "--typecast", "b.c"] =
        .run ⟨[Path.ofText "a.c"], some (.file "b.c"), none, 0, false⟩ ∧
      ((all (m := StateM Disk) ⟨[Path.ofText "a.c"], some (.file "b.c"), none, 0, false⟩).run
        twoFiles).2.find? ["home", "b.c"] = some [] := by
  have read : Command.classifyAll ["a.c", "--typecast", "b.c"] =
      some [.operand "a.c", .revision .typecast none, .operand "b.c"] := by decide
  have asked : Request.ofArguments ["a.c", "--typecast", "b.c"] =
      .run ⟨[Path.ofText "a.c"], some (.file "b.c"), none, 0, false⟩ := by decide
  refine ⟨asked, spares_operands Disk.holds.sparesFiles read asked ?_ twoFiles (by decide)⟩
  intro kind operand given
  cases kind with
  | typecast =>
      cases given
      exact ⟨_, rfl, by decide⟩
  | optimize => cases given

/-- The operand `<in-place>` stands for no operand: the input is written to, though a file is named. -/
theorem reserved_operand_overwrites :
    ¬ ∀ (arguments : List Text) (words : List Command.Word) (o : Options) (d : Disk) (place : Place)
      (content : Bytes), Command.classifyAll arguments = some words →
      Request.ofArguments arguments = .run o →
      (∀ kind operand, Command.operand? kind words = some operand → ∃ t, operand = some t) →
      d.find? place = some content →
      ((all (m := StateM Disk) o).run d).2.find? place = some content := by
  intro spares
  have kept := spares ["a.c", "--typecast", "<in-place>"]
    [.operand "a.c", .revision .typecast none, .operand "<in-place>"] oneInPlace twoFiles
    ["home", "a.c"] (Utf8.encode "printf(\"%d\", x);") (by decide) (by decide)
    (fun kind operand given => by
      cases kind with
      | typecast =>
          cases given
          exact ⟨_, rfl⟩
      | optimize => cases given)
    (by decide)
  obtain ⟨clean, made⟩ := analysis_call (Path.ofText "a.c")
  have read : (FileSystem.read (m := StateM Disk) (Path.ofText "a.c")).run twoFiles =
      (.ok (Utf8.encode "printf(\"%d\", x);"), twoFiles) := by
    rfl
  rw [all_oneInPlace read (review_onDisk _ _ _) clean made] at kept
  revert kept
  decide

end Run

end FormatLint
