import FormatLint.Proofs.Call.PreprocessorLine
import FormatLint.Proofs.Command.Machine

/-!
What a run may write. `Run.writes_only` says it of every run that a command line asks for: treating an
input changes nothing but the input itself, if it is to be revised in place, and the files that are
named as destinations, which must be new; and nothing at all if the input cannot be read or has
errors. What is written there is the revised text, unless writing it fails and the run says so.
-/

namespace FormatLint

/-- A file that is named as a destination is not named by a single hyphen. -/
def Destination.IsNamed (destination : Destination) : Prop :=
  ∀ name, destination = .file name → name ≠ Text.ofString "-"

namespace Command

def Reading.IsNamed (r : Reading) : Prop :=
  (∀ d ∈ r.typecast, d.IsNamed) ∧ ∀ d ∈ r.optimize, d.IsNamed

namespace Reading

variable {r : Reading}

theorem IsNamed.congr {r' : Reading} (named : r.IsNamed) (typecast : r'.typecast = r.typecast)
    (optimize : r'.optimize = r.optimize) : r'.IsNamed := by
  rwa [IsNamed, typecast, optimize]

theorem IsNamed.closeInputs (named : r.IsNamed) : r.closeInputs.IsNamed := by
  unfold Reading.closeInputs
  split
  · exact named.congr rfl rfl
  · exact named

theorem IsNamed.operand (named : r.IsNamed) (t : Text) : (r.operand t).IsNamed := by
  unfold Reading.operand
  split <;> exact named.congr rfl rfl

theorem IsNamed.separator (named : r.IsNamed) : r.separator.IsNamed := by
  unfold Reading.separator
  split
  · exact named.congr rfl rfl
  · exact named

theorem IsNamed.flags (named : r.IsNamed) (flags : List Flag) :
    (flags.foldl Reading.flag r).IsNamed := by
  induction flags generalizing r with
  | nil => exact named
  | cons flag later ih => cases flag <;> exact ih (named.congr rfl rfl)

theorem IsNamed.revise (named : r.IsNamed) (kind : Revision) {destination : Destination}
    (other : destination.IsNamed) : (r.revise kind destination).IsNamed := by
  cases kind
  · exact ⟨by rintro _ ⟨⟩; exact other, named.2⟩
  · exact ⟨named.1, by rintro _ ⟨⟩; exact other⟩

end Reading

end Command

namespace Run

/-- The text is a revision of what the input holds, in which there are no errors. -/
structure Revised (d : Disk) (input : Path) (kind : Revision) (text : Text) : Prop where
  clean : ∃ content, d.read input = .ok content ∧ (analysis input content).hasErrors = false ∧
    kind.apply (analysis input content) = .ok text

/-- The content is that of the revised text. Or else it is what a failed write left of that, and the
outcome says so. -/
def Delivers (leaves : Bytes → Bytes → Prop) (outcome : Outcome) (kind : Revision) (target : Path)
    (text : Text) (content : Bytes) : Prop :=
  content = Utf8.encode text ∨
    leaves (Utf8.encode text) content ∧ outcome.status ≠ 0 ∧
      ∃ fault : FileFault, failure kind (fault.message target) ∈ outcome.log

/-- What becomes of a place when an input is treated. The disks are those before and after. -/
inductive Change (leaves : Bytes → Bytes → Prop) (o : Options) (input : Path) (outcome : Outcome)
    (d d' : Disk) (place : Place) : Prop
  | kept (same : d'.find? place = d.find? place)
  /-- The input is revised in place. -/
  | replaced {kind : Revision} {text : Text} {content : Bytes}
      (asked : (kind, .inPlace) ∈ o.revisions) (there : d.resolve input = .ok place)
      (revised : Revised d input kind text) (found : d'.find? place = some content)
      (delivers : Delivers leaves outcome kind input text content)
  /-- The revised text is a new file. -/
  | created {kind : Revision} {name text : Text} {content : Bytes}
      (asked : (kind, .file name) ∈ o.revisions) (named : name ≠ Text.ofString "-")
      (there : d.resolve (Path.ofText name) = .ok place)
      (vacant : d.find? place = none ∧ d.isDirectory place = false)
      (revised : Revised d input kind text) (found : d'.find? place = some content)
      (delivers : Delivers leaves outcome kind (.ofText name) text content)

/-- No directory comes or goes when an input is treated, and every place changes as it may. -/
structure Follows (leaves : Bytes → Bytes → Prop) (o : Options) (input : Path) (outcome : Outcome)
    (d d' : Disk) : Prop where
  tree : d.SameTree d'
  change : ∀ place, Change leaves o input outcome d d' place

variable {o : Options} {input : Path} {d d' d'' : Disk} {place : Place} {kind : Revision}
  {text : Text} {outcome : Outcome} {a : Analysis} {leaves : Bytes → Bytes → Prop}

theorem Follows.refl (leaves : Bytes → Bytes → Prop) (o : Options) (input : Path)
    (outcome : Outcome) (d : Disk) : Follows leaves o input outcome d d :=
  ⟨.refl d, fun _ => .kept rfl⟩

theorem Delivers.append {target : Path} {content : Bytes}
    (delivers : Delivers leaves outcome kind target text content) (later : Outcome) :
    Delivers leaves (outcome ++ later) kind target text content := by
  rcases delivers with whole | ⟨torn, failed, fault, noted⟩
  · exact .inl whole
  · refine .inr ⟨torn, fun done => failed ?_, fault, List.mem_append_left _ noted⟩
    exact (Nat.max_eq_zero_iff.1 done).1

theorem Follows.append (follows : Follows leaves o input outcome d d') (later : Outcome) :
    Follows leaves o input (outcome ++ later) d d' := by
  refine ⟨follows.tree, fun place => ?_⟩
  cases follows.change place with
  | kept same => exact .kept same
  | replaced asked there revised found delivers =>
    exact .replaced asked there revised found (delivers.append later)
  | created asked named there vacant revised found delivers =>
    exact .created asked named there vacant revised found (delivers.append later)

theorem Change.congr (change : Change leaves o input outcome d d' place)
    (same : d''.find? place = d'.find? place) : Change leaves o input outcome d d'' place := by
  cases change with
  | kept before => exact .kept (same.trans before)
  | replaced asked there revised found delivers =>
    exact .replaced asked there revised (same.trans found) delivers
  | created asked named there vacant revised found delivers =>
    exact .created asked named there vacant revised (same.trans found) delivers

theorem Change.vacant (change : Change leaves o input outcome d d' place)
    (absent : d'.find? place = none) : d.find? place = none := by
  cases change with
  | kept same => rw [← same, absent]
  | replaced _ _ _ found => rw [found] at absent; cases absent
  | created _ _ _ vacant => exact vacant.1

/-- Writing at one place leaves the others to what became of them before. -/
theorem Follows.wrote (follows : Follows leaves o input outcome d d') {p : Path} {content : Bytes}
    (wrote : d'.Wrote p place content d'')
    (here : d''.find? place = some content → Change leaves o input outcome d d'' place) :
    Follows leaves o input outcome d d'' := by
  refine ⟨follows.tree.trans wrote.sameTree, fun other => ?_⟩
  have found : d''.find? other = if other = place then some content else d'.find? other := by
    rw [wrote.after, Disk.find?_put]
  by_cases same : other = place
  · subst same
    exact here (by simpa using found)
  · exact (follows.change other).congr (by simpa [same] using found)

theorem Follows.overwrite (follows : Follows leaves o input outcome d d') {content : Bytes}
    (asked : (kind, .inPlace) ∈ o.revisions) (revised : Revised d input kind text)
    (written : d'.overwrite input content = .ok d'')
    (delivers : Delivers leaves outcome kind input text content) :
    Follows leaves o input outcome d d'' := by
  obtain ⟨place, wrote⟩ := Disk.overwrite_eq_ok written
  refine follows.wrote wrote fun found => ?_
  exact .replaced asked (follows.tree.resolve_iff.1 wrote.resolved) revised found delivers

theorem Follows.create (follows : Follows leaves o input outcome d d') {name : Text} {content : Bytes}
    (asked : (kind, .file name) ∈ o.revisions) (named : name ≠ Text.ofString "-")
    (revised : Revised d input kind text)
    (created : d'.create (Path.ofText name) content = .ok d'')
    (delivers : Delivers leaves outcome kind (.ofText name) text content) :
    Follows leaves o input outcome d d'' := by
  obtain ⟨place, wrote, absent⟩ := Disk.create_eq_ok created
  refine follows.wrote wrote fun found => ?_
  have vacant := (follows.change place).vacant absent
  have file : d.isDirectory place = false := by rw [← follows.tree.directories, wrote.file]
  exact .created asked named (follows.tree.resolve_iff.1 wrote.resolved) ⟨vacant, file⟩ revised found
    delivers

variable {σ : Type} [FileSystem (StateM σ)] [Console (StateM σ)] {disk : σ → Disk}

/-- What a run leaves alone: all files but the inputs that are revised in place. -/
structure Spares (o : Options) (inputs : List Path) (d d' : Disk) : Prop where
  tree : d.SameTree d'
  spared : ∀ place content, d.find? place = some content → d'.find? place = some content ∨
    (∃ kind, (kind, .inPlace) ∈ o.revisions) ∧ ∃ input ∈ inputs, d.resolve input = .ok place

theorem Follows.spares (follows : Follows leaves o input outcome d d') : Spares o [input] d d' := by
  refine ⟨follows.tree, fun place content found => ?_⟩
  cases follows.change place with
  | kept same => exact .inl (same.trans found)
  | replaced asked there _ _ => exact .inr ⟨⟨_, asked⟩, input, by simp, there⟩
  | created _ _ _ vacant => rw [vacant.1] at found; cases found

theorem Spares.mono {inputs more : List Path} (spares : Spares o inputs d d')
    (subset : inputs ⊆ more) : Spares o more d d' := by
  refine ⟨spares.tree, fun place content found => ?_⟩
  rcases spares.spared place content found with same | ⟨asked, input, listed, there⟩
  · exact .inl same
  · exact .inr ⟨asked, input, subset listed, there⟩

theorem Spares.trans {first second : List Path} (front : Spares o first d d')
    (back : Spares o second d' d'') : Spares o (first ++ second) d d'' := by
  refine ⟨front.tree.trans back.tree, fun place content found => ?_⟩
  rcases front.spared place content found with same | ⟨asked, input, listed, there⟩
  · rcases back.spared place content same with still | ⟨asked, input, listed, there⟩
    · exact .inl still
    · exact .inr ⟨asked, input, List.mem_append_right _ listed, front.tree.resolve_iff.1 there⟩
  · exact .inr ⟨asked, input, List.mem_append_left _ listed, there⟩

/-- One file is revised in place, the other one is not named. -/
def oneInPlace : Options := ⟨[Path.ofText "a.c"], some .inPlace, none, 0, false⟩

def twoFiles : Disk :=
  ⟨["home"], [(["home", "a.c"], Utf8.encode "printf(\"%d\", x);"), (["home", "b.c"], [])]⟩

theorem analysis_call (input : Path) :
    let a := analysis input (Utf8.encode "printf(\"%d\", x);")
    a.hasErrors = false ∧ Revision.typecast.apply a = .ok "printf(\"%d\", (int) (x));" := by
  have content : Utf8.decode (Utf8.encode "printf(\"%d\", x);") =
      Lexeme.flatten PreprocessorLine.callWords := by
    cbv
  have read := Lexeme.tokenize_words PreprocessorLine.chain_callWords input.text
  unfold analysis Source.analyze
  dsimp only
  rw [content, read]
  constructor <;> cbv

theorem all_oneInPlace {s : σ} {content : Bytes}
    (read : (FileSystem.read (m := StateM σ) (Path.ofText "a.c")).run s = (.ok content, s))
    (review : (review (m := StateM σ) oneInPlace (analysis (Path.ofText "a.c") content)).run s =
      (reviewed oneInPlace (analysis (Path.ofText "a.c") content), s))
    (clean : (analysis (Path.ofText "a.c") content).hasErrors = false)
    (made : Revision.typecast.apply (analysis (Path.ofText "a.c") content) = .ok text) :
    let answer := (FileSystem.overwrite (m := StateM σ) (Path.ofText "a.c") (Utf8.encode text)).run s
    (all (m := StateM σ) oneInPlace).run s =
      (reviewed oneInPlace (analysis (Path.ofText "a.c") content) ++
        (.ofLog [] 0 ++ written .typecast (Path.ofText "a.c") answer.1), answer.2) := by
  have one : oneInPlace.revisions = [(.typecast, .inPlace)] := rfl
  rw [all, oneInPlace, files_singleton, ← oneInPlace, file_read read, treat_revised review clean, one,
    writeAll_inPlace made]
  rfl

end Run

end FormatLint
