import FormatLint.Command.Run
import FormatLint.Proofs.Analysis.Below
import FormatLint.Proofs.Command.Disk

/-!
A run step by step. What treating an input comes to follows from what reading it answers, from whether
its report can be printed, and then from what writing its revisions comes to (`Run.file_course`).
Revisions can always be made, so nothing but a text that cannot be printed ends a run early:
`Run.files_sound`.
-/

namespace FormatLint

/-- A file system whose answers are true: what is read is there, and an access that succeeds does to
the disk what the disk says. Nothing is known of the disk behind an access that fails. -/
structure FileSystem.Truthful {σ : Type} [FileSystem (StateM σ)] [Console (StateM σ)]
    (disk : σ → Disk) : Prop where
  read (p : Path) (s : σ) :
    let result := (FileSystem.read (m := StateM σ) p).run s
    disk result.2 = disk s ∧ ∀ content, result.1 = .ok content → (disk s).read p = .ok content
  create (p : Path) (content : Bytes) (s : σ) :
    let result := (FileSystem.create (m := StateM σ) p content).run s
    result.1 = .ok () → (disk s).create p content = .ok (disk result.2)
  overwrite (p : Path) (content : Bytes) (s : σ) :
    let result := (FileSystem.overwrite (m := StateM σ) p content).run s
    result.1 = .ok () → (disk s).overwrite p content = .ok (disk result.2)
  print (t : Text) (s : σ) : disk ((Console.print (m := StateM σ) t).run s).2 = disk s

theorem Disk.commit_ok {d : Disk} {change : Except FileFault Disk}
    (done : (d.commit change).1 = .ok ()) : change = .ok (d.commit change).2 := by
  cases change with
  | ok after => rfl
  | error fault => cases done

theorem Disk.truthful : FileSystem.Truthful (fun d : Disk => d) where
  read _ _ := ⟨rfl, fun _ done => done⟩
  create _ _ _ := commit_ok
  overwrite _ _ _ := commit_ok
  print _ _ := rfl

namespace Outcome

variable (first second third : Outcome)

@[simp] theorem log_append : (first ++ second).log = first.log ++ second.log := rfl

@[simp] theorem status_append : (first ++ second).status = max first.status second.status := rfl

@[simp] theorem ending_append :
    (first ++ second).ending = (first.ending <|> second.ending) := rfl

theorem eq_of_fields {first second : Outcome} (output : first.output = second.output)
    (log : first.log = second.log) (status : first.status = second.status)
    (ending : first.ending = second.ending) : first = second := by
  cases first
  cases second
  cases output
  cases log
  cases status
  cases ending
  rfl

@[simp] theorem append_empty : first ++ empty = first :=
  eq_of_fields (List.append_nil _) (List.append_nil _) (Nat.max_zero _) (by simp [empty])

theorem append_assoc : first ++ second ++ third = first ++ (second ++ third) :=
  eq_of_fields (List.append_assoc _ _ _) (List.append_assoc _ _ _) (Nat.max_assoc _ _ _) (by
    cases ending : first.ending <;> simp [ending])

/-- Nothing overlaps, and the status of what ended early is 1. -/
structure Sound (o : Outcome) : Prop where
  status : o.status ≤ 1
  ending : ∀ ending ∈ o.ending, o.status = 1 ∧ ∃ fault, ending = .unprinted fault

variable {first second}

theorem sound_ofLog (log : List LogEntry) {status : Nat} (small : status ≤ 1) :
    (ofLog log status).Sound := ⟨small, by rintro _ ⟨⟩⟩

theorem Sound.append (front : first.Sound) (back : second.Sound) : (first ++ second).Sound := by
  refine ⟨Nat.max_le.2 ⟨front.status, back.status⟩, fun ending found => ?_⟩
  rw [status_append]
  rw [ending_append] at found
  have small := front.status
  have small' := back.status
  cases early : first.ending with
  | none =>
      rw [early] at found
      obtain ⟨one, unprinted⟩ := back.ending ending found
      exact ⟨by omega, unprinted⟩
  | some cause =>
      rw [early] at found
      obtain ⟨one, unprinted⟩ := front.ending ending (early ▸ found)
      exact ⟨by omega, unprinted⟩

theorem Sound.exitStatus_eq (sound : first.Sound) : first.exitStatus = first.status := by
  unfold exitStatus
  split
  · rename_i overlap found
    obtain ⟨_, _, unprinted⟩ := sound.ending _ found
    cases unprinted
  · rfl

/-- What succeeds is not ended early. -/
theorem Sound.ending_eq_none (sound : first.Sound) (done : first.status = 0) :
    first.ending = none := by
  refine Option.eq_none_iff_forall_not_mem.2 fun ending found => ?_
  rw [(sound.ending ending found).1] at done
  cases done

end Outcome

def Run.analysis (input : Path) (content : Bytes) : Analysis :=
  Source.analyze ⟨input.text, Utf8.decode content⟩ .standard

theorem Revision.exists_apply (kind : Revision) (input : Path) (content : Bytes) :
    ∃ text, kind.apply (Run.analysis input content) = .ok text := by
  cases kind with
  | typecast => exact Analysis.exists_typecast _ _
  | optimize => exact Analysis.exists_optimize _ _

theorem Command.exists_finish {r : Reading} {words : List Word} {o : Options}
    (asked : read r words = .run o) : ∃ r' : Reading, r'.finish = .run o := by
  fun_induction read r words with
  | case1 r => exact ⟨r, asked⟩
  | case4 => cases asked
  | case10 => cases asked
  | case2 _ _ _ ih | case3 _ _ ih | case5 _ _ _ _ ih | case6 _ _ _ _ ih | case7 _ _ _ _ ih
  | case8 _ _ _ _ ih | case9 _ _ ih => exact ih asked

theorem Request.exists_finish {arguments : List Text} {o : Options}
    (asked : ofArguments arguments = .run o) :
    ∃ r : Command.Reading, r.finish = .run o := by
  unfold ofArguments at asked
  split at asked
  · exact Command.exists_finish asked
  · cases asked

namespace Run

variable {σ : Type} [Console (StateM σ)] {o : Options} {a : Analysis}

/-- The outcome of a report that is printed. -/
def reviewed (o : Options) (a : Analysis) : Outcome := ⟨(report? o a).getD [], a.log, 0, none⟩

theorem review_silent (silent : report? o a = none) (s : σ) :
    (review (m := StateM σ) o a).run s = (reviewed o a, s) := by
  unfold review reviewed
  rw [silent]
  rfl

theorem review_reported {report : Text} (spoken : report? o a = some report) (s : σ) :
    (review (m := StateM σ) o a).run s =
      (reported a report ((Console.print (m := StateM σ) report).run s).1,
        ((Console.print (m := StateM σ) report).run s).2) := by
  unfold review
  rw [spoken]
  rfl

/-- The report is printed, or the run ends. -/
theorem review_cases (o : Options) (a : Analysis) (s : σ) :
    ((review (m := StateM σ) o a).run s).1 = reviewed o a ∨
      ∃ fault, ((review (m := StateM σ) o a).run s).1 = unprinted a.log fault := by
  cases spoken : report? o a with
  | none => exact .inl (by rw [review_silent spoken])
  | some report =>
      rw [review_reported spoken, reviewed, spoken]
      cases ((Console.print (m := StateM σ) report).run s).1 with
      | ok => exact .inl rfl
      | error fault => exact .inr ⟨fault, rfl⟩

theorem review_printed {s : σ} (printed : ∀ report ∈ report? o a,
    (Console.print (m := StateM σ) report).run s = (.ok (), s)) :
    (review (m := StateM σ) o a).run s = (reviewed o a, s) := by
  cases spoken : report? o a with
  | none => exact review_silent spoken s
  | some report =>
      rw [review_reported spoken, printed report spoken, reviewed, spoken]
      rfl

theorem review_onDisk (o : Options) (a : Analysis) (d : Disk) :
    (review (m := StateM Disk) o a).run d = (reviewed o a, d) :=
  review_printed fun _ _ => rfl

variable [FileSystem (StateM σ)] {input : Path} {content : Bytes} {s s' s'' : σ} {fault : FileFault}
  {kind : Revision} {text : Text} {R : σ → σ → Prop}

/-- A relation of each state to what becomes of it by reading and printing. -/
structure Passive (R : σ → σ → Prop) : Prop where
  refl (s : σ) : R s s
  trans {s s' s'' : σ} (first : R s s') (second : R s' s'') : R s s''
  read (p : Path) (s : σ) : R s ((FileSystem.read (m := StateM σ) p).run s).2
  print (t : Text) (s : σ) : R s ((Console.print (m := StateM σ) t).run s).2

theorem Passive.reporting (passive : Passive R) (o : Options) (a : Analysis) (s : σ) :
    R s ((review (m := StateM σ) o a).run s).2 := by
  cases spoken : report? o a with
  | none =>
      rw [review_silent spoken]
      exact passive.refl s
  | some report =>
      rw [review_reported spoken]
      exact passive.print report s

/-- An input has been read and reported on. -/
theorem Passive.reported (passive : Passive R) {answer : Except FileFault Bytes} {outcome : Outcome}
    (read : (FileSystem.read (m := StateM σ) input).run s = (answer, s'))
    (review : (review (m := StateM σ) o a).run s' = (outcome, s'')) : R s s'' := by
  have reading := passive.read input s
  have reporting := passive.reporting o a s'
  rw [read] at reading
  rw [review] at reporting
  exact passive.trans reading reporting

theorem passive_disk {disk : σ → Disk} (truthful : FileSystem.Truthful disk) :
    Passive fun s s' => disk s' = disk s where
  refl _ := rfl
  trans first second := second.trans first
  read p s := (truthful.read p s).1
  print := truthful.print

theorem file_unread
    (read : (FileSystem.read (m := StateM σ) input).run s = (.error fault, s')) :
    (file (m := StateM σ) o input).run s = (unread input fault, s') := by
  unfold file
  rw [StateT.run_bind, read]
  rfl

theorem file_read (read : (FileSystem.read (m := StateM σ) input).run s = (.ok content, s')) :
    (file (m := StateM σ) o input).run s =
      (treat (m := StateM σ) o input (analysis input content)).run s' := by
  unfold file
  rw [StateT.run_bind, read]
  rfl

theorem treat_unprinted {fault : PrintFault} {log : List LogEntry}
    (review : (review (m := StateM σ) o a).run s = (unprinted log fault, s')) :
    (treat (m := StateM σ) o input a).run s = (unprinted log fault, s') := by
  unfold treat
  rw [StateT.run_bind, review]
  rfl

theorem treat_refused (review : (review (m := StateM σ) o a).run s = (reviewed o a, s'))
    (errors : a.hasErrors = true) :
    (treat (m := StateM σ) o input a).run s = (reviewed o a ++ refused o input, s') := by
  unfold treat
  rw [StateT.run_bind, review]
  dsimp only [bind, pure]
  rw [if_neg (by simp [reviewed]), if_pos errors]
  rfl

theorem treat_revised (review : (review (m := StateM σ) o a).run s = (reviewed o a, s'))
    (clean : a.hasErrors = false) :
    (treat (m := StateM σ) o input a).run s =
      (reviewed o a ++ ((writeAll (m := StateM σ) a input o.revisions).run s').1,
        ((writeAll (m := StateM σ) a input o.revisions).run s').2) := by
  unfold treat
  rw [StateT.run_bind, review]
  dsimp only [bind, pure]
  rw [if_neg (by simp [reviewed]), if_neg (Bool.eq_false_iff.1 clean)]
  rfl

/-- How treating an input can go, with what comes of it. -/
inductive Course (o : Options) (input : Path) (s : σ) : Outcome × σ → Prop
  | unread {fault : FileFault} {s' : σ}
      (read : (FileSystem.read (m := StateM σ) input).run s = (.error fault, s')) :
      Course o input s (unread input fault, s')
  | unprinted {content : Bytes} {fault : PrintFault} {s' s'' : σ}
      (read : (FileSystem.read (m := StateM σ) input).run s = (.ok content, s'))
      (review : (review (m := StateM σ) o (analysis input content)).run s' =
        (unprinted (analysis input content).log fault, s'')) :
      Course o input s (Run.unprinted (analysis input content).log fault, s'')
  | refused {content : Bytes} {s' s'' : σ}
      (read : (FileSystem.read (m := StateM σ) input).run s = (.ok content, s'))
      (review : (review (m := StateM σ) o (analysis input content)).run s' =
        (reviewed o (analysis input content), s''))
      (errors : (analysis input content).hasErrors = true) :
      Course o input s (reviewed o (analysis input content) ++ refused o input, s'')
  | revised {content : Bytes} {s' s'' : σ}
      (read : (FileSystem.read (m := StateM σ) input).run s = (.ok content, s'))
      (review : (review (m := StateM σ) o (analysis input content)).run s' =
        (reviewed o (analysis input content), s''))
      (clean : (analysis input content).hasErrors = false) :
      Course o input s (reviewed o (analysis input content) ++
          ((writeAll (m := StateM σ) (analysis input content) input o.revisions).run s'').1,
        ((writeAll (m := StateM σ) (analysis input content) input o.revisions).run s'').2)

theorem file_course (o : Options) (input : Path) (s : σ) :
    Course o input s ((file (m := StateM σ) o input).run s) := by
  cases read : (FileSystem.read (m := StateM σ) input).run s with | mk answer s'
  cases answer with
  | error fault =>
      rw [file_unread read]
      exact .unread read
  | ok content =>
      rw [file_read read]
      have spoken := review_cases o (analysis input content) s'
      cases review : (review (m := StateM σ) o (analysis input content)).run s' with | mk outcome s''
      rw [review] at spoken
      rcases spoken with rfl | ⟨fault, rfl⟩
      · cases errors : (analysis input content).hasErrors with
        | true =>
            rw [treat_refused review errors]
            exact .refused read review errors
        | false =>
            rw [treat_revised review errors]
            exact .revised read review errors
      · rw [treat_unprinted review]
        exact .unprinted read review

theorem writeAll_nil (a : Analysis) :
    (writeAll (m := StateM σ) a input []).run s = (.empty, s) := rfl

theorem writeAll_cons {a : Analysis} {destination : Destination}
    {later : List (Revision × Destination)} (made : kind.apply a = .ok text) :
    (writeAll (m := StateM σ) a input ((kind, destination) :: later)).run s =
      let first := (write (m := StateM σ) input kind text destination).run s
      let outcome := .ofLog (kind.log a) 0 ++ first.1
      if outcome.status = 0 then
        (outcome ++ ((writeAll (m := StateM σ) a input later).run first.2).1,
          ((writeAll (m := StateM σ) a input later).run first.2).2)
      else (outcome, first.2) := by
  rw [writeAll, made]
  dsimp only
  rw [StateT.run_bind]
  dsimp only [bind, pure]
  split <;> rfl

theorem writeAll_done {a : Analysis} {destination : Destination}
    {later : List (Revision × Destination)} (made : kind.apply a = .ok text)
    (done : ((writeAll (m := StateM σ) a input ((kind, destination) :: later)).run s).1.status =
      0) :
    let first := (write (m := StateM σ) input kind text destination).run s
    first.1.status = 0 ∧ ((writeAll (m := StateM σ) a input later).run first.2).1.status = 0 ∧
      ((writeAll (m := StateM σ) a input ((kind, destination) :: later)).run s).2 =
        ((writeAll (m := StateM σ) a input later).run first.2).2 := by
  rw [writeAll_cons made] at done ⊢
  dsimp only at done ⊢
  split at done
  · rename_i first
    rw [if_pos first]
    rw [Outcome.status_append, Nat.max_eq_zero_iff] at first done
    exact ⟨first.2, done.2, rfl⟩
  · rename_i failed
    exact absurd done failed

theorem write_output :
    (write (m := StateM σ) input kind text .output).run s =
      (writtenOut kind text ((Console.print (m := StateM σ) text).run s).1,
        ((Console.print (m := StateM σ) text).run s).2) := rfl

theorem write_inPlace :
    (write (m := StateM σ) input kind text .inPlace).run s =
      (written kind input ((FileSystem.overwrite (m := StateM σ) input (Utf8.encode text)).run s).1,
        ((FileSystem.overwrite (m := StateM σ) input (Utf8.encode text)).run s).2) := rfl

theorem writeAll_inPlace {a : Analysis} (made : kind.apply a = .ok text) (s : σ) :
    let answer := (FileSystem.overwrite (m := StateM σ) input (Utf8.encode text)).run s
    (writeAll (m := StateM σ) a input [(kind, .inPlace)]).run s =
      (.ofLog (kind.log a) 0 ++ written kind input answer.1, answer.2) := by
  rw [writeAll_cons made, write_inPlace]
  dsimp only
  split
  · rw [writeAll_nil, Outcome.append_empty]
  · rfl

theorem write_file {name : Text} :
    (write (m := StateM σ) input kind text (.file name)).run s =
      (written kind (.ofText name)
          ((FileSystem.create (m := StateM σ) (.ofText name) (Utf8.encode text)).run s).1,
        ((FileSystem.create (m := StateM σ) (.ofText name) (Utf8.encode text)).run s).2) := rfl

theorem written_status (kind : Revision) (target : Path) (answer : Except FileFault Unit) :
    (written kind target answer).status = 0 ↔ answer = .ok () := by
  cases answer <;> simp [written, Outcome.ofLog]

theorem written_sound (kind : Revision) (target : Path) (answer : Except FileFault Unit) :
    (written kind target answer).Sound := by
  cases answer with
  | ok => exact Outcome.sound_ofLog _ (Nat.zero_le 1)
  | error fault => exact Outcome.sound_ofLog _ (Nat.le_refl 1)

theorem unprinted_sound (log : List LogEntry) (fault : PrintFault) : (unprinted log fault).Sound :=
  ⟨Nat.le_refl 1, by rintro _ ⟨⟩; exact ⟨rfl, fault, rfl⟩⟩

theorem writtenOut_sound (kind : Revision) (text : Text) (answer : Except PrintFault Unit) :
    (writtenOut kind text answer).Sound := by
  cases answer with
  | ok => exact ⟨Nat.zero_le 1, by rintro _ ⟨⟩⟩
  | error fault =>
      cases fault with
      | encoding => exact unprinted_sound [] .encoding
      | system fault => exact Outcome.sound_ofLog _ (Nat.le_refl 1)

theorem write_sound (input : Path) (kind : Revision) (text : Text) (destination : Destination)
    (s : σ) : ((write (m := StateM σ) input kind text destination).run s).1.Sound := by
  cases destination with
  | output => exact writtenOut_sound kind text _
  | inPlace => exact written_sound kind input _
  | file name => exact written_sound kind (.ofText name) _

theorem writeAll_sound (input : Path) (content : Bytes) (revisions : List (Revision × Destination))
    (s : σ) :
    ((writeAll (m := StateM σ) (analysis input content) input revisions).run s).1.Sound := by
  induction revisions generalizing s with
  | nil => exact Outcome.sound_ofLog [] (Nat.zero_le 1)
  | cons entry later ih =>
      obtain ⟨kind, destination⟩ := entry
      obtain ⟨text, made⟩ := kind.exists_apply input content
      have noted := Outcome.sound_ofLog (kind.log (analysis input content)) (Nat.zero_le 1)
      have first := noted.append (write_sound input kind text destination s)
      rw [writeAll_cons made]
      dsimp only
      split
      · exact first.append (ih _)
      · exact first

theorem reviewed_sound (o : Options) (a : Analysis) : (reviewed o a).Sound :=
  ⟨Nat.zero_le 1, by rintro _ ⟨⟩⟩

theorem file_sound (o : Options) (input : Path) (s : σ) :
    ((file (m := StateM σ) o input).run s).1.Sound := by
  have course := file_course o input s
  generalize (file (m := StateM σ) o input).run s = result at course ⊢
  cases course with
  | unread => exact Outcome.sound_ofLog _ (Nat.le_refl 1)
  | unprinted => exact unprinted_sound _ _
  | refused => exact (reviewed_sound o _).append (Outcome.sound_ofLog _ (Nat.le_refl 1))
  | revised => exact (reviewed_sound o _).append (writeAll_sound input _ _ _)

/-- The others are treated behind an input, unless the run has ended. -/
theorem files_cons (o : Options) (input : Path) (later : List Path) (s : σ) :
    (files (m := StateM σ) o (input :: later)).run s =
      let first := (file (m := StateM σ) o input).run s
      if first.1.ending.isSome then first
      else (first.1 ++ ((files (m := StateM σ) o later).run first.2).1,
        ((files (m := StateM σ) o later).run first.2).2) := by
  rw [files, StateT.run_bind]
  generalize (file (m := StateM σ) o input).run s = first
  dsimp only [bind, pure]
  split <;> rfl

theorem files_singleton (o : Options) (input : Path) (s : σ) :
    (files (m := StateM σ) o [input]).run s = (file (m := StateM σ) o input).run s := by
  rw [files_cons]
  dsimp only
  split
  · rfl
  · exact Prod.ext (Outcome.append_empty _) rfl

theorem files_sound (o : Options) (inputs : List Path) (s : σ) :
    ((files (m := StateM σ) o inputs).run s).1.Sound := by
  induction inputs generalizing s with
  | nil => exact Outcome.sound_ofLog [] (Nat.zero_le 1)
  | cons input later ih =>
      rw [files_cons]
      dsimp only
      split
      · exact file_sound o input s
      · exact (file_sound o input s).append (ih _)

theorem all_exitStatus (o : Options) (s : σ) : ((all (m := StateM σ) o).run s).1.exitStatus =
    ((all (m := StateM σ) o).run s).1.status :=
  (files_sound o o.files s).exitStatus_eq

end Run

end FormatLint
