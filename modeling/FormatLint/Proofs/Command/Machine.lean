import FormatLint.Proofs.Command.Steps

/-!
Writes that fail half-way. Whatever comes of an access, nothing changes but the content of the file that
it opened for writing, if it got that far (`FileSystem.Holds`). An example is a machine with little room,
on which the end of a long content is cut off.
-/

namespace FormatLint

/-- A truthful file system on which accesses fail at any point. If writing a content fails, either the
file was not opened, or it is left with something that such a write leaves. -/
structure FileSystem.Holds {σ : Type} [FileSystem (StateM σ)] [Console (StateM σ)]
    (disk : σ → Disk) (leaves : Bytes → Bytes → Prop) : Prop extends Truthful disk where
  uncreated (p : Path) (content : Bytes) (s : σ) :
    let result := (FileSystem.create (m := StateM σ) p content).run s
    result.1 ≠ .ok () → disk result.2 = disk s ∨
      ∃ left, leaves content left ∧ (disk s).create p left = .ok (disk result.2)
  unwritten (p : Path) (content : Bytes) (s : σ) :
    let result := (FileSystem.overwrite (m := StateM σ) p content).run s
    result.1 ≠ .ok () → disk result.2 = disk s ∨
      ∃ left, leaves content left ∧ (disk s).overwrite p left = .ok (disk result.2)

namespace FileSystem.Holds

variable {σ : Type} [FileSystem (StateM σ)] [Console (StateM σ)] {disk : σ → Disk}
  {leaves leaves' : Bytes → Bytes → Prop}

theorem mono (holds : Holds disk leaves)
    (weaker : ∀ content left, leaves content left → leaves' content left) : Holds disk leaves' where
  toTruthful := holds.toTruthful
  uncreated p content s failed := by
    rcases holds.uncreated p content s failed with same | ⟨left, torn, created⟩
    · exact .inl same
    · exact .inr ⟨left, weaker content left torn, created⟩
  unwritten p content s failed := by
    rcases holds.unwritten p content s failed with same | ⟨left, torn, written⟩
    · exact .inl same
    · exact .inr ⟨left, weaker content left torn, written⟩

/-- All that writing can do, be it successful or not. -/
theorem change_cases {answer : Except FileFault Unit} {before after : Disk} {content : Bytes}
    {change : Bytes → Except FileFault Disk} (done : answer = .ok () → change content = .ok after)
    (failed : answer ≠ .ok () →
      after = before ∨ ∃ left, leaves content left ∧ change left = .ok after) :
    after = before ∨ ∃ left, change left = .ok after ∧
      (left = content ∨ leaves content left ∧ ∃ fault, answer = .error fault) := by
  cases answer with
  | ok => exact .inr ⟨content, done rfl, .inl rfl⟩
  | error fault =>
      rcases failed nofun with same | ⟨left, torn, changed⟩
      · exact .inl same
      · exact .inr ⟨left, changed, .inr ⟨torn, fault, rfl⟩⟩

theorem created (holds : Holds disk leaves) (p : Path) (content : Bytes) (s : σ) :
    let result := (FileSystem.create (m := StateM σ) p content).run s
    disk result.2 = disk s ∨ ∃ left, (disk s).create p left = .ok (disk result.2) ∧
      (left = content ∨ leaves content left ∧ ∃ fault, result.1 = .error fault) :=
  change_cases (holds.create p content s) (holds.uncreated p content s)

theorem overwritten (holds : Holds disk leaves) (p : Path) (content : Bytes) (s : σ) :
    let result := (FileSystem.overwrite (m := StateM σ) p content).run s
    disk result.2 = disk s ∨ ∃ left, (disk s).overwrite p left = .ok (disk result.2) ∧
      (left = content ∨ leaves content left ∧ ∃ fault, result.1 = .error fault) :=
  change_cases (holds.overwrite p content s) (holds.unwritten p content s)

end FileSystem.Holds

theorem Disk.commit_failed {d : Disk} {change : Except FileFault Disk}
    (failed : (d.commit change).1 ≠ .ok ()) : (d.commit change).2 = d := by
  cases change with
  | ok after => exact absurd rfl failed
  | error fault => rfl

/-- In memory, a write that fails leaves nothing behind. -/
theorem Disk.holds : FileSystem.Holds (fun d : Disk => d) fun _ _ => False where
  toTruthful := truthful
  uncreated _ _ _ failed := .inl (commit_failed failed)
  unwritten _ _ _ failed := .inl (commit_failed failed)

/-- A disk with little room for each file, and an output beside it. -/
structure Machine where
  disk : Disk
  /-- The most bytes that a file can hold. -/
  room : Nat
  /-- The output takes no stray bytes. -/
  strict : Bool

namespace Machine

/-- What fits into the file is written. If that is not all, the write has failed. -/
def write (m : Machine) (content : Bytes) (change : Bytes → Except FileFault Disk) :
    Except FileFault Unit × Machine :=
  let result := m.disk.commit (change (content.take m.room))
  let rest : Except FileFault Unit :=
    if content.length ≤ m.room then .ok () else .error (.interrupted 27 "File too large")
  (result.1.bind fun _ => rest, { m with disk := result.2 })

instance : FileSystem (StateM Machine) where
  read p m := (m.disk.read p, m)
  create p content m := m.write content (m.disk.create p)
  overwrite p content m := m.write content (m.disk.overwrite p)

instance : Console (StateM Machine) where
  print t m :=
    (if m.strict && !t.all (Glyph.satisfies fun _ => true) then .error .encoding else .ok (), m)

variable {m : Machine} {content : Bytes} {change : Bytes → Except FileFault Disk}

theorem write_ok (done : (m.write content change).1 = .ok ()) :
    change content = .ok (m.write content change).2.disk := by
  unfold write at done ⊢
  cases changed : change (content.take m.room) with
  | error fault => rw [changed] at done; cases done
  | ok after =>
      have fits : content.length ≤ m.room := by
        by_contra longer
        rw [changed, if_neg longer] at done
        cases done
      rwa [List.take_of_length_le fits] at changed

/-- If writing fails, what has been written is the front of the content. -/
theorem write_torn (m : Machine) (content : Bytes) (change : Bytes → Except FileFault Disk) :
    (m.write content change).2.disk = m.disk ∨
      ∃ left, left <+: content ∧ change left = .ok (m.write content change).2.disk := by
  unfold write
  cases changed : change (content.take m.room) with
  | error fault => exact .inl rfl
  | ok after => exact .inr ⟨_, List.take_prefix _ _, changed⟩

theorem holds : FileSystem.Holds disk fun content left => left <+: content where
  read _ _ := ⟨rfl, fun _ done => done⟩
  create _ _ _ := write_ok
  overwrite _ _ _ := write_ok
  print _ _ := rfl
  uncreated p content m _ := m.write_torn content (m.disk.create p)
  unwritten p content m _ := m.write_torn content (m.disk.overwrite p)

end Machine

end FormatLint
