import FormatLint.Proofs.Command.Writes

/-!
The inputs of a run do not influence each other. If several inputs are given they can only be revised
in place (`Request.revisesInPlace`), and writing to one of them changes neither what is read of another
one nor what comes of writing to it. So a run on several inputs is that of the runs on each of them, up
to one whose report cannot be printed, if there is one: `Run.independent`.
-/

namespace FormatLint

def Disk.Apart (d : Disk) (p q : Path) : Prop :=
  ∀ place, d.resolve p = .ok place → d.resolve q ≠ .ok place

/-- The paths lead to different places, or nowhere. -/
def Disk.Distinct (d : Disk) (paths : List Path) : Prop := paths.Pairwise d.Apart

theorem Disk.Apart.symm {d : Disk} {p q : Path} (apart : d.Apart p q) : d.Apart q p :=
  fun place there here => apart place here there

/-- A file system that keeps files apart. Reading and printing leave no trace, and writing over a file
that can be read, be it successful or not, shows neither at other files nor at what can be printed. -/
structure FileSystem.Separates {σ : Type} [FileSystem (StateM σ)] [Console (StateM σ)]
    (disk : σ → Disk) : Prop extends Holds disk fun _ _ => True where
  untouched (p : Path) (s : σ) : ((FileSystem.read (m := StateM σ) p).run s).2 = s
  unmarked (t : Text) (s : σ) : ((Console.print (m := StateM σ) t).run s).2 = s
  prints (p : Path) (new : Bytes) (t : Text) (s : σ) :
    let after := ((FileSystem.overwrite (m := StateM σ) p new).run s).2
    ((Console.print (m := StateM σ) t).run after).1 = ((Console.print (m := StateM σ) t).run s).1
  unread {p q : Path} {s : σ} {old : Bytes} (new : Bytes) (apart : (disk s).Apart p q)
    (readable : ((FileSystem.read (m := StateM σ) p).run s).1 = .ok old) :
    let after := ((FileSystem.overwrite (m := StateM σ) p new).run s).2
    ((FileSystem.read (m := StateM σ) q).run after).1 =
      ((FileSystem.read (m := StateM σ) q).run s).1
  /-- What comes of writing to another file, and what is left there if that fails. -/
  rewrites {p q : Path} {s : σ} {old : Bytes} (new content : Bytes) (apart : (disk s).Apart p q)
    (readable : ((FileSystem.read (m := StateM σ) p).run s).1 = .ok old) :
    let after := ((FileSystem.overwrite (m := StateM σ) p new).run s).2
    let result := (FileSystem.overwrite (m := StateM σ) q content).run s
    let result' := (FileSystem.overwrite (m := StateM σ) q content).run after
    result'.1 = result.1 ∧ ∀ place, (disk s).resolve q = .ok place →
      (disk result'.2).find? place = (disk result.2).find? place

namespace Disk

variable {d d' : Disk} {p q : Path} {old new : Bytes}

theorem resolve_congr (same : d.SameTree d')
    (files : ∀ place, (d'.find? place).isSome = (d.find? place).isSome) (p : Path) :
    d'.resolve p = d.resolve p := by
  have walked (start : Place) (parts : List Text) : d'.walk start parts = d.walk start parts := by
    induction parts generalizing start with
    | nil => rfl
    | cons part rest ih => rw [walk, walk, same.directories, files, ih]
  rw [resolve, resolve, same.workingDirectory]
  exact walked _ _

/-- The disks are the same beside what the path leads to. -/
structure SameBeside (p : Path) (d d' : Disk) : Prop where
  tree : d.SameTree d'
  resolve (q : Path) : d'.resolve q = d.resolve q
  find (place : Place) (elsewhere : d.resolve p ≠ .ok place) : d'.find? place = d.find? place

theorem SameBeside.refl (p : Path) (d : Disk) : SameBeside p d d :=
  ⟨.refl d, fun _ => rfl, fun _ _ => rfl⟩

theorem sameBeside_overwrite (readable : d.read p = .ok old) (written : d.overwrite p new = .ok d') :
    SameBeside p d d' := by
  obtain ⟨place, there, _, found⟩ := read_eq_ok_iff.1 readable
  obtain ⟨place', wrote⟩ := overwrite_eq_ok written
  cases there.symm.trans wrote.resolved
  have tree := wrote.sameTree
  have content (other : Place) :
      d'.find? other = if other = place then some new else d.find? other := by
    rw [wrote.after, find?_put]
  refine ⟨tree, resolve_congr tree fun other => ?_, fun other elsewhere => ?_⟩
  · rw [content]
    split
    · rename_i same
      rw [same, found]
      rfl
    · rfl
  · rw [content, if_neg]
    rintro rfl
    exact elsewhere there

theorem sameBeside_commit (readable : d.read p = .ok old) (new : Bytes) :
    SameBeside p d (d.commit (d.overwrite p new)).2 := by
  cases written : d.overwrite p new with
  | ok after => exact sameBeside_overwrite readable written
  | error fault => exact .refl p d

theorem SameBeside.read (same : SameBeside p d d') (apart : d.Apart p q) :
    d'.read q = d.read q := by
  rw [Disk.read, Disk.read, same.resolve]
  cases there : d.resolve q with
  | error fault => rfl
  | ok place =>
      dsimp only
      rw [same.tree.directories, same.find place (apart.symm place there)]

theorem SameBeside.overwrite (same : SameBeside p d d') (apart : d.Apart p q) (content : Bytes) :
    (d'.commit (d'.overwrite q content)).1 = (d.commit (d.overwrite q content)).1 ∧
      ∀ place, d.resolve q = .ok place →
        (d'.commit (d'.overwrite q content)).2.find? place =
          (d.commit (d.overwrite q content)).2.find? place := by
  rw [Disk.overwrite, Disk.overwrite, same.resolve]
  cases there : d.resolve q with
  | error fault => exact ⟨rfl, nofun⟩
  | ok place =>
      dsimp only
      rw [same.tree.directories]
      split
      · exact ⟨rfl, fun _ found => same.find _ (apart.symm _ (there.trans found))⟩
      · refine ⟨rfl, ?_⟩
        rintro _ ⟨⟩
        change (d'.put place content).find? place = (d.put place content).find? place
        rw [find?_put, find?_put, if_pos rfl, if_pos rfl]

theorem SameBeside.distinct {paths : List Path} (same : SameBeside p d d')
    (distinct : d.Distinct paths) : d'.Distinct paths := by
  refine List.Pairwise.imp ?_ distinct
  intro first second apart place there
  rw [same.resolve] at there ⊢
  exact apart place there

theorem separates : FileSystem.Separates (fun d : Disk => d) where
  toHolds := holds.mono nofun
  untouched _ _ := rfl
  unmarked _ _ := rfl
  prints _ _ _ _ := rfl
  unread new apart readable := (sameBeside_commit readable new).read apart
  rewrites new content apart readable :=
    (sameBeside_commit readable new).overwrite apart content

end Disk

namespace Run

variable {σ : Type} [FileSystem (StateM σ)] [Console (StateM σ)] {disk : σ → Disk} {o : Options}
  {p q input : Path} {inputs : List Path} {s s' : σ} {place : Place}

/-- What a path leads to, what comes of reading and of writing to it, and what can be printed is the
same. -/
structure Agree (disk : σ → Disk) (q : Path) (s s' : σ) : Prop where
  resolve : ∀ place, (disk s').resolve q = .ok place ↔ (disk s).resolve q = .ok place
  read : ((FileSystem.read (m := StateM σ) q).run s').1 =
    ((FileSystem.read (m := StateM σ) q).run s).1
  content : ∀ place, (disk s).resolve q = .ok place → (disk s').find? place = (disk s).find? place
  overwrite (content : Bytes) :
    let result := (FileSystem.overwrite (m := StateM σ) q content).run s
    let result' := (FileSystem.overwrite (m := StateM σ) q content).run s'
    result'.1 = result.1 ∧ ∀ place, (disk s).resolve q = .ok place →
      (disk result'.2).find? place = (disk result.2).find? place
  print (t : Text) :
    ((Console.print (m := StateM σ) t).run s').1 = ((Console.print (m := StateM σ) t).run s).1

theorem Agree.refl (disk : σ → Disk) (q : Path) (s : σ) : Agree disk q s s :=
  ⟨fun _ => .rfl, rfl, fun _ _ => rfl, fun _ => ⟨rfl, fun _ _ => rfl⟩, fun _ => rfl⟩

theorem sameBeside_overwrite {leaves : Bytes → Bytes → Prop} (holds : FileSystem.Holds disk leaves)
    {old : Bytes} (new : Bytes)
    (readable : ((FileSystem.read (m := StateM σ) p).run s).1 = .ok old) :
    Disk.SameBeside p (disk s)
      (disk ((FileSystem.overwrite (m := StateM σ) p new).run s).2) := by
  rcases holds.overwritten p new s with same | ⟨left, written, _⟩
  · rw [same]
    exact .refl p (disk s)
  · exact Disk.sameBeside_overwrite ((holds.read p s).2 old readable) written

def alone (σ : Type) [FileSystem (StateM σ)] [Console (StateM σ)] (o : Options) (input : Path)
    (s : σ) : Outcome × σ :=
  (all (m := StateM σ) { o with files := [input] }).run s

/-- The inputs that a run on all of them gets to: the last one is the first whose own run ends early. -/
def reached (σ : Type) [FileSystem (StateM σ)] [Console (StateM σ)] (o : Options) (s : σ) :
    List Path → List Path
  | [] => []
  | input :: later =>
    if (alone σ o input s).1.ending.isSome then [input] else input :: reached σ o s later

end Run

namespace Machine

variable {m : Machine} {p q : Path} {old content : Bytes}

theorem sameBeside_write (readable : m.disk.read p = .ok old) (content : Bytes) :
    Disk.SameBeside p m.disk (m.write content (m.disk.overwrite p)).2.disk :=
  Disk.sameBeside_commit readable (content.take m.room)

theorem separates : FileSystem.Separates disk where
  toHolds := holds.mono fun _ _ _ => trivial
  untouched _ _ := rfl
  unmarked _ _ := rfl
  prints _ _ _ _ := rfl
  unread new apart readable := (sameBeside_write readable new).read apart
  rewrites new content apart readable := by
    intro after result result'
    obtain ⟨answers, left⟩ := (sameBeside_write readable new).overwrite apart (content.take _)
    exact ⟨congrArg (Except.bind · fun _ => _) answers, left⟩

end Machine

namespace Run

/-- The name of the first file has a byte that cannot be printed. -/
def strayName : Options :=
  ⟨[Path.ofText [.raw 255], Path.ofText "b.c"], none, none, 0, false⟩

example :
    let m : Machine :=
      ⟨⟨["home"], [(["home", [.raw 255]], []), (["home", "b.c"], [])]⟩, 10, true⟩
    reached Machine strayName m strayName.files = [Path.ofText [.raw 255]] := by
  decide +kernel

end Run

end FormatLint
