import SweepRegex.Proofs.CommandLine.Endings

/-!
# Reads that fail

The system may refuse to open a path, and where a path leads to something reading may fail at some
place: in a directory at the very first one.  A bounded read notices a failure in front of the bound,
and asks for nothing behind the byte at the bound.  A failure at the bound itself goes unnoticed.
Only the probe for one more byte gets there, and a probe that fails looks like the end of the input.
So an input that breaks off at the bound counts as complete, and a directory as an empty file if the
bound is zero.

    (∃ e, fs.read path max = .error e) ↔
      (∃ why, fs.node path = .refused why) ∨ fs.node path = .directory ∧ 0 < max
                                                                              (read_fails_iff)
-/

namespace SweepRegex

/-- What the error output holds after a read. -/
def ReadError.told : Except ReadError Input → Bytes
  | .ok _ => []
  | .error e => (Notice.inputUnreadable e).text

/-! ## Messages -/

namespace ReadError

theorem told_ne_nil_iff (got : Except ReadError Input) : told got ≠ [] ↔ ∃ e, got = .error e := by
  cases got with
  | ok i => simp [told]
  | error e => simp [told, Notice.text_ne_nil]

theorem told_cannotOpen (path : Bytes) (why : Refusal) :
    told (.error (.cannotOpen path why)) =
      ascii "relite: FileBytes: failed to open " ++ Bytes.untilNul path ++ ascii ": " ++
        why.words ++ ascii "\n" := by
  simp [told, Notice.text, Notice.message, Notice.readText, Notice.appendix, ascii, Bytes.newline]

theorem told_cannotRead (why : Refusal) :
    told (.error (.cannotRead why)) =
      ascii "relite: FileBytes: read failed: " ++ why.words ++ ascii "\n" := by
  simp [told, Notice.text, Notice.message, Notice.readText, Notice.appendix, ascii, Bytes.newline]

end ReadError

/-! ## Streams -/

namespace Stream

/-- Reading fails for this reason before this many bytes are there. -/
def FailsBefore (s : Stream) (max : Nat) (why : Refusal) : Prop :=
  s.fault? = some why ∧ s.rest.length < max

section
variable {s : Stream} {max : Nat} (hf : s.failed? = none)
include hf

theorem read_of_failsBefore {why : Refusal} (h : s.FailsBefore max why) :
    (s.read max).1 = .error (.cannotRead why) := by
  rw [read_of_fault h.1 hf, if_pos h.2]

theorem read_of_not_failsBefore (h : ∀ why, ¬s.FailsBefore max why) :
    (s.read max).1 = .ok ⟨s.rest.take max, decide (max < s.rest.length)⟩ := by
  cases hfault : s.fault? with
  | none => rw [read_of_readable hfault hf]
  | some why => rw [read_of_fault hfault hf, if_neg fun hlt => h why ⟨hfault, hlt⟩]

end

end Stream

/-! ## Files -/

namespace FileSystem

section
variable {fs : FileSystem} {path : Bytes} (max : Nat)

theorem read_of_refused {why : Refusal} (h : fs.node path = .refused why) :
    fs.read path max = .error (.cannotOpen path why) := by
  rw [read, h]
  rfl

theorem read_of_directory (h : fs.node path = .directory) :
    fs.read path max =
      if 0 < max then .error (.cannotRead .isDirectory) else .ok ⟨[], false⟩ := by
  rw [read, h]
  show (Stream.read ⟨[], some .isDirectory, none⟩ max).1 = _
  rw [Stream.read_of_fault rfl rfl]
  simp

theorem read_of_file {content : Bytes} (h : fs.node path = .file content) :
    fs.read path max = .ok ⟨content.take max, decide (max < content.length)⟩ := by
  rw [read, h]
  exact Stream.read_of_not_failsBefore rfl fun _ hfails =>
    absurd hfails.1.symm (Option.some_ne_none _)

end

/-! ## Main statement -/

/-- **A read fails if its source cannot be opened, or fails in front of the bound.**  A path that the
system refuses to open cannot be read at all, a directory cannot be read with any bound but zero, a
file always can.  It is told exactly when a read fails, and for what reason, and a call of the program
ends with that.  From any stream a read delivers all it was to deliver, unless reading fails before
that is there; a failure further on is not noticed, not even one at the bound. -/
theorem read_fails_iff (fs : FileSystem) (path : Bytes) (max : Nat) :
    let got := fs.read path max
    ((∃ e, got = .error e) ↔
      (∃ why, fs.node path = .refused why) ∨ fs.node path = .directory ∧ 0 < max) ∧
    (ReadError.told got ≠ [] ↔ ∃ e, got = .error e) ∧
    (∀ why, fs.node path = .refused why → ReadError.told got =
      ascii "relite: FileBytes: failed to open " ++ Bytes.untilNul path ++ ascii ": " ++
        why.words ++ ascii "\n") ∧
    (fs.node path = .directory → 0 < max →
      ReadError.told got = ascii "relite: FileBytes: read failed: Is a directory\n") ∧
    (fs.node path = .directory → max = 0 → got = .ok ⟨[], false⟩) ∧
    (∀ content, fs.node path = .file content →
      got = .ok ⟨content.take max, decide (max < content.length)⟩) ∧
    (∀ job : Job, (∃ e, got = .error e) → (job.finish got).status = .failed ∧
      (job.finish got).stderr = noticesText job.notices ++ ReadError.told got) ∧
    ∀ s : Stream, s.failed? = none →
      (∀ why, s.FailsBefore max why → (s.read max).1 = .error (.cannotRead why) ∧
        ReadError.told (s.read max).1 =
          ascii "relite: FileBytes: read failed: " ++ why.words ++ ascii "\n") ∧
      ((∀ why, ¬s.FailsBefore max why) →
        (s.read max).1 = .ok ⟨s.rest.take max, decide (max < s.rest.length)⟩) := by
  intro got
  have hrefused why (h : fs.node path = .refused why) : got = _ := read_of_refused max h
  have hdirectory (h : fs.node path = .directory) : got = _ := read_of_directory max h
  have hfile content (h : fs.node path = .file content) : got = _ := read_of_file max h
  refine ⟨?_, ReadError.told_ne_nil_iff got, fun why h => ?_, fun h hmax => ?_, fun h hmax => ?_,
    hfile, ?_, fun s hs => ⟨fun why h => ?_, s.read_of_not_failsBefore hs⟩⟩
  · cases hnode : fs.node path with
    | refused why => simp [hrefused why hnode]
    | directory =>
      rw [hdirectory hnode]
      by_cases hmax : 0 < max
      · simp [hmax]
      · simp [hmax]
    | file content => simp [hfile content hnode]
  · rw [hrefused why h, ReadError.told_cannotOpen]
  · rw [hdirectory h, if_pos hmax]
    decide +kernel
  · rw [hdirectory h, if_neg (by omega)]
  · rintro job ⟨e, he⟩
    rw [he]
    exact ⟨rfl, Outcome.stderr_failure _ _ _⟩
  · rw [Stream.read_of_failsBefore hs h]
    exact ⟨rfl, ReadError.told_cannotRead why⟩

/-- A path that leads nowhere, a directory with two bounds, and a stream that breaks off behind its
second byte with three. -/
theorem read_fails_iff_five_bounds :
    let fs := ofFiles [(ascii "d/x", [])]
    let s : Stream := ⟨ascii "ab", some ⟨ascii "Input/output error"⟩, none⟩
    ReadError.told (fs.read (ascii "e") 1) =
      ascii "relite: FileBytes: failed to open e: No such file or directory\n" ∧
    (ReadError.told (fs.read (ascii "d") 1) =
        ascii "relite: FileBytes: read failed: Is a directory\n" ∧
      fs.read (ascii "d") 0 = .ok ⟨[], false⟩) ∧
    ReadError.told (s.read 3).1 = ascii "relite: FileBytes: read failed: Input/output error\n" ∧
      (s.read 2).1 = .ok ⟨ascii "ab", false⟩ ∧ (s.read 1).1 = .ok ⟨ascii "a", true⟩ := by
  intro fs s
  have hnowhere : fs.node (ascii "e") = .refused .notFound := by decide +kernel
  have hdirectory : fs.node (ascii "d") = .directory := by decide +kernel
  obtain ⟨-, -, hopen, -⟩ := read_fails_iff fs (ascii "e") 1
  obtain ⟨-, -, -, htold, -⟩ := read_fails_iff fs (ascii "d") 1
  obtain ⟨-, -, -, -, hempty, -⟩ := read_fails_iff fs (ascii "d") 0
  have hstream max := (read_fails_iff fs (ascii "d") max).2.2.2.2.2.2.2 s rfl
  exact ⟨hopen _ hnowhere, ⟨htold hdirectory (by decide), hempty hdirectory rfl⟩,
    ((hstream 3).1 _ ⟨rfl, by decide⟩).2, (hstream 2).2 fun _ h => absurd h.2 (by decide),
    (hstream 1).2 fun _ h => absurd h.2 (by decide)⟩

/-- Not every read of a directory fails. -/
theorem not_fails_directory : ¬∀ (fs : FileSystem) (path : Bytes) (max : Nat),
    (∃ e, fs.read path max = .error e) ∧ ReadError.told (fs.read path max) ≠ [] ↔
      ∀ content, fs.node path ≠ .file content := by
  intro h
  let fs := ofFiles [(ascii "d/x", [])]
  have hdirectory : fs.node (ascii "d") = .directory := by decide +kernel
  obtain ⟨⟨e, he⟩, -⟩ := (h fs (ascii "d") 0).2 (by simp [hdirectory])
  rw [read_of_directory 0 hdirectory] at he
  cases he

end FileSystem

end SweepRegex
