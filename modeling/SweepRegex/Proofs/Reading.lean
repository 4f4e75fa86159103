import SweepRegex.Files.Stream

/-!
# Reads one after the other

A bounded read delivers the front of what is left in a stream.  If that is not all, it has consumed
one byte more than it delivers: the byte by which it knows that there is more is lost to the reads
that follow.  `Delivers` says how reads with given bounds use up a content, with one constructor for
each of the two ways in which a read can end; it knows nothing of chunks and probes.

    Delivers c bounds inputs rest →
      (ofBytes c).readEach bounds = (inputs.map .ok, ofBytes rest)        (Delivers.readEach_eq)
-/

namespace SweepRegex

namespace Stream

/-- Reads again and again from the same stream, with a bound for each time. -/
def readEach (s : Stream) : List Nat → List (Except ReadError Input) × Stream
  | [] => ([], s)
  | bound :: bounds =>
    let got := s.read bound
    let more := got.2.readEach bounds
    (got.1 :: more.1, more.2)

/-- Reads with these bounds deliver these inputs of a content, and leave this rest. -/
inductive Delivers : Bytes → List Nat → List Input → Bytes → Prop where
  | none (rest : Bytes) : Delivers rest [] [] rest
  /-- All that is left fits in the bound. -/
  | whole {content : Bytes} {bound : Nat} {bounds : List Nat} {inputs : List Input} {rest : Bytes} :
      content.length ≤ bound → Delivers [] bounds inputs rest →
      Delivers content (bound :: bounds) (⟨content, false⟩ :: inputs) rest
  /-- The bound cuts the content, and the byte behind the cut is lost. -/
  | part {front behind : Bytes} {bounds : List Nat} {inputs : List Input} {rest : Bytes}
      (lost : UInt8) : Delivers behind bounds inputs rest →
      Delivers (front ++ lost :: behind) (front.length :: bounds) (⟨front, true⟩ :: inputs) rest

/-! ## One read -/

/-- A bounded read of a content, and what is left of it. -/
theorem read_ofBytes (c : Bytes) (max : Nat) :
    (ofBytes c).read max =
      (.ok ⟨c.take (min max c.length), decide (max < c.length)⟩,
        ofBytes (if max < c.length then c.drop (max + 1) else [])) := by
  rw [read_of_readable rfl rfl]
  by_cases hmax : max < c.length
  · simp [ofBytes, hmax, Nat.min_eq_left (Nat.le_of_lt hmax)]
  · have hlen := Nat.le_of_not_lt hmax
    simp [ofBytes, hmax, List.take_of_length_le, hlen]

theorem read_ofBytes_whole {c : Bytes} {max : Nat} (h : c.length ≤ max) :
    (ofBytes c).read max = (.ok ⟨c, false⟩, ofBytes []) := by
  simp [read_ofBytes, Nat.not_lt.2 h, Nat.min_eq_right h]

theorem read_ofBytes_part (front behind : Bytes) (lost : UInt8) :
    (ofBytes (front ++ lost :: behind)).read front.length =
      (.ok ⟨front, true⟩, ofBytes behind) := by
  have hdrop : (front ++ lost :: behind).drop (front.length + 1) = behind := by
    rw [← List.drop_drop, List.drop_left]
    rfl
  simp [read_ofBytes, hdrop]

/-! ## Many reads -/

/-- A content can be read with any bounds. -/
theorem exists_delivers (c : Bytes) (bounds : List Nat) :
    ∃ inputs rest, Delivers c bounds inputs rest := by
  induction bounds generalizing c with
  | nil => exact ⟨[], c, .none c⟩
  | cons bound bounds ih =>
    by_cases hbound : bound < c.length
    · obtain ⟨inputs, rest, h⟩ := ih (c.drop (bound + 1))
      have hc : c.take bound ++ c.get ⟨bound, hbound⟩ :: c.drop (bound + 1) = c := by
        rw [List.get_eq_getElem, ← List.drop_eq_getElem_cons hbound, List.take_append_drop]
      have hpart : Delivers (c.take bound ++ c.get ⟨bound, hbound⟩ :: _) _ _ _ := h.part _
      rw [hc, List.length_take_of_le (Nat.le_of_lt hbound)] at hpart
      exact ⟨_, _, hpart⟩
    · obtain ⟨inputs, rest, h⟩ := ih []
      exact ⟨_, _, h.whole (Nat.le_of_not_lt hbound)⟩

theorem Delivers.readEach_eq {c rest : Bytes} {bounds : List Nat} {inputs : List Input}
    (h : Delivers c bounds inputs rest) :
    (ofBytes c).readEach bounds = (inputs.map .ok, ofBytes rest) := by
  induction h with
  | none rest => rfl
  | whole hlen _ ih => simp only [readEach, read_ofBytes_whole hlen, ih, List.map_cons]
  | part lost _ ih => simp only [readEach, read_ofBytes_part, ih, List.map_cons]

/-! ## Main statement -/

/-- **A read takes its part and one byte more.**  From a content a bounded read delivers as much as
the bound allows, and is cut short exactly if there is more.  It consumes what it delivers, and one
more byte if it is cut short; a second read goes on behind that byte, and so does every later one.
A file is read as the stream of its content. -/
theorem read_ofBytes_twice (c : Bytes) (max max' : Nat) :
    let first := (ofBytes c).read max
    let second := first.2.read max'
    let consumed := min max c.length + if max < c.length then 1 else 0
    let c' := if max < c.length then c.drop (max + 1) else []
    first.1 = .ok ⟨c.take (min max c.length), decide (max < c.length)⟩ ∧
      consumed ≤ c.length ∧ first.2 = ofBytes (c.drop consumed) ∧ c.drop consumed = c' ∧
      second.1 = .ok ⟨c'.take (min max' c'.length), decide (max' < c'.length)⟩ ∧
      (∀ bounds, ∃ inputs rest, Delivers c bounds inputs rest ∧
        (ofBytes c).readEach bounds = (inputs.map .ok, ofBytes rest)) ∧
      ∀ (fs : FileSystem) path, fs.node path = .file c → fs.read path max = first.1 := by
  intro first second consumed c'
  have hfirst : first = _ := read_ofBytes c max
  have hdrop : c.drop consumed = c' := by
    by_cases hmax : max < c.length
    · simp [consumed, c', hmax, Nat.min_eq_left (Nat.le_of_lt hmax)]
    · simp [consumed, c', hmax, Nat.min_eq_right (Nat.le_of_not_lt hmax)]
  have hconsumed : consumed ≤ c.length := by
    simp only [consumed]
    split <;> omega
  refine ⟨by rw [hfirst], hconsumed, by rw [hfirst, hdrop], hdrop, ?_, fun bounds => ?_,
    fun fs path hfile => ?_⟩
  · show (first.2.read max').1 = _
    rw [hfirst, read_ofBytes]
  · obtain ⟨inputs, rest, h⟩ := exists_delivers c bounds
    exact ⟨inputs, rest, h, h.readEach_eq⟩
  · rw [FileSystem.read, hfile]
    rfl

end Stream

end SweepRegex
