import SweepRegex.Files

/-!
# Bounded reading

Input is read from a stream up to a bound.  The stream is asked for one chunk after the other, so
a large bound costs nothing when there is little to read, and a stream that delivers exactly as
much as the bound allows is asked for one more byte, to tell whether the input was cut short.

A stream ends behind the last byte that can be read from it, or reading fails there for some reason.
A directory can be opened like a file, but every read from it fails.

Main statements: `gather_eq` says that the chunks add up to one read of the whole amount,
`read_of_readable` describes a bounded read and what it leaves in the stream, and `read_of_fault`
says when a read fails.
-/

namespace SweepRegex

/-- An open file, at some position. -/
structure Stream where
  /-- What can still be read. -/
  rest : Bytes
  /-- Why reading fails behind that; without a reason the stream ends there. -/
  fault? : Option Refusal
  /-- Why a read has failed, if one has. -/
  failed? : Option Refusal
deriving DecidableEq

/-- Bytes that were read, and whether there were more than the bound allowed. -/
structure Input where
  data : Bytes
  truncated : Bool
deriving DecidableEq

/-- Why nothing could be read. -/
inductive ReadError where
  | cannotOpen (path : Bytes) (why : Refusal)
  | cannotRead (why : Refusal)
deriving DecidableEq

namespace Stream

/-! ## Algorithm -/

/-- A stream of these bytes. -/
def ofBytes (content : Bytes) : Stream := ⟨content, none, none⟩

/-- Where a stream is expected, a text is one. -/
instance : Coe Bytes Stream := ⟨ofBytes⟩

/-- Opens what a path leads to. -/
def openNode : Node → Except Refusal Stream
  | .refused why => .error why
  | .directory => .ok ⟨[], some .isDirectory, none⟩
  | .file content => .ok (ofBytes content)

/-- What a path leads to as a stream, if it can be opened. -/
def ofNode? (node : Node) : Option Stream := (openNode node).toOption

/-- Reads up to `n` bytes; fewer are delivered only where the stream ends or reading fails. -/
def fetch (s : Stream) (n : Nat) : Bytes × Stream :=
  (s.rest.take n,
    { s with
      rest := s.rest.drop n
      failed? := (if s.rest.length < n then s.fault? else none).or s.failed? })

/-- The most that is asked of a stream at once. -/
def chunkSize : Nat := 65536

/-- Reads chunk by chunk until `wanted` bytes are there or the stream delivers nothing. -/
def gather (s : Stream) (wanted : Nat) : Bytes × Stream :=
  if wanted = 0 then ([], s)
  else
    let chunk := s.fetch (min chunkSize wanted)
    if chunk.1 = [] then ([], chunk.2)
    else
      let more := chunk.2.gather (wanted - chunk.1.length)
      (chunk.1 ++ more.1, more.2)
termination_by wanted
decreasing_by
  rename_i hw hc
  have := List.length_pos_iff.2 hc
  simp only [chunk] at this
  omega

/-- Reads up to `max` bytes.  A stream that delivered all of them is probed for one more; nothing is
made of a probe that fails. -/
def read (s : Stream) (max : Nat) : Except ReadError Input × Stream :=
  let got := s.gather max
  match got.2.failed? with
  | some why => (.error (.cannotRead why), got.2)
  | none =>
    if got.1.length = max then
      let probe := got.2.fetch 1
      (.ok ⟨got.1, probe.1 ≠ []⟩, probe.2)
    else (.ok ⟨got.1, false⟩, got.2)

/-- Reads up to `max` bytes from a file, if it could be opened. -/
def readOpened (path : Bytes) (max : Nat) : Except Refusal Stream → Except ReadError Input
  | .error why => .error (.cannotOpen path why)
  | .ok s => (s.read max).1

end Stream

/-- Opens a file and reads up to `max` bytes of it. -/
def FileSystem.read (fs : FileSystem) (path : Bytes) (max : Nat) : Except ReadError Input :=
  Stream.readOpened path max (Stream.openNode (fs.node path))

/-! ## Lemmas -/

namespace Stream

theorem fetch_of_readable {s : Stream} (h : s.fault? = none) (n : Nat) :
    s.fetch n = (s.rest.take n, { s with rest := s.rest.drop n }) := by
  simp [fetch, h]

/-- Where there is nothing left to read, it does not matter how much is asked for. -/
theorem fetch_of_rest_eq_nil {s : Stream} (h : s.rest = []) {m n : Nat} (hm : 0 < m) (hn : 0 < n) :
    s.fetch m = s.fetch n := by
  simp [fetch, h, hm, hn]

/-- A chunk and then the rest of an amount are the whole amount. -/
theorem fetch_fetch (s : Stream) {c n : Nat} (h : c ≤ n) :
    let chunk := s.fetch c
    let more := chunk.2.fetch (n - chunk.1.length)
    (chunk.1 ++ more.1, more.2) = s.fetch n := by
  obtain ⟨rest, fault?, failed?⟩ := s
  have hbytes : rest.take c ++ (rest.drop c).take (n - min c rest.length) = rest.take n ∧
      rest.drop (c + (n - min c rest.length)) = rest.drop n := by
    rcases Nat.le_total c rest.length with hc | hc
    · rw [Nat.min_eq_left hc, ← List.take_add, Nat.add_sub_cancel' h]
      exact ⟨rfl, rfl⟩
    · -- the chunk is all there is
      have hn : rest.length ≤ n := Nat.le_trans hc h
      have hlen : rest.length ≤ c + (n - min c rest.length) := Nat.le_add_right_of_le hc
      rw [List.take_of_length_le hc, List.take_of_length_le hn, List.drop_eq_nil_of_le hc,
        List.drop_eq_nil_of_le hn, List.drop_eq_nil_of_le hlen]
      simp
  -- one of the two reads fails exactly if the whole would
  have hfail : ((if rest.length - c < n - min c rest.length then fault? else none).or
      (if rest.length < c then fault? else none)) = if rest.length < n then fault? else none := by
    by_cases hn : rest.length < n
    · have hsome : rest.length < c ∨ rest.length - c < n - min c rest.length := by omega
      rcases hsome with hc | hm
      · rw [if_pos hn, if_pos hc]
        split <;> simp
      · rw [if_pos hn, if_pos hm]
        split <;> simp
    · have hc : ¬rest.length < c := by omega
      have hm : ¬rest.length - c < n - min c rest.length := by omega
      simp [hn, hc, hm]
  simp only [fetch, List.length_take, List.length_drop, List.drop_drop, hbytes.1, hbytes.2,
    ← Option.or_assoc, hfail]

/-- The chunks add up to the whole amount. -/
theorem gather_eq (s : Stream) (wanted : Nat) : s.gather wanted = s.fetch wanted := by
  induction wanted using Nat.strongRecOn generalizing s with
  | ind wanted ih =>
    rw [gather]
    split
    · rename_i hw
      simp [hw, fetch]
    · rename_i hw
      have hc : 0 < min chunkSize wanted := Nat.lt_min.2 ⟨by decide, by omega⟩
      have hc' : min chunkSize wanted ≤ wanted := Nat.min_le_right ..
      generalize min chunkSize wanted = c at hc hc'
      show (if (s.fetch c).1 = [] then _ else _) = _
      split
      · rename_i he
        have hrest : s.rest = [] := by
          rcases List.take_eq_nil_iff.1 he with h0 | h0
          · omega
          · exact h0
        rw [fetch_of_rest_eq_nil hrest (Nat.pos_of_ne_zero hw) hc, ← he]
      · rename_i he
        have hl : 0 < (s.fetch c).1.length := List.length_pos_iff.2 he
        have next := ih (wanted - (s.fetch c).1.length) (by omega) (s.fetch c).2
        rw [next]
        exact fetch_fetch s hc'

/-- A bounded read delivers the front of what is left, and says whether there is more; then it has
consumed one byte of the rest as well. -/
theorem read_of_readable {s : Stream} (h : s.fault? = none) (hf : s.failed? = none) (max : Nat) :
    s.read max =
      (.ok ⟨s.rest.take max, decide (max < s.rest.length)⟩,
        { s with rest := s.rest.drop (if max < s.rest.length then max + 1 else max) }) := by
  have probe (t : Stream) (ht : t.fault? = none) := fetch_of_readable ht 1
  simp only [read, gather_eq, fetch_of_readable h, hf]
  by_cases hm : max < s.rest.length
  · rw [if_pos (by simp; omega), probe ⟨s.rest.drop max, s.fault?, none⟩ h]
    simp [hm]
  · split
    · rw [probe ⟨s.rest.drop max, s.fault?, none⟩ h]
      simp [hm, List.drop_eq_nil_of_le (Nat.le_of_not_lt hm)]
    · simp [hm]

/-- Where reading fails in the end, a bounded read fails if the bound is behind that place; a probe
that fails at the place itself looks like the end of the stream. -/
theorem read_of_fault {s : Stream} {why : Refusal} (h : s.fault? = some why)
    (hf : s.failed? = none) (max : Nat) :
    (s.read max).1 =
      if s.rest.length < max then .error (.cannotRead why)
      else .ok ⟨s.rest.take max, decide (max < s.rest.length)⟩ := by
  by_cases hmax : s.rest.length < max
  · simp [read, gather_eq, fetch, h, hmax]
  · have hle : max ≤ s.rest.length := Nat.le_of_not_lt hmax
    simp [read, gather_eq, fetch, h, hf, hmax, hle]

/-- What is delivered is the front of what was left. -/
theorem data_of_read {s : Stream} {max : Nat} {i : Input} (h : (s.read max).1 = .ok i) :
    i.data = s.rest.take max := by
  simp only [read, gather_eq] at h
  split at h
  · cases h
  · split at h
    · cases h
      rfl
    · cases h
      rfl

/-- Once a read has failed, so does every later one. -/
theorem read_of_failed {s : Stream} (h : s.failed? ≠ none) (max : Nat) :
    ∃ why, (s.read max).1 = .error (.cannotRead why) := by
  obtain ⟨why, hwhy⟩ := Option.ne_none_iff_exists'.1 h
  obtain ⟨why', hfailed⟩ : ∃ why', (s.gather max).2.failed? = some why' := by
    rw [gather_eq, fetch, hwhy]
    cases if s.rest.length < max then s.fault? else none with
    | none => exact ⟨why, rfl⟩
    | some why' => exact ⟨why', rfl⟩
  exact ⟨why', by simp only [read, hfailed]⟩

end Stream

end SweepRegex
