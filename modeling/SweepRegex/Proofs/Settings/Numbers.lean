import Mathlib.Data.Nat.Digits.Defs
import Mathlib.Data.List.Induction
import Mathlib.Data.List.TakeWhile
import SweepRegex.Settings

/-!
# Numbers are read as a whole or not at all

A number is written with decimal digits, any number of them, and where its type has numbers below
zero a minus sign may stand in front (`IsNumeral`).  Neither of the two readers, that of documents
and that of the environment, looks at the text as a whole: each has a conversion write a cell and
then looks where the conversion stopped, one at the length of what is left and the other at a zero
byte.  Both accept the numerals of their type and nothing else.

    d.get? table key = some v → t.Settles v default (d.number t table key default)
                                                                        (Document.settles_number)
    env.Supplies name v → 0 ∉ v → t.Settles v default (env.number t name default)
                                                                     (Environment.settles_number)
-/

namespace SweepRegex

/-! ## Numerals -/

/-- One or more decimal digits, those that count most in front, denote this number. -/
def Denotes (s : Bytes) (n : Nat) : Prop :=
  ∃ ds : List Nat, ds ≠ [] ∧ (∀ k ∈ ds, k < 10) ∧ s = ds.map Bytes.digit ∧
    n = Nat.ofDigits 10 ds.reverse

/-- Digits, or if that is allowed a minus sign and digits, denote this number. -/
inductive IsNumeral (signed : Bool) : Bytes → Int → Prop where
  | digits {s : Bytes} {n : Nat} : Denotes s n → IsNumeral signed s n
  | negative {s : Bytes} {n : Nat} : signed = true → Denotes s n →
      IsNumeral signed (Bytes.minus :: s) (-n)

namespace Bytes

/-- Every ASCII digit is the digit of a number below ten. -/
theorem exists_digit_eq {b : UInt8} (h : isDigit b = true) : ∃ k < 10, digit k = b := by
  simp only [isDigit, Bool.and_eq_true, decide_eq_true_eq, UInt8.le_iff_toNat_le] at h
  obtain ⟨hle, hge⟩ := h
  change 48 ≤ b.toNat at hle
  change b.toNat ≤ 57 at hge
  refine ⟨b.toNat - 48, by omega, ?_⟩
  rw [digit, Nat.add_sub_cancel' hle]
  exact UInt8.ofNat_toNat

theorem exists_digits_eq {s : Bytes} (h : s.all isDigit = true) :
    ∃ ds : List Nat, (∀ k ∈ ds, k < 10) ∧ ds.map digit = s := by
  induction s with
  | nil => exact ⟨[], by simp, rfl⟩
  | cons b s ih =>
    rw [List.all_cons, Bool.and_eq_true] at h
    obtain ⟨k, hk, rfl⟩ := exists_digit_eq h.1
    obtain ⟨ds, hds, rfl⟩ := ih h.2
    exact ⟨k :: ds, List.forall_mem_cons.2 ⟨hk, hds⟩, rfl⟩

theorem ofDigits_map_digit {ds : List Nat} (h : ∀ k ∈ ds, k < 10) :
    ofDigits (ds.map digit) = Nat.ofDigits 10 ds.reverse := by
  induction ds using List.reverseRecOn with
  | nil => rfl
  | append_singleton ds k ih =>
    rw [List.forall_mem_append, List.forall_mem_singleton] at h
    rw [List.map_append, List.map_singleton, ofDigits_append_digit _ h.2, ih h.1,
      List.reverse_append, List.reverse_singleton, List.singleton_append, Nat.ofDigits_cons,
      Nat.add_comm]

end Bytes

/-- The digits of a text, read from the left, denote what positional notation says. -/
theorem denotes_iff {s : Bytes} {n : Nat} :
    Denotes s n ↔ s ≠ [] ∧ s.all Bytes.isDigit = true ∧ Bytes.ofDigits s = n := by
  constructor
  · rintro ⟨ds, hne, hds, rfl, rfl⟩
    refine ⟨by simpa using hne, ?_, Bytes.ofDigits_map_digit hds⟩
    rw [List.all_map, List.all_eq_true]
    exact fun k hk => Bytes.isDigit_digit (hds k hk)
  · rintro ⟨hne, hall, rfl⟩
    obtain ⟨ds, hds, rfl⟩ := Bytes.exists_digits_eq hall
    exact ⟨ds, by simpa using hne, hds, rfl, Bytes.ofDigits_map_digit hds⟩

theorem Denotes.unique {s : Bytes} {m n : Nat} (hm : Denotes s m) (hn : Denotes s n) : m = n :=
  (denotes_iff.1 hm).2.2.symm.trans (denotes_iff.1 hn).2.2

/-- Digits do not start with a minus sign. -/
theorem not_denotes_minus {s : Bytes} {n : Nat} : ¬Denotes (Bytes.minus :: s) n := by
  intro h
  have hall := (denotes_iff.1 h).2.1
  rw [List.all_cons, Bool.and_eq_true] at hall
  exact absurd hall.1 (by decide)

theorem IsNumeral.unique {signed : Bool} {s : Bytes} {y z : Int} (hy : IsNumeral signed s y)
    (hz : IsNumeral signed s z) : y = z := by
  cases hy with
  | digits hm =>
    cases hz with
    | digits hn => rw [hm.unique hn]
    | negative _ _ => exact absurd hm not_denotes_minus
  | negative _ hm =>
    cases hz with
    | digits hn => exact absurd hn not_denotes_minus
    | negative _ hn => rw [hm.unique hn]

/-- Without a sign a numeral is made of digits. -/
theorem IsNumeral.denotes {s : Bytes} {n : Nat} (h : IsNumeral false s n) : Denotes s n := by
  generalize hz : (n : Int) = z at h
  cases h with
  | digits hm => rwa [Int.ofNat.inj hz]
  | negative hsigned _ => cases hsigned

/-! ## Conversions of numerals -/

namespace NumberType

variable {α : Type} {t : NumberType α} {s v : Bytes} {z : Int} {a default cell : α}

/-- What a text has to be read as: the number, if it is a numeral of one that the type has, and else
the default. -/
inductive Settles (t : NumberType α) (v : Bytes) (default : α) : α → Prop where
  | accepted {z : Int} {a : α} : IsNumeral t.signed v z → t.ofInt? z = some a →
      Settles t v default a
  | refused : (∀ z a, IsNumeral t.signed v z → t.ofInt? z ≠ some a) → Settles t v default default

theorem Settles.unique {b : α} (ha : t.Settles v default a) (hb : t.Settles v default b) :
    a = b := by
  cases ha with
  | accepted hz hfit =>
    cases hb with
    | accepted hy hfit' =>
      rw [hz.unique hy, hfit'] at hfit
      exact (Option.some.inj hfit).symm
    | refused hno => exact absurd hfit (hno _ _ hz)
  | refused hno =>
    cases hb with
    | accepted hz hfit => exact absurd hfit (hno _ _ hz)
    | refused _ => rfl

theorem splitSign_of_minus (h : t.signed = true) (s : Bytes) :
    t.splitSign (Bytes.minus :: s) = (true, s) := by
  simp [splitSign, h]

theorem splitSign_cases (t : NumberType α) (s : Bytes) :
    (t.signed = true ∧ ∃ body, s = Bytes.minus :: body) ∨ t.splitSign s = (false, s) := by
  rw [splitSign]
  split
  · next h =>
    rw [Bool.and_eq_true, beq_iff_eq, List.head?_eq_some_iff] at h
    exact .inl h
  · exact .inr rfl

theorem splitSign_of_denotes {n : Nat} (h : Denotes s n) : t.splitSign s = (false, s) := by
  rcases t.splitSign_cases s with ⟨-, body, rfl⟩ | hs
  · exact absurd h not_denotes_minus
  · exact hs

/-- A numeral is converted to its end. -/
theorem convert_of_numeral (h : IsNumeral t.signed s z) (hfit : t.ofInt? z = some a) (cell : α) :
    t.convert cell s = ⟨false, a, []⟩ := by
  have hwhole {body : Bytes} {n : Nat} (hn : Denotes body n) :
      body.takeWhile Bytes.isDigit = body ∧ body.dropWhile Bytes.isDigit = [] ∧ body ≠ [] ∧
        Bytes.ofDigits body = n := by
    obtain ⟨hne, hall, hval⟩ := denotes_iff.1 hn
    rw [List.all_eq_true] at hall
    exact ⟨List.takeWhile_eq_self_iff.2 hall, List.dropWhile_eq_nil_iff.2 hall, hne, hval⟩
  cases h with
  | digits hn =>
    obtain ⟨htake, hdrop, hne, hval⟩ := hwhole hn
    simp only [convert, splitSign_of_denotes hn, htake, hdrop, if_neg hne, hval,
      Bool.false_eq_true, if_false, hfit]
  | negative hsigned hn =>
    obtain ⟨htake, hdrop, hne, hval⟩ := hwhole hn
    simp only [convert, splitSign_of_minus hsigned, htake, hdrop, if_neg hne, hval, if_true, hfit]

/-- A conversion that goes on to the end has converted a numeral. -/
theorem exists_numeral_of_convert (hok : (t.convert cell s).failed = false)
    (hend : (t.convert cell s).rest = []) :
    ∃ z, IsNumeral t.signed s z ∧ t.ofInt? z = some (t.convert cell s).cell := by
  generalize hc : t.convert cell s = c at hok hend
  simp only [convert] at hc
  split at hc
  · rw [← hc] at hok
    cases hok
  · next hne =>
    split at hc
    · rw [← hc] at hok
      cases hok
    · next a hfit =>
      subst hc
      have hall := List.dropWhile_eq_nil_iff.1 hend
      have htake := List.takeWhile_eq_self_iff.2 hall
      rw [htake] at hne hfit
      have hn : Denotes (t.splitSign s).2 (Bytes.ofDigits (t.splitSign s).2) :=
        denotes_iff.2 ⟨hne, List.all_eq_true.2 hall, rfl⟩
      rcases t.splitSign_cases s with ⟨hsigned, body, rfl⟩ | hs
      · rw [splitSign_of_minus hsigned] at hn hfit
        exact ⟨_, .negative hsigned hn, hfit⟩
      · rw [hs] at hn hfit
        exact ⟨_, .digits hn, hfit⟩

/-- A reader has to take what the cell holds if the conversion has gone on to the end, and the
default if it has not. -/
theorem settles_of_convert {r : α}
    (hwhole : (t.convert default v).failed = false → (t.convert default v).rest = [] →
      r = (t.convert default v).cell)
    (hpart : (t.convert default v).failed = true ∨ (t.convert default v).rest ≠ [] →
      r = default) : t.Settles v default r := by
  by_cases h : (t.convert default v).failed = false ∧ (t.convert default v).rest = []
  · obtain ⟨z, hz, hfit⟩ := exists_numeral_of_convert h.1 h.2
    rw [hwhole h.1 h.2]
    exact .accepted hz hfit
  · rw [hpart (by simpa [imp_iff_not_or] using h)]
    refine .refused fun z a hz hfit => h ?_
    rw [convert_of_numeral hz hfit]
    exact ⟨rfl, rfl⟩

/-- There is no number in an empty text. -/
theorem settles_nil (t : NumberType α) (default : α) : t.Settles [] default default := by
  refine .refused fun z a hz => ?_
  generalize hs : ([] : Bytes) = s at hz
  cases hz with
  | digits hn => exact absurd hs.symm (denotes_iff.1 hn).1
  | negative _ _ => cases hs

end NumberType

/-! ## The two readers -/

namespace Document

variable {α : Type} {d : Document} {table key v : Bytes}

/-- A stored value is accepted if nothing is left behind the number. -/
theorem settles_number (h : d.get? table key = some v) (t : NumberType α) (default : α) :
    t.Settles v default (d.number t table key default) := by
  by_cases hv : v = []
  · subst hv
    simpa [number, readNumber, h] using t.settles_nil default
  · apply NumberType.settles_of_convert
    · intro hok hend
      simp [number, readNumber, h, hv, hok, hend]
    · intro hpart
      simp only [number, readNumber, h, Option.getD_some, if_neg hv]
      rcases hpart with hfailed | hrest
      · simp [hfailed]
      · simp [hrest]

end Document

namespace Environment

variable {α : Type} {env : Environment} {name v : Bytes}

/-- What is read for a variable is this text: its own, or that of the other spelling where it has
none or an empty one. -/
inductive Supplies (env : Environment) (name v : Bytes) : Prop where
  | own : env.raw name = some v →
      (v = [] → ∀ other, otherSpelling? name = some other → env.nonempty? other = none) →
      Supplies env name v
  | other {other : Bytes} : env.nonempty? name = none → otherSpelling? name = some other →
      env.raw other = some v → Supplies env name v

theorem Supplies.get?_eq (h : env.Supplies name v) :
    env.get? name = if v = [] then none else some v := by
  cases h with
  | own hraw hother =>
    split
    · next hv =>
      have hnone : env.nonempty? name = none := by simp [nonempty?, hraw, hv]
      have hbind : (otherSpelling? name).bind env.nonempty? = none :=
        Option.bind_eq_none_iff.2 (hother hv)
      rw [get?, hnone, hbind]
      rfl
    · next hv =>
      have hsome : env.nonempty? name = some v := nonempty?_eq_some_iff.2 ⟨hraw, hv⟩
      rw [get?, hsome]
      rfl
  | other hnone hspelling hraw =>
    rw [get?, hnone, hspelling, Option.bind_some]
    split
    · next hv => simp [nonempty?, hraw, hv]
    · next hv => simp [nonempty?_eq_some_iff.2 ⟨hraw, hv⟩]

/-- A variable is accepted if the conversion stopped at the zero byte behind it: in the text
itself there is none. -/
theorem settles_number_of_get? (h : env.get? name = some v) (hzero : (0 : UInt8) ∉ v)
    (t : NumberType α) (default : α) : t.Settles v default (env.number t name default) := by
  apply NumberType.settles_of_convert
  · intro hok hend
    simp [number, h, hok, hend]
  · intro hpart
    simp only [number, h]
    rcases hpart with hfailed | hrest
    · simp [hfailed]
    · obtain ⟨b, rest, hb⟩ := List.exists_cons_of_ne_nil hrest
      have hmem : b ∈ v := by
        apply (t.rest_convert_suffix default v).subset
        rw [hb]
        exact List.mem_cons_self
      have hne : b ≠ 0 := fun h0 => hzero (h0 ▸ hmem)
      simp [hb, hne]

theorem number_of_get?_eq_none (h : env.get? name = none) (t : NumberType α) (default : α) :
    env.number t name default = default := by
  rw [number, h]

theorem settles_number (h : env.Supplies name v) (hzero : (0 : UInt8) ∉ v) (t : NumberType α)
    (default : α) : t.Settles v default (env.number t name default) := by
  have hget := h.get?_eq
  split at hget
  · next hv =>
    rw [number_of_get?_eq_none hget, hv]
    exact t.settles_nil default
  · exact settles_number_of_get? hget hzero t default

end Environment

/-! ## The types of the settings -/

namespace NumberType

theorem word_ofInt?_eq_some_iff {z : Int} {n : Nat} :
    word.ofInt? z = some n ↔ z = n ∧ n ≤ 18446744073709551615 := by
  have hfit : word.ofInt? z =
      if 0 ≤ z ∧ z < (18446744073709551616 : Int) then some z.toNat else none := rfl
  rw [hfit, Option.ite_none_right_eq_some, Option.some.injEq]
  omega

theorem int_ofInt?_eq_some_iff {z y : Int} :
    int.ofInt? z = some y ↔ z = y ∧ -2147483648 ≤ z ∧ z ≤ 2147483647 := by
  have hfit : int.ofInt? z =
      if -2147483648 ≤ z ∧ z < (2147483648 : Int) then some z else none := rfl
  rw [hfit, Option.ite_none_right_eq_some, Option.some.injEq]
  omega

end NumberType

/-! ## The numbers among the settings -/

theorem NumberType.settles_word? (v : Bytes) (default : Nat) :
    word.Settles v default ((Bytes.word? v).getD default) := by
  have hiff (n : Nat) : Bytes.word? v = some n ↔ Denotes v n ∧ n ≤ 18446744073709551615 := by
    rw [Bytes.word?_eq_some_iff, Bytes.natural?, Option.ite_none_right_eq_some, Option.some.injEq,
      denotes_iff, ← and_assoc]
    exact and_congr_right fun _ => Nat.lt_succ_iff
  cases hv : Bytes.word? v with
  | some n =>
    obtain ⟨hn, hle⟩ := (hiff n).1 hv
    exact .accepted (.digits hn) (word_ofInt?_eq_some_iff.2 ⟨rfl, hle⟩)
  | none =>
    refine .refused fun z n hz hfit => ?_
    obtain ⟨rfl, hle⟩ := word_ofInt?_eq_some_iff.1 hfit
    have hsome := (hiff n).2 ⟨hz.denotes, hle⟩
    rw [hv] at hsome
    cases hsome

theorem Document.word_eq (d : Document) (table key : Bytes) (default : Nat) :
    d.word table key default = ((d.get? table key).bind Bytes.word?).getD default := by
  cases h : d.get? table key with
  | none => simp [word, number, readNumber, h]
  | some v => exact (settles_number h _ default).unique (NumberType.settles_word? v default)

theorem Environment.word_eq {env : Environment} {name : Bytes}
    (hzero : ∀ v, env.get? name = some v → (0 : UInt8) ∉ v) (default : Nat) :
    env.word name default = ((env.get? name).bind Bytes.word?).getD default := by
  cases h : env.get? name with
  | none => exact number_of_get?_eq_none h _ default
  | some v =>
    exact (settles_number_of_get? h (hzero v h) _ default).unique
      (NumberType.settles_word? v default)

/-- A setting that is a number is what the one reader finds in the document, or else what the other
finds in the environment. -/
theorem Setting.resolve_number (table key name : String) (default : Nat) {env : Environment}
    (hzero : ∀ v, env.get? (ascii name) = some v → (0 : UInt8) ∉ v) (document : Option Document) :
    (number table key name default).resolve document env =
      match document with
      | some d =>
        if d.has (ascii table) (ascii key) then d.word (ascii table) (ascii key) default
        else env.word (ascii name) default
      | none => env.word (ascii name) default := by
  rw [Environment.word_eq hzero]
  cases document with
  | none => rfl
  | some d =>
    simp only [Document.word_eq]
    cases h : d.get? (ascii table) (ascii key) <;> simp [resolve, number, Document.has, h]

/-! ## Main statement -/

/-- **Numbers are read as a whole or not at all.**  Take any text without a zero byte, stored under
a key of a document and held by a variable.  Both are read as the same number of 64 bits: the one
that the text denotes, if it is made of digits alone and its number fits, however many zeros stand
in front; and else the default.  With a sign the key is read as the number of 32 bits that is
denoted by digits, or by a minus sign and digits, and else as the default. -/
theorem numbers_exact {v : Bytes} (hzero : (0 : UInt8) ∉ v)
    {d : Document} {table key : Bytes} (hd : d.get? table key = some v)
    {env : Environment} {name : Bytes} (henv : env.Supplies name v) :
    (∀ default, d.word table key default = env.word name default) ∧
    (∀ n default, Denotes v n → n ≤ 18446744073709551615 → d.word table key default = n) ∧
    (∀ default, (∀ n, Denotes v n → 18446744073709551615 < n) →
      d.word table key default = default) ∧
    (∀ z default, IsNumeral true v z → -2147483648 ≤ z → z ≤ 2147483647 →
      d.int table key default = z) ∧
    (∀ default, (∀ z, IsNumeral true v z → z < -2147483648 ∨ 2147483647 < z) →
      d.int table key default = default) := by
  have hword := Document.settles_number hd NumberType.word
  have hint := Document.settles_number hd NumberType.int
  refine ⟨fun default => ?_, fun n default hn hle => ?_, fun default hno => ?_,
    fun z default hz hle hge => ?_, fun default hno => ?_⟩
  · exact (hword default).unique (Environment.settles_number henv hzero _ default)
  · exact (hword default).unique
      (.accepted (.digits hn) (NumberType.word_ofInt?_eq_some_iff.2 ⟨rfl, hle⟩))
  · refine (hword default).unique (.refused fun z n hz hfit => ?_)
    obtain ⟨rfl, hle⟩ := NumberType.word_ofInt?_eq_some_iff.1 hfit
    have := hno n hz.denotes
    omega
  · exact (hint default).unique
      (.accepted hz (NumberType.int_ofInt?_eq_some_iff.2 ⟨rfl, hle, hge⟩))
  · refine (hint default).unique (.refused fun z y hz hfit => ?_)
    obtain ⟨-, hle, hge⟩ := NumberType.int_ofInt?_eq_some_iff.1 hfit
    have := hno z hz
    omega

/-- The least number with a sign and the greatest without one, the second with zeros in front.  The
first of the two variables has its other spelling. -/
theorem numbers_exact_least_greatest :
    let d := Document.parse (ascii "a = -2147483648\nb = 0018446744073709551615")
    let env := Environment.ofList [(ascii "relite_A", ascii "-2147483648"),
      (ascii "RELITE_B", ascii "0018446744073709551615")]
    (d.int [] (ascii "a") 7 = -2147483648 ∧ d.word [] (ascii "a") 7 = 7 ∧
      env.word (ascii "RELITE_A") 7 = 7) ∧
    d.int [] (ascii "b") 7 = 7 ∧ d.word [] (ascii "b") 7 = 18446744073709551615 ∧
      env.word (ascii "RELITE_B") 7 = 18446744073709551615 := by
  intro d env
  have hleast : Denotes (ascii "2147483648") 2147483648 :=
    denotes_iff.2 ⟨by decide, by decide, by decide +kernel⟩
  have hgreatest : Denotes (ascii "0018446744073709551615") 18446744073709551615 :=
    denotes_iff.2 ⟨by decide, by decide, by decide +kernel⟩
  have ha : d.get? [] (ascii "a") = some (ascii "-2147483648") := by decide +kernel
  have hb : d.get? [] (ascii "b") = some (ascii "0018446744073709551615") := by decide +kernel
  have hsupplied : env.Supplies (ascii "RELITE_A") (ascii "-2147483648") :=
    .other rfl rfl rfl
  have hsupplied' : env.Supplies (ascii "RELITE_B") (ascii "0018446744073709551615") :=
    .own rfl (by decide)
  obtain ⟨hsame, -, hno, hint, -⟩ := numbers_exact (by decide) ha hsupplied
  obtain ⟨hsame', hword', -, -, hno'⟩ := numbers_exact (by decide) hb hsupplied'
  have hminus : d.word [] (ascii "a") 7 = 7 :=
    hno 7 fun n hn => absurd hn not_denotes_minus
  have hb' := hword' _ 7 hgreatest (by decide)
  refine ⟨⟨hint _ 7 (.negative rfl hleast) (by decide) (by decide), hminus, ?_⟩, ?_, hb', ?_⟩
  · rw [← hsame, hminus]
  · refine hno' 7 fun z hz => ?_
    rw [hz.unique (.digits hgreatest)]
    decide
  · rw [← hsame', hb']

end SweepRegex
