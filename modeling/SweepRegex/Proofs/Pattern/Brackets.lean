import SweepRegex.Pattern.Symbol

/-!
# Brackets of a pattern

What can be told of the groups of a text from the text alone.  `openGroups` counts the groups that
are open at its end, and a text is `Balanced` if every bracket in it has its partner there, so that
the brackets around a balanced text are partners of each other.

    0 < openGroups s → s = r ++ .groupOpen :: t  with  t  balanced     (exists_innermost_group)
-/

namespace SweepRegex

namespace Symbol

/-- Is the symbol a round bracket? -/
def isBracket : Symbol → Bool
  | .groupOpen | .groupClose => true
  | _ => false

/-- Is the symbol a postfix operator? -/
def isOperator : Symbol → Bool
  | .plus | .star | .bar => true
  | _ => false

/-- How many groups are open behind the symbol if so many were open in front of it.  A closing
bracket without a partner closes nothing. -/
def nest (opened : Nat) : Symbol → Nat
  | .groupOpen => opened + 1
  | .groupClose => opened - 1
  | _ => opened

theorem nest_of_not_isBracket {x : Symbol} (h : x.isBracket = false) (n : Nat) : x.nest n = n := by
  cases x <;> first | rfl | cases h

/-- The brackets are the symbols without code. -/
theorem size_eq_zero_iff (x : Symbol) : x.size = 0 ↔ x.isBracket = true := by
  cases x <;> simp [size, isBracket]

end Symbol

namespace Pattern

/-! ## Algorithm -/

/-- How many groups are open at the end of a text. -/
def openGroups (s : List Symbol) : Nat := s.foldl Symbol.nest 0

/-- Every bracket of the text has its partner in it. -/
inductive Balanced : List Symbol → Prop where
  | nil : Balanced []
  | symbol {x : Symbol} : x.isBracket = false → Balanced [x]
  | group {s : List Symbol} : Balanced s → Balanced (.groupOpen :: s ++ [.groupClose])
  | append {s t : List Symbol} : Balanced s → Balanced t → Balanced (s ++ t)

/-! ## Lemmas -/

@[simp] theorem openGroups_nil : openGroups [] = 0 := rfl

@[simp] theorem openGroups_concat (s : List Symbol) (x : Symbol) :
    openGroups (s ++ [x]) = x.nest (openGroups s) := by
  simp [openGroups]

/-- The last of the groups that are open: what follows its bracket is balanced, and in front of it
one group less is open. -/
theorem exists_innermost_group {s : List Symbol} {n : Nat} (h : openGroups s = n + 1) :
    ∃ r t, s = r ++ .groupOpen :: t ∧ Balanced t ∧ openGroups r = n := by
  induction hlen : s.length using Nat.strongRecOn generalizing s n with
  | ind len ih =>
    rcases List.eq_nil_or_concat s with rfl | ⟨s, x, rfl⟩
    · simp at h
    · simp only [List.concat_eq_append] at h hlen ⊢
      have hlt : s.length < len := by simp at hlen; omega
      rw [openGroups_concat] at h
      by_cases hx : x.isBracket = false
      · have hs : openGroups s = n + 1 := by rwa [Symbol.nest_of_not_isBracket hx] at h
        obtain ⟨r, t, rfl, ht, hr⟩ := ih s.length hlt hs rfl
        exact ⟨r, t ++ [x], by simp, ht.append (.symbol hx), hr⟩
      · cases x with
        | groupOpen =>
          have hs : openGroups s = n := by simpa [Symbol.nest] using h
          exact ⟨s, [], rfl, .nil, hs⟩
        | groupClose =>
          -- the bracket closes the last group, so the group sought is the last one in front of it
          have hs : openGroups s = n + 1 + 1 := by
            simp only [Symbol.nest] at h
            omega
          obtain ⟨r, t, rfl, ht, hr⟩ := ih s.length hlt hs rfl
          have hlt' : r.length < len := by simp at hlt; omega
          obtain ⟨r', t', rfl, ht', hr'⟩ := ih r.length hlt' hr rfl
          exact ⟨r', t' ++ (.groupOpen :: t ++ [.groupClose]), by simp, ht'.append ht.group, hr'⟩
        | _ => simp [Symbol.isBracket] at hx

end Pattern

end SweepRegex
