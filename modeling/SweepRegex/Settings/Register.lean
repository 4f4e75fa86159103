import SweepRegex.Bytes

/-!
# Registers

A register is a row of values, each under a name.  A name is looked up from the front, so it is the
first value under it that is found.  It is also the first value that is changed, where it stands;
only a name that is not there yet gets a new value, behind all others.  So lookups and changes agree
in any register (`find?_change`).  And in one that was made by changes no name is there twice
(`Distinct.change`), so that nothing is hidden behind what is found (`Distinct.find?_eq_some_iff`).
-/

namespace SweepRegex

/-- Values under names, in the order in which the names came up. -/
structure Register (α : Type) where
  entries : List (Bytes × α)
deriving DecidableEq

namespace Register

variable {α : Type}

/-! ## Algorithm -/

/-- A register without names. -/
def empty : Register α := ⟨[]⟩

/-- The first value under a name. -/
def find? (r : Register α) (name : Bytes) : Option α := r.entries.lookup name

/-- Changes the first value under a name where it stands; a name that is not there is put at the end
with a new value, and that is changed. -/
def changeIn (name : Bytes) (new : α) (f : α → α) : List (Bytes × α) → List (Bytes × α)
  | [] => [(name, f new)]
  | (n, a) :: rest =>
    if n = name then (n, f a) :: rest else (n, a) :: changeIn name new f rest

/-- Changes the value under a name, which is a new one if there was none. -/
def change (r : Register α) (name : Bytes) (new : α) (f : α → α) : Register α :=
  ⟨changeIn name new f r.entries⟩

/-- Puts a value under a name, in place of the one that was there. -/
def set (r : Register α) (name : Bytes) (value : α) : Register α :=
  r.change name value fun _ => value

/-- The names that are there. -/
def names (r : Register α) : List Bytes := r.entries.map Prod.fst

/-- No name is there twice. -/
def Distinct (r : Register α) : Prop := r.names.Nodup

/-! ## Lemmas -/

@[simp] theorem find?_empty (name : Bytes) : (empty : Register α).find? name = none := rfl

theorem distinct_empty : (empty : Register α).Distinct := List.nodup_nil

/-- A change is found under its own name, and nothing else is changed. -/
theorem find?_change (r : Register α) (name : Bytes) (new : α) (f : α → α) (n : Bytes) :
    (r.change name new f).find? n =
      if name = n then some (f ((r.find? name).getD new)) else r.find? n := by
  obtain ⟨entries⟩ := r
  simp only [change, find?]
  induction entries with
  | nil =>
    by_cases hn : name = n
    · simp [changeIn, hn]
    · simp [changeIn, hn, List.lookup_cons, beq_eq_false_iff_ne.2 (Ne.symm hn)]
  | cons e rest ih =>
    obtain ⟨m, a⟩ := e
    by_cases hm : m = name
    · subst hm
      by_cases hn : m = n
      · simp [changeIn, hn]
      · simp [changeIn, hn, List.lookup_cons, beq_eq_false_iff_ne.2 (Ne.symm hn)]
    · have hname : (name == m) = false := beq_eq_false_iff_ne.2 (Ne.symm hm)
      rw [changeIn, if_neg hm, List.lookup_cons, List.lookup_cons, List.lookup_cons, ih, hname]
      by_cases hn : n = m
      · subst hn
        simp [Ne.symm hm]
      · simp [beq_eq_false_iff_ne.2 hn]

/-- A change adds at most its own name, at the end. -/
theorem names_change (r : Register α) (name : Bytes) (new : α) (f : α → α) :
    (r.change name new f).names = if name ∈ r.names then r.names else r.names ++ [name] := by
  obtain ⟨entries⟩ := r
  simp only [change, names]
  induction entries with
  | nil => simp [changeIn]
  | cons e rest ih =>
    obtain ⟨m, a⟩ := e
    by_cases hm : m = name
    · simp [changeIn, hm]
    · rw [changeIn, if_neg hm, List.map_cons, ih]
      by_cases hmem : name ∈ rest.map Prod.fst
      · simp [hmem]
      · simp [hmem, Ne.symm hm]

/-- No change puts a name there a second time. -/
theorem Distinct.change {r : Register α} (h : r.Distinct) (name : Bytes) (new : α) (f : α → α) :
    (r.change name new f).Distinct := by
  unfold Distinct
  rw [names_change]
  split
  · exact h
  · next hname =>
    refine List.nodup_append.2 ⟨h, List.pairwise_singleton _ _, fun m hm n hn => ?_⟩
    rw [List.mem_singleton.1 hn]
    exact fun hmn => hname (hmn ▸ hm)

/-- What holds of all values that are there, and of a new one, is kept by a change that keeps it. -/
theorem forall_mem_change {P : α → Prop} {r : Register α} (h : ∀ e ∈ r.entries, P e.2)
    {name : Bytes} {new : α} (hnew : P new) {f : α → α} (hf : ∀ a, P a → P (f a)) :
    ∀ e ∈ (r.change name new f).entries, P e.2 := by
  obtain ⟨entries⟩ := r
  simp only [change] at h ⊢
  induction entries with
  | nil => simpa [changeIn] using hf new hnew
  | cons e rest ih =>
    obtain ⟨m, a⟩ := e
    rw [List.forall_mem_cons] at h
    by_cases hm : m = name
    · rw [changeIn, if_pos hm]
      exact List.forall_mem_cons.2 ⟨hf a h.1, h.2⟩
    · rw [changeIn, if_neg hm]
      exact List.forall_mem_cons.2 ⟨h.1, ih h.2⟩

/-- Where no name is there twice, all that is there is found. -/
theorem Distinct.find?_eq_some_iff {r : Register α} (h : r.Distinct) {name : Bytes} {a : α} :
    r.find? name = some a ↔ (name, a) ∈ r.entries := by
  obtain ⟨entries⟩ := r
  simp only [Distinct, names, find?] at h ⊢
  induction entries with
  | nil => simp
  | cons e rest ih =>
    obtain ⟨m, b⟩ := e
    rw [List.map_cons, List.nodup_cons] at h
    rw [List.lookup_cons, List.mem_cons]
    by_cases hname : name = m
    · subst hname
      have hrest : (name, a) ∉ rest := fun hmem =>
        h.1 (List.mem_map.2 ⟨(name, a), hmem, rfl⟩)
      simp [hrest, eq_comm]
    · simp [beq_eq_false_iff_ne.2 hname, hname, ih h.2]

end Register

end SweepRegex
