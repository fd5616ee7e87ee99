import RubyPretty.Shape.Integer
/-!
# Integer literals keep their value

`literalValue?` reads an integer literal: an optional sign, then a decimal number that does not
start with a zero, a lone zero, a zero and octal digits, or a zero, a letter for the base and digits
of that base. Single underscores may stand between digits. What it reads in a literal it reads in
the canonical form as well (`unsignedValue?_canonicalDigits`). The form of any text, literal or not,
is canonical (`isCanonical_canonicalInt`), and what is canonical stays as it is
(`canonicalInt_of_isCanonical`), so making it canonical twice is making it so once.
-/

namespace RubyPretty.Shape

/-! ## Reading literals -/

def digitValue? (base : Nat) (c : Char) : Option Nat :=
  let value? :=
    if '0' ≤ c ∧ c ≤ '9' then some (c.toNat - '0'.toNat)
    else if 'a' ≤ c ∧ c ≤ 'f' then some (c.toNat - 'a'.toNat + 10)
    else if 'A' ≤ c ∧ c ≤ 'F' then some (c.toNat - 'A'.toNat + 10)
    else none
  value?.filter (· < base)

/-- Goes on reading digits behind the number `n`; an underscore may stand before each of them. -/
def numberFrom? (base n : Nat) : List Char → Option Nat
  | [] => some n
  | '_' :: d :: ds => (digitValue? base d).bind fun v => numberFrom? base (n * base + v) ds
  | d :: ds => (digitValue? base d).bind fun v => numberFrom? base (n * base + v) ds

/-- Reads a number, which starts and ends with a digit. -/
def number? (base : Nat) : List Char → Option Nat
  | [] => none
  | d :: ds => (digitValue? base d).bind fun v => numberFrom? base v ds

/-- The base that the letter behind a first zero stands for. -/
def letterBase? (c : Char) : Option Nat :=
  if c ∈ ['o', 'O'] then some 8
  else if c ∈ ['x', 'X'] then some 16
  else if c ∈ ['b', 'B'] then some 2
  else if c ∈ ['d', 'D'] then some 10
  else none

/-- Reads a literal without sign. Behind a first zero there is nothing, a letter and digits of its
base, or octal digits. -/
def unsignedValue? : List Char → Option Nat
  | [] => none
  | d :: ds =>
      if d = '0' then
        match ds with
        | [] => some 0
        | c :: cs =>
            match letterBase? c with
            | some base => number? base cs
            | none => numberFrom? 8 0 (c :: cs)
      else number? 10 (d :: ds)

def unsigned : List Char → List Char
  | '-' :: ds => ds
  | '+' :: ds => ds
  | ds => ds

def literalValue? (s : String) : Option Int :=
  (unsignedValue? (unsigned s.toList)).map fun n : Nat =>
    if s.toList.head? = some '-' then -(n : Int) else n

example : ["", "-", "08", "0_", "0x", "0b_1", "1__0", "1_", "++1"].all (literalValue? · == none) :=
  by decide

/-! ## Digits and marks -/

theorem ne_mark_of_isDigit {c : Char} (h : Text.isDigit c = true) : c ≠ '_' := by
  rintro rfl
  cases h

theorem letterBase?_of_isDigit {c : Char} (h : Text.isDigit c = true) : letterBase? c = none := by
  have hletters : ['o', 'O', 'x', 'X', 'b', 'B', 'd', 'D'].any Text.isDigit = false := by decide
  have hne : ∀ l ∈ ['o', 'O', 'x', 'X', 'b', 'B', 'd', 'D'], c ≠ l := by
    rintro l hl rfl
    exact List.any_eq_false.mp hletters c hl h
  simp only [List.forall_mem_cons] at hne
  simp [letterBase?, hne]

theorem numberFrom?_cons {d : Char} (h : d ≠ '_') (base n : Nat) (ds : List Char) :
    numberFrom? base n (d :: ds) =
      (digitValue? base d).bind fun v => numberFrom? base (n * base + v) ds := by
  rw [numberFrom?]
  rintro _ _ rfl
  exact absurd rfl h

theorem numberFrom?_mark {d : Char} (h : d ≠ '_') (base n : Nat) (ds : List Char) :
    numberFrom? base n ('_' :: d :: ds) = numberFrom? base n (d :: ds) := by
  rw [numberFrom?_cons h, numberFrom?]

theorem numberFrom?_groupRest (base n : Nat) {ds : List Char} (h : '_' ∉ ds) :
    numberFrom? base n (groupRest ds) = numberFrom? base n ds := by
  induction ds generalizing n with
  | nil => rfl
  | cons d ds ih =>
      rw [List.mem_cons, not_or] at h
      have hd : d ≠ '_' := Ne.symm h.1
      have hread : numberFrom? base n (d :: groupRest ds) = numberFrom? base n (d :: ds) := by
        rw [numberFrom?_cons hd, numberFrom?_cons hd]
        exact congrArg _ (funext fun v => ih (n * base + v) h.2)
      rw [groupRest]
      split
      · rw [numberFrom?_mark hd, hread]
      · exact hread

theorem number?_groupDigits (base : Nat) {ds : List Char} (h : '_' ∉ ds) :
    number? base (groupDigits ds) = number? base ds := by
  cases ds with
  | nil => rfl
  | cons d ds =>
      rw [List.mem_cons, not_or] at h
      show (digitValue? base d).bind _ = (digitValue? base d).bind _
      exact congrArg _ (funext fun v => numberFrom?_groupRest base v h.2)

theorem mark_mem_groupRest {ds : List Char} (h : 3 ≤ ds.length) : '_' ∈ groupRest ds := by
  induction ds with
  | nil => cases h
  | cons d ds ih =>
      rw [groupRest]
      split
      · exact List.mem_cons_self
      · rw [List.length_cons] at h
        exact List.mem_cons_of_mem d (ih (by omega))

theorem head?_groupDigits (ds : List Char) : (groupDigits ds).head? = ds.head? := by
  cases ds <;> rfl

/-! ## Canonical forms -/

def IsOldOctal (ds : List Char) : Prop := ∃ d rest, ds = '0' :: d :: rest ∧ Text.isDigit d = true

/-- Five digits or more without marks, the first of them no zero. -/
def IsLongRun (ds : List Char) : Prop :=
  5 ≤ ds.length ∧ ds.all Text.isDigit = true ∧ ds.head? ≠ some '0'

/-- What canonical digits do to a text: they put a letter into an octal number, divide a long run
into groups, and leave anything else alone. -/
theorem canonicalDigits_cases (ds : List Char) :
    (∃ d rest, ds = '0' :: d :: rest ∧ Text.isDigit d = true ∧
        canonicalDigits ds = '0' :: 'o' :: d :: rest) ∨
      (IsLongRun ds ∧ canonicalDigits ds = groupDigits ds) ∨
      (¬ IsOldOctal ds ∧ ¬ IsLongRun ds ∧ canonicalDigits ds = ds) := by
  unfold canonicalDigits
  split
  · next d rest =>
      by_cases hd : Text.isDigit d = true
      · exact .inl ⟨d, rest, rfl, hd, if_pos hd⟩
      · refine .inr (.inr ⟨?_, fun h => h.2.2 rfl, if_neg hd⟩)
        rintro ⟨_, _, heq, hdigit⟩
        cases heq
        exact hd hdigit
  · refine .inr (.inr ⟨?_, fun h => h.2.2 rfl, rfl⟩)
    rintro ⟨_, _, heq, -⟩
    cases heq
  · next hlong hzero =>
      have hhead : ds.head? ≠ some '0' := by
        intro hhead
        obtain ⟨rest, rfl⟩ := List.head?_eq_some_iff.mp hhead
        cases rest with
        | nil => exact hzero rfl
        | cons d rest => exact hlong d rest rfl
      by_cases hrun : 5 ≤ ds.length ∧ ds.all Text.isDigit = true
      · exact .inr (.inl ⟨⟨hrun.1, hrun.2, hhead⟩, if_pos hrun⟩)
      · refine .inr (.inr ⟨?_, fun h => hrun ⟨h.1, h.2.1⟩, if_neg hrun⟩)
        rintro ⟨d, rest, rfl, -⟩
        exact hhead rfl

theorem canonicalDigits_of_canonical {ds : List Char} (hoctal : ¬ IsOldOctal ds)
    (hrun : ¬ IsLongRun ds) : canonicalDigits ds = ds := by
  rcases canonicalDigits_cases ds with ⟨d, rest, hds, hd, -⟩ | ⟨hlong, -⟩ | ⟨-, -, he⟩
  · exact absurd ⟨d, rest, hds, hd⟩ hoctal
  · exact absurd hlong hrun
  · exact he

theorem canonical_canonicalDigits (ds : List Char) :
    ¬ IsOldOctal (canonicalDigits ds) ∧ ¬ IsLongRun (canonicalDigits ds) := by
  rcases canonicalDigits_cases ds with ⟨d, rest, -, -, he⟩ | ⟨⟨hlength, -, hhead⟩, he⟩ |
    ⟨hoctal, hrun, he⟩
  · rw [he]
    refine ⟨?_, fun h => h.2.2 rfl⟩
    rintro ⟨_, _, heq, hdigit⟩
    cases heq
    cases hdigit
  · rw [he]
    constructor
    · rintro ⟨d, rest, heq, -⟩
      rw [← head?_groupDigits, heq] at hhead
      exact hhead rfl
    · rintro ⟨-, hall, -⟩
      -- the groups are divided by a mark, which is no digit
      have hmark : '_' ∈ groupDigits ds := by
        cases ds with
        | nil => cases hlength
        | cons d ds =>
            rw [List.length_cons] at hlength
            exact List.mem_cons_of_mem d (mark_mem_groupRest (by omega))
      exact ne_mark_of_isDigit (List.all_eq_true.mp hall _ hmark) rfl
  · rw [he]
    exact ⟨hoctal, hrun⟩

theorem head?_canonicalDigits (ds : List Char) : (canonicalDigits ds).head? = ds.head? := by
  rcases canonicalDigits_cases ds with ⟨d, rest, hds, -, he⟩ | ⟨-, he⟩ | ⟨-, -, he⟩
  · rw [he, hds]
    rfl
  · rw [he, head?_groupDigits]
  · rw [he]

theorem unsignedValue?_of_head {ds : List Char} (h : ds.head? ≠ some '0') :
    unsignedValue? ds = number? 10 ds := by
  cases ds with
  | nil => rfl
  | cons d ds => exact if_neg fun hd => h (congrArg some hd)

theorem unsignedValue?_canonicalDigits {ds : List Char} {n : Nat}
    (h : unsignedValue? ds = some n) : unsignedValue? (canonicalDigits ds) = some n := by
  rcases canonicalDigits_cases ds with ⟨d, rest, hds, hd, he⟩ | ⟨⟨-, hall, hhead⟩, he⟩ | ⟨-, -, he⟩
  · have hread : unsignedValue? ds = numberFrom? 8 0 (d :: rest) := by
      simp only [hds, unsignedValue?, letterBase?_of_isDigit hd, if_true]
    rw [hread, numberFrom?_cons (ne_mark_of_isDigit hd)] at h
    rw [he]
    show number? 8 (d :: rest) = some n
    simpa only [number?, Nat.zero_mul, Nat.zero_add] using h
  · have hmark : '_' ∉ ds := fun hmem =>
      ne_mark_of_isDigit (List.all_eq_true.mp hall _ hmem) rfl
    rw [he, unsignedValue?_of_head (by rwa [head?_groupDigits]), number?_groupDigits 10 hmark,
      ← unsignedValue?_of_head hhead, h]
  · rw [he, h]

/-! ## Signs -/

theorem head?_ne {c : Char} {cs : List Char} (h : ∀ ds, cs = c :: ds → False) :
    cs.head? ≠ some c := by
  intro hhead
  obtain ⟨ds, hds⟩ := List.head?_eq_some_iff.mp hhead
  exact h ds hds

theorem unsigned_of_head {cs : List Char} (hminus : cs.head? ≠ some '-')
    (hplus : cs.head? ≠ some '+') : unsigned cs = cs := by
  unfold unsigned
  split
  · exact absurd rfl hminus
  · exact absurd rfl hplus
  · rfl

theorem canonicalChars_spec (cs : List Char) :
    (canonicalChars cs).head? = cs.head? ∧
      unsigned (canonicalChars cs) = canonicalDigits (unsigned cs) := by
  unfold canonicalChars
  split
  · exact ⟨rfl, rfl⟩
  · exact ⟨rfl, rfl⟩
  · next hminus hplus =>
      have hhead := head?_canonicalDigits cs
      refine ⟨hhead, ?_⟩
      rw [unsigned_of_head (head?_ne hminus) (head?_ne hplus)]
      -- no sign comes in front of digits that had none
      exact unsigned_of_head (hhead ▸ head?_ne hminus) (hhead ▸ head?_ne hplus)

theorem canonicalChars_of_canonical {cs : List Char}
    (h : canonicalDigits (unsigned cs) = unsigned cs) : canonicalChars cs = cs := by
  unfold canonicalChars
  split
  · exact congrArg ('-' :: ·) h
  · exact congrArg ('+' :: ·) h
  · next hminus hplus => rwa [unsigned_of_head (head?_ne hminus) (head?_ne hplus)] at h

/-- A canonical text is no octal number without its letter and no long run of digits, whatever its
sign. -/
def IsCanonical (s : String) : Prop :=
  ¬ IsOldOctal (unsigned s.toList) ∧ ¬ IsLongRun (unsigned s.toList)

theorem isCanonical_canonicalInt (s : String) : IsCanonical (canonicalInt s) := by
  rw [IsCanonical, canonicalInt, String.toList_ofList, (canonicalChars_spec s.toList).2]
  exact canonical_canonicalDigits _

theorem canonicalInt_of_isCanonical {s : String} (h : IsCanonical s) : canonicalInt s = s := by
  rw [canonicalInt, canonicalChars_of_canonical (canonicalDigits_of_canonical h.1 h.2),
    String.ofList_toList]

/-- An integer literal keeps its value in canonical form, and is an integer literal there. For any
text at all the canonical form is canonical, and is left alone when it is made canonical again. -/
theorem canonicalInt_keeps_value :
    (∀ s n, literalValue? s = some n → literalValue? (canonicalInt s) = some n) ∧
      ∀ s, IsCanonical (canonicalInt s) ∧ canonicalInt (canonicalInt s) = canonicalInt s := by
  refine ⟨fun s n h => ?_, fun s => ?_⟩
  · obtain ⟨hhead, hunsigned⟩ := canonicalChars_spec s.toList
    obtain ⟨m, hm, hn⟩ := Option.map_eq_some_iff.mp h
    rw [literalValue?, canonicalInt, String.toList_ofList, hunsigned,
      unsignedValue?_canonicalDigits hm, hhead]
    exact congrArg some hn
  · have hcanonical := isCanonical_canonicalInt s
    exact ⟨hcanonical, canonicalInt_of_isCanonical hcanonical⟩

theorem canonicalInt_keeps_value_samples :
    literalValue? "-0_755" = some (-493) ∧ literalValue? (canonicalInt "-0_755") = some (-493) ∧
      literalValue? "+07_55" = some 493 ∧ literalValue? (canonicalInt "+07_55") = some 493 ∧
      literalValue? "1234567" = some 1234567 ∧
      literalValue? (canonicalInt "1234567") = some 1234567 := by
  have hkeeps := canonicalInt_keeps_value.1
  exact ⟨by decide, hkeeps _ _ (by decide), by decide, hkeeps _ _ (by decide), by decide,
    hkeeps _ _ (by decide)⟩

end RubyPretty.Shape
