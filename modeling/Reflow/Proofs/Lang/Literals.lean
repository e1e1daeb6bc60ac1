import Reflow.Lang.Render
import Reflow.Lang.Lexer
/-!
# Number literals

The lexer takes all characters of a number that can continue it, and stops at every character that stands
after a number in a rendered program. The written form of a double has a point or an exponent, so that it
is read as a double again.

## Main definitions

* `Lexer.boundary`: the characters that stand after a word or a number in a rendered program.
* `Lexer.Fractional`: what follows the first digit of a written double.

## Main results

* `Lexer.scan_fractional`: a written double is scanned as a whole.
* `Lexer.fractional_magnitude`: the magnitudes of doubles are written so.
-/

namespace Reflow

namespace Lexer

/-- The characters that stand after a word or a number in a rendered program. -/
def boundary : List Char := [' ', ',', ';', '(', ')', '[', ']', '\x7d']

/-- The text is empty or starts with a character that stands after words and numbers. -/
def Bounded (rest : List Char) : Prop := ∀ c ∈ rest.head?, c ∈ boundary

theorem bounded_cons {c : Char} {rest : List Char} (h : c ∈ boundary) : Bounded (c :: rest) := by
  rintro d hd
  obtain rfl := Option.some.inj hd
  exact h

theorem Bounded.not_of_boundary {rest : List Char} (h : Bounded rest) {p : Char → Bool}
    (hp : boundary.any p = false) : ∀ c ∈ rest.head?, p c = false := by
  intro c hc
  simpa using List.any_eq_false.1 hp c (h c hc)

/-! ### Digits, a point and an exponent -/

/-- Some digits. -/
def AllDigits (cs : List Char) : Prop := ∀ c ∈ cs, c.isDigit = true

theorem digits_toDigits (n : Nat) : AllDigits (Nat.toDigits 10 n) := fun _ =>
  Nat.isDigit_of_mem_toDigits (by decide) (by decide)

section Tail

variable {pointed : Bool} {ds more rest : List Char}

theorem numberTail_digits (hds : AllDigits ds) (pointed : Bool) (more : List Char) :
    numberTail pointed (ds ++ more) = ds ++ numberTail pointed more := by
  induction ds with
  | nil => rfl
  | cons c cs ih =>
    rw [List.cons_append, numberTail.eq_def]
    simp only [if_pos (hds c List.mem_cons_self), ih fun d hd => hds d (List.mem_cons_of_mem _ hd)]
    rfl

theorem numberTail_bounded (hrest : Bounded rest) : numberTail pointed rest = [] := by
  cases rest with
  | nil => rfl
  | cons c rest =>
    have hstop : (c.isDigit || c == '.' || c == 'e' || c == 'E') = false :=
      hrest.not_of_boundary (p := fun c => c.isDigit || c == '.' || c == 'e' || c == 'E')
        (by decide) c rfl
    simp only [Bool.or_eq_false_iff, beq_eq_false_iff_ne] at hstop
    obtain ⟨⟨⟨hdigit, hpoint⟩, he⟩, hE⟩ := hstop
    rw [numberTail.eq_def]
    simp [hdigit, hpoint, he, hE]

end Tail

/-- The text of an integer: digits, or a minus and digits. -/
theorem toList_toString (n : Int) : ∃ ds, AllDigits ds ∧ ds ≠ [] ∧
    ((toString n).toList = ds ∨ (toString n).toList = '-' :: ds) := by
  cases n with
  | ofNat k =>
    refine ⟨_, digits_toDigits k, Nat.toDigits_ne_nil, .inl ?_⟩
    change k.repr.toList = _
    rw [Nat.toList_repr]
  | negSucc k =>
    refine ⟨_, digits_toDigits (k + 1), Nat.toDigits_ne_nil, .inr ?_⟩
    change ("-" ++ (k + 1).repr).toList = _
    rw [String.toList_append, Nat.toList_repr]
    rfl

/-- What may stand after the digits of a written double. -/
inductive Exponent : List Char → Prop
  | none : Exponent []
  | power (n : Int) : Exponent ('e' :: (toString n).toList)

theorem numberTail_exponent {cs rest : List Char} (h : Exponent cs) (hrest : Bounded rest)
    (pointed : Bool) : numberTail pointed (cs ++ rest) = cs := by
  cases h with
  | none => exact numberTail_bounded hrest
  | power n =>
    obtain ⟨ds, hds, hne, htext | htext⟩ := toList_toString n
    · obtain ⟨d, ds, rfl⟩ := List.exists_cons_of_ne_nil hne
      have hsign : ¬ (d = '+' ∨ d = '-') := by
        have hd := hds d List.mem_cons_self
        rintro (rfl | rfl) <;> revert hd <;> decide
      have htail := numberTail_digits hds true rest
      rw [numberTail_bounded hrest, List.append_nil] at htail
      rw [htext, List.cons_append, List.cons_append, numberTail.eq_def]
      simp only [if_neg hsign]
      rw [← List.cons_append, htail]
      rfl
    · have htail := numberTail_digits hds true rest
      rw [numberTail_bounded hrest, List.append_nil] at htail
      rw [htext, List.cons_append, List.cons_append, numberTail.eq_def]
      simp only [htail]
      rfl

/-- What follows the first digit of a written double: digits, then a point with digits after it or an
exponent, or both. -/
inductive Fractional : List Char → Prop
  | pointed {whole fraction exponent : List Char} (hwhole : AllDigits whole)
    (hfraction : AllDigits fraction) (hexponent : Exponent exponent) :
    Fractional (whole ++ '.' :: (fraction ++ exponent))
  | scientific {whole : List Char} (hwhole : AllDigits whole) (power : Int) :
    Fractional (whole ++ 'e' :: (toString power).toList)

section Fractional

variable {c : Char} {cs rest : List Char}

theorem numberTail_fractional (h : Fractional cs) (hrest : Bounded rest) :
    numberTail false (cs ++ rest) = cs := by
  cases h with
  | pointed hwhole hfraction hexponent =>
    rw [List.append_assoc, List.cons_append, List.append_assoc, numberTail_digits hwhole,
      numberTail.eq_def]
    simp [numberTail_digits hfraction, numberTail_exponent hexponent hrest]
  | scientific hwhole power =>
    rw [List.append_assoc, numberTail_digits hwhole, numberTail_exponent (.power power) hrest]

theorem Fractional.not_digits (h : Fractional cs) : (c :: cs).all Char.isDigit = false := by
  rw [List.all_eq_false]
  cases h with
  | pointed => exact ⟨'.', by simp, by decide⟩
  | scientific => exact ⟨'e', by simp, by decide⟩

end Fractional

end Lexer

namespace Decimal

open Lexer

variable {c : Char} {cs : List Char}

theorem isSome_exponent? (n : Int) : (exponent? (toString n).toList).isSome = true := by
  obtain ⟨ds, hds, hne, htext | htext⟩ := toList_toString n
  · have hminus : ∀ cs, ds ≠ '-' :: cs := by
      rintro cs rfl
      exact absurd (hds '-' List.mem_cons_self) (by decide)
    have hplus : ∀ cs, ds ≠ '+' :: cs := by
      rintro cs rfl
      exact absurd (hds '+' List.mem_cons_self) (by decide)
    rw [htext]
    unfold exponent?
    split
    · exact absurd rfl (hminus _)
    · exact absurd rfl (hplus _)
    · simp [hne, List.all_eq_true.2 hds]
  · rw [htext]
    simp [exponent?, hne, List.all_eq_true.2 hds]

theorem takeWhile_digits {whole : List Char} (hwhole : AllDigits whole) (more : List Char)
    (hmore : ∀ d ∈ more.head?, d.isDigit = false) :
    (whole ++ more).takeWhile Char.isDigit = whole ∧
      (whole ++ more).dropWhile Char.isDigit = more := by
  rw [List.takeWhile_append_of_pos hwhole, List.dropWhile_append_of_pos hwhole]
  cases more with
  | nil => exact ⟨List.append_nil _, rfl⟩
  | cons d more =>
    have hd := hmore d rfl
    rw [List.takeWhile_cons_of_neg (by simp [hd]), List.dropWhile_cons_of_neg (by simp [hd]),
      List.append_nil]
    exact ⟨rfl, rfl⟩

theorem isDigit_head_exponent {cs : List Char} (h : Exponent cs) : ∀ d ∈ cs.head?, d.isDigit = false := by
  cases h with
  | none =>
    rintro d hd
    cases hd
  | power n =>
    rintro d hd
    cases hd
    decide

/-- A digit with what follows it in a written double is the text of a double. -/
theorem isSome_float? (hc : c.isDigit = true) (h : Fractional cs) :
    (float? (c :: cs)).isSome = true := by
  have hunsigned : float? (c :: cs) = unsigned? (c :: cs) := by
    unfold float?
    split
    · rename_i heq
      cases heq
      exact absurd hc (by decide)
    · rename_i heq
      cases heq
      exact absurd hc (by decide)
    · rfl
  rw [hunsigned]
  cases h with
  | @pointed whole fraction exponent hwhole hfraction hexponent =>
    have hdigits : AllDigits (c :: whole) := List.forall_mem_cons.2 ⟨hc, hwhole⟩
    obtain ⟨htake, hdrop⟩ := takeWhile_digits hdigits ('.' :: (fraction ++ exponent))
      (by rintro d hd; cases hd; decide)
    obtain ⟨htake', hdrop'⟩ := takeWhile_digits hfraction exponent (isDigit_head_exponent hexponent)
    rw [← List.cons_append, unsigned?, htake, hdrop]
    simp only [htake', hdrop']
    cases hexponent with
    | none => simp
    | power n => simpa using isSome_exponent? n
  | @scientific whole hwhole power =>
    have hdigits : AllDigits (c :: whole) := List.forall_mem_cons.2 ⟨hc, hwhole⟩
    obtain ⟨htake, hdrop⟩ := takeWhile_digits hdigits ('e' :: (toString power).toList)
      (by rintro d hd; cases hd; decide)
    rw [← List.cons_append, unsigned?, htake, hdrop]
    simpa using isSome_exponent? power

end Decimal

namespace Lexer

variable {c : Char} {cs rest : List Char}

/-- A written double is scanned as a whole, and as a double. -/
theorem scan_fractional (hc : c.isDigit = true) (h : Fractional cs) (hrest : Bounded rest) :
    scan c (cs ++ rest) = .ok ⟨.double ((Decimal.float? (c :: cs)).getD 0), cs.length + 1,
      Nat.succ_pos _⟩ := by
  obtain ⟨x, hx⟩ := Option.isSome_iff_exists.1 (Decimal.isSome_float? hc h)
  simp only [scan, if_pos hc, scanNumber, numberTail_fractional h hrest, h.not_digits, hx,
    Bool.false_eq_true, if_false, Option.getD_some]

/-- A nonempty list of digits before what has a point or an exponent. -/
theorem exists_cons_fractional {whole tail : List Char} (hne : whole ≠ []) (hwhole : AllDigits whole)
    (h : ∀ ds, AllDigits ds → Fractional (ds ++ tail)) :
    ∃ c cs, whole ++ tail = c :: cs ∧ c.isDigit = true ∧ Fractional cs := by
  obtain ⟨c, ds, rfl⟩ := List.exists_cons_of_ne_nil hne
  obtain ⟨hc, hds⟩ := List.forall_mem_cons.1 hwhole
  exact ⟨c, ds ++ tail, rfl, hc, h ds hds⟩

theorem digits_zeros (n : Nat) : AllDigits (List.replicate n '0') := by
  intro c hc
  obtain rfl := List.eq_of_mem_replicate hc
  decide

theorem toList_toString_nat (n : Nat) : (toString n).toList = Nat.toDigits 10 n := Nat.toList_repr

/-- Positional notation has a point. -/
theorem fractional_plain (d : Decimal.Digits) : ∃ c cs,
    (d.plain true).toList = c :: cs ∧ c.isDigit = true ∧ Fractional cs := by
  have hdigits := digits_toDigits d.digits
  have hlength : (toString d.digits).length = (Nat.toDigits 10 d.digits).length := by
    rw [← String.length_toList, toList_toString_nat]
  unfold Decimal.Digits.plain
  dsimp only
  split
  · rename_i n _
    have hlist : (toString d.digits ++ Decimal.zeros n ++ if true = true then ".0" else "").toList =
        (Nat.toDigits 10 d.digits ++ List.replicate n '0') ++ '.' :: (['0'] ++ []) := by
      simp [String.toList_append, Decimal.zeros]
    rw [hlist]
    refine exists_cons_fractional (by simp [Nat.toDigits_ne_nil]) ?_ fun ds hds =>
      .pointed hds (digits_zeros 1) .none
    exact List.forall_mem_append.2 ⟨hdigits, digits_zeros n⟩
  · rename_i n _
    rw [hlength]
    split
    · rename_i hplaces
      have hfraction : AllDigits ((Nat.toDigits 10 d.digits).drop
          ((Nat.toDigits 10 d.digits).length - (n + 1))) :=
        fun c hc => hdigits c (List.mem_of_mem_drop hc)
      have hpointed := fun ds (hds : AllDigits ds) => Fractional.pointed hds hfraction .none
      simp only [List.append_nil] at hpointed
      simp only [String.toList_append, String.toList_ofList, toList_toString_nat, List.append_assoc]
      refine exists_cons_fractional (fun hnil => ?_) (fun c hc => ?_) hpointed
      · simp [Nat.toDigits_ne_nil] at hnil
        omega
      · exact hdigits c (List.mem_of_mem_take hc)
    · have hlist : ("0." ++ Decimal.zeros (n + 1 - (Nat.toDigits 10 d.digits).length) ++
          toString d.digits).toList = ['0'] ++ '.' :: ((List.replicate
            (n + 1 - (Nat.toDigits 10 d.digits).length) '0' ++ Nat.toDigits 10 d.digits) ++ []) := by
        simp [String.toList_append, Decimal.zeros]
      rw [hlist]
      refine exists_cons_fractional (by simp) (digits_zeros 1) fun ds hds => .pointed hds ?_ .none
      exact List.forall_mem_append.2 ⟨digits_zeros _, hdigits⟩

/-- Scientific notation has an exponent. -/
theorem fractional_scientific (d : Decimal.Digits) : ∃ c cs,
    (d.scientific false).toList = c :: cs ∧ c.isDigit = true ∧ Fractional cs := by
  obtain ⟨c, tail, htext⟩ := List.exists_cons_of_ne_nil (Nat.toDigits_ne_nil (b := 10) (n := d.digits))
  have hdigits : AllDigits (c :: tail) := htext ▸ digits_toDigits d.digits
  obtain ⟨hc, htail⟩ := List.forall_mem_cons.1 hdigits
  unfold Decimal.Digits.scientific
  simp only [toList_toString_nat, htext, List.take_succ_cons, List.take_zero, List.drop_succ_cons,
    List.drop_zero, String.toList_append, String.toList_ofList, Bool.false_eq_true, false_and,
    if_false]
  generalize d.exponent + ((toString d.digits).length : Int) - 1 = power
  split
  · exact ⟨c, _, rfl, hc, @Fractional.scientific [] (List.forall_mem_nil _) power⟩
  · refine ⟨c, _, ?_, hc, @Fractional.pointed [] _ _ (List.forall_mem_nil _) htail (.power power)⟩
    simp only [String.toList_append, String.toList_ofList, List.append_assoc]
    rfl

/-- The magnitude of a double is written with a point or with an exponent. -/
theorem fractional_magnitude (b : Decimal.Binary) : ∃ c cs,
    (literalStyle.magnitude b).toList = c :: cs ∧ c.isDigit = true ∧ Fractional cs := by
  have hwritten : ∀ (plain : Bool) (d : Decimal.Digits), ∃ c cs,
      (if plain = true then d.plain true else d.scientific false).toList = c :: cs ∧
        c.isDigit = true ∧ Fractional cs := by
    intro plain d
    cases plain with
    | true => exact fractional_plain d
    | false => exact fractional_scientific d
  simp only [Decimal.Style.magnitude, literalStyle]
  exact hwritten _ _

end Lexer

end Reflow
