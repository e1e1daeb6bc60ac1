import Reflow.Proofs.Lang.Literals
import Reflow.Proofs.Lang.Shape
/-!
# Rendered programs and their tokens

A rendered program is split into the tokens that it was put together from: every word and every number
ends before a character that cannot continue it, and every two-letter mark is followed by a blank.

## Main definitions

* `Lexer.Splits`: the tokens of a text.
* `Expr.tokens`, `Statement.tokens`: the tokens of a rendered expression and of a rendered statement.

## Main results

* `splits_render`: a rendered expression has these tokens.
* `splits_renderAll`: a rendered program has the tokens of its statements.
-/

namespace Reflow

namespace Lexer

/-- The text consists of the tokens, with gaps between them. -/
def Splits (cs : List Char) (ts : List Token) : Prop :=
  ∀ p, ∃ ls, run p cs = .ok ls ∧ ls.map Located.token = ts

theorem splits_nil : Splits [] [] := fun p => ⟨[], by rw [run.eq_def], rfl⟩

/-- A gap stands before the tokens of the rest. -/
theorem splits_gap {c : Char} {cs : List Char} {ts : List Token} (hgap : 0 < gap c cs)
    (h : Splits ((c :: cs).drop (gap c cs)) ts) : Splits (c :: cs) ts := by
  intro p
  rw [run.eq_def]
  simp only [hgap, dite_true]
  exact h _

/-- A token stands before the tokens of the rest. -/
theorem splits_scan {c : Char} {cs : List Char} {ts : List Token} {s : Scan} (hgap : gap c cs = 0)
    (hscan : scan c cs = .ok s) (h : Splits ((c :: cs).drop s.size) ts) :
    Splits (c :: cs) (s.token :: ts) := by
  intro p
  obtain ⟨ls, hls, rfl⟩ := h (p.advance ((c :: cs).take s.size))
  refine ⟨⟨s.token, p⟩ :: ls, ?_, rfl⟩
  rw [run.eq_def]
  simp only [hgap, Nat.lt_irrefl, dite_false, hscan, hls]
  rfl

theorem splits_blank {c : Char} {cs : List Char} {ts : List Token} (hc : Text.isBlank c = true)
    (h : Splits cs ts) : Splits (c :: cs) ts := by
  have hgap : gap c cs = 1 := by rw [gap, if_pos hc]
  exact splits_gap (hgap ▸ Nat.zero_lt_one) (hgap ▸ h)

/-- A token that is scanned in full stands before the tokens of the rest. -/
theorem splits_token {c : Char} {cs rest : List Char} {t : Token} {ts : List Token}
    (hgap : gap c (cs ++ rest) = 0)
    (hscan : scan c (cs ++ rest) = .ok ⟨t, cs.length + 1, Nat.succ_pos _⟩) (h : Splits rest ts) :
    Splits (c :: cs ++ rest) (t :: ts) :=
  splits_scan hgap hscan (by rwa [List.drop_succ_cons, List.drop_left])

/-! ### Words and numbers -/

theorem takeWhile_append_of_stop {p : Char → Bool} {cs rest : List Char}
    (hcs : ∀ c ∈ cs, p c = true) (hrest : ∀ c ∈ rest.head?, p c = false) :
    (cs ++ rest).takeWhile p = cs := by
  rw [List.takeWhile_append_of_pos hcs]
  cases rest with
  | nil => exact List.append_nil cs
  | cons c rest =>
    rw [List.takeWhile_cons_of_neg (by simp [hrest c rfl])]
    exact List.append_nil cs

/-- A word that ends where it cannot go on. -/
theorem splits_word {c : Char} {cs rest : List Char} {ts : List Token} (hc : startsName c = true)
    (hcs : cs.all continuesWord = true) (hrest : Bounded rest) (h : Splits rest ts) :
    Splits (c :: cs ++ rest) (wordToken (String.ofList (c :: cs)) :: ts) := by
  simp only [startsName, Bool.and_eq_true, Bool.not_eq_true', bne_iff_ne, ne_eq] at hc
  obtain ⟨⟨⟨hword, hdigit⟩, hquote⟩, hblank⟩ := hc
  have hslash : c ≠ '/' := by
    rintro rfl
    revert hword
    decide
  have htail : (cs ++ rest).takeWhile continuesWord = cs :=
    takeWhile_append_of_stop (List.all_eq_true.1 hcs) (hrest.not_of_boundary (by decide))
  refine splits_token ?_ ?_ h
  · simp [gap, hblank, hslash]
  · simp only [scan, hdigit, hquote, hword, scanWord, htail, Bool.false_eq_true, if_false, if_true]

theorem splits_name {s : String} (hs : isName s = true) {rest : List Char} {ts : List Token}
    (hrest : Bounded rest) (h : Splits rest ts) : Splits (s.toList ++ rest) (.name s :: ts) := by
  unfold isName at hs
  cases hl : s.toList with
  | nil =>
    rw [hl] at hs
    cases hs
  | cons c cs =>
    simp only [hl, Bool.and_eq_true, decide_eq_true_eq] at hs
    have hsplits := splits_word hs.1.1 hs.1.2 hrest h
    rw [← hl, String.ofList_toList] at hsplits
    have htoken : wordToken s = .name s := by
      have hs := hs.2
      simp only [List.mem_cons, List.not_mem_nil, or_false, not_or] at hs
      simp [wordToken, hs]
    rwa [htoken, hl] at hsplits

theorem gap_digit {c : Char} (hc : c.isDigit = true) (cs : List Char) : gap c cs = 0 := by
  obtain ⟨hlow, hhigh⟩ := Char.isDigit_iff_toNat.1 hc
  have hblank : Text.isBlank c = false := by
    simp only [Char.reduceToNat] at hlow hhigh
    simp only [Text.isBlank, Bool.or_eq_false_iff, Bool.and_eq_false_iff, decide_eq_false_iff_not,
      beq_eq_false_iff_ne]
    omega
  have hslash : c ≠ '/' := by
    rintro rfl
    revert hc
    decide
  simp [gap, hblank, hslash]

/-- The digits of a number below `2 ^ 64`. -/
theorem splits_digits {n : Nat} (hn : n < UInt64.size) {rest : List Char} {ts : List Token}
    (hrest : Bounded rest) (h : Splits rest ts) :
    Splits (Nat.toDigits 10 n ++ rest) (.int n :: ts) := by
  have hdigits := digits_toDigits n
  have hvalue : Decimal.natOfDigits (Nat.toDigits 10 n) = n :=
    Nat.ofDigitChars_eq_foldl.symm.trans Nat.ofDigitChars_ten_toDigits
  cases hl : Nat.toDigits 10 n with
  | nil => exact absurd hl Nat.toDigits_ne_nil
  | cons c cs =>
    rw [hl] at hdigits hvalue
    have hc := hdigits c List.mem_cons_self
    have htail : numberTail false (cs ++ rest) = cs := by
      rw [numberTail_digits fun d hd => hdigits d (List.mem_cons_of_mem _ hd),
        numberTail_bounded hrest, List.append_nil]
    have hall : (c :: cs).all Char.isDigit = true := List.all_eq_true.2 hdigits
    refine splits_token (gap_digit hc _) ?_ h
    simp only [scan, if_pos hc, scanNumber, htail, if_pos hall, hvalue, if_pos hn]

/-- The magnitude of a finite double. -/
theorem splits_magnitude (b : Decimal.Binary) {rest : List Char} {ts : List Token}
    (hrest : Bounded rest) (h : Splits rest ts) :
    Splits ((literalStyle.magnitude b).toList ++ rest)
      (.double ((Decimal.float? (literalStyle.magnitude b).toList).getD 0) :: ts) := by
  obtain ⟨c, cs, htext, hc, hcs⟩ := fractional_magnitude b
  rw [htext]
  exact splits_token (gap_digit hc _) (scan_fractional hc hcs hrest) h

/-! ### Strings -/

theorem stringTail_literalBody (cs rest : List Char) :
    stringTail (Text.literalBody cs ++ '\x22' :: rest) =
      some (cs, (Text.literalBody cs).length + 1) := by
  induction cs with
  | nil => rfl
  | cons c cs ih =>
    have hbody : Text.literalBody (c :: cs) = Text.literalChar c ++ Text.literalBody cs := rfl
    rw [hbody, List.append_assoc]
    unfold Text.literalChar
    split
    · simp [stringTail, ih, unescape]
    · simp [stringTail, ih, unescape]
    · simp [stringTail, ih, unescape]
    · simp [stringTail, ih, unescape]
    · rename_i hquote hslash _ _
      rw [List.singleton_append, stringTail.eq_5 _ _ hquote (fun h _ => hslash h)
        (fun _ _ h _ => hslash h), ih]
      simp

theorem splits_literal (s : String) {rest : List Char} {ts : List Token} (h : Splits rest ts) :
    Splits ((Text.literal s).toList ++ rest) (.str s :: ts) := by
  have htext : (Text.literal s).toList ++ rest =
      '\x22' :: (Text.literalBody s.toList ++ ['\x22']) ++ rest := by
    rw [Text.literal, String.toList_ofList]
  rw [htext]
  refine splits_token rfl ?_ h
  have htail := stringTail_literalBody s.toList rest
  rw [List.append_assoc]
  change scanString (Text.literalBody s.toList ++ '\x22' :: rest) = _
  rw [scanString, htail]
  simp

/-! ### Marks -/

/-- A mark of one letter that starts no longer one. -/
theorem splits_mark {m : Mark} (hm : m ∈ [.openParen, .closeParen, .openBrace, .closeBrace,
    .openBracket, .closeBracket, .comma, .semicolon, .question, .colon, .minus]) {rest : List Char}
    {ts : List Token} (h : Splits rest ts) :
    Splits (m.spelling.toList ++ rest) (.mark m :: ts) := by
  simp only [List.mem_cons, List.not_mem_nil, or_false] at hm
  rcases hm with rfl | rfl | rfl | rfl | rfl | rfl | rfl | rfl | rfl | rfl | rfl <;>
    exact @splits_token _ [] _ _ _ rfl rfl h

/-! ### Names -/

/-- What is scanned as a mark is one, and ends within the text. -/
theorem scanMark_mark {c : Char} {cs : List Char} {s : Scan} (h : scanMark c cs = .ok s) :
    ∃ m, s.token = .mark m ∧ s.size ≤ cs.length + 1 := by
  have htwice : ∀ (d : Char) (long : Mark) {short : Except Failure Scan},
      (∀ s, short = .ok s → ∃ m, s.token = .mark m ∧ s.size ≤ cs.length + 1) →
        (if cs.head? = some d then .ok ⟨.mark long, 2, by omega⟩ else short) = Except.ok s →
          ∃ m, s.token = .mark m ∧ s.size ≤ cs.length + 1 := by
    intro d long short hshort hs
    split at hs
    · rename_i hhead
      cases hs
      exact ⟨long, rfl, Nat.succ_le_succ (List.length_pos_of_mem (List.mem_of_mem_head? hhead))⟩
    · exact hshort s hs
  have hone : ∀ (m : Mark) (s : Scan), (.ok ⟨.mark m, 1, by omega⟩ : Except Failure Scan) = .ok s →
      ∃ m, s.token = .mark m ∧ s.size ≤ cs.length + 1 := by
    rintro m s hs
    cases hs
    exact ⟨m, rfl, Nat.le_add_left 1 _⟩
  unfold scanMark at h
  dsimp only at h
  split at h
  all_goals first
    | exact hone _ s h
    | exact htwice _ _ (hone _) h
    | exact htwice _ _ (fun s hs => by cases hs) h
    | cases h

theorem scanNumber_token {c : Char} {cs : List Char} {s : Scan} (h : scanNumber c cs = .ok s)
    (n : String) : s.token ≠ .name n := by
  unfold scanNumber at h
  dsimp only at h
  split at h
  · split at h <;> cases h
    exact Token.noConfusion
  · split at h <;> cases h
    exact Token.noConfusion

theorem scanString_token {cs : List Char} {s : Scan} (h : scanString cs = .ok s)
    (n : String) : s.token ≠ .name n := by
  unfold scanString at h
  split at h <;> cases h
  exact Token.noConfusion

theorem wordToken_eq_name {word n : String} (h : wordToken word = .name n) :
    word = n ∧ word ∉ ["def", "true", "false", "null"] := by
  unfold wordToken at h
  split at h
  · cases h
  · split at h
    · cases h
    · split at h
      · cases h
      · split at h
        · cases h
        · cases h
          exact ⟨rfl, by simp_all⟩

/-- A word that is scanned as a name is one. -/
theorem isName_of_scan {c : Char} {cs : List Char} (hgap : gap c cs = 0) {s : Scan}
    (h : scan c cs = .ok s) {n : String} (hn : s.token = .name n) : isName n = true := by
  have hblank : Text.isBlank c ≠ true := by
    intro hblank
    rw [gap, if_pos hblank] at hgap
    cases hgap
  unfold scan at h
  split at h
  · exact absurd hn (scanNumber_token h n)
  · rename_i hdigit
    split at h
    · exact absurd hn (scanString_token h n)
    · rename_i hquote
      split at h
      · rename_i hword
        cases h
        have htail : (cs.takeWhile continuesWord).all continuesWord = true := List.all_takeWhile
        obtain ⟨rfl, hreserved⟩ := wordToken_eq_name hn
        simp only [Bool.not_eq_true] at hdigit hblank
        simp only [isName, String.toList_ofList, startsName, hword, hdigit, hblank, htail,
          Bool.and_eq_true, decide_eq_true_eq, hreserved]
        simpa using hquote
      · obtain ⟨m, hm, -⟩ := scanMark_mark h
        rw [hm] at hn
        cases hn

/-- All names among the tokens of a text are words that the lexer reads as names. -/
theorem isName_of_run {p : Position} {cs : List Char} {ls : List Located}
    (h : run p cs = .ok ls) {l : Located} (hl : l ∈ ls) {n : String} (hn : l.token = .name n) :
    isName n = true := by
  induction hlength : cs.length using Nat.strongRecOn generalizing p cs ls with
  | _ length ih =>
    subst hlength
    rw [run.eq_def] at h
    cases cs with
    | nil =>
      cases h
      cases hl
    | cons c cs =>
      dsimp only at h
      split at h
      · rename_i hgap
        exact ih _ (by rw [List.length_drop, List.length_cons]; omega) h hl rfl
      · rename_i hgap
        split at h
        · cases h
        · rename_i token size hsize hscan
          rcases hrest : run (p.advance ((c :: cs).take size)) ((c :: cs).drop size) with e | rest
          · rw [hrest] at h
            cases h
          · rw [hrest] at h
            cases h
            rcases List.mem_cons.1 hl with rfl | hl
            · exact isName_of_scan (Nat.eq_zero_of_not_pos hgap) hscan hn
            · exact ih _ (by rw [List.length_drop, List.length_cons]; omega) hrest hl rfl

/-! ### Texts of expressions -/

/-- Before a character that stands after words and numbers, the text has the tokens. -/
def Spells (text : String) (tokens : List Token) : Prop :=
  ∀ rest ts, Bounded rest → Splits rest ts → Splits (text.toList ++ rest) (tokens ++ ts)

end Lexer

/-- The mark of a prefix operator. -/
def UnaryOp.mark : UnaryOp → Mark
  | neg => .minus
  | not => .bang

/-- The mark of an infix operator. -/
def BinaryOp.mark : BinaryOp → Mark
  | add => .plus
  | sub => .minus
  | mul => .star
  | div => .slash
  | mod => .percent
  | eq => .equal
  | ne => .notEqual
  | lt => .less
  | le => .lessEqual
  | gt => .greater
  | ge => .greaterEqual
  | and => .both
  | or => .either

namespace Expr

/-- The tokens of a written double: the name of a NaN, or a sign and a number or the name of an
infinity. -/
def doubleTokens (x : Float) : List Token :=
  if x.isNaN then [.name "NaN"]
  else (if Decimal.signBit x then [.mark .minus] else []) ++
    match Decimal.binary? x with
    | none => [.name "inf"]
    | some b => [.double ((Decimal.float? (literalStyle.magnitude b).toList).getD 0)]

/-- The tokens of an operand in a place that demands at least the precedence `least`. -/
def groupedTokens (e : Expr) (ts : List Token) (least : Nat) : List Token :=
  if e.precedence < least then .mark .openParen :: (ts ++ [.mark .closeParen]) else ts

mutual

/-- The tokens of a rendered expression. -/
def tokens : Expr → List Token
  | null => [.mark .null]
  | bool true => [.mark .yes]
  | bool false => [.mark .no]
  | int n => if n.toInt < 0 then [.mark .minus, .int n.toInt.natAbs] else [.int n.toInt.natAbs]
  | double x => doubleTokens x
  | str s => [.str s]
  | name n => [.name n]
  | array items => .mark .openBrace :: (itemTokens items ++ [.mark .closeBrace])
  | index target i =>
    groupedTokens target (tokens target) 8 ++ .mark .openBracket :: (tokens i ++ [.mark .closeBracket])
  | call callee args =>
    .name callee :: .mark .openParen :: (itemTokens args ++ [.mark .closeParen])
  | unary op operand => .mark op.mark :: groupedTokens operand (tokens operand) 7
  | binary op lhs rhs =>
    groupedTokens lhs (tokens lhs) op.precedence
      ++ .mark op.mark :: groupedTokens rhs (tokens rhs) (op.precedence + 1)
  | cond test yes no =>
    groupedTokens test (tokens test) 1 ++ .mark .question ::
      (groupedTokens yes (tokens yes) 1 ++ .mark .colon :: tokens no)

/-- The tokens of some rendered expressions with commas between them. -/
def itemTokens : List Expr → List Token
  | [] => []
  | [e] => tokens e
  | e :: es => tokens e ++ .mark .comma :: itemTokens es

end

end Expr

namespace Lexer

section Spells

variable {text more : String} {tokens tokens' : List Token} {rest : List Char} {ts : List Token}

theorem Spells.bounded (h : Spells text tokens) {c : Char} (hc : c ∈ boundary)
    (hrest : Splits (c :: rest) ts) : Splits (text.toList ++ c :: rest) (tokens ++ ts) :=
  h _ _ (bounded_cons hc) hrest

/-- Parentheses where a place demands them. -/
theorem Spells.grouped (h : Spells text tokens) (e : Expr) (least : Nat) :
    Spells (e.grouped text least) (e.groupedTokens tokens least) := by
  unfold Expr.grouped Expr.groupedTokens
  split
  · intro rest ts _ hrest
    have hclose := @splits_mark .closeParen (by decide) _ _ hrest
    have htext := h.bounded (c := ')') (by decide) hclose
    have hopen := @splits_mark .openParen (by decide) _ _ htext
    simpa [String.toList_append, Mark.spelling] using hopen
  · exact h

/-- An infix operator with a blank before and after it. -/
theorem splits_operator (op : BinaryOp) (h : Splits rest ts) :
    Splits (' ' :: (op.symbol.toList ++ ' ' :: rest)) (.mark op.mark :: ts) := by
  have hrest := splits_blank (c := ' ') rfl h
  refine splits_blank rfl ?_
  cases op
  case add | sub | mul | div | mod | lt | gt => exact @splits_token _ [] _ _ _ rfl rfl hrest
  case eq | ne | le | ge => exact @splits_token _ ['='] _ _ _ rfl rfl hrest
  case and => exact @splits_token _ ['&'] _ _ _ rfl rfl hrest
  case or => exact @splits_token _ ['|'] _ _ _ rfl rfl hrest

/-- A prefix operator before a text that does not start with an equals sign. -/
theorem Spells.prefixed (op : UnaryOp) (h : Spells text tokens)
    (hhead : ∃ c ∈ text.toList.head?, c ≠ '=') :
    Spells (op.symbol ++ text) (.mark op.mark :: tokens) := by
  intro rest ts hb hrest
  have htext := h rest ts hb hrest
  rw [String.toList_append, List.append_assoc]
  cases op with
  | neg => exact @splits_token _ [] _ _ _ rfl rfl htext
  | not =>
    refine @splits_token _ [] _ _ _ rfl ?_ htext
    obtain ⟨c, hc, hne⟩ := hhead
    have hfirst : (text.toList ++ rest).head? = some c := by
      rw [List.head?_append, Option.mem_def.1 hc]
      rfl
    change (if (text.toList ++ rest).head? = some '=' then _ else _) = _
    rw [hfirst, if_neg (by simpa using hne)]
    rfl

theorem spells_int (n : Int64) : Spells (toString n.toInt) (Expr.int n).tokens := by
  intro rest ts hb hrest
  have hsize : n.toInt.natAbs < UInt64.size := by
    have hlow := Int64.minValue_le_toInt n
    have hhigh := Int64.toInt_le n
    have hmin : Int64.minValue.toInt = -9223372036854775808 := by decide
    have hmax : Int64.maxValue.toInt = 9223372036854775807 := by decide
    change _ < 18446744073709551616
    omega
  have hdigits := splits_digits hsize hb hrest
  unfold Expr.tokens
  cases hn : n.toInt with
  | ofNat k =>
    rw [hn] at hdigits
    change Splits (k.repr.toList ++ rest) _
    rw [Nat.toList_repr, if_neg (by simp)]
    exact hdigits
  | negSucc k =>
    rw [hn] at hdigits
    have htext : (toString (Int.negSucc k)).toList = '-' :: Nat.toDigits 10 (k + 1) := by
      change ("-" ++ (k + 1).repr).toList = _
      rw [String.toList_append, Nat.toList_repr]
      rfl
    rw [htext, if_pos (Int.negSucc_lt_zero k)]
    exact @splits_mark .minus (by decide) _ _ hdigits

theorem spells_double (x : Float) : Spells (literalStyle.write x) (Expr.double x).tokens := by
  intro rest ts hb hrest
  unfold Decimal.Style.write Expr.tokens Expr.doubleTokens
  split
  · exact splits_name (s := "NaN") (by decide) hb hrest
  · have hsign : ∀ {cs ts}, Splits cs ts →
        Splits ((if Decimal.signBit x = true then "-" else "").toList ++ cs)
          ((if Decimal.signBit x = true then [.mark .minus] else []) ++ ts) := by
      intro cs ts h
      cases Decimal.signBit x with
      | true => exact @splits_mark .minus (by decide) _ _ h
      | false => exact h
    dsimp only
    cases Decimal.binary? x with
    | none =>
      rw [String.toList_append, List.append_assoc, List.append_assoc]
      exact hsign (splits_name (s := "inf") (by decide) hb hrest)
    | some b =>
      rw [String.toList_append, List.append_assoc, List.append_assoc]
      exact hsign (splits_magnitude b hb hrest)

end Spells

end Lexer

/-! ### Rendered expressions -/

namespace Expr

open Lexer

/-- The text starts with a character other than the equals sign. -/
def Starts (cs : List Char) : Prop := ∃ c ∈ cs.head?, c ≠ '='

theorem Starts.append {cs : List Char} (h : Starts cs) (ds : List Char) : Starts (cs ++ ds) := by
  obtain ⟨c, hc, hne⟩ := h
  refine ⟨c, ?_, hne⟩
  rw [List.head?_append, Option.mem_def.1 hc]
  rfl

theorem starts_cons {c : Char} (cs : List Char) (h : c ≠ '=') : Starts (c :: cs) := ⟨c, rfl, h⟩

theorem starts_name {s : String} (hs : isName s = true) : Starts s.toList := by
  unfold isName at hs
  cases hl : s.toList with
  | nil =>
    rw [hl] at hs
    cases hs
  | cons c cs =>
    simp only [hl, Bool.and_eq_true, startsName] at hs
    have hword := hs.1.1.1.1.1
    refine starts_cons cs ?_
    rintro rfl
    revert hword
    decide

theorem starts_int (n : Int) : Starts (toString n).toList := by
  cases n with
  | ofNat k =>
    change Starts k.repr.toList
    rw [Nat.toList_repr]
    cases hl : Nat.toDigits 10 k with
    | nil => exact absurd hl Nat.toDigits_ne_nil
    | cons c cs =>
      have hc : c.isDigit = true :=
        Nat.isDigit_of_mem_toDigits (by decide) (by decide) (hl ▸ List.mem_cons_self)
      refine starts_cons cs ?_
      rintro rfl
      revert hc
      decide
  | negSucc k =>
    change Starts ("-" ++ (k + 1).repr).toList
    rw [String.toList_append]
    exact starts_cons _ (by decide)

theorem starts_double (x : Float) : Starts (literalStyle.write x).toList := by
  have hmagnitude : ∀ b, Starts (literalStyle.magnitude b).toList := by
    intro b
    obtain ⟨c, cs, htext, hc, -⟩ := fractional_magnitude b
    rw [htext]
    refine starts_cons cs ?_
    rintro rfl
    revert hc
    decide
  have hsign : ∀ {text : String}, Starts text.toList →
      Starts ((if Decimal.signBit x = true then "-" else "") ++ text).toList := by
    intro text h
    rw [String.toList_append]
    cases Decimal.signBit x with
    | true => exact starts_cons _ (by decide)
    | false => exact h
  unfold Decimal.Style.write
  split
  · exact starts_cons _ (by decide)
  · dsimp only
    split
    · exact hsign (starts_cons _ (by decide))
    · exact hsign (hmagnitude _)

theorem Starts.grouped {text : String} (h : Starts text.toList) (e : Expr) (least : Nat) :
    Starts (e.grouped text least).toList := by
  unfold Expr.grouped
  split
  · rw [String.toList_append, String.toList_append]
    exact .append (.append (starts_cons _ (by decide)) _) _
  · exact h

/-- No rendered expression starts with an equals sign. -/
theorem starts_render : (e : Expr) → e.all isNamed = true → Starts e.render.toList
  | null, _ => starts_cons _ (by decide)
  | bool true, _ | bool false, _ => starts_cons _ (by decide)
  | int n, _ => starts_int n.toInt
  | double x, _ => starts_double x
  | str s, _ => by
    rw [render, Text.literal, String.toList_ofList]
    exact starts_cons _ (by decide)
  | name n, h => starts_name h
  | array items, _ => by
    rw [render, String.toList_append, String.toList_append]
    exact .append (.append (starts_cons _ (by decide)) _) _
  | index target i, h => by
    simp only [all, Bool.and_eq_true] at h
    simp only [render, String.toList_append]
    exact .append (.append (.append ((starts_render target h.2.1).grouped target 8) _) _) _
  | call callee args, h => by
    simp only [all, Bool.and_eq_true] at h
    simp only [render, String.toList_append]
    exact .append (.append (.append (starts_name h.1) _) _) _
  | unary op operand, _ => by
    rw [render, String.toList_append]
    cases op <;> exact .append (starts_cons _ (by decide)) _
  | binary op lhs rhs, h => by
    simp only [all, Bool.and_eq_true] at h
    simp only [render, String.toList_append, List.append_assoc]
    exact .append ((starts_render lhs h.2.1).grouped lhs _) _
  | cond test yes no, h => by
    simp only [all, Bool.and_eq_true] at h
    simp only [render, String.toList_append, List.append_assoc]
    exact .append ((starts_render test h.2.1).grouped test _) _

mutual

/-- A rendered expression has its tokens. -/
theorem spells_render : (e : Expr) → e.all isNamed = true → Spells e.render e.tokens
  | null, _ => fun rest ts hb h => @splits_word 'n' ['u', 'l', 'l'] rest ts rfl rfl hb h
  | bool true, _ => fun rest ts hb h => @splits_word 't' ['r', 'u', 'e'] rest ts rfl rfl hb h
  | bool false, _ => fun rest ts hb h => @splits_word 'f' ['a', 'l', 's', 'e'] rest ts rfl rfl hb h
  | int n, _ => spells_int n
  | double x, _ => spells_double x
  | str s, _ => fun rest ts _ h => splits_literal s h
  | name n, hn => fun rest ts hb h => splits_name hn hb h
  | array items, hitems => by
    simp only [all, Bool.and_eq_true] at hitems
    intro rest ts _ h
    have hclose := @splits_mark .closeBrace (by decide) _ _ h
    have htext := (spells_items items hitems.2).bounded (c := '\x7d') (by decide) hclose
    have hopen := @splits_mark .openBrace (by decide) _ _ htext
    simpa [render, tokens, String.toList_append, Mark.spelling] using hopen
  | index target i, he => by
    simp only [all, Bool.and_eq_true] at he
    intro rest ts _ h
    have hclose := @splits_mark .closeBracket (by decide) _ _ h
    have hi := (spells_render i he.2.2).bounded (c := ']') (by decide) hclose
    have hopen := @splits_mark .openBracket (by decide) _ _ hi
    have htarget := ((spells_render target he.2.1).grouped target 8).bounded (c := '[') (by decide)
      hopen
    simpa [render, tokens, String.toList_append, Mark.spelling] using htarget
  | call callee args, he => by
    simp only [all, Bool.and_eq_true] at he
    intro rest ts _ h
    have hclose := @splits_mark .closeParen (by decide) _ _ h
    have hargs := (spells_items args he.2).bounded (c := ')') (by decide) hclose
    have hopen := @splits_mark .openParen (by decide) _ _ hargs
    have hname := splits_name he.1 (@bounded_cons '(' _ (by decide)) hopen
    simpa [render, tokens, String.toList_append, Mark.spelling] using hname
  | unary op operand, he => by
    simp only [all, Bool.and_eq_true] at he
    exact ((spells_render operand he.2).grouped operand 7).prefixed op
      ((starts_render operand he.2).grouped operand 7)
  | binary op lhs rhs, he => by
    simp only [all, Bool.and_eq_true] at he
    intro rest ts hb h
    have hrhs := ((spells_render rhs he.2.2).grouped rhs (op.precedence + 1)) rest ts hb h
    have hop := splits_operator op hrhs
    have hlhs := ((spells_render lhs he.2.1).grouped lhs op.precedence).bounded (c := ' ') (by decide)
      hop
    simpa [render, tokens, String.toList_append] using hlhs
  | cond test yes no, he => by
    simp only [all, Bool.and_eq_true] at he
    intro rest ts hb h
    have hno := splits_blank (c := ' ') rfl (spells_render no he.2.2.2 rest ts hb h)
    have hcolon := splits_blank (c := ' ') rfl (@splits_mark .colon (by decide) _ _ hno)
    have hyes := ((spells_render yes he.2.2.1).grouped yes 1).bounded (c := ' ') (by decide) hcolon
    have hquestion := splits_blank (c := ' ') rfl
      (@splits_mark .question (by decide) _ _ (splits_blank (c := ' ') rfl hyes))
    have htest := ((spells_render test he.2.1).grouped test 1).bounded (c := ' ') (by decide)
      hquestion
    simpa [render, tokens, String.toList_append, Mark.spelling] using htest

theorem spells_items : (es : List Expr) → allOf isNamed es = true →
    Spells (separated ", " (renderAll es)) (itemTokens es)
  | [], _ => fun rest ts _ h => h
  | [e], he => by
    simp only [allOf, Bool.and_eq_true] at he
    exact spells_render e he.1
  | e :: e' :: es, he => by
    rw [allOf, Bool.and_eq_true] at he
    intro rest ts hb h
    have hmore := splits_blank (c := ' ') rfl (spells_items (e' :: es) he.2 rest ts hb h)
    have hcomma := @splits_mark .comma (by decide) _ _ hmore
    have hfirst := (spells_render e he.1).bounded (c := ',') (by decide) hcomma
    simpa [renderAll, separated, itemTokens, String.toList_append, Mark.spelling] using hfirst

end

end Expr

/-! ### Rendered programs -/

open Lexer

namespace Statement

/-- All names in the statement are words that the lexer reads as names. -/
def Named : Statement → Prop
  | assign target value => isName target = true ∧ value.all Expr.isNamed = true
  | define name params body =>
    isName name = true ∧ (∀ p ∈ params, isName p = true) ∧ body.all Expr.isNamed = true

instance : DecidablePred Named
  | .assign .. => inferInstanceAs (Decidable (_ ∧ _))
  | .define .. => inferInstanceAs (Decidable (_ ∧ _ ∧ _))

/-- The tokens of parameters with commas between them. -/
def paramTokens : List String → List Token
  | [] => []
  | [p] => [.name p]
  | p :: ps => .name p :: .mark .comma :: paramTokens ps

/-- The tokens up to the name that a statement binds. -/
def opening : Statement → List Token
  | assign target _ => [.name target]
  | define name _ _ => [.mark .define, .name name]

/-- The tokens of a rendered statement between the name that it binds and the semicolon. -/
def inner : Statement → List Token
  | assign _ value => .mark .assign :: value.tokens
  | define _ params body =>
    .mark .openParen :: (paramTokens params ++ .mark .closeParen :: .mark .assign :: body.tokens)

/-- The tokens of a rendered statement. -/
def tokens (s : Statement) : List Token := s.opening ++ (s.inner ++ [.mark .semicolon])

end Statement

section Programs

variable {rest : List Char} {ts : List Token}

/-- An equals sign between blanks, an expression and a semicolon. -/
theorem splits_equals {value : Expr} (hvalue : value.all Expr.isNamed = true) (h : Splits rest ts) :
    Splits (' ' :: '=' :: ' ' :: (value.render.toList ++ ';' :: rest))
      (.mark .assign :: (value.tokens ++ .mark .semicolon :: ts)) := by
  have hclose := @splits_mark .semicolon (by decide) _ _ h
  have hright := splits_blank (c := ' ') rfl
    ((Expr.spells_render value hvalue).bounded (c := ';') (by decide) hclose)
  exact splits_blank (c := ' ') rfl (@splits_token '=' [] _ _ _ rfl rfl hright)

theorem splits_params : (params : List String) → (∀ p ∈ params, isName p = true) →
    Splits rest ts → Splits ((separated ", " params).toList ++ ')' :: rest)
      (Statement.paramTokens params ++ .mark .closeParen :: ts)
  | [], _, h => @splits_mark .closeParen (by decide) _ _ h
  | [p], hp, h =>
    splits_name (hp p List.mem_cons_self) (@bounded_cons ')' _ (by decide))
      (@splits_mark .closeParen (by decide) _ _ h)
  | p :: q :: params, hp, h => by
    have hmore := splits_params (q :: params) (fun p h => hp p (List.mem_cons_of_mem _ h)) h
    have hcomma := @splits_mark .comma (by decide) _ _ (splits_blank (c := ' ') rfl hmore)
    have hname := splits_name (hp p List.mem_cons_self) (@bounded_cons ',' _ (by decide)) hcomma
    simpa [separated, Statement.paramTokens, String.toList_append, Mark.spelling] using hname

theorem splits_statement : (s : Statement) → s.Named → Splits rest ts →
    Splits (s.render.toList ++ rest) (s.tokens ++ ts)
  | .assign target value, ⟨htarget, hvalue⟩, h => by
    have hleft := splits_name htarget (@bounded_cons ' ' _ (by decide)) (splits_equals hvalue h)
    simpa [Statement.render, Statement.tokens, Statement.opening, Statement.inner,
      String.toList_append] using hleft
  | .define name params body, ⟨hname, hparams, hbody⟩, h => by
    have hright := splits_params params hparams (splits_equals hbody h)
    have hopen := @splits_mark .openParen (by decide) _ _ hright
    have hleft := splits_name hname (@bounded_cons '(' _ (by decide)) hopen
    have hdefine := @splits_word 'd' ['e', 'f'] _ _ rfl rfl (@bounded_cons ' ' _ (by decide))
      (splits_blank (c := ' ') rfl hleft)
    simpa [Statement.render, Statement.tokens, Statement.opening, Statement.inner,
      String.toList_append, Mark.spelling, wordToken] using hdefine

/-- A rendered program has the tokens of its statements. -/
theorem splits_renderAll : (program : List Statement) → (∀ s ∈ program, s.Named) →
    Splits (Statement.renderAll program).toList (program.flatMap Statement.tokens)
  | [], _ => splits_nil
  | [s], h => by
    have hone := splits_statement s (h s List.mem_cons_self) splits_nil
    simpa [Statement.renderAll, separated] using hone
  | s :: s' :: rest, h => by
    have hmore := splits_renderAll (s' :: rest) fun s hs => h s (List.mem_cons_of_mem _ hs)
    have hfirst := splits_statement s (h s List.mem_cons_self)
      (splits_blank (c := '\n') rfl hmore)
    simpa [Statement.renderAll, separated, String.toList_append] using hfirst

end Programs

end Reflow
