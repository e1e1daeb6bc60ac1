import Mathlib.Data.List.Induction
import Mathlib.Data.List.TakeWhile
import Reflow.Proofs.Lang.Joining
/-!
# Gaps and lexemes

The tokens of a text come from consecutive pieces of it: a gap, the lexeme of the first token, a gap, the
lexeme of the second one, and so on, with a gap behind the last one. Nothing of the text is left out. A gap
holds blanks and comments only, a lexeme has its token wherever it stands, and a word or an operator ends
where it has to. The position of a token counts the lines of all that comes before its lexeme, comments and
string literals included.

## Main definitions

* `Position.after`: where a text ends, counted in lines and columns.
* `Lexer.Gap`: blanks and comments.
* `Lexer.IsWord`, `Lexer.IsOperator`: the lexemes that end where they have to.
* `Lexer.Longest`: a lexeme that what follows does not continue.
* `Lexer.Partition`: a text as gaps and lexemes.

## Main results

* `Lexer.tokenize_lexeme`: a lexeme alone has its token.
* `Lexer.longest_scan`: words and operators are not cut short.
* `tokenize_partition`: every text that is split into tokens consists of gaps and their lexemes.
-/

namespace Reflow

/-! ### Positions -/

namespace Position

/-- The position behind a text: one more line than it has line feeds, and one more column than it has
characters after the last of them. -/
def after (past : List Char) : Position :=
  ⟨past.count '\n' + 1, (past.reverse.takeWhile (· ≠ '\n')).length + 1⟩

/-- Moving on character by character leads there. -/
theorem advance_start (past : List Char) : start.advance past = after past := by
  induction past using List.reverseRecOn with
  | nil => rfl
  | append_singleton past c ih =>
    rw [advance_append, ih]
    by_cases hc : c = '\n'
    · subst hc
      simp [advance, step, after]
    · simp [advance, step, after, hc]

end Position

namespace Lexer

variable {c : Char} {cs rest : List Char}

/-! ### Lexemes alone -/

theorem numberTail_isPrefix (pointed : Bool) (cs : List Char) : numberTail pointed cs <+: cs := by
  fun_induction numberTail pointed cs with
  | case1 pointed => exact List.prefix_refl _
  | case2 pointed c cs hdigit ih => exact (List.prefix_cons_inj c).2 ih
  | case3 pointed c cs hdigit hpoint ih => exact (List.prefix_cons_inj c).2 ih
  | case4 pointed c hdigit hpoint hexponent => exact List.prefix_refl _
  | case5 pointed c hdigit hpoint hexponent d cs hsign ih =>
    exact (List.prefix_cons_inj c).2 ((List.prefix_cons_inj d).2 ih)
  | case6 pointed c hdigit hpoint hexponent d cs hsign ih => exact (List.prefix_cons_inj c).2 ih
  | case7 pointed c cs hdigit hpoint hexponent => exact List.nil_prefix

/-- The characters of a number go on to the end if nothing follows them. -/
theorem numberTail_numberTail (pointed : Bool) (cs : List Char) :
    numberTail pointed (numberTail pointed cs) = numberTail pointed cs := by
  fun_induction numberTail pointed cs with
  | case1 pointed => rfl
  | case2 pointed c cs hdigit ih =>
    rw [numberTail.eq_def]
    simp only [if_pos hdigit, ih]
  | case3 pointed c cs hdigit hpoint ih =>
    rw [numberTail.eq_def]
    simp only [if_neg hdigit, if_pos hpoint, ih]
  | case4 pointed c hdigit hpoint hexponent =>
    rw [numberTail.eq_def]
    simp only [if_neg hdigit, if_neg hpoint, if_pos hexponent]
  | case5 pointed c hdigit hpoint hexponent d cs hsign ih =>
    rw [numberTail.eq_def]
    simp only [if_neg hdigit, if_neg hpoint, if_pos hexponent, if_pos hsign, ih]
  | case6 pointed c hdigit hpoint hexponent d cs hsign ih =>
    rw [numberTail.eq_def]
    simp only [if_neg hdigit, if_neg hpoint, if_pos hexponent]
    -- what comes after the letter starts as it did, so with no sign
    have hprefix := numberTail_isPrefix true (d :: cs)
    generalize numberTail true (d :: cs) = tail at hprefix ih ⊢
    cases tail with
    | nil => rfl
    | cons e tail =>
      obtain ⟨rfl, -⟩ := List.cons_prefix_cons.1 hprefix
      simp only [if_neg hsign, ih]
  | case7 pointed c cs hdigit hpoint hexponent => rw [numberTail.eq_def]

theorem scanNumber_take {s : Scan} (h : scanNumber c cs = .ok s) :
    scanNumber c (cs.take (s.size - 1)) = .ok s := by
  have hsize : s.size = (numberTail false cs).length + 1 := by
    unfold scanNumber at h
    dsimp only at h
    split at h
    · split at h <;> cases h
      rfl
    · split at h <;> cases h
      rfl
  have htake : cs.take (s.size - 1) = numberTail false cs := by
    rw [hsize, Nat.add_sub_cancel]
    exact (List.prefix_iff_eq_take.1 (numberTail_isPrefix false cs)).symm
  rw [htake, ← h]
  simp only [scanNumber, numberTail_numberTail]

/-- A string literal is read to its closing quote and no further. -/
theorem stringTail_take {value : List Char} {size : Nat} (h : stringTail cs = some (value, size)) :
    stringTail (cs.take size) = some (value, size) := by
  induction cs using stringTail.induct generalizing value size with
  | case1 => cases h
  | case2 cs =>
    cases h
    rfl
  | case3 => cases h
  | case4 c cs ih =>
    obtain ⟨⟨value, size⟩, htail, heq⟩ := Option.map_eq_some_iff.1 h
    cases heq
    rw [List.take_succ_cons, List.take_succ_cons, stringTail, ih htail]
    rfl
  | case5 c cs hquote hslash hescape ih =>
    have hplain := stringTail_plain hquote hslash hescape
    rw [hplain] at h
    obtain ⟨⟨value, size⟩, htail, heq⟩ := Option.map_eq_some_iff.1 h
    cases heq
    rw [List.take_succ_cons, hplain, ih htail]
    rfl

theorem scanString_take {s : Scan} (h : scanString cs = .ok s) :
    scanString (cs.take (s.size - 1)) = .ok s := by
  unfold scanString at h
  split at h
  · rename_i value n htail
    cases h
    rw [Nat.add_sub_cancel, scanString, stringTail_take htail]
  · cases h

theorem scanWord_take (c : Char) (cs : List Char) :
    scanWord c (cs.take ((scanWord c cs).size - 1)) = scanWord c cs := by
  have htake : cs.take ((scanWord c cs).size - 1) = cs.takeWhile continuesWord := by
    change cs.take ((cs.takeWhile continuesWord).length + 1 - 1) = _
    rw [Nat.add_sub_cancel]
    exact (List.prefix_iff_eq_take.1 (List.takeWhile_prefix _)).symm
  rw [htake]
  simp only [scanWord, List.takeWhile_idem]

theorem scanMark_take {s : Scan} (h : scanMark c cs = .ok s) :
    scanMark c (cs.take (s.size - 1)) = .ok s := by
  have htwice : ∀ (d : Char) (long : Mark) {short : Except Failure Scan},
      (if cs.head? = some d then .ok ⟨.mark long, 2, by omega⟩ else short) = Except.ok s →
        (∀ s, short = .ok s → s.size = 1) →
          (if (cs.take (s.size - 1)).head? = some d then .ok ⟨.mark long, 2, by omega⟩ else short) =
            Except.ok s := by
    intro d long short hs hshort
    split at hs
    · rename_i hhead
      cases hs
      have htake : (cs.take 1).head? = some d := by rwa [List.head?_take, if_neg Nat.one_ne_zero]
      exact if_pos htake
    · rw [hshort s hs, if_neg (by simp), hs]
  have hone : ∀ (m : Mark) (s : Scan), (.ok ⟨.mark m, 1, by omega⟩ : Except Failure Scan) = .ok s →
      s.size = 1 := by
    rintro m s hs
    cases hs
    rfl
  unfold scanMark at h
  dsimp only at h
  split at h
  all_goals first
    | exact h
    | exact htwice _ _ h (hone _)
    | exact htwice _ _ h (fun s hs => by cases hs)
    | cases h

/-- The characters that a token takes are scanned as this token if they stand alone. -/
theorem scan_take {s : Scan} (h : scan c cs = .ok s) : scan c (cs.take (s.size - 1)) = .ok s := by
  unfold scan at h ⊢
  split at h
  · rw [if_pos ‹_›]
    exact scanNumber_take h
  rw [if_neg ‹_›]
  split at h
  · rw [if_pos ‹_›]
    exact scanString_take h
  rw [if_neg ‹_›]
  split at h
  · cases h
    rw [if_pos ‹_›, scanWord_take]
  · rw [if_neg ‹_›]
    exact scanMark_take h

theorem gap_take (h : gap c cs = 0) (n : Nat) : gap c (cs.take n) = 0 := by
  unfold gap at h ⊢
  split at h
  · cases h
  · split at h
    · cases h
    · rename_i hblank hcomment
      rw [if_neg hblank, if_neg]
      rintro ⟨hslash, hhead⟩
      rw [List.head?_take] at hhead
      split at hhead
      · cases hhead
      · exact hcomment ⟨hslash, hhead⟩

/-- The lexeme of a token is split into this token. -/
theorem tokenize_lexeme (hgap : gap c cs = 0) {s : Scan} (h : scan c cs = .ok s) :
    tokenize (String.ofList ((c :: cs).take s.size)) = .ok [⟨s.token, .start⟩] := by
  have hsize : s.size = s.size - 1 + 1 := (Nat.sub_add_cancel s.size_pos).symm
  have hdrop : (c :: cs.take (s.size - 1)).drop s.size = [] := by
    refine List.drop_eq_nil_of_le ?_
    rw [List.length_cons, List.length_take]
    omega
  rw [tokenize, String.toList_ofList, hsize, List.take_succ_cons, run.eq_def]
  simp only [gap_take hgap, Nat.lt_irrefl, ↓reduceDIte, scan_take h, hdrop]
  rw [run.eq_def]
  rfl

/-! ### Gaps -/

/-- Blanks and comments with `rest` behind them. A comment runs to the end of its line or to the end of the
text. -/
inductive Gap : List Char → List Char → Prop
  | nil {rest : List Char} : Gap [] rest
  | blank {c : Char} {blanks rest : List Char} (hc : Text.isBlank c = true) (h : Gap blanks rest) :
      Gap (c :: blanks) rest
  | comment {text blanks rest : List Char} (htext : '\n' ∉ text) (hend : LineEnd (blanks ++ rest))
      (h : Gap blanks rest) : Gap ('/' :: '/' :: (text ++ blanks)) rest

/-- What the lexer skips at once is the beginning of a gap. -/
theorem gap_gap {blanks : List Char} (hgap : 0 < gap c cs) (h : Gap blanks rest)
    (htext : (c :: cs).drop (gap c cs) = blanks ++ rest) :
    Gap ((c :: cs).take (gap c cs) ++ blanks) rest := by
  by_cases hblank : Text.isBlank c = true
  · have hone : gap c cs = 1 := if_pos hblank
    rw [hone]
    exact .blank hblank h
  · have hcomment : c = '/' ∧ cs.head? = some '/' := by
      by_contra hcomment
      rw [gap, if_neg hblank, if_neg hcomment] at hgap
      exact Nat.lt_irrefl 0 hgap
    have hsize : gap c cs = (cs.takeWhile (· ≠ '\n')).length + 1 := by
      rw [gap, if_neg hblank, if_pos hcomment]
    obtain ⟨rfl, hslash⟩ := hcomment
    obtain ⟨ds, rfl⟩ := List.head?_eq_some_iff.1 hslash
    -- the comment takes the line, and the line ends with what is left of the text
    obtain ⟨line, left, rfl, hline, hends⟩ : ∃ line left, ds = line ++ left ∧
        ds.takeWhile (· ≠ '\n') = line ∧ LineEnd left := by
      refine ⟨_, _, List.takeWhile_append_dropWhile.symm, rfl, fun d hd => ?_⟩
      have hstop := List.head?_dropWhile_not (· ≠ '\n') ds
      rw [Option.mem_def.1 hd] at hstop
      simpa using hstop
    rw [hsize, List.takeWhile_cons_of_pos rfl, hline] at htext ⊢
    have hleft : left = blanks ++ rest := by simpa using htext
    have hskip : ('/' :: '/' :: (line ++ left)).take (('/' :: line).length + 1) = '/' :: '/' :: line := by
      simp
    have hfeed : '\n' ∉ line := fun hmem => by
      have hstands := List.mem_takeWhile_imp (hline ▸ hmem)
      exact absurd rfl (of_decide_eq_true hstands)
    rw [hskip]
    exact .comment hfeed (hleft ▸ hends) h

/-! ### Words and operators -/

/-- A character that starts a word, and then such that continue one. -/
def IsWord : List Char → Prop
  | [] => False
  | c :: cs => startsWord c = true ∧ ∀ d ∈ cs, continuesWord d = true

/-- The spelling of an operator, a bracket or a separator. -/
def IsOperator (w : List Char) : Prop :=
  ∃ m : Mark, m ∉ [.define, .yes, .no, .null] ∧ m.spelling.toList = w

/-- Together with what follows, a lexeme is no longer word and no longer operator. -/
def Longest (lexeme rest : List Char) : Prop :=
  ∀ more ≠ [], more <+: rest → ¬ IsWord (lexeme ++ more) ∧ ¬ IsOperator (lexeme ++ more)

/-- No number starts a word. -/
theorem isDigit_eq_false_of_startsWord (h : startsWord c = true) : c.isDigit = false := by
  by_contra hdigit
  obtain ⟨hlow, hhigh⟩ := Char.isDigit_iff_toNat.1 (eq_true_of_ne_false hdigit)
  simp only [Char.reduceToNat] at hlow hhigh
  have halpha : c.isAlpha = false := by
    change (decide ('A'.toNat ≤ c.toNat ∧ c.toNat ≤ 'Z'.toNat) ||
      decide ('a'.toNat ≤ c.toNat) && decide (c.toNat ≤ 'z'.toNat)) = false
    simp only [Char.reduceToNat, Bool.or_eq_false_iff, Bool.and_eq_false_iff, decide_eq_false_iff_not]
    omega
  have hline : c ≠ '_' := by
    rintro rfl
    revert hhigh
    decide
  have hsmall : c.toNat < 128 := by omega
  simp [startsWord, Text.isAlphabetic, hsmall, halpha, hline] at h

/-- A token takes all of a word that the text starts with. -/
theorem IsWord.length_le {w : List Char} (h : IsWord w) (hw : w <+: c :: cs) {s : Scan}
    (hs : scan c cs = .ok s) : w.length ≤ s.size := by
  cases w with
  | nil => cases h
  | cons d ds =>
    obtain ⟨rfl, hds⟩ := List.cons_prefix_cons.1 hw
    obtain ⟨hstarts, hcontinues⟩ := h
    have hquote : d ≠ '\x22' := by
      rintro rfl
      revert hstarts
      decide
    rw [scan, if_neg (by simp [isDigit_eq_false_of_startsWord hstarts]), if_neg hquote,
      if_pos hstarts] at hs
    cases hs
    have hall : ds <+: cs.takeWhile continuesWord := by
      obtain ⟨more, rfl⟩ := hds
      rw [List.takeWhile_append_of_pos hcontinues]
      exact List.prefix_append _ _
    exact Nat.succ_le_succ hall.length_le

/-- A token takes all of an operator that the text starts with. -/
theorem IsOperator.length_le {w : List Char} (h : IsOperator w) (hw : w <+: c :: cs) {s : Scan}
    (hs : scan c cs = .ok s) : w.length ≤ s.size := by
  obtain ⟨m, hm, rfl⟩ := h
  cases m with
  | define | yes | no | null => simp at hm
  | equal | notEqual | lessEqual | greaterEqual | both | either =>
    obtain ⟨rfl, hsecond⟩ := List.cons_prefix_cons.1 hw
    obtain ⟨more, rfl⟩ := hsecond
    cases hs
    exact Nat.le_refl 2
  | _ => exact s.size_pos

/-- Words and operators are not cut short. -/
theorem longest_scan {s : Scan} (h : scan c cs = .ok s) :
    Longest ((c :: cs).take s.size) ((c :: cs).drop s.size) := by
  intro more hmore hprefix
  have hwhole : (c :: cs).take s.size ++ more <+: c :: cs := by
    have hboth := (List.prefix_append_right_inj ((c :: cs).take s.size)).2 hprefix
    rwa [List.take_append_drop] at hboth
  have hlonger : s.size < ((c :: cs).take s.size ++ more).length := by
    have hsize := scan_size_le h
    have hpos := List.length_pos_of_ne_nil hmore
    rw [List.length_append, List.length_take, List.length_cons]
    omega
  exact ⟨fun hword => absurd (hword.length_le hwhole h) (Nat.not_le_of_lt hlonger),
    fun hoperator => absurd (hoperator.length_le hwhole h) (Nat.not_le_of_lt hlonger)⟩

/-! ### Texts -/

/-- A text that stands behind `past`, as gaps and the lexemes of its tokens: a gap and a lexeme for each
token, and a gap behind the last one. -/
inductive Partition : List Char → List Char → List Located → Prop
  | last {past blanks : List Char} (gap : Gap blanks []) : Partition past blanks []
  | token {past blanks lexeme rest : List Char} {t : Token} {ls : List Located}
      (gap : Gap blanks (lexeme ++ rest)) (alone : tokenize (String.ofList lexeme) = .ok [⟨t, .start⟩])
      (longest : Longest lexeme rest) (others : Partition (past ++ blanks ++ lexeme) rest ls) :
      Partition past (blanks ++ (lexeme ++ rest)) (⟨t, .after (past ++ blanks)⟩ :: ls)

/-- The gap at the front of a text may grow. -/
theorem Partition.skip {past : List Char} {ls : List Located} (hgap : 0 < gap c cs)
    (h : Partition (past ++ (c :: cs).take (gap c cs)) ((c :: cs).drop (gap c cs)) ls) :
    Partition past (c :: cs) ls := by
  generalize hpast : past ++ (c :: cs).take (gap c cs) = past' at h
  generalize htext : (c :: cs).drop (gap c cs) = text at h
  have hwhole : (c :: cs).take (gap c cs) ++ text = c :: cs := by
    rw [← htext, List.take_append_drop]
  cases h with
  | last hblanks =>
    rw [← hwhole]
    exact .last (gap_gap hgap hblanks (by rw [htext, List.append_nil]))
  | @token past blanks lexeme rest t ls hblanks halone hlongest hothers =>
    subst hpast
    rw [List.append_assoc past] at hothers ⊢
    have htoken := Partition.token (gap_gap hgap hblanks htext) halone hlongest hothers
    rwa [List.append_assoc (List.take _ _), hwhole] at htoken

/-- What the lexer makes of a text behind `past`. -/
theorem partition_run {past : List Char} {ls : List Located}
    (h : run (Position.after past) cs = .ok ls) : Partition past cs ls := by
  generalize hp : Position.after past = p at h
  fun_induction run p cs generalizing past ls with
  | case1 p =>
    cases h
    exact .last .nil
  | case2 p c cs hgap ih =>
    refine .skip hgap (ih ?_ h)
    rw [← Position.advance_start, Position.advance_append, Position.advance_start, hp]
  | case3 => cases h
  | case4 p c cs hgap token size hsize hscan ih =>
    obtain ⟨more, hmore, h⟩ := Parser.read_bind h
    cases h
    have hnone : gap c cs = 0 := Nat.eq_zero_of_not_pos hgap
    have hothers : Partition (past ++ [] ++ (c :: cs).take size) ((c :: cs).drop size) more := by
      refine ih ?_ hmore
      rw [List.append_nil, ← Position.advance_start, Position.advance_append, Position.advance_start,
        hp]
    have htoken := Partition.token .nil (tokenize_lexeme hnone hscan) (longest_scan hscan) hothers
    rwa [List.append_nil, hp, List.nil_append, List.take_append_drop] at htoken

end Lexer

/-- A text that is split into tokens consists of gaps and of the lexemes of these tokens. -/
theorem tokenize_partition {source : String} {ls : List Located} (h : tokenize source = .ok ls) :
    Lexer.Partition [] source.toList ls :=
  Lexer.partition_run h

/-- The second line starts inside a string literal and ends with a comment. -/
theorem tokenize_partition_lines : ∃ ls, tokenize "a <= \x22x\ny\x22 // c\n&& b" = .ok ls ∧
    Lexer.Partition [] "a <= \x22x\ny\x22 // c\n&& b".toList ls ∧
      ls.map Located.position = [⟨1, 1⟩, ⟨1, 3⟩, ⟨1, 6⟩, ⟨3, 1⟩, ⟨3, 4⟩] := by
  have hpositions : (tokenize "a <= \x22x\ny\x22 // c\n&& b").toOption.map (·.map Located.position) =
      some [⟨1, 1⟩, ⟨1, 3⟩, ⟨1, 6⟩, ⟨3, 1⟩, ⟨3, 4⟩] := by decide +kernel
  cases hok : tokenize "a <= \x22x\ny\x22 // c\n&& b" with
  | error e =>
    rw [hok] at hpositions
    cases hpositions
  | ok ls =>
    rw [hok] at hpositions
    exact ⟨ls, rfl, tokenize_partition hok, Option.some.inj hpositions⟩

end Reflow
