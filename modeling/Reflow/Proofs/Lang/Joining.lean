import Mathlib.Data.List.Forall2
import Reflow.Compile.Mapping
import Reflow.Proofs.Lang.RoundTrip
/-!
# Joining programs

Texts that are programs may be put one after the other, each on lines of its own. No token crosses the
end of a line unless it is a string literal, which has its closing quote then; a comment ends with its
line. A text that is split into tokens is therefore split into the same ones if a further line follows, and
a statement ends with its semicolon, whatever comes behind.

## Main definitions

* `Lexer.LineEnd`: what may follow a text: nothing, or a further line.

## Main results

* `Lexer.scan_append`: the token at the front of a text does not depend on further lines.
* `Lexer.Splits.append`: a text and further lines have the tokens of both.
* `joined_programs`: joined programs are the statements of all of them.
-/

namespace Reflow

namespace Lexer

/-- The text is empty, or it starts with the end of a line. -/
def LineEnd (rest : List Char) : Prop := ∀ c ∈ rest.head?, c = '\n'

theorem lineEnd_nil : LineEnd [] := fun c hc => by cases hc

theorem lineEnd_cons (cs : List Char) : LineEnd ('\n' :: cs) := fun _ hc => (Option.some.inj hc).symm

variable {c d : Char} {cs rest : List Char} {ts us : List Token}

/-! ### One token -/

theorem takeWhile_append (hrest : LineEnd rest) {p : Char → Bool} (hp : p '\n' = false) :
    (cs ++ rest).takeWhile p = cs.takeWhile p := by
  induction cs with
  | nil =>
    cases rest with
    | nil => rfl
    | cons c rest =>
      obtain rfl := hrest c rfl
      exact List.takeWhile_cons_of_neg (by simp [hp])
  | cons c cs ih =>
    rw [List.cons_append, List.takeWhile_cons, List.takeWhile_cons, ih]

/-- A character within a line follows if and only if it did. -/
theorem head?_append_iff (hrest : LineEnd rest) (hd : d ≠ '\n') :
    (cs ++ rest).head? = some d ↔ cs.head? = some d := by
  cases cs with
  | cons c cs => rfl
  | nil =>
    refine iff_of_false (fun hhead => hd (hrest d hhead)) fun hhead => ?_
    cases hhead

/-- A gap ends at the end of a line at the latest. -/
theorem gap_append (hrest : LineEnd rest) (c : Char) (cs : List Char) :
    gap c (cs ++ rest) = gap c cs := by
  simp only [gap, head?_append_iff hrest (d := '/') (by decide),
    takeWhile_append hrest (p := fun c => decide (c ≠ '\n')) (by decide)]

theorem scanWord_append (hrest : LineEnd rest) (c : Char) (cs : List Char) :
    scanWord c (cs ++ rest) = scanWord c cs := by
  simp only [scanWord, takeWhile_append hrest (p := continuesWord) (by decide)]

theorem numberTail_lineEnd (hrest : LineEnd rest) (pointed : Bool) : numberTail pointed rest = [] := by
  cases rest with
  | nil => rfl
  | cons c rest =>
    obtain rfl := hrest c rfl
    rw [numberTail.eq_def]
    rfl

theorem numberTail_append (hrest : LineEnd rest) (pointed : Bool) (cs : List Char) :
    numberTail pointed (cs ++ rest) = numberTail pointed cs := by
  fun_induction numberTail pointed cs with
  | case1 pointed => exact numberTail_lineEnd hrest pointed
  | case2 pointed c cs hdigit ih =>
    rw [List.cons_append, numberTail.eq_def]
    simp only [if_pos hdigit, ih]
  | case3 pointed c cs hdigit hpoint ih =>
    rw [List.cons_append, numberTail.eq_def]
    simp only [if_neg hdigit, if_pos hpoint, ih]
  | case4 pointed c hdigit hpoint hexponent =>
    -- The sign of an exponent stands on its line.
    rw [List.singleton_append, numberTail.eq_def]
    simp only [if_neg hdigit, if_neg hpoint, if_pos hexponent]
    cases rest with
    | nil => rfl
    | cons d rest =>
      obtain rfl := hrest d rfl
      simp [numberTail_lineEnd hrest]
  | case5 pointed c hdigit hpoint hexponent d cs hsign ih =>
    rw [List.cons_append, List.cons_append, numberTail.eq_def]
    simp only [if_neg hdigit, if_neg hpoint, if_pos hexponent, if_pos hsign, ih]
  | case6 pointed c hdigit hpoint hexponent d cs hsign ih =>
    rw [List.cons_append, List.cons_append, numberTail.eq_def]
    rw [List.cons_append] at ih
    simp only [if_neg hdigit, if_neg hpoint, if_pos hexponent, if_neg hsign, ih]
  | case7 pointed c cs hdigit hpoint hexponent =>
    rw [List.cons_append, numberTail.eq_def]
    simp only [if_neg hdigit, if_neg hpoint, if_neg hexponent]

theorem scanNumber_append (hrest : LineEnd rest) (c : Char) (cs : List Char) :
    scanNumber c (cs ++ rest) = scanNumber c cs := by
  simp only [scanNumber, numberTail_append hrest]

/-- A character that neither closes a string literal nor stands before another one is content. -/
theorem stringTail_plain {c : Char} {cs : List Char} (hquote : c ≠ '\x22')
    (hslash : c = '\\' → cs ≠ []) (hescape : ∀ d ds, c = '\\' → cs ≠ d :: ds) (rest : List Char) :
    stringTail (c :: rest) = (stringTail rest).map fun (value, n) => (c :: value, n + 1) := by
  have hplain : c ≠ '\\' := by
    intro hc
    cases cs with
    | nil => exact hslash hc rfl
    | cons d ds => exact hescape d ds hc rfl
  exact stringTail.eq_5 _ _ hquote (fun hc _ => hplain hc) fun _ _ hc _ => hplain hc

/-- A string literal ends with its closing quote, whatever follows. -/
theorem stringTail_append {value : List Char} {size : Nat} (h : stringTail cs = some (value, size))
    (rest : List Char) : stringTail (cs ++ rest) = some (value, size) := by
  induction cs using stringTail.induct generalizing value size with
  | case1 => cases h
  | case2 cs => exact h
  | case3 => cases h
  | case4 c cs ih =>
    obtain ⟨⟨value, size⟩, htail, heq⟩ := Option.map_eq_some_iff.1 h
    rw [List.cons_append, List.cons_append, stringTail, ih htail, ← heq]
    rfl
  | case5 c cs hquote hslash hescape ih =>
    have hplain := stringTail_plain hquote hslash hescape
    rw [hplain] at h
    obtain ⟨⟨value, size⟩, htail, heq⟩ := Option.map_eq_some_iff.1 h
    rw [List.cons_append, hplain, ih htail, ← heq]
    rfl

theorem scanString_append {s : Scan} (h : scanString cs = .ok s) (rest : List Char) :
    scanString (cs ++ rest) = .ok s := by
  unfold scanString at h
  split at h
  · rename_i htail
    rw [scanString, stringTail_append htail, ← h]
  · cases h

theorem scanMark_append (hrest : LineEnd rest) (c : Char) (cs : List Char) :
    scanMark c (cs ++ rest) = scanMark c cs := by
  simp only [scanMark, head?_append_iff hrest (d := '=') (by decide),
    head?_append_iff hrest (d := '&') (by decide), head?_append_iff hrest (d := '|') (by decide)]

/-- The token at the front of a text does not depend on further lines. -/
theorem scan_append (hrest : LineEnd rest) {s : Scan} (h : scan c cs = .ok s) :
    scan c (cs ++ rest) = .ok s := by
  unfold scan at h ⊢
  rw [scanNumber_append hrest, scanWord_append hrest, scanMark_append hrest]
  split at h
  · rwa [if_pos ‹_›]
  rw [if_neg ‹_›]
  split at h
  · rw [if_pos ‹_›]
    exact scanString_append h rest
  · rwa [if_neg ‹_›]

/-! ### Sizes -/

theorem gap_le (c : Char) (cs : List Char) : gap c cs ≤ cs.length + 1 := by
  unfold gap
  split
  · omega
  split
  · exact Nat.succ_le_succ (List.takeWhile_prefix _).length_le
  · omega

theorem length_numberTail_le (pointed : Bool) (cs : List Char) :
    (numberTail pointed cs).length ≤ cs.length := by
  fun_induction numberTail pointed cs <;> simp only [List.length_cons, List.length_nil] at * <;> omega

theorem stringTail_size_le {value : List Char} {size : Nat} (h : stringTail cs = some (value, size)) :
    size ≤ cs.length := by
  induction cs using stringTail.induct generalizing value size with
  | case1 => cases h
  | case2 cs =>
    cases h
    exact Nat.succ_le_succ (Nat.zero_le _)
  | case3 => cases h
  | case4 c cs ih =>
    obtain ⟨⟨value, size⟩, htail, heq⟩ := Option.map_eq_some_iff.1 h
    cases heq
    exact Nat.add_le_add_right (ih htail) 2
  | case5 c cs hquote hslash hescape ih =>
    rw [stringTail.eq_5 _ _ hquote hslash hescape] at h
    obtain ⟨⟨value, size⟩, htail, heq⟩ := Option.map_eq_some_iff.1 h
    cases heq
    exact Nat.succ_le_succ (ih htail)

theorem scan_size_le {s : Scan} (h : scan c cs = .ok s) : s.size ≤ cs.length + 1 := by
  unfold scan at h
  split at h
  · have hnumber : (numberTail false cs).length + 1 ≤ cs.length + 1 :=
      Nat.succ_le_succ (length_numberTail_le false cs)
    unfold scanNumber at h
    dsimp only at h
    split at h
    · split at h
      · cases h
        exact hnumber
      · cases h
    · split at h
      · cases h
        exact hnumber
      · cases h
  split at h
  · unfold scanString at h
    split at h
    · rename_i htail
      cases h
      exact Nat.succ_le_succ (stringTail_size_le htail)
    · cases h
  split at h
  · cases h
    exact Nat.succ_le_succ (List.takeWhile_prefix _).length_le
  · obtain ⟨m, -, hsize⟩ := scanMark_mark h
    exact hsize

/-! ### All tokens -/

/-- A text that is split into tokens, with further lines behind it, has these tokens and those of the
lines. -/
theorem splits_run_append {p : Position} {ls : List Located} (h : run p cs = .ok ls)
    (hrest : LineEnd rest) (hus : Splits rest us) :
    Splits (cs ++ rest) (ls.map Located.token ++ us) := by
  -- the scanner goes through the text as it did, and then meets the further lines
  fun_induction run p cs generalizing ls with
  | case1 p =>
    cases h
    exact hus
  | case2 p c cs hgap ih =>
    have hdrop := ih h
    rw [← List.drop_append_of_le_length (gap_le c cs)] at hdrop
    rw [List.cons_append] at hdrop ⊢
    rw [← gap_append hrest c cs] at hgap hdrop
    exact splits_gap hgap hdrop
  | case3 => cases h
  | case4 p c cs hgap token size hsize hscan ih =>
    obtain ⟨more, hmore, h⟩ := Parser.read_bind h
    cases h
    have hdrop := ih hmore
    rw [← List.drop_append_of_le_length (scan_size_le hscan)] at hdrop
    rw [List.cons_append] at hdrop ⊢
    have hnone : gap c (cs ++ rest) = 0 := by
      rw [gap_append hrest]
      exact Nat.eq_zero_of_not_pos hgap
    exact splits_scan hnone (scan_append hrest hscan) hdrop

/-- The tokens of a text do not depend on where it starts. -/
theorem splits_of_run {p : Position} {ls : List Located} (h : run p cs = .ok ls) :
    Splits cs (ls.map Located.token) := by
  have hsplits := splits_run_append h lineEnd_nil splits_nil
  rwa [List.append_nil, List.append_nil] at hsplits

theorem Splits.append (h : Splits cs ts) (hrest : LineEnd rest) (hus : Splits rest us) :
    Splits (cs ++ rest) (ts ++ us) := by
  obtain ⟨ls, hls, rfl⟩ := h .start
  exact splits_run_append hls hrest hus

end Lexer

/-! ### Programs -/

open Lexer

variable {source source' : String} {program program' : List Statement}

/-- A text is a program exactly if its tokens are derived, and is then the statements that the derivation
stands for. -/
theorem parseProgram_eq_ok_iff : parseProgram source = .ok program ↔
    ∃ ds : List Grammar.StatementTree, Splits source.toList (ds.flatMap Grammar.StatementTree.yield) ∧
      (∀ d ∈ ds, d.Valid) ∧ ds.map Grammar.StatementTree.ast = program := by
  constructor
  · intro h
    rw [parseProgram] at h
    obtain ⟨ls, hls, h⟩ := Parser.read_bind h
    obtain ⟨ds, ⟨htokens, hvalid⟩, hast⟩ := Grammar.program_eq_ok_iff.1 h
    exact ⟨ds, htokens ▸ splits_of_run hls, hvalid, hast⟩
  · rintro ⟨ds, hsplits, hvalid, hast⟩
    obtain ⟨ls, hls, htokens⟩ := hsplits .start
    rw [parseProgram, tokenize, hls]
    exact Grammar.program_eq_ok_iff.2 ⟨ds, ⟨htokens, hvalid⟩, hast⟩

/-- Two programs, one below the other. -/
theorem parseProgram_append (h : parseProgram source = .ok program)
    (h' : parseProgram source' = .ok program') :
    parseProgram (source ++ "\n" ++ source') = .ok (program ++ program') := by
  obtain ⟨ds, hsplits, hvalid, rfl⟩ := parseProgram_eq_ok_iff.1 h
  obtain ⟨ds', hsplits', hvalid', rfl⟩ := parseProgram_eq_ok_iff.1 h'
  have hboth := hsplits.append (lineEnd_cons source'.toList) (splits_blank rfl hsplits')
  rw [← List.flatMap_append] at hboth
  refine parseProgram_eq_ok_iff.2 ⟨ds ++ ds', ?_, ?_, List.map_append⟩
  · simpa using hboth
  · exact List.forall_mem_append.2 ⟨hvalid, hvalid'⟩

/-- Programs, each on lines of its own. -/
theorem parseProgram_separated {sources : List String} {programs : List (List Statement)}
    (h : List.Forall₂ (fun source program => parseProgram source = .ok program) sources programs) :
    parseProgram (separated "\n" sources) = .ok programs.flatten := by
  induction h with
  | nil => exact parseProgram_blank rfl
  | @cons source program sources programs hfirst hmore ih =>
    cases hmore with
    | nil =>
      rw [List.flatten_cons, List.flatten_nil, List.append_nil]
      exact hfirst
    | cons _ _ => exact parseProgram_append hfirst ih

/-! ### Subtrees -/

theorem Statement.render_ne_empty (s : Statement) : s.render ≠ "" := by
  intro h
  have hlength := congrArg String.length h
  cases s <;> simp [Statement.render, String.length_append] at hlength

namespace Subtree

theorem code_eq_empty_iff {t : Subtree} : t.code = "" ↔ t.statements = [] := by
  obtain ⟨id, statements⟩ := t
  match statements with
  | [] => exact iff_of_true rfl rfl
  | [s] => exact iff_of_false s.render_ne_empty (List.cons_ne_nil _ _)
  | s :: s' :: rest =>
    refine iff_of_false (fun h => ?_) (List.cons_ne_nil _ _)
    have hlength := congrArg String.length h
    simp [code, Statement.renderAll, separated, String.length_append] at hlength

end Subtree

namespace GraphMapping

/-- Subtrees without statements contribute no text. -/
theorem nodesToCode_eq (subtrees : List Subtree) : nodesToCode subtrees =
    separated "\n" ((subtrees.filter fun t => !t.statements.isEmpty).map Subtree.code) := by
  rw [nodesToCode, List.filter_map]
  congr 2
  refine List.filter_congr fun t _ => ?_
  rw [Bool.eq_iff_iff]
  simp [Subtree.code_eq_empty_iff]

theorem parseProgram_nodesToCode {subtrees : List Subtree} {programs : List (List Statement)}
    (h : List.Forall₂ (fun t program => parseProgram t.code = .ok program) subtrees programs) :
    parseProgram (nodesToCode subtrees) = .ok programs.flatten := by
  suffices hsources : ∃ programs', List.Forall₂ (fun source program => parseProgram source = .ok program)
      ((subtrees.map Subtree.code).filter (· ≠ "")) programs' ∧ programs'.flatten = programs.flatten by
    obtain ⟨programs', hsources, hflatten⟩ := hsources
    rw [nodesToCode, parseProgram_separated hsources, hflatten]
  induction h with
  | nil => exact ⟨[], .nil, rfl⟩
  | @cons t program subtrees programs hfirst hmore ih =>
    obtain ⟨programs', hsources, hflatten⟩ := ih
    by_cases hempty : t.code = ""
    · have hprogram : program = [] := by
        rw [hempty, parseProgram_blank rfl] at hfirst
        exact (Except.ok.inj hfirst).symm
      refine ⟨programs', ?_, by rw [List.flatten_cons, hprogram, hflatten, List.nil_append]⟩
      rwa [List.map_cons, List.filter_cons_of_neg (by simpa using hempty)]
    · refine ⟨program :: programs', ?_, by rw [List.flatten_cons, List.flatten_cons, hflatten]⟩
      rw [List.map_cons, List.filter_cons_of_pos (by simpa using hempty)]
      exact .cons hfirst hsources

end GraphMapping

/-- Programs may be joined, whatever their texts hold: put one below the other, they are the program of
all their statements. So are the programs of subtrees, and a subtree without statements has no part in the
text and none in the program. -/
theorem joined_programs :
    (∀ sources programs,
      List.Forall₂ (fun source program => parseProgram source = .ok program) sources programs →
        parseProgram (separated "\n" sources) = .ok programs.flatten) ∧
    (∀ subtrees programs,
      List.Forall₂ (fun t program => parseProgram t.code = .ok program) subtrees programs →
        parseProgram (GraphMapping.nodesToCode subtrees) = .ok programs.flatten) ∧
    (∀ subtrees, GraphMapping.nodesToCode subtrees =
      separated "\n" ((subtrees.filter fun t => !t.statements.isEmpty).map Subtree.code)) ∧
    ∀ t : Subtree, t.statements = [] → parseProgram t.code = .ok [] :=
  ⟨fun _ _ => parseProgram_separated, fun _ _ => GraphMapping.parseProgram_nodesToCode,
    GraphMapping.nodesToCode_eq, fun t ht => by
      rw [Subtree.code_eq_empty_iff.2 ht]
      exact parseProgram_blank rfl⟩

/-- Three texts, of which the first ends in a comment, the second is one, and the third has a string over
two lines; and two subtrees with an empty one between them. -/
theorem joined_programs_comment :
    (∃ program, parseProgram (separated "\n"
        ["a = 1; // é", "// a number: 2e", "def f(x) = \"1\n2\";"]) = .ok program ∧
      program.map Statement.render = ["a = 1;", "def f(x) = \"1\\n2\";"]) ∧
    ∃ program, parseProgram (GraphMapping.nodesToCode [⟨.ofNat 2, [.assign "a" (.double 1)]⟩,
        .empty (.ofNat 1), ⟨.ofNat 0, [.assign "b" (.name "a")]⟩]) = .ok program ∧
      program.map Statement.render = ["a = 1.0;", "b = a;"] := by
  obtain ⟨hsources, hsubtrees, -, hempty⟩ := joined_programs
  have hread : ∀ {source}, (parseProgram source).toBool = true →
      parseProgram source = .ok ((parseProgram source).toOption.getD []) := fun h =>
    Subtree.parse_eq_ok (@Subtree.parse_eq_of_toBool (.ofNat 0) _ h)
  constructor
  · exact ⟨_, hsources _ _ (.cons (hread (by decide +kernel)) (.cons (hread (by decide +kernel))
      (.cons (hread (by decide +kernel)) .nil))), by decide +kernel⟩
  · exact ⟨_, hsubtrees _ _ (.cons (hread (by decide +kernel)) (.cons (hempty _ rfl)
      (.cons (hread (by decide +kernel)) .nil))), by decide +kernel⟩

end Reflow
