import Reflow.Edit.Subtree
import Reflow.Proofs.Lang.Named
/-!
# Rendering and reading again

A program that is rendered and read again is the same program unless a minus in it meets a number: the
minus before a number becomes its sign, and the sign of a number with a subscript becomes an operator. A
program in which neither occurs is read as itself. In code that was read from a text both can occur, since
parentheses keep them apart there and are not rendered.

## Main definitions

* `Expr.isStable`: expressions in which no minus changes its meaning.
* `Statement.Canonical`: statements that are read as themselves.

## Main results

* `Expr.reread_eq_self_iff`: which expressions are reread as themselves.
* `parseProgram_canonical`: reading undoes rendering on canonical programs.
* `Subtree.parseProgram_code`: what the code of a subtree is read as.
-/

namespace Reflow

/-- The names of the language are the texts that consist of one name. -/
theorem Lexer.isName_iff {n : String} :
    isName n = true ↔ ∃ p, tokenize n = .ok [⟨.name n, p⟩] := by
  constructor
  · intro hn
    have hsplits := splits_name hn (fun c hc => by cases hc) splits_nil
    obtain ⟨ls, hls, htokens⟩ := hsplits .start
    obtain ⟨l, rfl, hl⟩ := List.map_eq_singleton_iff.1 htokens
    rw [List.append_nil] at hls
    exact ⟨l.position, by rw [tokenize, hls, ← hl]⟩
  · rintro ⟨p, hp⟩
    exact isName_of_run hp List.mem_cons_self rfl

namespace Expr

/-- Whether an expression is neither a minus directly on a number without a sign nor a subscript directly
on a number with one. -/
def isStable : Expr → Bool
  | unary .neg (int n) => n.toInt < 0
  | index (int n) _ => 0 ≤ n.toInt
  | _ => true

/-- Whether an expression is no double literal. -/
def isWhole : Expr → Bool
  | double _ => false
  | _ => true

theorem isReadable_of_isStable {e : Expr} (h : e.all isStable = true) : e.all isReadable = true := by
  refine all_of_and (fun e hstable _ => ?_) e h h
  cases e with
  | index target i =>
    rw [isReadable_index]
    rintro rfl
    cases hstable
  | _ => rfl

theorem isLexable_of_isWhole {e : Expr} (hwhole : e.all isWhole = true)
    (hnamed : e.all isNamed = true) : e.all isLexable = true := by
  refine all_of_and (fun e hwhole hnamed => ?_) e hwhole hnamed
  cases e with
  | double x => cases hwhole
  | _ => exact hnamed

theorem isStable_index {target i : Expr} (h : target.signed = false) :
    (index target i).isStable = true := by
  cases target with
  | int n => exact decide_eq_true (Int.not_lt.1 (of_decide_eq_false h))
  | _ => rfl

theorem isStable_unary {op : UnaryOp} {operand : Expr} :
    (unary op operand).isStable = true ↔ negativeLiteral? op operand = none := by
  cases op with
  | not => exact iff_of_true rfl rfl
  | neg =>
    cases operand with
    | int n => simp [isStable, negativeLiteral?]
    | _ => exact iff_of_true rfl rfl

/-- A sign that comes first in a stable expression belongs to a number that is all of it. -/
theorem eq_int_of_signed : (e : Expr) → e.all isStable = true → e.signed = true →
    ∃ n, e = int n ∧ n.toInt < 0
  | int n, _, h => ⟨n, rfl, of_decide_eq_true h⟩
  | index target i, hstable, h => by
    simp only [all, Bool.and_eq_true] at hstable
    obtain ⟨n, rfl, hn⟩ := eq_int_of_signed target hstable.2.1 h
    exact absurd (of_decide_eq_true hstable.1) (Int.not_le.2 hn)

mutual

/-- An expression is reread as itself exactly if it is stable. -/
theorem reread_eq_self_iff : (e : Expr) → (e.reread = e ↔ e.all isStable = true)
  | null | bool _ | int _ | double _ | str _ | name _ => iff_of_true rfl rfl
  | array items => by
    simp [reread, all, isStable, rereadAll_eq_self_iff items]
  | index target i => by
    cases hsigned : target.signed with
    | true =>
      refine iff_of_false (fun h => ?_) fun h => ?_
      · rw [reread, if_pos hsigned] at h
        cases h
      · obtain ⟨n, hn, -⟩ := eq_int_of_signed (index target i) h hsigned
        cases hn
    | false =>
      have hindex : (index target i).isStable = true := isStable_index hsigned
      simp [reread, all, hsigned, hindex, reread_eq_self_iff target, reread_eq_self_iff i]
  | call callee args => by
    simp [reread, all, isStable, rereadAll_eq_self_iff args]
  | unary op operand => by
    cases hliteral : negativeLiteral? op operand with
    | some n =>
      refine iff_of_false (fun h => ?_) fun h => ?_
      · rw [reread, hliteral] at h
        cases h
      · simp only [all, Bool.and_eq_true, isStable_unary, hliteral] at h
        cases h.1
    | none =>
      have hunary : (unary op operand).isStable = true := isStable_unary.2 hliteral
      simp [reread, all, hliteral, hunary, reread_eq_self_iff operand]
  | binary op lhs rhs => by
    simp [reread, all, isStable, reread_eq_self_iff lhs, reread_eq_self_iff rhs]
  | cond test yes no => by
    simp [reread, all, isStable, reread_eq_self_iff test, reread_eq_self_iff yes,
      reread_eq_self_iff no]

theorem rereadAll_eq_self_iff : (es : List Expr) → (rereadAll es = es ↔ allOf isStable es = true)
  | [] => iff_of_true rfl rfl
  | e :: es => by
    simp [rereadAll, allOf, reread_eq_self_iff e, rereadAll_eq_self_iff es]

end

end Expr

/-! ### Statements -/

namespace Statement

/-- The names are names of the language, the parameters are distinct, no number is a double, and the
expression is stable. -/
def Canonical (s : Statement) : Prop :=
  s.Named ∧ s.parameters.Nodup ∧ s.expression.all Expr.isWhole = true ∧
    s.expression.all Expr.isStable = true

theorem Named.expression {s : Statement} (h : s.Named) : s.expression.all Expr.isNamed = true := by
  cases s with
  | assign target value => exact h.2
  | define name params body => exact h.2.2

theorem lexable_of_whole {s : Statement} (hnamed : s.Named)
    (hwhole : s.expression.all Expr.isWhole = true) : s.Lexable :=
  ⟨hnamed, Expr.isLexable_of_isWhole hwhole hnamed.expression⟩

theorem reread_eq_self_iff {s : Statement} :
    s.reread = s ↔ s.expression.all Expr.isStable = true := by
  cases s with
  | assign target value => simp [reread, expression, Expr.reread_eq_self_iff]
  | define name params body => simp [reread, expression, Expr.reread_eq_self_iff]

theorem map_reread_eq_self_iff {program : List Statement} :
    program.map reread = program ↔ ∀ s ∈ program, s.expression.all Expr.isStable = true := by
  induction program with
  | nil => exact iff_of_true rfl (List.forall_mem_nil _)
  | cons s rest ih => rw [List.map_cons, List.cons.injEq, reread_eq_self_iff, ih, List.forall_mem_cons]

end Statement

/-- Reading undoes rendering on canonical programs. -/
theorem parseProgram_canonical {program : List Statement} (h : ∀ s ∈ program, s.Canonical) :
    parseProgram (Statement.renderAll program) = .ok program := by
  have hlexable : ∀ s ∈ program, s.Lexable := fun s hs =>
    Statement.lexable_of_whole (h s hs).1 (h s hs).2.2.1
  have hreadable : ∀ s ∈ program, s.Readable := fun s hs =>
    ⟨(h s hs).2.1, Expr.isReadable_of_isStable (h s hs).2.2.2⟩
  have hself : program.map Statement.reread = program :=
    Statement.map_reread_eq_self_iff.2 fun s hs => (h s hs).2.2.2
  exact (parseProgram_renderAll_eq_ok_iff hlexable).2 ⟨hreadable, hself.symm⟩

/-- Signs, minus signs and parentheses next to one another. -/
theorem parseProgram_canonical_signs :
    parseProgram (Statement.renderAll
      [.define "f" ["x", "y"] (.cond (.binary .lt (.name "x") (.int (-5)))
        (.unary .neg (.unary .neg (.int Int64.minValue)))
        (.index (.unary .neg (.index (.int 5) (.int 0))) (.name "y"))),
      .assign "a" (.binary .sub (.int 1) (.binary .sub (.str "\"\n") (.call "f" [.int 2, .null])))]) =
    .ok [.define "f" ["x", "y"] (.cond (.binary .lt (.name "x") (.int (-5)))
        (.unary .neg (.unary .neg (.int Int64.minValue)))
        (.index (.unary .neg (.index (.int 5) (.int 0))) (.name "y"))),
      .assign "a" (.binary .sub (.int 1) (.binary .sub (.str "\"\n") (.call "f" [.int 2, .null])))] := by
  refine parseProgram_canonical (List.forall_mem_cons.2 ⟨?_, List.forall_mem_singleton.2 ?_⟩)
  · exact ⟨⟨by decide +kernel, by decide +kernel, by decide +kernel⟩, by decide, rfl, rfl⟩
  · exact ⟨⟨by decide +kernel, by decide +kernel⟩, List.nodup_nil, rfl, rfl⟩

/-! ### Subtrees -/

/-- The parameters of a function that was read are distinct. -/
theorem nodup_of_parseProgram {source : String} {program : List Statement}
    (h : parseProgram source = .ok program) : ∀ s ∈ program, s.parameters.Nodup := by
  rw [parseProgram] at h
  obtain ⟨ls, -, h⟩ := Parser.read_bind h
  obtain ⟨ds, ⟨-, hvalid⟩, rfl⟩ := Grammar.program_eq_ok_iff.1 h
  refine List.forall_mem_map.2 fun d hd => ?_
  cases d with
  | assign target value => exact List.nodup_nil
  | define name params body => exact (hvalid _ hd).1

namespace Subtree

variable {id : SubtreeId} {source : String} {t : Subtree}

theorem parse_eq_ok (h : parse id source = .ok t) : parseProgram source = .ok t.statements := by
  unfold parse at h
  split at h
  · rename_i hread
    cases h
    exact hread
  · cases h

/-- The code of a subtree that was read from a text without double literals is read as its statements,
with their expressions reread, if no subscript stands directly on the least integer, and is not a program
otherwise. It is read as the statements themselves exactly if they are stable. -/
theorem parseProgram_code (h : parse id source = .ok t)
    (hwhole : ∀ s ∈ t.statements, s.expression.all Expr.isWhole = true) :
    (∀ read, parseProgram t.code = .ok read ↔
      (∀ s ∈ t.statements, s.expression.all Expr.isReadable = true) ∧
        read = t.statements.map Statement.reread) ∧
      (parseProgram t.code = .ok t.statements ↔
        ∀ s ∈ t.statements, s.expression.all Expr.isStable = true) := by
  have hread := parse_eq_ok h
  have hlexable : ∀ s ∈ t.statements, s.Lexable := fun s hs =>
    Statement.lexable_of_whole (named_of_parseProgram hread s hs) (hwhole s hs)
  have hreadable : (∀ s ∈ t.statements, s.Readable) ↔
      ∀ s ∈ t.statements, s.expression.all Expr.isReadable = true :=
    forall₂_congr fun s hs => and_iff_right (nodup_of_parseProgram hread s hs)
  have hcode : ∀ read, parseProgram t.code = .ok read ↔
      (∀ s ∈ t.statements, s.expression.all Expr.isReadable = true) ∧
        read = t.statements.map Statement.reread := fun read => by
    rw [code, parseProgram_renderAll_eq_ok_iff hlexable, hreadable]
  refine ⟨hcode, ?_⟩
  rw [hcode, eq_comm, Statement.map_reread_eq_self_iff]
  exact and_iff_right_of_imp fun hstable s hs => Expr.isReadable_of_isStable (hstable s hs)

/-- The subtree of a text that is a program. -/
theorem parse_eq_of_toBool (h : (parseProgram source).toBool = true) :
    parse id source = .ok ⟨id, (parseProgram source).toOption.getD []⟩ := by
  unfold parse
  cases hread : parseProgram source with
  | ok program => rfl
  | error e =>
    rw [hread] at h
    cases h

/-- The code of a subtree with a subscript on the least integer in parentheses is no program, and that of
one with a minus before a number in parentheses is another program. -/
theorem parseProgram_code_parenthesized :
    (∃ t, parse (.ofNat 0) "a = (-9223372036854775808)[0];" = .ok t ∧
      ∀ read, parseProgram t.code ≠ .ok read) ∧
    ∃ t, parse (.ofNat 0) "a = -(5);" = .ok t ∧ parseProgram t.code ≠ .ok t.statements := by
  have hleast := @parse_eq_of_toBool (.ofNat 0) "a = (-9223372036854775808)[0];" (by decide +kernel)
  have hminus := @parse_eq_of_toBool (.ofNat 0) "a = -(5);" (by decide +kernel)
  refine ⟨⟨_, hleast, fun read hread => ?_⟩, ⟨_, hminus, fun hread => ?_⟩⟩
  · exact absurd (((parseProgram_code hleast (by decide +kernel)).1 read).1 hread).1 (by decide +kernel)
  · exact absurd ((parseProgram_code hminus (by decide +kernel)).2.1 hread) (by decide +kernel)

end Subtree

end Reflow
