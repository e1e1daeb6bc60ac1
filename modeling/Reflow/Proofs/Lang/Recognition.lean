import Reflow.Proofs.Lang.Completeness
import Reflow.Proofs.Lang.Derivability
/-!
# The language that the parser accepts

The parser accepts a list of tokens exactly if it is derived from the grammar with numbers that fit and
distinct parameters, and returns the statements that the derivation stands for. There is thus at most one
list of statements that the derivations of a list of tokens stand for.

## Main definitions

* `Grammar.Derivation`: a derivation of a program from a list of tokens.

## Main results

* `Grammar.program_eq_ok_iff`: what the parser returns are the statements of a derivation.
* `Grammar.recognizes`: it returns something exactly if there is one.
-/

namespace Reflow

namespace Grammar

open Reflow.Parser

/-- Some derivations of statements, one after another, have the given tokens. Their numbers fit, and their
parameters are distinct. -/
def Derivation (ls : List Located) (ds : List StatementTree) : Prop :=
  ls.map Located.token = ds.flatMap StatementTree.yield ∧ ∀ d ∈ ds, d.Valid

section Statements

variable {last : Position} {fuel : Nat} {ls ls' rest : List Located} {ts : List Token}
  {allowed : Prop} {e : Expr} {seen names : List String} {name target : String}

/-! ### The parts of a statement -/

/-- The parameters of a function and the parenthesis after them. -/
def parameters (last : Position) (ls : List Located) :
    Except SyntaxError (List String × List Located) :=
  if startsWith .closeParen ls then .ok ([], ls.drop 1) else params last (bound ls) [] ls

theorem statement_eq (last : Position) (ls : List Located) : statement last ls =
    if startsWith .define ls then do
      let ((name, _), ls₁) ← expectName last "function name" (ls.drop 1)
      let ls₂ ← expect last .openParen ls₁
      let (names, ls₃) ← parameters last ls₂
      let (body, ls₄) ← equals last ls₃
      return (.define name names body, ls₄)
    else do
      let ((target, _), ls₁) ← expectName last "statement" ls
      let (value, ls₂) ← equals last ls₁
      return (.assign target value, ls₂) := by
  rw [statement]
  split
  · refine bind_congr fun ⟨⟨name, _⟩, ls₁⟩ => ?_
    dsimp only
    refine bind_congr fun ls₂ => ?_
    unfold parameters
    split <;> rfl
  · rfl

/-! ### What is derived is read -/

theorem expectName_name {what : String} (n : String) (p : Position) (ls : List Located) :
    expectName last what (⟨.name n, p⟩ :: ls) = .ok ((n, p), ls) := rfl

/-- Parameters start with a name. -/
theorem paramTokens_first (hls : Consumes ls (Statement.paramTokens (name :: names) ++ ts) rest) :
    ∃ p ls₁, ls = ⟨.name name, p⟩ :: ls₁ := by
  cases names with
  | nil =>
    obtain ⟨p, ls₁, rfl, -⟩ := hls.split_cons
    exact ⟨p, ls₁, rfl⟩
  | cons n names =>
    obtain ⟨p, ls₁, rfl, -⟩ := hls.split_cons
    exact ⟨p, ls₁, rfl⟩

theorem nodup_concat (hseen : seen.Nodup) (hname : name ∉ seen) : (seen ++ [name]).Nodup := by
  rw [List.nodup_append]
  exact ⟨hseen, List.pairwise_singleton .., fun a ha b hb heq =>
    hname (List.mem_singleton.1 hb ▸ heq ▸ ha)⟩

/-- Parameters with commas between them, after others. -/
theorem comesTo_params {names : List String} (hnames : names ≠ []) (hseen : seen.Nodup)
    (hls : Consumes ls (Statement.paramTokens names ++ [.mark .closeParen]) rest)
    (hfuel : ls.length ≤ fuel) :
    ComesTo (params last fuel seen ls) (seen ++ names).Nodup (.ok (seen ++ names, rest)) := by
  induction names generalizing fuel seen ls with
  | nil => exact absurd rfl hnames
  | cons n names ih =>
    obtain ⟨p, ls₁, rfl⟩ := paramTokens_first hls
    obtain ⟨fuel, rfl⟩ := Nat.exists_eq_add_of_le' (Nat.le_trans (Nat.le_add_left 1 _) hfuel)
    rw [params]
    refine .of_bind (expectName_name n p ls₁) ?_
    dsimp only
    by_cases hn : n ∈ seen
    · refine .of_error (fun hnodup => ?_) (if_pos hn)
      exact (List.nodup_append.1 hnodup).2.2 n hn n List.mem_cons_self rfl
    have hseen' := nodup_concat hseen hn
    rw [if_neg hn]
    cases names with
    | nil =>
      obtain ⟨q, ls₂, heq, hclose⟩ := hls.split_cons
      cases heq
      obtain ⟨q, ls₂, rfl, hend⟩ := hclose.split_cons
      obtain rfl := hend.eq_of_nil
      exact .of_allowed hseen' rfl
    | cons n' names =>
      obtain ⟨q, ls₂, heq, hcomma⟩ := hls.split_cons
      cases heq
      obtain ⟨q, ls₂, rfl, hmore⟩ := hcomma.split_cons
      rw [startsWith_mark, if_neg (by decide), expect_mark]
      simp only [List.length_cons] at hfuel
      have hmany : ls₂.length ≤ fuel := by omega
      have hread := ih (List.cons_ne_nil n' names) hseen' hmore hmany
      rw [List.append_assoc] at hread
      exact hread

/-- The equals sign, the expression and the semicolon at the end of a statement. -/
theorem ReadsExpr.equals (h : ReadsExpr ts allowed e)
    (hls : Consumes ls (.mark .assign :: (ts ++ [.mark .semicolon])) rest) :
    ComesTo (equals last ls) allowed (.ok (e, rest)) := by
  obtain ⟨p, ls₁, rfl, hls₁⟩ := hls.split_cons
  obtain ⟨mid, hts, hmid⟩ := consumes_append.1 hls₁
  obtain ⟨q, mid, rfl, hend⟩ := hmid.split_cons
  obtain rfl := hend.eq_of_nil
  rw [Parser.equals, expect_mark]
  refine (h.read hts (closes_mark (by decide) q mid) ?_).bind_eq ?_
  · rw [bound]
    omega
  · dsimp only
    rw [expect_mark]
    rfl

theorem comesTo_parameters (hls : Consumes ls (Statement.paramTokens names ++ [.mark .closeParen]) rest) :
    ComesTo (parameters last ls) names.Nodup (.ok (names, rest)) := by
  unfold parameters
  cases names with
  | nil =>
    obtain ⟨p, ls₁, rfl, hend⟩ := hls.split_cons
    obtain rfl := hend.eq_of_nil
    exact .of_allowed List.nodup_nil rfl
  | cons n names =>
    have hopen : ¬ startsWith .closeParen ls = true := by
      obtain ⟨p, ls₁, rfl⟩ := paramTokens_first hls
      exact Bool.false_ne_true
    rw [if_neg hopen]
    exact comesTo_params (List.cons_ne_nil n names) List.nodup_nil hls (by rw [bound]; omega)

theorem comesTo_statement (d : StatementTree) (hls : Consumes ls d.yield rest) :
    ComesTo (statement last ls) d.Valid (.ok (d.ast, rest)) := by
  rw [statement_eq]
  cases d with
  | assign target value =>
    obtain ⟨p, ls₁, rfl, hvalue⟩ := hls.split_cons
    rw [startsWith_of_ne (by simp), if_neg Bool.false_ne_true]
    exact .of_bind (expectName_name target p ls₁) ((ReadsExpr.equals value.reads hvalue).bind_eq rfl)
  | define name names body =>
    obtain ⟨p, ls₁, rfl, hls₁⟩ := hls.split_cons
    obtain ⟨q, ls₂, rfl, hls₂⟩ := hls₁.split_cons
    obtain ⟨r, ls₃, rfl, hls₃⟩ := hls₂.split_cons
    have hparams : Consumes ls₃ ((Statement.paramTokens names ++ [.mark .closeParen]) ++
        .mark .assign :: (body.yield ++ [.mark .semicolon])) rest := by
      simpa using hls₃
    obtain ⟨mid, hnames, hbody⟩ := consumes_append.1 hparams
    rw [startsWith_mark, if_pos (decide_eq_true rfl), List.drop_one, List.tail_cons]
    refine .of_bind (expectName_name name q _) (.of_bind (expect_mark last .openParen r ls₃) ?_)
    exact (comesTo_parameters hnames).bind ((ReadsExpr.equals body.reads hbody).bind_eq rfl)

theorem comesTo_statements {ds : List StatementTree}
    (hls : Consumes ls (ds.flatMap StatementTree.yield) []) (hfuel : ls.length ≤ fuel) :
    ComesTo (statements last fuel ls) (∀ d ∈ ds, d.Valid) (.ok (ds.map StatementTree.ast)) := by
  induction ds generalizing fuel ls with
  | nil =>
    obtain rfl := hls.eq_of_nil
    refine .of_allowed (List.forall_mem_nil _) ?_
    cases fuel <;> rfl
  | cons d ds ih =>
    obtain ⟨mid, hd, hds⟩ := consumes_append.1 hls
    obtain ⟨t, ts, hyield⟩ : ∃ t ts, d.yield = t :: ts := by cases d <;> exact ⟨_, _, rfl⟩
    have hlength := hd.length_eq
    rw [hyield, List.length_cons] at hlength
    obtain ⟨p, ls₁, rfl, -⟩ := (hyield ▸ hd).split_cons
    obtain ⟨fuel, rfl⟩ := Nat.exists_eq_add_of_le' (Nat.le_trans (Nat.le_add_left 1 _) hfuel)
    rw [statements.eq_def, List.forall_mem_cons]
    exact (comesTo_statement d hd).bind ((ih hds (by omega)).bind_eq rfl)

/-! ### What is read is derived -/

theorem derives_params (hr : params last fuel seen ls = .ok (names, ls')) (hseen : seen.Nodup) :
    ∃ more, more ≠ [] ∧ names = seen ++ more ∧ names.Nodup ∧
      Consumes ls (Statement.paramTokens more ++ [.mark .closeParen]) ls' := by
  induction fuel generalizing seen ls with
  | zero => cases hr
  | succ fuel ih =>
    rw [params] at hr
    obtain ⟨⟨⟨n, p⟩, ls₁⟩, hname, hr⟩ := read_bind hr
    rw [expectName_eq hname]
    dsimp only at hr
    split at hr
    · cases hr
    rename_i hn
    have hseen' : (seen ++ [n]).Nodup := nodup_concat hseen hn
    split at hr
    · rename_i hclose
      cases hr
      exact ⟨[n], List.cons_ne_nil _ _, rfl, hseen', .cons p (consumes_drop hclose)⟩
    · obtain ⟨ls₂, hcomma, hr⟩ := read_bind hr
      obtain ⟨more, hmore, rfl, hnodup, hls⟩ := ih hr hseen'
      refine ⟨n :: more, List.cons_ne_nil _ _, List.append_assoc .., hnodup, ?_⟩
      cases more with
      | nil => exact absurd rfl hmore
      | cons n' more => exact .cons p ((consumes_expect hcomma).append hls)

theorem derives_parameters (hr : parameters last ls = .ok (names, ls')) :
    names.Nodup ∧ Consumes ls (Statement.paramTokens names ++ [.mark .closeParen]) ls' := by
  unfold parameters at hr
  split at hr
  · rename_i hclose
    cases hr
    exact ⟨List.nodup_nil, consumes_drop hclose⟩
  · obtain ⟨more, -, rfl, hnodup, hls⟩ := derives_params hr List.nodup_nil
    exact ⟨hnodup, hls⟩

theorem derives_equals (hr : equals last ls = .ok (e, ls')) : ∃ d : Tree .expr,
    Consumes ls (.mark .assign :: (d.yield ++ [.mark .semicolon])) ls' ∧ d.Valid ∧ d.ast = e := by
  rw [equals] at hr
  obtain ⟨ls₁, hassign, hr⟩ := read_bind hr
  obtain ⟨⟨a, ls₂⟩, hread, hr⟩ := read_bind hr
  obtain ⟨ls₃, hsemicolon, hr⟩ := read_bind hr
  cases hr
  obtain ⟨ts, allowed, ⟨d, rfl, hvalid, hast⟩, hallowed, hd⟩ := (sound _).expr hread
  exact ⟨d, (consumes_expect hassign).append (hd.append (consumes_expect hsemicolon)),
    hvalid.2 hallowed, hast⟩

theorem derives_statement {s : Statement} (hr : statement last ls = .ok (s, ls')) :
    ∃ d : StatementTree, Consumes ls d.yield ls' ∧ d.Valid ∧ d.ast = s := by
  rw [statement_eq] at hr
  split at hr
  · rename_i hdefine
    obtain ⟨⟨⟨name, p⟩, ls₁⟩, hname, hr⟩ := read_bind hr
    obtain ⟨ls₂, hopen, hr⟩ := read_bind hr
    obtain ⟨⟨names, ls₃⟩, hnames, hr⟩ := read_bind hr
    obtain ⟨⟨body, ls₄⟩, hbody, hr⟩ := read_bind hr
    cases hr
    obtain ⟨hnodup, hparams⟩ := derives_parameters hnames
    obtain ⟨d, hd, hvalid, rfl⟩ := derives_equals hbody
    refine ⟨.define name names d, ?_, ⟨hnodup, hvalid⟩, rfl⟩
    have hfront := consumes_drop hdefine
    rw [expectName_eq hname] at hfront
    have hall := hfront.append (.cons p ((consumes_expect hopen).append (hparams.append hd)))
    simpa [StatementTree.yield] using hall
  · obtain ⟨⟨⟨target, p⟩, ls₁⟩, htarget, hr⟩ := read_bind hr
    obtain ⟨⟨value, ls₂⟩, hvalue, hr⟩ := read_bind hr
    cases hr
    obtain ⟨d, hd, hvalid, rfl⟩ := derives_equals hvalue
    exact ⟨.assign target d, expectName_eq htarget ▸ .cons p hd, hvalid, rfl⟩

theorem derives_statements {program : List Statement}
    (hr : statements last fuel ls = .ok program) : ∃ ds : List StatementTree,
      Consumes ls (ds.flatMap StatementTree.yield) [] ∧ (∀ d ∈ ds, d.Valid) ∧
        ds.map StatementTree.ast = program := by
  induction fuel generalizing ls program with
  | zero =>
    cases ls <;> cases hr
    exact ⟨[], .nil [], List.forall_mem_nil _, rfl⟩
  | succ fuel ih =>
    cases ls with
    | nil =>
      cases hr
      exact ⟨[], .nil [], List.forall_mem_nil _, rfl⟩
    | cons l ls =>
      rw [statements.eq_def] at hr
      obtain ⟨⟨s, ls₁⟩, hs, hr⟩ := read_bind hr
      obtain ⟨more, hmore, hr⟩ := read_bind hr
      cases hr
      obtain ⟨d, hd, hvalid, rfl⟩ := derives_statement hs
      obtain ⟨ds, hds, hvalids, rfl⟩ := ih hmore
      exact ⟨d :: ds, hd.append hds, List.forall_mem_cons.2 ⟨hvalid, hvalids⟩, rfl⟩

end Statements

/-! ### Programs -/

/-- The parser reads the tokens of derived statements as these statements if their numbers fit and their
parameters are distinct, and fails if not. -/
theorem comesTo_program {ls : List Located} {ds : List StatementTree}
    (hls : ls.map Located.token = ds.flatMap StatementTree.yield) :
    ComesTo (program ls) (∀ d ∈ ds, d.Valid) (.ok (ds.map StatementTree.ast)) :=
  comesTo_statements (consumes_nil_iff.2 hls) (Nat.le_refl _)

/-- What the parser returns are the statements of a derivation. -/
theorem program_eq_ok_iff {ls : List Located} {p : List Statement} :
    program ls = .ok p ↔ ∃ ds, Derivation ls ds ∧ ds.map StatementTree.ast = p := by
  constructor
  · intro hr
    obtain ⟨ds, hds, hvalid, hast⟩ := derives_statements hr
    exact ⟨ds, ⟨consumes_nil_iff.1 hds, hvalid⟩, hast⟩
  · rintro ⟨ds, ⟨hds, hvalid⟩, rfl⟩
    exact (comesTo_program hds _).2 ⟨hvalid, rfl⟩

/-- The parser accepts exactly the lists of tokens that are derived from the grammar, and returns the
statements that every derivation stands for. -/
theorem recognizes (ls : List Located) :
    ((∃ p, program ls = .ok p) ↔ ∃ ds, Derivation ls ds) ∧
      ∀ ds, Derivation ls ds → program ls = .ok (ds.map StatementTree.ast) := by
  refine ⟨⟨fun ⟨p, hp⟩ => ?_, fun ⟨ds, hds⟩ => ?_⟩, fun ds hds => ?_⟩
  · obtain ⟨ds, hds, -⟩ := program_eq_ok_iff.1 hp
    exact ⟨ds, hds⟩
  · exact ⟨_, program_eq_ok_iff.2 ⟨ds, hds, rfl⟩⟩
  · exact program_eq_ok_iff.2 ⟨ds, hds, rfl⟩

end Grammar

end Reflow
