import Reflow.Proofs.Lang.Reading
/-!
# What the parser takes

The parser takes names from the tokens and makes up none, so that all names of a program that was read are
words that the lexer reads as names. Nothing but the end of a statement takes a semicolon. Where the
statements of a program begin and end can therefore be told from the tokens alone, and a rendered program
is read as statements that bind the same names, with the same parameters.

## Main definitions

* `Statement.heading`: what a statement binds.
* `Grammar.Named`: tokens of which all names are such words.

## Main results

* `named_of_parseProgram`: the names in a program that was read.
* `headings_renderAll`: what the statements of a rendered program bind.
-/

namespace Reflow

/-! ### Semicolons -/

namespace Expr

theorem semicolon_notMem_grouped {e : Expr} (h : .mark .semicolon ∉ e.tokens) (least : Nat) :
    .mark .semicolon ∉ e.groupedTokens e.tokens least := by
  unfold groupedTokens
  split
  · simpa using h
  · exact h

mutual

/-- The tokens of an expression hold no semicolon. -/
theorem semicolon_notMem_tokens : (e : Expr) → .mark .semicolon ∉ e.tokens
  | null | bool true | bool false | str _ | name _ => by simp [tokens]
  | int n => by
    rw [tokens]
    split <;> simp
  | double x => by
    rw [tokens, doubleTokens]
    split
    · simp
    · cases Decimal.signBit x <;> cases Decimal.binary? x <;> simp
  | array items => by simpa [tokens] using semicolon_notMem_itemTokens items
  | index target i => by
    simpa [tokens] using ⟨semicolon_notMem_grouped (semicolon_notMem_tokens target) 8,
      semicolon_notMem_tokens i⟩
  | call callee args => by simpa [tokens] using semicolon_notMem_itemTokens args
  | unary op operand => by
    have hoperand := semicolon_notMem_grouped (semicolon_notMem_tokens operand) 7
    cases op <;> simpa [tokens, UnaryOp.mark] using hoperand
  | binary op lhs rhs => by
    have hlhs := semicolon_notMem_grouped (semicolon_notMem_tokens lhs) op.precedence
    have hrhs := semicolon_notMem_grouped (semicolon_notMem_tokens rhs) (op.precedence + 1)
    cases op <;> simpa [tokens, BinaryOp.mark] using ⟨hlhs, hrhs⟩
  | cond test yes no => by
    simpa [tokens] using ⟨semicolon_notMem_grouped (semicolon_notMem_tokens test) 1,
      semicolon_notMem_grouped (semicolon_notMem_tokens yes) 1, semicolon_notMem_tokens no⟩

theorem semicolon_notMem_itemTokens : (es : List Expr) → .mark .semicolon ∉ itemTokens es
  | [] => List.not_mem_nil
  | [e] => semicolon_notMem_tokens e
  | e :: e' :: es => by
    simpa [itemTokens] using ⟨semicolon_notMem_tokens e, semicolon_notMem_itemTokens (e' :: es)⟩

end

end Expr

namespace Statement

theorem semicolon_notMem_paramTokens : (params : List String) →
    .mark .semicolon ∉ paramTokens params
  | [] => List.not_mem_nil
  | [p] => by simp [paramTokens]
  | p :: q :: params => by simpa [paramTokens] using semicolon_notMem_paramTokens (q :: params)

/-- The tokens of a statement hold no semicolon but the last one. -/
theorem semicolon_notMem (s : Statement) : .mark .semicolon ∉ s.opening ++ s.inner := by
  cases s with
  | assign target value => simpa [opening, inner] using value.semicolon_notMem_tokens
  | define name params body =>
    simpa [opening, inner] using
      ⟨semicolon_notMem_paramTokens params, body.semicolon_notMem_tokens⟩

/-- What a statement binds: a variable, or a function with parameters. -/
def heading : Statement → String × Option (List String)
  | assign target _ => (target, none)
  | define name params _ => (name, some params)

/-- Statements with the same heading bind the same name and assign the same variable. -/
theorem eq_of_heading {s s' : Statement} (h : s.heading = s'.heading) :
    s.assigned? = s'.assigned? ∧ s.boundName = s'.boundName := by
  cases s <;> cases s' <;> simp_all [heading, assigned?, boundName]

theorem closeParen_notMem_paramTokens : (params : List String) →
    .mark .closeParen ∉ paramTokens params
  | [] => List.not_mem_nil
  | [p] => by simp [paramTokens]
  | p :: q :: params => by simpa [paramTokens] using closeParen_notMem_paramTokens (q :: params)

/-- Different parameters have different tokens. -/
theorem paramTokens_injective : (params params' : List String) →
    paramTokens params = paramTokens params' → params = params'
  | [], [], _ => rfl
  | [], [q], h => by simp [paramTokens] at h
  | [], q :: q' :: rest, h => by simp [paramTokens] at h
  | [p], [], h => by simp [paramTokens] at h
  | p :: p' :: rest, [], h => by simp [paramTokens] at h
  | [p], [q], h => by simpa [paramTokens] using h
  | [p], q :: q' :: rest, h => by simp [paramTokens] at h
  | p :: p' :: rest, [q], h => by simp [paramTokens] at h
  | p :: p' :: rest, q :: q' :: rest', h => by
    simp only [paramTokens, List.cons.injEq, Token.name.injEq, true_and] at h
    rw [h.1, paramTokens_injective (p' :: rest) (q' :: rest') h.2]

end Statement

/-! ### Derivations -/

namespace Grammar

/-- All names among the tokens are words that the lexer reads as names. -/
def Named (ts : List Token) : Prop := ∀ n, .name n ∈ ts → Lexer.isName n = true

theorem Named.left {ts us : List Token} (h : Named (ts ++ us)) : Named ts :=
  fun n hn => h n (List.mem_append_left us hn)

theorem Named.right {ts us : List Token} (h : Named (ts ++ us)) : Named us :=
  fun n hn => h n (List.mem_append_right ts hn)

theorem Named.tail {t : Token} {ts : List Token} (h : Named (t :: ts)) : Named ts :=
  fun n hn => h n (List.mem_cons_of_mem t hn)

namespace Tree

mutual

/-- The names of a derived expression are names among its tokens. -/
theorem named : {c : Category} → (d : Tree c) → Named d.yield → d.ast.all Expr.isNamed = true
  | _, plain e, h => e.named h
  | _, cond test yes no, h => by
    simp only [yield] at h
    simp [ast, Expr.all, Expr.isNamed, test.named h.left, yes.named h.right.tail.left,
      no.named h.right.tail.right.tail]
  | _, single e, h => e.named h
  | _, binary lhs op _ rhs, h => by
    simp only [yield] at h
    simp [ast, Expr.all, Expr.isNamed, lhs.named h.left, rhs.named h.right.tail]
  | _, unary .neg operand, h => by
    rw [ast]
    cases operand.numeral? with
    | some n => cases n <;> rfl
    | none => simp [Expr.all, Expr.isNamed, operand.named h.tail]
  | _, unary .not operand, h => by
    simp [ast, Expr.all, Expr.isNamed, operand.named h.tail]
  | _, unsigned e, h => e.named h
  | _, bare e, h => e.named h
  | _, index target i, h => by
    simp only [yield] at h
    simp [ast, Expr.all, Expr.isNamed, target.named h.left, i.named h.right.tail.left]
  | _, literal l, _ => by
    cases l with
    | number n => cases n <;> rfl
    | _ => rfl
  | _, name n, h => h n List.mem_cons_self
  | _, call callee args, h => by
    have hcallee := h callee List.mem_cons_self
    simp [ast, Expr.all, Expr.isNamed, hcallee, named_all args h.tail.tail.left]
  | _, group e, h => e.named h.tail.left
  | _, array items, h => by
    simp [ast, Expr.all, Expr.isNamed, named_all items h.tail.left]

theorem named_all : (es : List (Tree .expr)) → Named (yieldAll es) →
    Expr.allOf Expr.isNamed (astAll es) = true
  | [], _ => rfl
  | [e], h => by
    simp [astAll, Expr.allOf, e.named h]
  | e :: e' :: es, h => by
    have hmore : Named (e.yield ++ .mark .comma :: yieldAll (e' :: es)) := h
    have hes := named_all (e' :: es) hmore.right.tail
    rw [astAll, Expr.allOf, e.named hmore.left, hes]
    rfl

end

mutual

/-- No semicolon is derived from a nonterminal of expressions. -/
theorem semicolon_notMem : {c : Category} → (d : Tree c) → .mark .semicolon ∉ d.yield
  | _, plain e => e.semicolon_notMem
  | _, cond test yes no => by
    simp [yield, test.semicolon_notMem, yes.semicolon_notMem, no.semicolon_notMem]
  | _, single e => e.semicolon_notMem
  | _, binary lhs op _ rhs => by
    cases op <;> simp [yield, BinaryOp.mark, lhs.semicolon_notMem, rhs.semicolon_notMem]
  | _, unary op operand => by
    cases op <;> simp [yield, UnaryOp.mark, operand.semicolon_notMem]
  | _, unsigned e => e.semicolon_notMem
  | _, bare e => e.semicolon_notMem
  | _, index target i => by simp [yield, target.semicolon_notMem, i.semicolon_notMem]
  | _, literal l => fun h => by
    rw [yield, List.mem_singleton] at h
    have hopens := opensPrimary_literal l
    rw [← h] at hopens
    cases hopens
  | _, name n => by simp [yield]
  | _, call callee args => by simp [yield, semicolon_notMem_all args]
  | _, group e => by simp [yield, e.semicolon_notMem]
  | _, array items => by simp [yield, semicolon_notMem_all items]

theorem semicolon_notMem_all : (es : List (Tree .expr)) → .mark .semicolon ∉ yieldAll es
  | [] => List.not_mem_nil
  | [e] => e.semicolon_notMem
  | e :: e' :: es => by
    have hmore := semicolon_notMem_all (e' :: es)
    simp [yieldAll, e.semicolon_notMem, hmore]

end

end Tree

namespace StatementTree

/-- The tokens of a derived statement between the name that it binds and the semicolon. -/
def inner : StatementTree → List Token
  | assign _ value => .mark .assign :: value.yield
  | define _ params body =>
    .mark .openParen :: (Statement.paramTokens params ++ .mark .closeParen :: .mark .assign :: body.yield)

theorem yield_eq (d : StatementTree) : d.yield = d.ast.opening ++ (d.inner ++ [.mark .semicolon]) := by
  cases d <;> simp [yield, inner, ast, Statement.opening]

theorem semicolon_notMem (d : StatementTree) : .mark .semicolon ∉ d.ast.opening ++ d.inner := by
  cases d with
  | assign target value => simpa [ast, Statement.opening, inner] using value.semicolon_notMem
  | define name params body =>
    simpa [ast, Statement.opening, inner] using
      ⟨Statement.semicolon_notMem_paramTokens params, body.semicolon_notMem⟩

theorem mem_paramTokens {p : String} : {params : List String} → p ∈ params →
    .name p ∈ Statement.paramTokens params
  | [q], h => by
    rw [List.mem_singleton.1 h]
    exact List.mem_cons_self
  | q :: r :: params, h => by
    rcases List.mem_cons.1 h with rfl | h
    · exact List.mem_cons_self
    · exact List.mem_cons_of_mem _ (List.mem_cons_of_mem _ (mem_paramTokens h))

/-- The names of a derived statement are names among its tokens. -/
theorem named (d : StatementTree) (h : Named d.yield) : d.ast.Named := by
  cases d with
  | assign target value =>
    exact ⟨h target List.mem_cons_self, value.named h.tail.tail.left⟩
  | define name params body =>
    have hrest := h.tail.tail.tail
    exact ⟨h.tail name List.mem_cons_self, fun p hp => hrest.left p (mem_paramTokens hp),
      body.named hrest.right.tail.tail.left⟩

end StatementTree

/-! ### Statements one after another -/

section Statements

variable {ds : List StatementTree} {program : List Statement}

/-- The part before the first occurrence of something is determined. -/
theorem append_cons_inj {α : Type} {a b x y : List α} {m : α} (ha : m ∉ a) (hb : m ∉ b)
    (h : a ++ m :: x = b ++ m :: y) : a = b ∧ x = y := by
  induction a generalizing b with
  | nil =>
    cases b with
    | nil => exact ⟨rfl, (List.cons.inj h).2⟩
    | cons d b => exact absurd ((List.cons.inj h).1 ▸ List.mem_cons_self) hb
  | cons c a ih =>
    cases b with
    | nil => exact absurd ((List.cons.inj h).1 ▸ List.mem_cons_self) ha
    | cons d b =>
      obtain ⟨rfl, hrest⟩ := List.cons.inj h
      obtain ⟨rfl, rfl⟩ := ih (fun hm => ha (List.mem_cons_of_mem _ hm))
        (fun hm => hb (List.mem_cons_of_mem _ hm)) hrest
      exact ⟨rfl, rfl⟩

/-- What a statement binds is seen from its tokens. -/
theorem heading_eq {d : StatementTree} {s : Statement}
    (h : d.ast.opening ++ d.inner = s.opening ++ s.inner) : d.ast.heading = s.heading := by
  cases d <;> cases s <;>
    simp only [StatementTree.ast, StatementTree.inner, Statement.opening, Statement.inner,
      Statement.heading, List.cons_append, List.nil_append, List.cons.injEq, Token.name.injEq,
      reduceCtorEq, false_and, true_and] at h ⊢
  · rw [h.1]
  · obtain ⟨rfl, hrest⟩ := h
    obtain ⟨hparams, -⟩ := append_cons_inj (Statement.closeParen_notMem_paramTokens _)
      (Statement.closeParen_notMem_paramTokens _) hrest
    rw [Statement.paramTokens_injective _ _ hparams]

/-- Derived statements with the tokens of rendered ones bind the same names. -/
theorem headings_eq (h : ds.flatMap StatementTree.yield = program.flatMap Statement.tokens) :
    ds.map (fun d => d.ast.heading) = program.map Statement.heading := by
  induction program generalizing ds with
  | nil =>
    cases ds with
    | nil => rfl
    | cons d ds =>
      rw [List.flatMap_cons, d.yield_eq] at h
      simp at h
  | cons s rest ih =>
    cases ds with
    | nil => cases s <;> cases h
    | cons d ds =>
      have htokens : (d.ast.opening ++ d.inner) ++ .mark .semicolon :: ds.flatMap StatementTree.yield =
          (s.opening ++ s.inner) ++ .mark .semicolon :: rest.flatMap Statement.tokens := by
        rw [List.flatMap_cons, d.yield_eq] at h
        simpa [Statement.tokens] using h
      obtain ⟨hstart, hrest⟩ := append_cons_inj d.semicolon_notMem s.semicolon_notMem htokens
      rw [List.map_cons, List.map_cons, heading_eq hstart, ih hrest]

theorem named_of_derivation {ls : List Located} (hls : Named (ls.map Located.token))
    (h : Derivation ls ds) : ∀ d ∈ ds, d.ast.Named := by
  refine fun d hd => d.named fun n hn => hls n ?_
  rw [h.1]
  exact List.mem_flatMap.2 ⟨d, hd, hn⟩

end Statements

end Grammar

/-! ### Programs -/

variable {source : String} {program program₀ : List Statement}

/-- All names of a program that was read are words that the lexer reads as names. -/
theorem named_of_parseProgram (h : parseProgram source = .ok program) : ∀ s ∈ program, s.Named := by
  rw [parseProgram] at h
  obtain ⟨ls, hls, h⟩ := Parser.read_bind h
  obtain ⟨ds, hds, rfl⟩ := Grammar.program_eq_ok_iff.1 h
  have hnamed : Grammar.Named (ls.map Located.token) := fun n hn => by
    obtain ⟨l, hl, htoken⟩ := List.mem_map.1 hn
    exact Lexer.isName_of_run hls hl htoken
  exact List.forall_mem_map.2 (Grammar.named_of_derivation hnamed hds)

/-- A rendered program that can be read is read as statements that bind the same names. -/
theorem headings_renderAll (hnamed : ∀ s ∈ program₀, s.Named)
    (h : parseProgram (Statement.renderAll program₀) = .ok program) :
    program.map Statement.heading = program₀.map Statement.heading := by
  obtain ⟨ls, hls, htokens⟩ := splits_renderAll program₀ hnamed .start
  rw [parseProgram, tokenize, hls] at h
  obtain ⟨ds, hds, rfl⟩ := Grammar.program_eq_ok_iff.1 h
  rw [List.map_map]
  exact Grammar.headings_eq (hds.1.symm.trans htokens)

/-- Blank text is a program without statements. -/
theorem parseProgram_blank (h : Text.isBlankText source = true) : parseProgram source = .ok [] := by
  have hsplits : Lexer.Splits source.toList [] := by
    have hblank : ∀ c ∈ source.toList, Text.isBlank c = true := List.all_eq_true.1 h
    generalize source.toList = cs at hblank
    induction cs with
    | nil => exact Lexer.splits_nil
    | cons c rest ih =>
      exact Lexer.splits_blank (hblank c List.mem_cons_self)
        (ih fun c hc => hblank c (List.mem_cons_of_mem _ hc))
  obtain ⟨ls, hls, htokens⟩ := hsplits .start
  obtain rfl := List.map_eq_nil_iff.1 htokens
  rw [parseProgram, tokenize, hls]
  rfl

end Reflow
