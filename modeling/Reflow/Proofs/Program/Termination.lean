import Reflow.Proofs.Program.Appending
import Reflow.Proofs.Program.Moments
/-!
# Every run of a compiled program ends

Every jump of a compiled program leads forward within the statement or the function body that it belongs to,
and so does every jump of code that is no longer in use. Hence each frame comes to its end, and with the limits
on repetition and on nested calls so does every run, whatever memory it starts on and whatever block it is
asked to run.

## Main definitions

* `CodeBlock.IsBody`: a block that holds a function body and nothing else.

## Main results

* `Reached.isBody`: so are all blocks of a program but the top-level one.
* `Sound.forwardFrom`, `Reached.forwardFrom`: compiled programs jump only forward.
* `Reached.terminates`: their runs end within the limits.
-/

namespace Reflow

/-- The block holds the code of an expression and a return, and no statements. -/
structure CodeBlock.IsBody (b : CodeBlock) : Prop where
  statements : b.stream.graph.nodes = []
  code : ∃ (σ : Naming) (e : Expr), b.stream.code.toList = e.code σ 0 ++ [.ret]

namespace CompileState

/-! ### Blocks of functions -/

/-- Every block that `t` has besides those of `s` holds a function body. -/
def AddsBodies (s t : CompileState) : Prop := ∀ block ∈ t.bodies, block ∈ s.bodies ∨ block.IsBody

namespace AddsBodies

variable {s t u : CompileState}

theorem of_eq (h : t.bodies = s.bodies) : s.AddsBodies t := fun _ hblock => .inl (h ▸ hblock)

theorem trans (h : s.AddsBodies t) (k : t.AddsBodies u) : s.AddsBodies u := fun block hblock =>
  (k block hblock).elim (h block) .inr

end AddsBodies

theorem bodies_retire (s : CompileState) (subtree : SubtreeId) :
    (s.retire subtree).bodies = s.bodies := by
  have hwithout : (s.withoutStatements subtree).bodies = s.bodies := by
    obtain ⟨updates, heq⟩ := s.exists_withoutStatements_eq subtree
    rw [heq]
    rfl
  rw [retire_eq]
  exact List.foldlRecOn _ _ (motive := fun t : CompileState => t.bodies = s.bodies) hwithout fun t ht p _ => ht

theorem bodies_assigned (s : CompileState) (owner : Option SubtreeId) (target : String) (value : Expr) :
    (s.assigned owner target value).bodies = s.bodies :=
  (registers_emitValue s target value).bodies.trans (s.registers_declare target).bodies

theorem bodies_defined (s : CompileState) (owner : Option SubtreeId) (name : String)
    (params : List String) (body : Expr) :
    (s.defined owner name params body).bodies = (s.install owner name params body).bodies := by
  rw [defined, queueUsers]
  split <;> rfl

theorem addsBodies_defined (s : CompileState) (owner : Option SubtreeId) (name : String)
    (params : List String) (body : Expr) : s.AddsBodies (s.defined owner name params body) := by
  intro b hb
  obtain ⟨block, hbodies, -, -, hcode, hgraph⟩ := bodies_install s owner name params body
  rw [bodies_defined, hbodies] at hb
  rcases List.mem_append.1 hb with hb | hb
  · exact .inl hb
  · obtain rfl := List.mem_singleton.1 hb
    have hemit := emit_code 0 body { state := s.beforeBody name params }
      (.refl (emit { params, defining := some name } 0 body _).2.state)
    exact .inr ⟨hgraph, _, body, hcode.trans (congrArg (· ++ [Instruction.ret]) hemit)⟩

theorem stepwise_addsBodies : Stepwise AddsBodies where
  refl _ := .of_eq rfl
  trans := .trans
  retire s subtree := .of_eq (s.bodies_retire subtree)
  assigned s owner target value := .of_eq (s.bodies_assigned owner target value)
  defined := addsBodies_defined

/-- All blocks of a program but the top-level one hold function bodies, those that are out of use
included. -/
theorem Reached.isBody {last : Option CompileState} {s : CompileState} (h : Reached last s) :
    ∀ block ∈ s.bodies, block.IsBody := by
  induction h with
  | new => exact fun _ hblock => by cases hblock
  | @compiled last s f image _ accepted ih =>
    rw [compile_image accepted]
    exact fun block hblock => (stepwise_addsBodies.compiled f s block hblock).elim (ih block) id
  | resetForNewDelta _ ih => exact ih
  | resetForFullExecution _ ih => exact ih

/-! ### Jumps lead forward -/

namespace Sound

variable {s : CompileState}

theorem forward (h : s.Sound) : s.executable.Forward := by
  intro r code hr hcode
  obtain ⟨p, -, -, -, u, block, σ, e, hcomputes, b, hb, heq⟩ := h.computes_of_enters hr
  rw [heq] at hcode ⊢
  obtain rfl := Option.some.inj ((hcomputes.stream? hb).symm.trans hcode)
  change block.stream.Forward p.start p.stop
  rw [hcomputes.start, hcomputes.stop]
  exact (Stream.carries_of_toList hcomputes.code).forward (Nat.zero_add _).symm rfl

theorem forward_statement (h : s.Sound) {n : GraphNode} (hn : n ∈ s.graph.nodes) :
    s.root.stream.Forward n.start n.stop := by
  obtain ⟨slot, σ, e, hassigns⟩ := h.statements n hn
  exact hassigns.carries.forward hassigns.stop rfl

theorem forwardFrom (h : s.Sound) (hbodies : ∀ block ∈ s.bodies, block.IsBody) (block : Nat) :
    s.executable.ForwardFrom block where
  functions := h.forward
  statements stream hstream n hn := by
    cases block with
    | zero =>
      cases hstream
      exact h.forward_statement hn
    | succ b =>
      rw [executable_stream?_succ] at hstream
      obtain ⟨body, hbody, rfl⟩ := Option.map_eq_some_iff.1 hstream
      rw [(hbodies body (List.mem_of_getElem? hbody)).statements] at hn
      cases hn

end Sound

end CompileState

/-- A jump leads forward within the function body whose block it stands in. -/
theorem CodeBlock.IsBody.forward {b : CodeBlock} (h : b.IsBody) :
    b.stream.Forward 0 b.stream.size := by
  obtain ⟨σ, e, hcode⟩ := h.code
  refine (Stream.carries_of_toList hcode).forward ?_ rfl
  rw [Stream.size, ← Array.length_toList, hcode, List.length_append, List.length_singleton, Nat.zero_add]

/-- No statement was evaluated more often, and no more calls are open, than the limits allow. -/
structure Moment.Limited (ctx : RunContext) (g : DependencyGraph) (a : Moment) : Prop where
  passes : ∀ id, a.evaluated.count id ≤ ctx.maxPasses
  evaluations : a.evaluated.length ≤ ctx.maxPasses * g.activeNodes.length
  calls : a.depth ≤ ctx.maxDepth

/-- Every jump leads forward within its own statement or, outside of the top-level block, within the function
body that is its block. -/
def Executable.JumpsWithin (x : Executable) : Prop :=
  ∀ block stream pc i target, x.stream? block = some stream → stream.at? pc = some i →
    i.target? = some target → pc < target ∧
      if block = 0 then ∃ n ∈ stream.graph.nodes, n.start ≤ pc ∧ target < n.stop
      else target < stream.size

namespace CompileState

theorem Laid.jumpsWithin {last : Option CompileState} {s : CompileState} (h : Laid last s)
    (hbodies : ∀ block ∈ s.bodies, block.IsBody) : s.executable.JumpsWithin := by
  intro block stream pc i target hstream hat htarget
  have hpc : pc < stream.size := (Array.getElem?_eq_some_iff.1 hat).1
  cases block with
  | zero =>
    cases hstream
    obtain ⟨n, ⟨hn, hlow, hhigh⟩, -⟩ := h.all.existsUnique (Nat.zero_le pc) hpc
    obtain ⟨hlt, hstop⟩ := h.sound.forward_statement hn pc i target hlow hhigh hat htarget
    exact ⟨hlt, n, hn, hlow, hstop⟩
  | succ b =>
    rw [executable_stream?_succ] at hstream
    obtain ⟨body, hbody, rfl⟩ := Option.map_eq_some_iff.1 hstream
    exact (hbodies body (List.mem_of_getElem? hbody)).forward pc i target (Nat.zero_le pc) hpc hat htarget

/-- An accepted program jumps only forward. -/
theorem Reached.forwardFrom {last : Option CompileState} {s : CompileState} (h : Reached last s)
    {f : Fragment} {image : CompiledImage} (hf : (compile f s).image = some image) (block : Nat) :
    image.executable.ForwardFrom block := by
  have hnext := h.compiled hf
  exact compile_executable hf ▸ hnext.laid.sound.forwardFrom hnext.isBody block

/-- A run of a compiled program ends after finitely many steps, whatever memory and whatever settings it is
given. All the way it stays within the limits, and it ends as soon as it would exceed one: with an update
cycle when a statement is due that has no evaluation left, and with calls nested too deeply when a call is
made with as many open as there may be. For every jump leads forward within its own statement or body. -/
theorem Reached.terminates {last : Option CompileState} {s : CompileState} (h : Reached last s)
    {f : Fragment} {image : CompiledImage} (hf : (compile f s).image = some image) (memory : Memory)
    (ctx : RunContext) :
    let x := image.executable
    let g := x.graphOf ctx.block
    (∃ k, x.moment memory ctx k = .ended (execute x memory ctx).1 (execute x memory ctx).2) ∧
    (∀ k, (x.moment memory ctx k).Limited ctx g) ∧
    (∀ run, (execute x memory ctx).1 = .ok run → (∀ id, run.executed.count id ≤ ctx.maxPasses) ∧
      run.executed.length ≤ ctx.maxPasses * g.activeNodes.length) ∧
    (∀ k p id rest, x.moment memory ctx k = .choosing p → p.due g = id :: rest →
      ctx.maxPasses ≤ p.executed.count id →
        execute x memory ctx = (.error (.updateCycle id ctx.maxPasses), p.memory)) ∧
    (∀ k p id rest frame callers m,
      x.moment memory ctx k = .evaluating p id rest (.running frame callers m) → frame.Calls x →
        ctx.maxDepth ≤ callers.length →
          execute x memory ctx = (.error (.callDepthExceeded ctx.maxDepth), m.memory)) ∧
    x.JumpsWithin := by
  intro x g
  have hnext := h.compiled hf
  have hx : x = image.state.executable := compile_executable hf
  have hforward : x.ForwardFrom ctx.block := h.forwardFrom hf ctx.block
  have hlimited : ∀ k, (x.moment memory ctx k).Limited ctx g := fun k => by
    obtain ⟨hcount, hdepth⟩ := within_moment x memory ctx k
    exact ⟨hcount.count, hcount.length_le, hdepth⟩
  obtain ⟨k, hk⟩ := exists_moment_execute hforward memory
  refine ⟨⟨k, hk⟩, hlimited, fun run hrun => ?_, fun _ _ _ _ => execute_of_exhausted hforward,
    fun _ _ _ _ _ _ _ => execute_of_calls hforward, hx ▸ hnext.laid.jumpsWithin hnext.isBody⟩
  have hend := hlimited k
  rw [hk, hrun] at hend
  exact ⟨hend.passes, hend.evaluations⟩

/-- A function that calls itself without end is stopped when three calls are open. -/
theorem Reached.terminates_recursive : ∃ image,
    (compile { units := [⟨some (.ofNat 0), "def f(n) = n < 1 ? 0 : f(n); a = f(0); b = f(1);"⟩] } {}).image =
      some image ∧
    ∃ k memory, image.executable.moment (Memory.grow {} 2) { maxDepth := 3 } k =
      .ended (.error (.callDepthExceeded 3)) memory := by
  obtain ⟨image, himage⟩ := Option.isSome_iff_exists.1 (show (compile
    { units := [⟨some (.ofNat 0), "def f(n) = n < 1 ? 0 : f(n); a = f(0); b = f(1);"⟩] } {}).image.isSome
      by decide +kernel)
  have hfault : (match (execute image.executable (Memory.grow {} 2) { maxDepth := 3 }).1 with
      | .error fault => some fault
      | .ok _ => none) = some (.callDepthExceeded 3) := by
    rw [compile_image himage]
    decide +kernel
  obtain ⟨⟨k, hk⟩, -⟩ := Reached.new.terminates himage (Memory.grow {} 2) { maxDepth := 3 }
  refine ⟨image, himage, k, (execute image.executable (Memory.grow {} 2) { maxDepth := 3 }).2, hk.trans ?_⟩
  cases hr : (execute image.executable (Memory.grow {} 2) { maxDepth := 3 }).1 with
  | ok run => simp [hr] at hfault
  | error fault =>
    rw [hr] at hfault
    cases hfault
    rfl

end CompileState

end Reflow
