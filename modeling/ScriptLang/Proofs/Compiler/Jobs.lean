import Mathlib.Logic.Function.Iterate
import ScriptLang.Proofs.Compiler.Emission

/-!
# Compilation step by step

A compilation is a list of jobs. `Job.step` does what a job does first, which changes at most one instruction, and
hands back what is left of it to do. The points of a compilation are the states between two such steps. Main
statements:

* `Job.run_eq_step` — a job is its first step and the jobs that are left of it;
* `Compiler.exists_point_eq` — step by step, a compilation comes to what it comes to as a whole.
-/

namespace ScriptLang

/-- The jumps of an `if`. -/
inductive Jump where
  /-- Over the consequence, if the condition does not hold. -/
  | notTruthy
  /-- Over the alternative. -/
  | always

namespace Jump

/-- The instruction that jumps to a position. -/
def instruction : Jump → Nat → Instruction
  | .notTruthy => .jumpNotTruthy
  | .always => .jump

/-- The operation of a jump. -/
def opcode : Jump → Opcode
  | .notTruthy => .jumpNotTruthy
  | .always => .jump

@[simp] theorem opcode_instruction (j : Jump) (target : Nat) : (j.instruction target).opcode = j.opcode := by
  cases j <;> rfl

end Jump

/-- Something that a compilation has still to do. -/
inductive Job where
  | expr (e : Expr)
  | exprs (es : List Expr)
  | pairs (ps : List (Expr × Expr))
  | stmt (s : Stmt)
  | stmts (ss : List Stmt)
  | optional (block : Option (List Stmt))
  | emit (i : Instruction)
  /-- The instruction of an operator behind its operand. -/
  | unary (operator : Operator)
  /-- The instruction of an operator behind its operands. -/
  | binary (operator : Operator)
  | store (name : String)
  /-- Both branches of an `if`, behind its condition. -/
  | branches (consequence : List Stmt) (alternative : Option (List Stmt))
  /-- What follows the consequence of an `if`, whose first jump stands at a position. -/
  | otherwise (position : Nat) (alternative : Option (List Stmt))
  /-- Gives the jump at a position the end of the code as its target. -/
  | fill (position : Nat) (jump : Jump)
  | endBranch
  /-- Has the body of a function return the value of its last expression statement. -/
  | returnLast
  /-- Has the body of a function return, if it does not end with a value to be returned. -/
  | finish
  /-- Ends a function and makes a closure of it. -/
  | leave (numParameters : Nat)
  | loads (symbols : List Symbol)
  | closure (code : Code) (table : SymbolTable) (numParameters : Nat)

open CompileM

/-- What a job does. -/
def Job.run : Job → CompileM Unit
  | .expr e => e.compile
  | .exprs es => Expr.compileAll es
  | .pairs ps => Expr.compilePairs ps
  | .stmt s => s.compile
  | .stmts ss => Stmt.compileAll ss
  | .optional block => Stmt.compileAlternative block
  | .emit i => .emit i
  | .unary operator => do .emit (← MonadExcept.ofExcept operator.unaryInstruction)
  | .binary operator => do .emit (← MonadExcept.ofExcept operator.binaryInstruction)
  | .store name => .store name
  | .branches consequence alternative => do
    let jumpToAlternative ← CompileM.position
    .emit (.jumpNotTruthy 9999)
    Stmt.compileAll consequence
    CompileM.endBranch
    let jumpToEnd ← CompileM.position
    .emit (.jump 9999)
    .patch jumpToAlternative (.jumpNotTruthy (← CompileM.position))
    Stmt.compileAlternative alternative
    .patch jumpToEnd (.jump (← CompileM.position))
  | .otherwise jumpToAlternative alternative => do
    let jumpToEnd ← CompileM.position
    .emit (.jump 9999)
    .patch jumpToAlternative (.jumpNotTruthy (← CompileM.position))
    Stmt.compileAlternative alternative
    .patch jumpToEnd (.jump (← CompileM.position))
  | .fill start jump => do .patch start (jump.instruction (← CompileM.position))
  | .endBranch => CompileM.endBranch
  | .returnLast => do
    if (← get).emitter.endsWith .pop then
      modify fun a => { a with emitter := a.emitter.returnLast }
  | .finish => do
    unless (← get).emitter.endsWith .returnValue do
      .emit .return
  | .leave numParameters => do
    let (code, table) ← endFunction
    loadFunction code table numParameters
  | .loads symbols => symbols.forM load
  | .closure code table numParameters => do
    let index ← addConstant (.compiledFunction ⟨code, table.numDefinitions, numParameters⟩)
    .emit (.closure index table.captures.length)

/-- The first step of an expression. -/
def Expr.step : Expr → CompileM (List Job)
  | .identifier name => do loadName name; return []
  | .integer value => do loadConstant (.integer value); return []
  | .string contents => do loadConstant (.string contents); return []
  | .boolean value => return [.emit (if value then .true else .false)]
  | .array elements => return [.exprs elements, .emit (.array elements.length)]
  | .hash pairs => return [.pairs pairs, .emit (.hash (pairs.length * 2))]
  | .unary operator operand => return [.expr operand, .unary operator]
  | .binary left operator right => do
    checkLiteralOperands left operator right
    if operator = .lessThan then
      return [.expr right, .expr left, .binary operator]
    else
      return [.expr left, .expr right, .binary operator]
  | .if condition consequence alternative => return [.expr condition, .branches consequence alternative]
  | .function name parameters body => do
    beginFunction name parameters
    return [.stmts body, .returnLast, .finish, .leave parameters.length]
  | .call callee arguments => return [.expr callee, .exprs arguments, .emit (.call arguments.length)]
  | .index collection key => return [.expr collection, .expr key, .emit .index]

/-- The first step of a job, and what is left of it. -/
def Job.step : Job → CompileM (List Job)
  | .expr e => e.step
  | .exprs [] | .pairs [] | .stmts [] | .loads [] => return []
  | .exprs (e :: es) => return [.expr e, .exprs es]
  | .pairs ((key, value) :: ps) => return [.expr key, .expr value, .pairs ps]
  | .stmt (.let name value) => return [.expr value, .store name]
  | .stmt (.return none) => return [.emit .return]
  | .stmt (.return (some value)) => return [.expr value, .emit .returnValue]
  | .stmt (.expr value) => return [.expr value, .emit .pop]
  | .stmts (s :: ss) => return [.stmt s, .stmts ss]
  | .optional none => return [.emit .null]
  | .optional (some block) => return [.stmts block, .endBranch]
  | .branches consequence alternative => do
    let jumpToAlternative ← CompileM.position
    .emit (.jumpNotTruthy 9999)
    return [.stmts consequence, .endBranch, .otherwise jumpToAlternative alternative]
  | .otherwise jumpToAlternative alternative => do
    let jumpToEnd ← CompileM.position
    .emit (.jump 9999)
    return [.fill jumpToAlternative .notTruthy, .optional alternative, .fill jumpToEnd .always]
  | .leave numParameters => do
    let (code, table) ← endFunction
    return [.loads table.captures, .closure code table numParameters]
  | .loads (symbol :: symbols) => do
    load symbol
    return [.loads symbols]
  | job => do
    job.run
    return []

/-- The end of a body is made of two jobs. -/
theorem CompileM.endBody_eq : endBody = (do Job.returnLast.run; Job.finish.run) := by
  funext a
  cases hends : a.emitter.endsWith .pop with
  | true => simp [endBody, Job.run, bind_apply, get_apply, hends]
  | false =>
      simp only [endBody, Job.run, bind_apply, get_apply, hends]
      rfl

/-- An expression is its first step and what is left of it. -/
theorem Expr.compile_eq_step (e : Expr) : e.compile = e.step >>= fun jobs => jobs.forM Job.run := by
  cases e with
  | boolean value => cases value <;> simp [Expr.compile, Expr.step, Job.run]
  | binary left operator right =>
      by_cases hless : operator = .lessThan <;> simp [Expr.compile, Expr.step, Job.run, hless]
  | function name parameters body => simp [Expr.compile, Expr.step, Job.run, endBody_eq]
  | _ => simp [Expr.compile, Expr.step, Job.run]

/-- **A job is its first step and what is left of it.** -/
theorem Job.run_eq_step (job : Job) : job.run = job.step >>= fun jobs => jobs.forM Job.run := by
  cases job with
  | expr e => exact e.compile_eq_step
  | exprs es => cases es <;> simp [Job.run, Job.step, Expr.compileAll]
  | pairs ps =>
      cases ps with
      | nil => simp [Job.run, Job.step, Expr.compilePairs]
      | cons pair ps =>
          obtain ⟨key, value⟩ := pair
          simp [Job.run, Job.step, Expr.compilePairs]
  | stmt s =>
      cases s with
      | «return» value? => cases value? <;> simp [Job.run, Job.step, Stmt.compile]
      | _ => simp [Job.run, Job.step, Stmt.compile]
  | stmts ss => cases ss <;> simp [Job.run, Job.step, Stmt.compileAll]
  | optional block => cases block <;> simp [Job.run, Job.step, Stmt.compileAlternative]
  | branches | otherwise => simp [Job.run, Job.step, Jump.instruction]
  | leave => simp [Job.run, Job.step, loadFunction]
  | loads symbols => cases symbols <;> simp [Job.run, Job.step]
  | _ => simp [Job.step]

namespace Job

variable {a : Assembly}

/-- A branch that ends with an expression statement leaves its value. -/
theorem step_endBranch_of_true (h : a.emitter.endsWith .pop = true) :
    endBranch.step a = .ok [] { a with emitter := a.emitter.removeLast } := by
  simp only [step, run, CompileM.endBranch, bind_apply, get_apply, h]
  rfl

/-- Any other branch leaves `null`. -/
theorem step_endBranch_of_false (h : a.emitter.endsWith .pop = false) :
    endBranch.step a = (do CompileM.emit .null; return [] : CompileM (List Job)) a := by
  simp [step, run, CompileM.endBranch, bind_apply, get_apply, h]

/-- A body that ends with an expression statement returns its value. -/
theorem step_returnLast_of_true (h : a.emitter.endsWith .pop = true) :
    returnLast.step a = .ok [] { a with emitter := a.emitter.returnLast } := by
  simp only [step, run, bind_apply, get_apply, h]
  rfl

theorem step_returnLast_of_false (h : a.emitter.endsWith .pop = false) : returnLast.step a = .ok [] a := by
  simp only [step, run, bind_apply, get_apply, h]
  rfl

theorem step_finish_of_true (h : a.emitter.endsWith .returnValue = true) : finish.step a = .ok [] a := by
  simp only [step, run, bind_apply, get_apply, h]
  rfl

/-- Any other body gets one, which yields `null`. -/
theorem step_finish_of_false (h : a.emitter.endsWith .returnValue = false) :
    finish.step a = (do CompileM.emit .return; return [] : CompileM (List Job)) a := by
  simp [step, run, bind_apply, get_apply, h]

/-- A jump is filled in with the end of the code as its target, if that fits. -/
theorem step_fill (position : Nat) (jump : Jump) (a : Assembly) :
    (fill position jump).step a =
      match (jump.instruction a.emitter.position).overflow? with
      | none => .ok [] { a with emitter := a.emitter.patch position (jump.instruction a.emitter.position) }
      | some (operand, width) =>
        .error (.operandOverflow (jump.instruction a.emitter.position).opcode operand width) a := by
  show (patch position (jump.instruction a.emitter.position) >>= fun _ => pure []) a = _
  rw [bind_apply, patch_apply]
  cases (jump.instruction a.emitter.position).overflow? <;> rfl

end Job

/-! ## Points

Between two steps, a compilation is given by the jobs that are left and by its state. Following the steps from
point to point is an iteration of `Point.next`, and a job ends: after some steps the jobs behind it are next,
and the state is what the job makes of it as a whole (`Job.Ends`). The proof goes by induction on the program,
as the jobs that are left of a job are about its parts. -/

/-- A point of a compilation. -/
inductive Point where
  /-- Some jobs are left. -/
  | ongoing (jobs : List Job) (a : Assembly)
  /-- The compilation has failed. -/
  | failed (e : CompileError) (a : Assembly)

namespace Point

/-- What a compilation has come to at a point. -/
def state : Point → Assembly
  | .ongoing _ a | .failed _ a => a

/-- The code of the functions that are open at a point, the innermost first. -/
def emitters (p : Point) : List Emitter := p.state.emitter :: p.state.around

/-- The point in front of some jobs, behind one that has come to a result. -/
def behind (jobs : List Job) : EStateM.Result CompileError Assembly Unit → Point
  | .ok () a => .ongoing jobs a
  | .error e a => .failed e a

/-- The point behind a step, where some other jobs are to follow what is left. -/
def advance (jobs : List Job) : EStateM.Result CompileError Assembly (List Job) → Point
  | .ok left a => .ongoing (left ++ jobs) a
  | .error e a => .failed e a

/-- The point one step further on. -/
def next : Point → Point
  | .ongoing (job :: jobs) a => advance jobs (job.step a)
  | p => p

end Point

/-- Every job that a step leaves has a property. -/
def CompileM.Leaves (x : CompileM (List Job)) (P : Job → Prop) : Prop :=
  ∀ a jobs a', x a = .ok jobs a' → ∀ job ∈ jobs, P job

/-- The jobs that a step hands back at its end. -/
theorem CompileM.Leaves.pure {P : Job → Prop} {jobs : List Job} (h : ∀ job ∈ jobs, P job) :
    Leaves (pure jobs) P := by
  rintro _ _ _ ⟨⟩
  exact h

/-- What a step does first leaves no jobs. -/
theorem CompileM.Leaves.bind {α : Type} {P : Job → Prop} {x : CompileM α} {f : α → CompileM (List Job)}
    (h : ∀ v, Leaves (f v) P) : Leaves (x >>= f) P := by
  intro a jobs a' hstep
  rw [bind_apply] at hstep
  cases hx : x a with
  | error e a₁ => simp [hx] at hstep
  | ok v a₁ =>
      rw [hx] at hstep
      exact h v a₁ jobs a' hstep

/-- Step by step, a job comes to what it does as a whole. -/
def Job.Ends (job : Job) : Prop :=
  ∀ jobs a, ∃ n, Point.next^[n] (.ongoing (job :: jobs) a) = .behind jobs (job.run a)

namespace Job.Ends

/-- Jobs that end, one behind the other, end. -/
theorem all {first : List Job} (h : ∀ job ∈ first, job.Ends) (jobs : List Job) (a : Assembly) :
    ∃ n, Point.next^[n] (.ongoing (first ++ jobs) a) = .behind jobs (first.forM Job.run a) := by
  induction first generalizing a with
  | nil => exact ⟨0, rfl⟩
  | cons job first ih =>
      obtain ⟨hjob, hfirst⟩ := List.forall_mem_cons.mp h
      obtain ⟨n, hn⟩ := hjob (first ++ jobs) a
      show ∃ n, _ = Point.behind jobs ((job.run >>= fun _ => first.forM Job.run) a)
      rw [bind_apply]
      cases hrun : job.run a with
      | error e a' =>
          rw [hrun] at hn
          exact ⟨n, hn⟩
      | ok u a' =>
          rw [hrun] at hn
          obtain ⟨m, hm⟩ := ih hfirst a'
          refine ⟨m + n, ?_⟩
          rw [Function.iterate_add_apply, List.cons_append, hn]
          exact hm

/-- A job ends if all jobs that its first step leaves do. -/
theorem of_step {job : Job} (h : job.step.Leaves Job.Ends) : job.Ends := by
  intro jobs a
  rw [job.run_eq_step, bind_apply]
  cases hstep : job.step a with
  | error e a' => exact ⟨1, by simp [Point.next, hstep, Point.advance, Point.behind]⟩
  | ok left a' =>
      obtain ⟨n, hn⟩ := all (h a left a' hstep) jobs a'
      refine ⟨n + 1, ?_⟩
      rw [Function.iterate_succ_apply, ← hn]
      simp [Point.next, hstep, Point.advance]

/-- A job that is done at once. -/
theorem of_run {job : Job} (h : job.step = (do job.run; return [])) : job.Ends :=
  of_step <| h ▸ .bind fun _ => .pure (List.forall_mem_nil _)

theorem emit (i : Instruction) : (Job.emit i).Ends := of_run rfl

/-- Each symbol is loaded by itself. -/
theorem loads : ∀ symbols : List Symbol, (Job.loads symbols).Ends
  | [] => of_step <| .pure (List.forall_mem_nil _)
  | _ :: symbols => of_step <| .bind fun _ => .pure (List.forall_mem_singleton.mpr (loads symbols))

theorem leave (numParameters : Nat) : (Job.leave numParameters).Ends :=
  of_step <| .bind fun _ => .pure <| by simpa using ⟨loads _, of_run rfl⟩

theorem otherwise (position : Nat) {alternative : Option (List Stmt)} (h : (Job.optional alternative).Ends) :
    (Job.otherwise position alternative).Ends :=
  of_step <| .bind fun _ => .bind fun _ => .pure <| by simpa using ⟨of_run rfl, h, of_run rfl⟩

/-- The branches of an `if`, behind its condition. -/
theorem branches {consequence : List Stmt} {alternative : Option (List Stmt)} (h : (Job.stmts consequence).Ends)
    (h' : (Job.optional alternative).Ends) : (Job.branches consequence alternative).Ends :=
  of_step <| .bind fun _ => .bind fun _ => .pure <| by simpa using ⟨h, of_run rfl, otherwise _ h'⟩

end Job.Ends

open Job.Ends in
mutual

/-- Every expression ends. -/
theorem Expr.ends : ∀ e : Expr, (Job.expr e).Ends
  | .identifier _ | .integer _ | .string _ => of_step <| .bind fun _ => .pure (List.forall_mem_nil _)
  | .boolean _ => of_step <| .pure (List.forall_mem_singleton.mpr (emit _))
  | .array elements => of_step <| .pure <| by simpa using ⟨Expr.ends_all elements, emit _⟩
  | .hash pairs => of_step <| .pure <| by simpa using ⟨Expr.ends_pairs pairs, emit _⟩
  | .unary _ operand => of_step <| .pure <| by simpa using ⟨Expr.ends operand, of_run rfl⟩
  | .binary left operator right => of_step <| .bind fun _ => by
      have hleft := Expr.ends left
      have hright := Expr.ends right
      split
      · exact .pure <| by simpa using ⟨hright, hleft, of_run rfl⟩
      · exact .pure <| by simpa using ⟨hleft, hright, of_run rfl⟩
  | .if condition consequence alternative => of_step <| .pure <| by
      simpa using ⟨Expr.ends condition, branches (Stmt.ends_all consequence) (Stmt.ends_optional alternative)⟩
  | .function _ _ body => of_step <| .bind fun _ => .pure <| by
      simpa using ⟨Stmt.ends_all body, of_run rfl, of_run rfl, leave _⟩
  | .call callee arguments => of_step <| .pure <| by
      simpa using ⟨Expr.ends callee, Expr.ends_all arguments, emit _⟩
  | .index collection key => of_step <| .pure <| by simpa using ⟨Expr.ends collection, Expr.ends key, emit _⟩

theorem Expr.ends_all : ∀ es : List Expr, (Job.exprs es).Ends
  | [] => of_step <| .pure (List.forall_mem_nil _)
  | e :: es => of_step <| .pure <| by simpa using ⟨Expr.ends e, Expr.ends_all es⟩

theorem Expr.ends_pairs : ∀ ps : List (Expr × Expr), (Job.pairs ps).Ends
  | [] => of_step <| .pure (List.forall_mem_nil _)
  | (key, value) :: ps => of_step <| .pure <| by
      simpa using ⟨Expr.ends key, Expr.ends value, Expr.ends_pairs ps⟩

theorem Stmt.ends_optional : ∀ block : Option (List Stmt), (Job.optional block).Ends
  | none => of_step <| .pure (List.forall_mem_singleton.mpr (emit _))
  | some block => of_step <| .pure <| by simpa using ⟨Stmt.ends_all block, of_run rfl⟩

theorem Stmt.ends : ∀ s : Stmt, (Job.stmt s).Ends
  | .let _ value => of_step <| .pure <| by simpa using ⟨Expr.ends value, of_run rfl⟩
  | .return none => of_step <| .pure (List.forall_mem_singleton.mpr (emit _))
  | .return (some value) | .expr value => of_step <| .pure <| by simpa using ⟨Expr.ends value, emit _⟩

theorem Stmt.ends_all : ∀ ss : List Stmt, (Job.stmts ss).Ends
  | [] => of_step <| .pure (List.forall_mem_nil _)
  | s :: ss => of_step <| .pure <| by simpa using ⟨Stmt.ends s, Stmt.ends_all ss⟩

end

namespace Compiler

/-- The point that the compilation of a program has come to after some steps. -/
def point (c : Compiler) (program : Program) (n : Nat) : Point :=
  Point.next^[n] (.ongoing [.stmts program] (Assembly.resume c))

/-- **The compilation ends** step by step, with what it comes to as a whole. -/
theorem exists_point_eq (c : Compiler) (program : Program) :
    ∃ n, c.point program n = .behind [] (Stmt.compileAll program (Assembly.resume c)) :=
  Stmt.ends_all program [] (Assembly.resume c)

end Compiler

end ScriptLang
