import Mathlib.Logic.Basic

/-!
# Integer JavaScript

The statements a code generator writes around integer arithmetic: constants
that are declared once, assignments to program variables, and a conditional.
A value is a Number, a BigInt or a Boolean. A Number stands here only for an
integer that it holds exactly, which is every integer up to `2 ^ 53` in size;
a sum beyond that would round and has no value here. BigInt arithmetic is
exact, the two do not mix under `+`, and they compare as the integers they are.

What an expression of the program means is a parameter: it reads the program
variables and none of the declared constants.
-/

namespace Moth.Lib.JavaScript

inductive Value where
  | number (value : Int)
  | bigint (value : Int)
  | boolean (value : Bool)
deriving DecidableEq

/-- A Number result, absent where it would be rounded. -/
def exactNumber (value : Int) : Option Value :=
  if -9007199254740992 ≤ value ∧ value ≤ 9007199254740992 then some (.number value) else none

theorem exactNumber_eq {value : Int} (hlow : -9007199254740992 ≤ value)
    (hhigh : value ≤ 9007199254740992) : exactNumber value = some (.number value) :=
  if_pos ⟨hlow, hhigh⟩

namespace Value

def add : Value → Value → Option Value
  | .number x, .number y => exactNumber (x + y)
  | .bigint x, .bigint y => some (.bigint (x + y))
  | _, _ => none

/-- The integer of a numeric value. -/
def integer : Value → Option Int
  | .number x | .bigint x => some x
  | .boolean _ => none

@[simp] theorem integer_number (x : Int) : (number x).integer = some x := rfl
@[simp] theorem integer_bigint (x : Int) : (bigint x).integer = some x := rfl

end Value

inductive Comparison where
  | less | lessEqual | greater | greaterEqual
deriving DecidableEq

def Comparison.holds (comparison : Comparison) (x y : Int) : Bool :=
  match comparison with
  | .less => decide (x < y)
  | .lessEqual => decide (x ≤ y)
  | .greater => decide (y < x)
  | .greaterEqual => decide (y ≤ x)

/-- `ν` names constants and `ε` expressions of the program. -/
inductive Expr (ν ε : Type) where
  | program (expression : ε)
  | name (constant : ν)
  | literal (value : Value)
  | toBigInt (operand : Expr ν ε)
  | toNumber (operand : Expr ν ε)
  | add (left right : Expr ν ε)
  | compare (comparison : Comparison) (left right : Expr ν ε)
  | conditional (test onTrue onFalse : Expr ν ε)

/-- `δ` names program variables. -/
inductive Stmt (ν ε δ : Type) where
  | const (constant : ν) (value : Expr ν ε)
  | assign (target : δ) (value : Expr ν ε)
  | whenTrue (test : Expr ν ε) (body : List (Stmt ν ε δ))

structure State (ν δ : Type) where
  constants : ν → Option Value
  vars : δ → Option Value

variable {ν ε δ : Type}

namespace State

section Constants

variable [DecidableEq ν]

def declare (s : State ν δ) (constant : ν) (value : Value) : State ν δ :=
  { s with constants := fun other => if other = constant then some value else s.constants other }

@[simp] theorem declare_self (s : State ν δ) (constant : ν) (value : Value) :
    (s.declare constant value).constants constant = some value := if_pos rfl

@[simp] theorem declare_of_ne (s : State ν δ) {constant other : ν} (value : Value)
    (h : other ≠ constant) : (s.declare constant value).constants other = s.constants other :=
  if_neg h

@[simp] theorem declare_variables (s : State ν δ) (constant : ν) (value : Value) :
    (s.declare constant value).vars = s.vars := rfl

end Constants

section Variables

variable [DecidableEq δ]

def set (s : State ν δ) (target : δ) (value : Value) : State ν δ :=
  { s with vars := fun other => if other = target then some value else s.vars other }

@[simp] theorem set_self (s : State ν δ) (target : δ) (value : Value) :
    (s.set target value).vars target = some value := if_pos rfl

@[simp] theorem set_of_ne (s : State ν δ) {target other : δ} (value : Value)
    (h : other ≠ target) : (s.set target value).vars other = s.vars other :=
  if_neg h

@[simp] theorem set_constants (s : State ν δ) (target : δ) (value : Value) :
    (s.set target value).constants = s.constants := rfl

end Variables

end State

@[simp] def evalExpr (program : ε → (δ → Option Value) → Option Value) (s : State ν δ) :
    Expr ν ε → Option Value
  | .program expression => program expression s.vars
  | .name constant => s.constants constant
  | .literal value => some value
  | .toBigInt operand => do
      let x ← (evalExpr program s operand).bind Value.integer
      some (.bigint x)
  | .toNumber operand => do
      let x ← (evalExpr program s operand).bind Value.integer
      exactNumber x
  | .add left right => do
      let x ← evalExpr program s left
      let y ← evalExpr program s right
      x.add y
  | .compare comparison left right => do
      let x ← (evalExpr program s left).bind Value.integer
      let y ← (evalExpr program s right).bind Value.integer
      some (.boolean (comparison.holds x y))
  | .conditional test onTrue onFalse =>
      match evalExpr program s test with
      | some (.boolean true) => evalExpr program s onTrue
      | some (.boolean false) => evalExpr program s onFalse
      | _ => none

section Runs

variable [DecidableEq ν] [DecidableEq δ]

mutual

/-- One statement; no state where it throws. -/
def runStmt (program : ε → (δ → Option Value) → Option Value) :
    Stmt ν ε δ → State ν δ → Option (State ν δ)
  | .const constant value, s => do
      let v ← evalExpr program s value
      some (s.declare constant v)
  | .assign target value, s => do
      let v ← evalExpr program s value
      some (s.set target v)
  | .whenTrue test body, s =>
      match evalExpr program s test with
      | some (.boolean true) => run program body s
      | some (.boolean false) => some s
      | _ => none

def run (program : ε → (δ → Option Value) → Option Value) :
    List (Stmt ν ε δ) → State ν δ → Option (State ν δ)
  | [], s => some s
  | stmt :: rest, s => do
      let s' ← runStmt program stmt s
      run program rest s'

end

variable (program : ε → (δ → Option Value) → Option Value)

@[simp] theorem run_nil (s : State ν δ) : run program [] s = some s := by rw [run]

@[simp] theorem run_cons (stmt : Stmt ν ε δ) (rest : List (Stmt ν ε δ)) (s : State ν δ) :
    run program (stmt :: rest) s = (runStmt program stmt s).bind (run program rest) := by
  rw [run]
  rfl

@[simp] theorem run_append (first rest : List (Stmt ν ε δ)) (s : State ν δ) :
    run program (first ++ rest) s = (run program first s).bind (run program rest) := by
  induction first generalizing s with
  | nil => simp
  | cons stmt first ih =>
      rw [List.cons_append, run_cons, run_cons, Option.bind_assoc]
      congr 1
      funext t
      exact ih t

@[simp] theorem runStmt_const (constant : ν) (value : Expr ν ε) (s : State ν δ) :
    runStmt program (.const constant value) s =
      (evalExpr program s value).map (s.declare constant) := by
  rw [runStmt, Option.map_eq_bind]
  rfl

@[simp] theorem runStmt_assign (target : δ) (value : Expr ν ε) (s : State ν δ) :
    runStmt program (.assign target value) s =
      (evalExpr program s value).map (s.set target) := by
  rw [runStmt, Option.map_eq_bind]
  rfl

theorem runStmt_whenTrue {test : Expr ν ε} {body : List (Stmt ν ε δ)} {s : State ν δ} {b : Bool}
    (h : evalExpr program s test = some (.boolean b)) :
    runStmt program (.whenTrue test body) s = if b then run program body s else some s := by
  rw [runStmt, h]
  cases b <;> rfl

end Runs

end Moth.Lib.JavaScript
