import Mathlib.Data.BitVec

/-!
# Structured stack code

The integer fragment of WebAssembly: 32 and 64 bit values, locals, structured
control with empty block types, and branches by label depth. Code is a list of
instructions; a block, a loop and a conditional carry their bodies, so running
code is a structural recursion and only the iterations of a loop need fuel.

A program that calls out of this fragment does so with a host instruction,
whose meaning on the locals and on everything else the machine has (its store)
is a parameter. What validation excludes (a pop from an empty stack, an operand
of the wrong type) is `stuck`.

A floating-point value that code only passes on or reinterprets is its bits, in
an integer of its width.
-/

namespace Moth.Lib.Wasm

/-- The type of an integer value. -/
inductive Carrier where
  | I32 | I64
deriving DecidableEq

@[reducible] def Carrier.bits : Carrier → Nat
  | .I32 => 32
  | .I64 => 64

theorem Carrier.bits_pos (c : Carrier) : 0 < c.bits := by
  cases c <;> decide

structure Value where
  carrier : Carrier
  bits : BitVec carrier.bits
deriving DecidableEq

namespace Value

/-- The bits of a value of the expected type. -/
def as (c : Carrier) (v : Value) : Option (BitVec c.bits) :=
  if h : v.carrier = c then some (h ▸ v.bits) else none

@[simp] theorem as_mk (c : Carrier) (b : BitVec c.bits) : Value.as c ⟨c, b⟩ = some b := by
  simp [as]

/-- What a test leaves on the stack. -/
def bool (b : Bool) : Value := ⟨.I32, if b then 1 else 0⟩

end Value

inductive BinaryOp where
  | add | sub | mul | divS | divU | remS | remU | and | or | xor | shl | shrU
deriving DecidableEq

/-- The result of an operation, absent where it traps. A shift count is taken
modulo the width. -/
@[simp] def BinaryOp.apply {w : Nat} (op : BinaryOp) (x y : BitVec w) : Option (BitVec w) :=
  match op with
  | .add => some (x + y)
  | .sub => some (x - y)
  | .mul => some (x * y)
  | .divS => if y = 0 ∨ (x = BitVec.intMin w ∧ y = -1) then none else some (x.sdiv y)
  | .divU => if y = 0 then none else some (x / y)
  | .remS => if y = 0 then none else some (x.srem y)
  | .remU => if y = 0 then none else some (x % y)
  | .and => some (x &&& y)
  | .or => some (x ||| y)
  | .xor => some (x ^^^ y)
  | .shl => some (x <<< (y.toNat % w))
  | .shrU => some (x >>> (y.toNat % w))

inductive RelationOp where
  | eq | ne | ltS | ltU | gtS | gtU | leU | geS | geU
deriving DecidableEq

@[simp] def RelationOp.apply {w : Nat} (op : RelationOp) (x y : BitVec w) : Bool :=
  match op with
  | .eq => x == y
  | .ne => x != y
  | .ltS => x.slt y
  | .ltU => x.ult y
  | .gtS => y.slt x
  | .gtU => y.ult x
  | .leU => x.ule y
  | .geS => y.sle x
  | .geU => y.ule x

inductive Instr (ι : Type) where
  | localGet (index : Nat)
  | localSet (index : Nat)
  | localTee (index : Nat)
  | const (c : Carrier) (value : BitVec c.bits)
  | binary (c : Carrier) (op : BinaryOp)
  | relation (c : Carrier) (op : RelationOp)
  | eqz (c : Carrier)
  | clz (c : Carrier)
  | reinterpret (c : Carrier)
  | extendS
  | extendU
  | wrap
  | unreachable
  | block (body : List (Instr ι))
  | loop (body : List (Instr ι))
  | ite (onTrue onFalse : List (Instr ι))
  | br (depth : Nat)
  | brIf (depth : Nat)
  | ret
  | host (i : ι)

structure State (σ : Type) where
  locals : Nat → Value
  stack : List Value
  store : σ

namespace State

variable {σ : Type}

def push (s : State σ) (v : Value) : State σ := { s with stack := v :: s.stack }

def setLocal (s : State σ) (x : Nat) (v : Value) : State σ :=
  { s with locals := fun y => if y = x then v else s.locals y }

/-- The operand stack a block starts with. -/
def enter (s : State σ) : State σ := { s with stack := [] }

/-- The operand stack restored on the way out. -/
def leave (s : State σ) (outer : List Value) : State σ := { s with stack := outer }

@[simp] theorem push_locals (s : State σ) (v : Value) : (s.push v).locals = s.locals := rfl
@[simp] theorem push_stack (s : State σ) (v : Value) : (s.push v).stack = v :: s.stack := rfl
@[simp] theorem push_store (s : State σ) (v : Value) : (s.push v).store = s.store := rfl
@[simp] theorem setLocal_self (s : State σ) (x : Nat) (v : Value) :
    (s.setLocal x v).locals x = v := if_pos rfl
@[simp] theorem setLocal_of_ne (s : State σ) {x y : Nat} (v : Value) (h : y ≠ x) :
    (s.setLocal x v).locals y = s.locals y := if_neg h
@[simp] theorem setLocal_stack (s : State σ) (x : Nat) (v : Value) :
    (s.setLocal x v).stack = s.stack := rfl
@[simp] theorem setLocal_store (s : State σ) (x : Nat) (v : Value) :
    (s.setLocal x v).store = s.store := rfl
@[simp] theorem enter_locals (s : State σ) : s.enter.locals = s.locals := rfl
@[simp] theorem enter_stack (s : State σ) : s.enter.stack = [] := rfl
@[simp] theorem enter_store (s : State σ) : s.enter.store = s.store := rfl
@[simp] theorem leave_locals (s : State σ) (outer : List Value) :
    (s.leave outer).locals = s.locals := rfl
@[simp] theorem leave_stack (s : State σ) (outer : List Value) : (s.leave outer).stack = outer :=
  rfl
@[simp] theorem leave_store (s : State σ) (outer : List Value) :
    (s.leave outer).store = s.store := rfl
@[simp] theorem setLocal_enter (s : State σ) (x : Nat) (v : Value) :
    (s.setLocal x v).enter = s.enter.setLocal x v := rfl
@[simp] theorem setLocal_leave (s : State σ) (outer : List Value) (x : Nat) (v : Value) :
    (s.setLocal x v).leave outer = (s.leave outer).setLocal x v := rfl
@[simp] theorem enter_leave (s : State σ) (outer : List Value) :
    s.enter.leave outer = s.leave outer := rfl
@[simp] theorem leave_enter (s : State σ) (outer : List Value) :
    (s.leave outer).enter = s.enter := rfl
@[simp] theorem enter_enter (s : State σ) : s.enter.enter = s.enter := rfl
@[simp] theorem leave_leave (s : State σ) (outer outer' : List Value) :
    (s.leave outer').leave outer = s.leave outer := rfl

theorem setLocal_same {s : State σ} {x : Nat} {v : Value} (h : s.locals x = v) :
    s.setLocal x v = s := by
  obtain ⟨locals, stack, store⟩ := s
  show State.mk _ _ _ = _
  congr 1
  funext y
  split
  · next heq => rw [heq, ← h]
  · rfl

@[simp] theorem leave_self (s : State σ) : s.leave s.stack = s := rfl

/-- Everything but some locals is as it was. -/
structure AgreesOff (writes : List Nat) (s s' : State σ) : Prop where
  stack : s'.stack = s.stack
  store : s'.store = s.store
  locals : ∀ x, x ∉ writes → s'.locals x = s.locals x

namespace AgreesOff

variable {writes : List Nat}

theorem refl (s : State σ) : AgreesOff writes s s := ⟨rfl, rfl, fun _ _ => rfl⟩

theorem trans {s t u : State σ} (h : AgreesOff writes s t) (h' : AgreesOff writes t u) :
    AgreesOff writes s u :=
  ⟨h'.stack.trans h.stack, h'.store.trans h.store,
    fun x hx => (h'.locals x hx).trans (h.locals x hx)⟩

theorem mono {more : List Nat} {s s' : State σ} (h : AgreesOff writes s s')
    (hsub : ∀ x ∈ writes, x ∈ more) : AgreesOff more s s' :=
  ⟨h.stack, h.store, fun x hx => h.locals x fun hmem => hx (hsub x hmem)⟩

theorem setLocal {s s' : State σ} (h : AgreesOff writes s s') {x : Nat} (hx : x ∈ writes)
    (v : Value) : AgreesOff writes s (s'.setLocal x v) := by
  refine ⟨h.stack, h.store, ?_⟩
  intro y hy
  rw [setLocal_of_ne]
  · exact h.locals y hy
  · rintro rfl
    exact hy hx

theorem enter {s s' : State σ} (h : AgreesOff writes s s') :
    AgreesOff writes s.enter s'.enter := ⟨rfl, h.store, h.locals⟩

end AgreesOff

end State

/-- What a host instruction does: it never touches the operand stack. -/
inductive HostResult (σ : Type) where
  | done (locals : Nat → Value) (store : σ)
  | trap
  | diverges

inductive Outcome (σ : Type) where
  | next (s : State σ)
  | branch (depth : Nat) (s : State σ)
  | returned (s : State σ)
  | trap
  | stuck
  | outOfFuel

namespace Outcome

variable {σ : Type}

/-- Only falling through goes on to the next instruction. -/
def andThen (o : Outcome σ) (rest : State σ → Outcome σ) : Outcome σ :=
  match o with
  | .next s => rest s
  | o => o

/-- Leaving a block: a branch to its label ends it. -/
def leaveBlock (o : Outcome σ) (outer : List Value) : Outcome σ :=
  match o with
  | .next s => .next (s.leave outer)
  | .branch 0 s => .next (s.leave outer)
  | .branch (depth + 1) s => .branch depth s
  | o => o

@[simp] theorem andThen_next (s : State σ) (rest : State σ → Outcome σ) :
    (next s).andThen rest = rest s := rfl
@[simp] theorem andThen_branch (d : Nat) (s : State σ) (rest : State σ → Outcome σ) :
    (branch d s).andThen rest = branch d s := rfl
@[simp] theorem andThen_returned (s : State σ) (rest : State σ → Outcome σ) :
    (returned s).andThen rest = returned s := rfl
@[simp] theorem andThen_trap (rest : State σ → Outcome σ) : trap.andThen rest = trap := rfl
@[simp] theorem andThen_outOfFuel (rest : State σ → Outcome σ) :
    outOfFuel.andThen rest = outOfFuel := rfl
@[simp] theorem leaveBlock_next (s : State σ) (outer : List Value) :
    (next s).leaveBlock outer = next (s.leave outer) := rfl
@[simp] theorem leaveBlock_branch_zero (s : State σ) (outer : List Value) :
    (branch 0 s).leaveBlock outer = next (s.leave outer) := rfl
@[simp] theorem leaveBlock_branch_succ (d : Nat) (s : State σ) (outer : List Value) :
    (branch (d + 1) s).leaveBlock outer = branch d s := rfl
@[simp] theorem leaveBlock_returned (s : State σ) (outer : List Value) :
    (returned s).leaveBlock outer = returned s := rfl
@[simp] theorem leaveBlock_trap (outer : List Value) :
    (trap : Outcome σ).leaveBlock outer = trap := rfl
@[simp] theorem leaveBlock_outOfFuel (outer : List Value) :
    (outOfFuel : Outcome σ).leaveBlock outer = outOfFuel := rfl

@[simp] theorem andThen_ite (p : Prop) [Decidable p] (o o' : Outcome σ)
    (rest : State σ → Outcome σ) :
    (if p then o else o').andThen rest = if p then o.andThen rest else o'.andThen rest := by
  split <;> rfl

theorem andThen_assoc (o : Outcome σ) (f g : State σ → Outcome σ) :
    (o.andThen f).andThen g = o.andThen fun s => (f s).andThen g := by
  cases o <;> rfl

end Outcome

/-- The passes of a loop, each from an empty operand stack. -/
def iterate {σ : Type} (body : State σ → Outcome σ) (outer : List Value) :
    Nat → State σ → Outcome σ
  | 0, _ => .outOfFuel
  | fuel + 1, s =>
      match body s.enter with
      | .next s' => .next (s'.leave outer)
      | .branch 0 s' => iterate body outer fuel s'
      | .branch (depth + 1) s' => .branch depth s'
      | o => o

variable {ι σ : Type}

def pop (s : State σ) (rest : Value → State σ → Outcome σ) : Outcome σ :=
  match s.stack with
  | v :: stack => rest v { s with stack := stack }
  | [] => .stuck

def popAs (c : Carrier) (s : State σ) (rest : BitVec c.bits → State σ → Outcome σ) :
    Outcome σ :=
  pop s fun v s' =>
    match v.as c with
    | some b => rest b s'
    | none => .stuck

mutual

def execInstr (meaning : ι → (Nat → Value) → σ → HostResult σ) (fuel : Nat) :
    Instr ι → State σ → Outcome σ
  | .localGet x, s => .next (s.push (s.locals x))
  | .localSet x, s => pop s fun v s' => .next (s'.setLocal x v)
  | .localTee x, s => pop s fun v s' => .next ((s'.setLocal x v).push v)
  | .const c value, s => .next (s.push ⟨c, value⟩)
  | .binary c op, s =>
      popAs c s fun y s' => popAs c s' fun x s'' =>
        match op.apply x y with
        | some r => .next (s''.push ⟨c, r⟩)
        | none => .trap
  | .relation c op, s =>
      popAs c s fun y s' => popAs c s' fun x s'' => .next (s''.push (.bool (op.apply x y)))
  | .eqz c, s => popAs c s fun x s' => .next (s'.push (.bool (x == 0)))
  | .clz c, s => popAs c s fun x s' => .next (s'.push ⟨c, x.clz⟩)
  | .reinterpret c, s => popAs c s fun x s' => .next (s'.push ⟨c, x⟩)
  | .extendS, s => popAs .I32 s fun x s' => .next (s'.push ⟨.I64, x.signExtend 64⟩)
  | .extendU, s => popAs .I32 s fun x s' => .next (s'.push ⟨.I64, x.zeroExtend 64⟩)
  | .wrap, s => popAs .I64 s fun x s' => .next (s'.push ⟨.I32, x.truncate 32⟩)
  | .unreachable, _ => .trap
  | .block body, s => (exec meaning fuel body s.enter).leaveBlock s.stack
  | .loop body, s => iterate (fun t => exec meaning fuel body t) s.stack fuel s
  | .ite onTrue onFalse, s =>
      popAs .I32 s fun b s' =>
        if b = 0 then (exec meaning fuel onFalse s'.enter).leaveBlock s'.stack
        else (exec meaning fuel onTrue s'.enter).leaveBlock s'.stack
  | .br depth, s => .branch depth s
  | .brIf depth, s => popAs .I32 s fun b s' => if b = 0 then .next s' else .branch depth s'
  | .ret, s => .returned s
  | .host i, s =>
      match meaning i s.locals s.store with
      | .done locals store => .next { s with locals := locals, store := store }
      | .trap => .trap
      | .diverges => .outOfFuel

/-- Running code from the top, with `fuel` passes for every loop in it. -/
def exec (meaning : ι → (Nat → Value) → σ → HostResult σ) (fuel : Nat) :
    List (Instr ι) → State σ → Outcome σ
  | [], s => .next s
  | i :: rest, s => (execInstr meaning fuel i s).andThen (exec meaning fuel rest)

end

section Steps

variable (meaning : ι → (Nat → Value) → σ → HostResult σ) (fuel : Nat)

@[simp] theorem exec_nil (s : State σ) : exec meaning fuel [] s = .next s := rfl

@[simp] theorem exec_cons (i : Instr ι) (rest : List (Instr ι)) (s : State σ) :
    exec meaning fuel (i :: rest) s =
      (execInstr meaning fuel i s).andThen (exec meaning fuel rest) := rfl

theorem exec_singleton (i : Instr ι) (s : State σ) :
    exec meaning fuel [i] s = execInstr meaning fuel i s := by
  rw [exec_cons]
  cases execInstr meaning fuel i s <;> simp [Outcome.andThen]

@[simp] theorem exec_append (first rest : List (Instr ι)) (s : State σ) :
    exec meaning fuel (first ++ rest) s =
      (exec meaning fuel first s).andThen (exec meaning fuel rest) := by
  induction first generalizing s with
  | nil => simp
  | cons i first ih =>
      rw [List.cons_append, exec_cons, exec_cons, Outcome.andThen_assoc]
      congr 1
      funext t
      exact ih t

@[simp] theorem execInstr_localGet (x : Nat) (s : State σ) :
    execInstr meaning fuel (.localGet x) s = .next (s.push (s.locals x)) := rfl

@[simp] theorem execInstr_localSet (x : Nat) (v : Value) (s : State σ) :
    execInstr meaning fuel (.localSet x) (s.push v) = .next (s.setLocal x v) := rfl

@[simp] theorem execInstr_localTee (x : Nat) (v : Value) (s : State σ) :
    execInstr meaning fuel (.localTee x) (s.push v) = .next ((s.setLocal x v).push v) := rfl

@[simp] theorem execInstr_const (c : Carrier) (value : BitVec c.bits) (s : State σ) :
    execInstr meaning fuel (.const c value) s = .next (s.push ⟨c, value⟩) := rfl

@[simp] theorem execInstr_binary (c : Carrier) (op : BinaryOp) (x y : BitVec c.bits)
    (s : State σ) :
    execInstr meaning fuel (.binary c op) ((s.push ⟨c, x⟩).push ⟨c, y⟩) =
      match op.apply x y with
      | some r => .next (s.push ⟨c, r⟩)
      | none => .trap := by
  show popAs _ _ _ = _
  simp only [popAs, pop, State.push, Value.as_mk]

@[simp] theorem execInstr_relation (c : Carrier) (op : RelationOp) (x y : BitVec c.bits)
    (s : State σ) :
    execInstr meaning fuel (.relation c op) ((s.push ⟨c, x⟩).push ⟨c, y⟩) =
      .next (s.push (.bool (op.apply x y))) := by
  show popAs _ _ _ = _
  simp only [popAs, pop, State.push, Value.as_mk]

@[simp] theorem execInstr_eqz (c : Carrier) (x : BitVec c.bits) (s : State σ) :
    execInstr meaning fuel (.eqz c) (s.push ⟨c, x⟩) = .next (s.push (.bool (x == 0))) := by
  show popAs _ _ _ = _
  simp only [popAs, pop, State.push, Value.as_mk]

@[simp] theorem execInstr_clz (c : Carrier) (x : BitVec c.bits) (s : State σ) :
    execInstr meaning fuel (.clz c) (s.push ⟨c, x⟩) = .next (s.push ⟨c, x.clz⟩) := by
  show popAs _ _ _ = _
  simp only [popAs, pop, State.push, Value.as_mk]

@[simp] theorem execInstr_reinterpret (c : Carrier) (x : BitVec c.bits) (s : State σ) :
    execInstr meaning fuel (.reinterpret c) (s.push ⟨c, x⟩) = .next (s.push ⟨c, x⟩) := by
  show popAs _ _ _ = _
  simp only [popAs, pop, State.push, Value.as_mk]

@[simp] theorem execInstr_eqz_bool (b : Bool) (s : State σ) :
    execInstr meaning fuel (.eqz .I32) (s.push (.bool b)) = .next (s.push (.bool !b)) := by
  cases b <;> exact execInstr_eqz meaning fuel .I32 _ s

@[simp] theorem execInstr_and_bool (a b : Bool) (s : State σ) :
    execInstr meaning fuel (.binary .I32 .and) ((s.push (.bool a)).push (.bool b)) =
      .next (s.push (.bool (a && b))) := by
  cases a <;> cases b <;> exact execInstr_binary meaning fuel .I32 .and _ _ s

@[simp] theorem execInstr_or_bool (a b : Bool) (s : State σ) :
    execInstr meaning fuel (.binary .I32 .or) ((s.push (.bool a)).push (.bool b)) =
      .next (s.push (.bool (a || b))) := by
  cases a <;> cases b <;> exact execInstr_binary meaning fuel .I32 .or _ _ s

@[simp] theorem execInstr_extendS (x : BitVec 32) (s : State σ) :
    execInstr meaning fuel .extendS (s.push ⟨.I32, x⟩) =
      .next (s.push ⟨.I64, x.signExtend 64⟩) := by
  show popAs _ _ _ = _
  simp only [popAs, pop, State.push, Value.as_mk]

@[simp] theorem execInstr_extendU (x : BitVec 32) (s : State σ) :
    execInstr meaning fuel .extendU (s.push ⟨.I32, x⟩) =
      .next (s.push ⟨.I64, x.zeroExtend 64⟩) := by
  show popAs _ _ _ = _
  simp only [popAs, pop, State.push, Value.as_mk]

@[simp] theorem execInstr_wrap (x : BitVec 64) (s : State σ) :
    execInstr meaning fuel .wrap (s.push ⟨.I64, x⟩) = .next (s.push ⟨.I32, x.truncate 32⟩) := by
  show popAs _ _ _ = _
  simp only [popAs, pop, State.push, Value.as_mk]

@[simp] theorem execInstr_unreachable (s : State σ) :
    execInstr meaning fuel .unreachable s = .trap := rfl

@[simp] theorem execInstr_block (body : List (Instr ι)) (s : State σ) :
    execInstr meaning fuel (.block body) s =
      (exec meaning fuel body s.enter).leaveBlock s.stack := rfl

theorem execInstr_loop (body : List (Instr ι)) (s : State σ) :
    execInstr meaning fuel (.loop body) s =
      iterate (fun t => exec meaning fuel body t) s.stack fuel s := rfl

@[simp] theorem execInstr_ite (onTrue onFalse : List (Instr ι)) (b : Bool) (s : State σ) :
    execInstr meaning fuel (.ite onTrue onFalse) (s.push (.bool b)) =
      if b then (exec meaning fuel onTrue s.enter).leaveBlock s.stack
      else (exec meaning fuel onFalse s.enter).leaveBlock s.stack := by
  cases b <;> rfl

@[simp] theorem execInstr_br (depth : Nat) (s : State σ) :
    execInstr meaning fuel (.br depth) s = .branch depth s := rfl

@[simp] theorem execInstr_brIf (depth : Nat) (b : Bool) (s : State σ) :
    execInstr meaning fuel (.brIf depth) (s.push (.bool b)) =
      if b then .branch depth s else .next s := by
  cases b <;> rfl

@[simp] theorem execInstr_ret (s : State σ) :
    execInstr meaning fuel .ret s = .returned s := rfl

end Steps

/-! ## Functions -/

structure Function (ι : Type) where
  params : List Carrier
  locals : List Carrier
  result : Carrier
  body : List (Instr ι)

/-- The locals of a call: its arguments, then zeros. -/
def Function.frame (g : Function ι) (args : List Value) (x : Nat) : Value :=
  (args ++ g.locals.map fun c => (⟨c, 0⟩ : Value)).getD x (.bool false)

/-- How a call ends. -/
inductive CallResult (σ : Type) where
  | value (v : Value) (store : σ)
  | trap
  | stuck
  | outOfFuel

/-- The end of a function, by its last instruction, a return or a branch to its label. -/
def Outcome.callResult (c : Carrier) : Outcome σ → CallResult σ
  | .next s | .returned s | .branch 0 s =>
      match s.stack with
      | v :: _ => if v.carrier = c then .value v s.store else .stuck
      | [] => .stuck
  | .branch (_ + 1) _ => .stuck
  | .trap => .trap
  | .stuck => .stuck
  | .outOfFuel => .outOfFuel

def Function.call (meaning : ι → (Nat → Value) → σ → HostResult σ) (fuel : Nat)
    (g : Function ι) (args : List Value) (store : σ) : CallResult σ :=
  (exec meaning fuel g.body ⟨g.frame args, [], store⟩).callResult g.result

/-- A call that ends with a value or with a trap. -/
def CallResult.ofOption (store : σ) : Option Value → CallResult σ
  | some v => .value v store
  | none => .trap

/-- Code that leaves its function with a value. -/
def Outcome.Returns (o : Outcome σ) (v : Value) (store : σ) : Prop :=
  ∃ s, o = .returned s ∧ s.stack.head? = some v ∧ s.store = store

namespace Outcome.Returns

variable {o : Outcome σ} {v : Value} {store : σ}

theorem push (s : State σ) (v : Value) : (returned (s.push v)).Returns v s.store :=
  ⟨_, rfl, rfl, rfl⟩

theorem andThen (h : o.Returns v store) (rest : State σ → Outcome σ) :
    (o.andThen rest).Returns v store := by
  obtain ⟨s, rfl, hs⟩ := h
  exact ⟨s, rfl, hs⟩

theorem leaveBlock (h : o.Returns v store) (outer : List Value) :
    (o.leaveBlock outer).Returns v store := by
  obtain ⟨s, rfl, hs⟩ := h
  exact ⟨s, rfl, hs⟩

theorem callResult (h : o.Returns v store) : o.callResult v.carrier = .value v store := by
  obtain ⟨s, rfl, hhead, rfl⟩ := h
  obtain ⟨locals, stack, store⟩ := s
  cases stack with
  | nil => cases hhead
  | cons top stack =>
      cases hhead
      exact if_pos rfl

end Outcome.Returns

/-- Code that ends its function with a value, by a return or at its end. -/
def Outcome.Yields (o : Outcome σ) (v : Value) (store : σ) : Prop :=
  o.Returns v store ∨ ∃ t : State σ, o = .next (t.push v) ∧ t.store = store

theorem Outcome.Yields.callResult {o : Outcome σ} {v : Value} {store : σ}
    (h : o.Yields v store) : o.callResult v.carrier = .value v store := by
  rcases h with hreturns | hnext
  · exact hreturns.callResult
  · obtain ⟨t, rfl, rfl⟩ := hnext
    exact if_pos rfl

theorem exec_block_loop (meaning : ι → (Nat → Value) → σ → HostResult σ) (fuel : Nat)
    (body : List (Instr ι)) (s : State σ) :
    exec meaning fuel [.block [.loop body]] s =
      (iterate (fun t => exec meaning fuel body t) [] fuel s.enter).leaveBlock s.stack := by
  rw [exec_singleton, execInstr_block, exec_singleton]
  rfl

end Moth.Lib.Wasm
