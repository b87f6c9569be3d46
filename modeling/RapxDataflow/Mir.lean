import Mathlib.Data.Finset.Basic

namespace RapxDataflow

-- The part of rustc's MIR that the two dataflow builders and the call-graph visitor read.
-- A `Local` is a slot index of the body; payloads no builder reads (types of fields,
-- regions, cast kinds, the count of a repeat) are left out.

abbrev Local := Nat

structure DefId where
  krate : Nat
  index : Nat
  deriving DecidableEq, Repr

structure Span where
  lo : Nat
  hi : Nat
  deriving DecidableEq, Repr

def dummySp : Span := ⟨0, 0⟩

inductive TyKind
  | fnDef (defId : DefId)
  | other
  deriving DecidableEq, Repr

structure Ty where
  kind : TyKind
  text : String
  deriving DecidableEq, Repr

-- `Const::Ty`, `Const::Unevaluated` and `Const::Val`, each with its type and the text
-- that `to_string` prints.
inductive Const
  | ty (ty : Ty) (text : String)
  | unevaluated (ty : Ty) (text : String)
  | val (ty : Ty) (text : String)
  deriving DecidableEq, Repr

namespace Const

def text : Const → String
  | ty _ s | unevaluated _ s | val _ s => s

-- `Const::ty()`, which the call-graph visitor reads whatever the variant.
def toTy : Const → Ty
  | ty t _ | unevaluated t _ | val t _ => t

end Const

-- `ConstantIndex` and `Subslice` keep no payload: no builder reads their offsets. The
-- last two are the variants `parse_one_step` sends to `todo!()`.
inductive PlaceElem
  | deref
  | field (fieldIdx : Nat)
  | index (idx : Local)
  | constantIndex
  | subslice
  | downcast (symbol : Option String)
  | opaqueCast
  | subtype
  deriving DecidableEq, Repr

structure Place where
  «local» : Local
  projection : List PlaceElem
  deriving DecidableEq, Repr

inductive Operand
  | copy (place : Place)
  | move (place : Place)
  | constant (const : Const)
  deriving DecidableEq, Repr

inductive BorrowKind
  | shared
  | fake
  | mut
  deriving DecidableEq, Repr

inductive AggregateKind
  | array
  | tuple
  | adt (defId : DefId)
  | closure (defId : DefId)
  | coroutine (defId : DefId)
  | coroutineClosure (defId : DefId)
  | rawPtr
  deriving DecidableEq, Repr

-- rustc's `BinOp`. The older compiler of the first builder had a separate
-- `Rvalue::CheckedBinaryOp(op, ..)`; the newer one writes it as `BinaryOp` with the
-- `WithOverflow` form of `op`.
inductive BinOp
  | add | addUnchecked | addWithOverflow | sub | subUnchecked | subWithOverflow
  | mul | mulUnchecked | mulWithOverflow | div | rem | bitXor | bitAnd | bitOr
  | shl | shlUnchecked | shr | shrUnchecked | eq | lt | le | ne | ge | gt | cmp | offset
  deriving DecidableEq, Repr

def BinOp.isWithOverflow : BinOp → Bool
  | addWithOverflow | subWithOverflow | mulWithOverflow => true
  | _ => false

inductive Rvalue
  | use (operand : Operand)
  | «repeat» (operand : Operand)
  | ref (borrowKind : BorrowKind) (place : Place)
  | threadLocalRef (defId : DefId)
  | rawPtr (place : Place)
  | len (place : Place)
  | cast (operand : Operand)
  | binaryOp (op : BinOp) (lhs rhs : Operand)
  | nullaryOp (ty : Ty)
  | unaryOp (operand : Operand)
  | discriminant (place : Place)
  | aggregate (kind : AggregateKind) (operands : List Operand)
  | shallowInitBox (operand : Operand)
  | copyForDeref (place : Place)
  deriving DecidableEq, Repr

-- Every statement kind other than an assignment is skipped by both builders.
inductive StatementKind
  | assign (place : Place) (rvalue : Rvalue)
  | other
  deriving DecidableEq, Repr

structure Statement where
  kind : StatementKind
  span : Span
  deriving DecidableEq, Repr

-- Only calls are translated; `other` stands for every other terminator kind.
inductive TerminatorKind
  | call (func : Operand) (args : List Operand) (destination : Place)
  | other
  deriving DecidableEq, Repr

structure Terminator where
  kind : TerminatorKind
  span : Span
  deriving DecidableEq, Repr

structure BasicBlockData where
  statements : List Statement
  terminator : Option Terminator
  deriving DecidableEq, Repr

structure Body where
  argCount : Nat
  localDecls : Nat
  basicBlocks : List BasicBlockData
  deriving DecidableEq, Repr

-- One call of `add_statm_to_graph` or `add_terminator_to_graph`.
inductive Instr
  | statement (statement : Statement)
  | terminator (terminator : Terminator)
  deriving DecidableEq, Repr

-- The order in which `build_graph` visits a body: each block's statements, then its
-- terminator.
def Body.instrs (body : Body) : List Instr :=
  body.basicBlocks.flatMap fun data =>
    data.statements.map .statement ++ data.terminator.toList.map .terminator

-- Every local a MIR body names is below `local_decls.len()`; the builder indexes
-- `nodes` with them.
def PlaceElem.localsBelow (n : Nat) : PlaceElem → Bool
  | .index idx => idx < n
  | _ => true

def Place.localsBelow (n : Nat) (place : Place) : Bool :=
  place.local < n && place.projection.all (·.localsBelow n)

def Operand.localsBelow (n : Nat) : Operand → Bool
  | .copy place | .move place => place.localsBelow n
  | .constant _ => true

def Rvalue.localsBelow (n : Nat) : Rvalue → Bool
  | .use operand | .repeat operand | .cast operand | .unaryOp operand
  | .shallowInitBox operand => operand.localsBelow n
  | .ref _ place | .rawPtr place | .len place | .discriminant place
  | .copyForDeref place => place.localsBelow n
  | .binaryOp _ lhs rhs => lhs.localsBelow n && rhs.localsBelow n
  | .aggregate _ operands => operands.all (·.localsBelow n)
  | .threadLocalRef _ | .nullaryOp _ => true

def Instr.localsBelow (n : Nat) : Instr → Bool
  | .statement ⟨.assign place rvalue, _⟩ => place.localsBelow n && rvalue.localsBelow n
  | .terminator ⟨.call func args destination, _⟩ =>
    func.localsBelow n && args.all (·.localsBelow n) && destination.localsBelow n
  | _ => true

-- How a run of the model ends when the code does not return normally: an `IndexVec`
-- index past the end, `Option::unwrap` on `None`, `todo!()`, `panic!`, or, for the
-- recursive search only, a run that needs more than the fuel it was given.
inductive Fault
  | indexOutOfBounds
  | unwrapNone
  | todo
  | panic
  | outOfFuel
  deriving DecidableEq, Repr

end RapxDataflow
