import BlockLang.Defect
import BlockLang.Typing.Error

/-!
# Failures

All that can keep a function out of a program: a structural defect, a typing error, a name that is
taken, or an objection of the code generator. Structural and typing failures speak with their own
words; the messages of the code generator are passed on as they come.
-/

namespace BlockLang

/-- An objection of the code generator. -/
inductive BackendError where
  | builder (message : String)
  | invalidFunction (name : String)
  | invalidModule (message : String)
  | targetInit (message : String)
  | targetMachine (triple message : String)
  | objectEmission (path message : String)
  | jit (message : String)
  | missingSymbol (name message : String)
  /-- Something that earlier checks should have ruled out. -/
  | invariant (message : String)
deriving DecidableEq

namespace BackendError

/-- The builder was asked to write code before it was told where. -/
def unsetPosition : BackendError := builder "Builder position is not set"

/-- An objection in words. -/
def message : BackendError → String
  | builder text => "LLVM builder error: " ++ text
  | invalidFunction name => "LLVM rejected the body of function `" ++ name ++ "`"
  | invalidModule text => "LLVM module verification failed: " ++ text
  | targetInit text => "failed to initialize native target: " ++ text
  | targetMachine triple text =>
    "failed to create target machine for `" ++ triple ++ "`: " ++ text
  | objectEmission path text => "failed to write object file " ++ path ++ ": " ++ text
  | jit text => "failed to create JIT execution engine: " ++ text
  | missingSymbol name text =>
    "symbol `" ++ name ++ "` not found in compiled module: " ++ text
  | invariant text => "codegen invariant violated: " ++ text

end BackendError

/-- A reason to keep a function out of a program. -/
inductive Failure where
  | structural (defect : Defect)
  | typing (error : TypeError)
  | backend (error : BackendError)
  /-- There is a function of that name already. -/
  | duplicateFunction (name : String)
deriving DecidableEq

/-- A failure in words. -/
def Failure.message : Failure → String
  | structural defect => defect.message
  | typing error => error.message
  | backend error => error.message
  | duplicateFunction name => "function `" ++ name ++ "` is already registered"

end BlockLang
