import Sigil.Ast

/-!
# Analysis errors

The errors the analyzer raises, with their data, line and context note. Kinds
that no phase raises are left out.
-/

namespace Sigil

/-- What a semantic error is about. -/
inductive ErrorKind where
  | invalidIntSize (size : Nat)
  | invalidFloatSize (size : Nat)
  | typeMismatch (expected found : String)
  | handleUsedAsValue (operand kind op : String)
  | undefinedLabel (name : String)
  | duplicateLabel (name : String) (firstLine : Nat)
  | possibleBoundsViolation (handle : String) (offset size : Nat)
  | callArgCountMismatch (behavior : String) (expected got : Nat)
  | callArgTypeMismatch (behavior param expected found : String)
  | callArgSizeMismatch (behavior param : String) (expected found : Nat)
  | outputSizeMismatch (output : String) (expected found : Nat)
  | hashMismatch (declared computed : String)
  | compositeComputes (op : String)
  | leafCalls (behavior : String)
  | unconsumedOutput (behavior output : String)
  | pureViolation (reason : String)
  | noAllocViolation (reason : String)
  | outputNotWritten (outputs : List String)
  | spawnRequiresPattern (target : String)
  | nonAtomicSharedAccess (handle operation : String)
  | memoryLeak (handle : String)
  | uninitializedLoad (handle : String)
  | pathDoesNotTerminate
  | channelSendTypeMismatch (channel expected found : String)
  | useAfterFree (handle : String) (freedAt : Nat)
  | doubleFree (handle : String) (firstFreeAt : Nat)
  | freeWhileBorrowed (handle borrowedBy : String)
  | freeBorrowedHandle (handle : String)
  | undefinedVariable (name : String)
  deriving Repr

/-- A semantic error and its line. -/
structure SemanticError where
  kind : ErrorKind
  line : Nat
  context : Option String := none
  deriving Repr

/-- A note that does not reject the behavior. -/
structure SemanticWarning where
  message : String
  line : Nat
  deriving DecidableEq, Repr

end Sigil
