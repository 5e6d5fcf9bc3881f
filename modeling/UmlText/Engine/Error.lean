import UmlText.Alias

/-!
# Errors of a build

A call of a build fails for one of two reasons: the call does not fit the state of the
diagram (`Misuse`), or one of its values lies outside its domain (`InvalidValue`).  Inside a
call the two are a `Fault`.  The error that the caller sees, `BuildError`, adds the number
of the call to a misuse; two more errors do not belong to a call of their own, a diagram
that is finished while a scope is open, and a call after the build has failed.
-/

namespace UmlText

/-- A call that does not fit the state of the diagram.  Scopes and elements are named by
their kinds. -/
inductive Misuse where
  /-- Another scope is the innermost one. -/
  | closeOutOfOrder (requested innermost : String)
  /-- No scope is open. -/
  | closeWithoutOpen (requested : String)
  /-- There is no loop to leave. -/
  | breakOutsideLoop (scope : String)
  /-- The decision has its last branch already. -/
  | secondElse
  /-- A conditional branch after the last branch of the decision. -/
  | branchAfterElse
  /-- The clause may be given once. -/
  | repeatedClause (clause scope : String)
  /-- The element, or scope, has no place here. -/
  | misplaced (what scope expected : String)
  /-- No element of the expected kind has the alias. -/
  | unknownAlias (name expected : String)
  /-- Another element has the alias. -/
  | aliasTaken (a : Alias) (existing : String)
  /-- One scope more than may be open at once. -/
  | tooDeep (depth greatest : Nat)
  deriving DecidableEq

/-- The wording of a misuse, without the number of the call. -/
def Misuse.message : Misuse → String
  | .closeOutOfOrder requested innermost =>
      "cannot close '" ++ requested ++ "' while '" ++ innermost ++ "' is the innermost open scope"
  | .closeWithoutOpen requested => "cannot close '" ++ requested ++ "': no scope is open"
  | .breakOutsideLoop scope =>
      "'break' must be nested inside a loop (innermost scope is '" ++ scope ++ "')"
  | .secondElse => "decision already has an 'else' branch"
  | .branchAfterElse => "'elseif' cannot follow the 'else' branch"
  | .repeatedClause clause scope =>
      "'" ++ clause ++ "' was already given for this '" ++ scope ++ "'"
  | .misplaced what scope expected =>
      "'" ++ what ++ "' is not allowed inside '" ++ scope ++ "' (expected " ++ expected ++ ")"
  | .unknownAlias name expected => "unknown " ++ expected ++ " '" ++ name ++ "'"
  | .aliasTaken a existing =>
      "identifier '" ++ a.name ++ "' is already used by a " ++ existing
  | .tooDeep depth greatest =>
      "scopes nested " ++ toString depth ++ " deep exceed the limit of " ++ toString greatest

/-- Why one call fails. -/
inductive Fault where
  | misuse (what : Misuse)
  | invalid (what : InvalidValue)
  /-- A misuse that has the number of a call already. -/
  | numbered (call : Nat) (what : Misuse)
  deriving DecidableEq

/-- An error of a build, as the caller sees it. -/
inductive BuildError where
  /-- The call with this number does not fit the state of the diagram. -/
  | misuse (call : Nat) (what : Misuse)
  /-- A value lies outside its domain. -/
  | invalid (what : InvalidValue)
  /-- The diagram is finished while scopes are open; the innermost one is described. -/
  | unclosed (kind : String) (openedAt : Nat) (count : Nat)
  /-- The build has failed at an earlier call. -/
  | abandoned (failedAt : Nat)
  deriving DecidableEq

/-- The fault of the call with the given number, as the caller sees it. -/
def Fault.atCall (call : Nat) : Fault → BuildError
  | .misuse what => .misuse call what
  | .invalid what => .invalid what
  | .numbered own what => .misuse own what

/-- The fault of something that was done before any call was made, which has the number 0. -/
def Fault.beforeCalls : Fault → Fault
  | .misuse what => .numbered 0 what
  | fault => fault

/-- The wording of an error. -/
def BuildError.message : BuildError → String
  | .misuse call what => "call " ++ toString call ++ ": " ++ what.message
  | .invalid what => what.message
  | .unclosed kind openedAt count =>
      "unclosed '" ++ kind ++ "' opened by call " ++ toString openedAt ++ " (" ++ toString count ++
        " scope(s) still open at finalize)"
  | .abandoned failedAt => "build was abandoned after call " ++ toString failedAt ++ " failed"

end UmlText
