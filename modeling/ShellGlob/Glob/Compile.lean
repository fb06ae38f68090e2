import ShellGlob.Glob.Pattern
import ShellGlob.Regex.Compile

/-!
# Compiling globs

A glob without negations compiles into one regular expression.
-/

namespace ShellGlob.Glob

/-- Why a glob does not compile. -/
inductive CompileError where
  /-- The pattern is empty, so there is nothing to match. -/
  | empty
  /-- The pattern does not compile as a regular expression. -/
  | regex (pattern : Text) (error : Regex.CompileError)
  deriving DecidableEq

/-- The text that was refused as a regular expression, if there is one. -/
def CompileError.pattern? : CompileError → Option Text
  | .empty => none
  | .regex pattern _ => some pattern

/-- The wording of the error. -/
def CompileError.message : CompileError → String
  | .empty => "failed to compile glob: empty expression"
  | .regex pattern error =>
      "failed to compile glob: invalid regular expression `" ++ String.ofList pattern ++ "`: "
        ++ error.message pattern

/-- The regular expression of a glob, in which a negation has no meaning. -/
def compile (glob : Text) (anchored : Bool) : Except CompileError CompiledRegex :=
  match pattern? glob anchored with
  | none => .error .empty
  | some pattern => (Regex.compile pattern).mapError (.regex pattern)

end ShellGlob.Glob
