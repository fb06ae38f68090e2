import ShellGlob.Matcher

/-!
# Diagnostics

An error about a glob as it is shown to its author: the error itself, which
points at the glob, and behind it the reason why the glob does not compile.
-/

namespace ShellGlob

/-- A note on a part of a text, given in bytes. -/
structure Label where
  note : String
  offset : Nat
  length : Nat
  deriving DecidableEq

/-- An error as it is shown. -/
structure Diagnostic where
  message : String
  code : String
  help : Option String := none
  /-- The text that the labels are about. -/
  subject : Option Text := none
  labels : List Label := []
  deriving DecidableEq

/-- How a reason for not compiling is shown. -/
def Glob.CompileError.diagnostic (error : Glob.CompileError) : Diagnostic :=
  match error with
  | .empty => { message := error.message, code := "extglob::compile::empty" }
  | .regex _ _ =>
      { message := error.message
        code := "extglob::compile::regex"
        help := some "check for unclosed `[`, `\x7b`, or extended groups like `@(`" }

/-- How the error about a glob is shown: it points at the whole glob. -/
def GlobError.diagnostic (error : GlobError) : Diagnostic :=
  { message := error.message
    code := "extglob::build"
    subject := some error.glob
    labels := [⟨"in this expression", 0, error.glob.utf8Length⟩] }

/-- The reasons behind an error, the nearest one first. -/
def GlobError.reasons (error : GlobError) : List Diagnostic :=
  [error.cause.diagnostic]

end ShellGlob
