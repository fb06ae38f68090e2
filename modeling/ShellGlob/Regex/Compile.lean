import ShellGlob.Regex.Nesting
import ShellGlob.Regex.Occurrences
import ShellGlob.Regex.Parser
import ShellGlob.Regex.Size

/-!
# Compiling regular expressions

A text compiles if it reads as a regular expression that is neither nested too
deep nor too large.  What is wrong with the text is reported first, then the
nesting, and the size last.
-/

namespace ShellGlob

/-- A regular expression together with its normal form. -/
structure CompiledRegex where
  regex : Regex
  form : Regex.Form
  form_eq : form = regex.normal
  deriving DecidableEq

/-- Why a text does not compile as a regular expression. -/
inductive Regex.CompileError where
  | invalid (error : Regex.ParseError)
  /-- The expression is larger than `sizeLimit`. -/
  | tooLarge
  deriving DecidableEq

/-- The message about a pattern. -/
def Regex.CompileError.message (pattern : Text) : Regex.CompileError → String
  | .invalid error => error.message pattern
  | .tooLarge => "Compiled regex exceeds size limit of " ++ toString sizeLimit ++ " bytes."

namespace CompiledRegex

/-- The expression with its normal form. -/
def ofRegex (regex : Regex) : CompiledRegex :=
  ⟨regex, regex.normal, rfl⟩

/-- The text of the expression. -/
def source (compiled : CompiledRegex) : Text :=
  compiled.regex.source

/-- Whether the expression matches some part of the text. -/
def isMatch (compiled : CompiledRegex) (text : Text) : Bool :=
  compiled.form.isMatch text

/-- All occurrences in the text, from left to right. -/
def occurrences (compiled : CompiledRegex) (text : Text) : List Regex.Occurrence :=
  compiled.form.occurrences text

end CompiledRegex

/-- The regular expression of a text. -/
def Regex.compile (pattern : Text) : Except Regex.CompileError CompiledRegex := do
  let regex ← (Regex.parse pattern).mapError .invalid
  if let some span := regex.overNested? then
    throw (.invalid ⟨.nestingTooDeep, span⟩)
  let compiled := CompiledRegex.ofRegex regex
  if Regex.sizeLimit < compiled.form.size then
    throw .tooLarge
  return compiled

end ShellGlob
