import ShellGlob.Glob.Compile
import ShellGlob.Glob.Negation

/-!
# Matchers

A matcher decides which candidates a glob matches.  A glob without negations
is a single regular expression.  One with negations is a positive expression,
in which every negation is a `*`, and for each negation an exclusion, in which
it is a group of its alternatives.

An anchored glob matches a candidate if the positive expression does and no
exclusion does.  An unanchored one matches if some occurrence of the positive
expression is matched by no exclusion.  An exclusion looks at the text of the
occurrence alone and has to match all of it, while the positive expression sees
the whole candidate.
-/

namespace ShellGlob

/-- A glob with negations. -/
structure NegatedGlob where
  positive : CompiledRegex
  exclusions : List CompiledRegex
  anchored : Bool
  deriving DecidableEq

namespace NegatedGlob

def excludes (negated : NegatedGlob) (text : Text) : Bool :=
  negated.exclusions.any (·.isMatch text)

/-- Whether the glob matches the candidate. -/
def isMatch (negated : NegatedGlob) (candidate : Text) : Bool :=
  if negated.anchored then
    negated.positive.isMatch candidate && !negated.excludes candidate
  else
    (negated.positive.occurrences candidate).any fun occurrence =>
      !negated.excludes (occurrence.text candidate)

end NegatedGlob

/-- A compiled glob. -/
inductive Matcher where
  | plain (regex : CompiledRegex)
  | negated (matcher : NegatedGlob)
  deriving DecidableEq

/-- An error together with the glob that could not be compiled. -/
structure GlobError where
  glob : Text
  cause : Glob.CompileError
  deriving DecidableEq

/-- The wording of the error. -/
def GlobError.message (error : GlobError) : String :=
  "failed to build glob expression `" ++ String.ofList error.glob ++ "`"

/-- The regular expressions of the exclusions of a glob, in order.  One that
does not compile is left out. -/
def Glob.exclusions (glob : Text) : List CompiledRegex :=
  (List.range (Glob.negations glob).length).filterMap fun index =>
    (Glob.compile (Glob.exclusion glob index) true).toOption

namespace Matcher

/-- The matcher of a glob with negations, and nothing for a glob without any.  If
no exclusion compiles, the positive expression decides alone. -/
def compileNegated? (glob : Text) (anchored : Bool) :
    Except Glob.CompileError (Option Matcher) := do
  if Glob.negations glob = [] then
    return none
  let positive ← Glob.compile (Glob.positive glob) anchored
  match Glob.exclusions glob with
  | [] => return some (.plain positive)
  | exclusions => return some (.negated { positive, exclusions, anchored })

/-- The matcher of a glob, or the reason why there is none.  Without negations
the glob itself is what compiles. -/
def compile (glob : Text) (anchored : Bool) : Except Glob.CompileError Matcher := do
  match ← compileNegated? glob anchored with
  | some matcher => return matcher
  | none => return .plain (← Glob.compile glob anchored)

/-- The matcher of a glob.  An anchored glob has to match an entire candidate,
any other one some part of it. -/
def ofGlob (glob : Text) (anchored : Bool) : Except GlobError Matcher :=
  (compile glob anchored).mapError (GlobError.mk glob)

def unanchored (glob : Text) : Except GlobError Matcher :=
  ofGlob glob false

def ofGlob? (glob : Text) (anchored : Bool) : Option Matcher :=
  (ofGlob glob anchored).toOption

/-- The expression that has to match a candidate. -/
def regex : Matcher → CompiledRegex
  | .plain regex => regex
  | .negated matcher => matcher.positive

def isNegated : Matcher → Bool
  | .plain _ => false
  | .negated _ => true

/-- Whether the matcher matches the candidate. -/
def isMatch : Matcher → Text → Bool
  | .plain regex, candidate => regex.isMatch candidate
  | .negated matcher, candidate => matcher.isMatch candidate

end Matcher

/-- A matcher for any of several globs. -/
structure AnyOf where
  matchers : List Matcher
  deriving DecidableEq

namespace AnyOf

/-- The matcher for any of several globs, all of them anchored or none.  The
first one that does not compile is reported. -/
def ofGlobs (globs : List Text) (anchored : Bool) : Except GlobError AnyOf := do
  let matchers ← globs.mapM (Matcher.ofGlob · anchored)
  return ⟨matchers⟩

/-- Whether one of the globs matches the candidate. -/
def isMatch (any : AnyOf) (candidate : Text) : Bool :=
  any.matchers.any (·.isMatch candidate)

end AnyOf

end ShellGlob
