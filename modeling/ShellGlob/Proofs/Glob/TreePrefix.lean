import Mathlib
import ShellGlob.Proofs.Glob.Enclosed
import ShellGlob.Proofs.Glob.PatternEnds
import ShellGlob.Proofs.Regex.Preceding

/-!
# Globs below any directory

With `**/` before it a glob also matches below any directory what it matches at the root
(`Matcher.isMatch_below`).  The `/` is part of the token, so the rest of the glob is read
as if nothing stood before it (`patternFrom_below`).

The pattern of the glob may have alternatives of its own, the first of which the `.*` then
belongs to.  The others are not anchored at the start and find what they match behind the
directory, where its last character is no part of a word.
-/

namespace ShellGlob

open Regex (SpansItems)

namespace Glob

/-- The glob for what another one matches below any directory. -/
def below (glob : Text) : Text :=
  '*' :: '*' :: '/' :: glob

theorem patternFrom_below (glob : Text) :
    patternFrom {} (below glob) = ['.', '*'] ++ patternFrom {} glob :=
  have meets : (Part.tree true).Meets glob := trivial
  patternFrom_tree rfl meets

private theorem negations_below {glob : Text} (plain : negations glob = []) :
    negations (below glob) = [] := by
  have cutUp : pieces (below glob) =
      ['*', '*', '/'].map (fun c => Piece.text [c]) ++ pieces glob := by
    rw [below, pieces_cons (by decide) (splitNegation?_of_ne (by decide) _),
      pieces_cons (by decide) (splitNegation?_of_ne (by decide) _),
      pieces_cons (by decide) (splitNegation?_of_ne (by decide) _)]
    rfl
  have count := length_negationsFrom_text ["*".toList, "*".toList, "/".toList] (pieces glob)
  apply List.eq_nil_of_length_eq_zero
  rw [negations, cutUp]
  exact count.trans (congrArg List.length plain)

/-- A text that a directory may be written as: it ends with a separator, unless it is
empty, and stays within a line. -/
def IsDirectory (directory : Text) : Prop :=
  directory = [] ∨ directory.getLast? = some '/' ∧ '\n' ∉ directory

private theorem IsDirectory.quiet {directory : Text} (isDirectory : IsDirectory directory) :
    directory.getLast?.any Unicode.isWordCharacter = false := by
  rcases isDirectory with rfl | ⟨separator, _⟩
  · rfl
  · rw [separator]
    cbv

private theorem IsDirectory.stretch {directory : Text} (isDirectory : IsDirectory directory)
    (rest : Text) : Stretch (directory ++ rest) (fun c => c ≠ '\n') 0 directory.length := by
  refine ⟨Nat.zero_le _, ?_⟩
  intro place _ inside
  have found : (directory ++ rest)[place]? = some directory[place] := by
    rw [List.getElem?_append_left inside, List.getElem?_eq_getElem inside]
  refine ⟨_, found, ?_⟩
  intro newline
  have member := List.getElem_mem inside
  rw [newline] at member
  rcases isDirectory with rfl | ⟨_, noNewline⟩
  · cases member
  · exact noNewline member

/-- The expressions of a glob and of the glob below any directory. -/
theorem exists_preceded_of_compile {glob : Text} {root other : CompiledRegex}
    (compilesRoot : compile glob true = .ok root)
    (compiles : compile (below glob) true = .ok other) :
    ∃ front regex, regex.EndFree ∧ Regex.Preceded front regex root.regex other.regex ∧
      ∀ text start stop, SpansItems text front start stop ↔
        Stretch text (fun c => c ≠ '\n') start stop := by
  obtain ⟨_, whole, parsed, _, rfl⟩ := compile_eq_ok_iff.mp compilesRoot
  obtain ⟨_, _, parsedBelow, _, rfl⟩ := compile_eq_ok_iff.mp compiles
  obtain ⟨front, reads, frontSpans⟩ := means_tree true
  obtain ⟨regex, further, parsedAlone, parsedBehind, preceded⟩ :=
    Regex.exists_preceded_of_parse reads (notOperator_patternFrom rfl glob)
      (fun _ ran => settled_of_run_begun ran) parsed
  rw [patternFrom_below] at parsedBelow
  cases parsedBehind.symm.trans parsedBelow
  exact ⟨front, regex, endFree_of_parse parsedAlone, preceded, frontSpans⟩

end Glob

namespace Matcher

/-- Below a directory a leading `**/` accepts what is accepted at the root without it. -/
theorem isMatch_below {glob directory candidate : Text} {root other : Matcher}
    (plain : Glob.negations glob = [])
    (builtRoot : ofGlob glob true = .ok root)
    (built : ofGlob (Glob.below glob) true = .ok other)
    (isDirectory : Glob.IsDirectory directory)
    (matched : root.isMatch candidate = true) :
    other.isMatch (directory ++ candidate) = true := by
  obtain ⟨compilesRoot, byRootRegex⟩ := isMatch_of_plain plain builtRoot
  obtain ⟨compiles, byRegex⟩ := isMatch_of_plain (Glob.negations_below plain) built
  obtain ⟨front, regex, endFree, preceded, frontSpans⟩ :=
    Glob.exists_preceded_of_compile compilesRoot compiles
  rw [byRootRegex] at matched
  rw [byRegex]
  exact Regex.CompiledRegex.isMatch_of_preceded preceded endFree isDirectory.quiet
    ((frontSpans _ _ _).mpr (isDirectory.stretch candidate)) matched

set_option maxRecDepth 4096 in
/-- The glob is read with two branches, the second of which asks for a word to begin. -/
theorem isMatch_below_branches :
    let glob := "[]\x7b]a,\\bb".toList
    ∃ root other, ofGlob glob true = .ok root ∧ ofGlob (Glob.below glob) true = .ok other ∧
      root.isMatch "b".toList = true ∧ other.isMatch ("src/".toList ++ "b".toList) = true := by
  intro glob
  have plain : Glob.negations "[]\x7b]a,\\bb".toList = [] := by cbv
  have found :
      (ofGlob "[]\x7b]a,\\bb".toList true).toOption.any (·.isMatch "b".toList) = true := by
    cbv
  have builds : (ofGlob "**/[]\x7b]a,\\bb".toList true).isOk = true := by cbv
  obtain ⟨root, builtRoot, matched⟩ := exists_of_any found
  obtain ⟨other, built⟩ := exists_of_isOk builds
  exact ⟨root, other, builtRoot, built, matched,
    isMatch_below plain builtRoot built (Or.inr ⟨rfl, by decide⟩) matched⟩

end Matcher

end ShellGlob
