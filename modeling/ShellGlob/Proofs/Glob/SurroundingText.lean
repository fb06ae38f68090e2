import Mathlib
import ShellGlob.Proofs.Glob.PatternEnds

/-!
# Candidates within other text

What an anchored glob matches as a whole, the unanchored one finds in any text around it,
unless a word goes on there (`Matcher.isMatch_surrounded`).  The two expressions are read
from different texts, but one is the other between assertions, which only restrict it.
-/

namespace ShellGlob

namespace Glob

theorem endFree_of_compile {glob : Text} {compiled : CompiledRegex}
    (compiles : compile glob false = .ok compiled) : compiled.regex.EndFree := by
  obtain ⟨_, regex, parsed, _, rfl⟩ := compile_eq_ok_iff.mp compiles
  exact endFree_of_parse parsed

/-- The anchored expression is the unanchored one between the assertions. -/
theorem anchors_of_compile {glob : Text} {whole compiled : CompiledRegex}
    (compilesAnchored : compile glob true = .ok whole)
    (compiles : compile glob false = .ok compiled) : compiled.regex.Anchors whole.regex := by
  obtain ⟨_, _, parsedAnchored, _, rfl⟩ := compile_eq_ok_iff.mp compilesAnchored
  obtain ⟨_, _, parsed, _, rfl⟩ := compile_eq_ok_iff.mp compiles
  obtain ⟨regex, read, anchors⟩ := exists_anchors_of_anchored parsedAnchored
  cases read.symm.trans parsed
  exact anchors

end Glob

namespace Matcher

/-- The unanchored glob matches whatever the anchored one does, in any text around it that
no word reaches across. -/
theorem isMatch_surrounded {glob front candidate behind : Text} {anchored unanchored : Matcher}
    (plain : Glob.negations glob = [])
    (builtAnchored : ofGlob glob true = .ok anchored)
    (built : ofGlob glob false = .ok unanchored)
    (quietFront : front.getLast?.any Unicode.isWordCharacter = false)
    (quietBehind : behind.head?.any Unicode.isWordCharacter = false)
    (matched : anchored.isMatch candidate = true) :
    unanchored.isMatch (front ++ (candidate ++ behind)) = true := by
  obtain ⟨compilesAnchored, byAnchored⟩ := isMatch_of_plain plain builtAnchored
  obtain ⟨compiles, byRegex⟩ := isMatch_of_plain plain built
  rw [byAnchored, CompiledRegex.isMatch_iff] at matched
  obtain ⟨start, inside, stop, spans⟩ := matched
  have alone : unanchored.regex.regex.Spans candidate start stop :=
    (Glob.anchors_of_compile compilesAnchored compiles).spans spans
  have surrounded := Regex.spans_surrounded quietFront quietBehind
    (Glob.endFree_of_compile compiles) inside alone
  rw [byRegex, CompiledRegex.isMatch_iff]
  refine ⟨front.length + start, ?_, _, surrounded⟩
  simp only [List.length_append]
  omega

set_option maxRecDepth 4096 in
theorem isMatch_surrounded_emptyClass :
    let glob := "[]$]\\b\x7bw?,^\x7d".toList
    ∃ anchored unanchored, ofGlob glob true = .ok anchored ∧ ofGlob glob false = .ok unanchored ∧
      anchored.isMatch "]wx".toList = true ∧
      unanchored.isMatch ("a-".toList ++ ("]wx".toList ++ "/b".toList)) = true := by
  intro glob
  have plain : Glob.negations glob = [] := by decide +kernel
  have found :
      (ofGlob "[]$]\\b\x7bw?,^\x7d".toList true).toOption.any (·.isMatch "]wx".toList) = true := by
    cbv
  have builds : (ofGlob "[]$]\\b\x7bw?,^\x7d".toList false).isOk = true := by cbv
  obtain ⟨anchored, builtAnchored, matched⟩ := exists_of_any found
  obtain ⟨unanchored, built⟩ := exists_of_isOk builds
  exact ⟨anchored, unanchored, builtAnchored, built, matched,
    isMatch_surrounded plain builtAnchored built (by decide +kernel) (by decide +kernel) matched⟩

end Matcher

end ShellGlob
