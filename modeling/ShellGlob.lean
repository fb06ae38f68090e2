import ShellGlob.Diagnostic
import ShellGlob.Proofs.Glob.Alternatives
import ShellGlob.Proofs.Glob.Anchoring
import ShellGlob.Proofs.Glob.Braces
import ShellGlob.Proofs.Glob.ClassAgreement
import ShellGlob.Proofs.Glob.ClassItems
import ShellGlob.Proofs.Glob.ClassOverlap
import ShellGlob.Proofs.Glob.DocumentedFeatures
import ShellGlob.Proofs.Glob.EscapeAgreement
import ShellGlob.Proofs.Glob.Expansion
import ShellGlob.Proofs.Glob.Extraction
import ShellGlob.Proofs.Glob.Language
import ShellGlob.Proofs.Glob.NegatedAlternatives
import ShellGlob.Proofs.Glob.NegatedSuffix
import ShellGlob.Proofs.Glob.NegationMeaning
import ShellGlob.Proofs.Glob.Neutralization
import ShellGlob.Proofs.Glob.Pairing
import ShellGlob.Proofs.Glob.Seams
import ShellGlob.Proofs.Glob.SurroundingText
import ShellGlob.Proofs.Glob.TreePrefix
import ShellGlob.Proofs.Glob.Variants
import ShellGlob.Proofs.Glob.WholeCandidate
import ShellGlob.Proofs.Glob.WiderStars
import ShellGlob.Proofs.Outcome
import ShellGlob.Proofs.Regex.Iteration
import ShellGlob.Regex.SearchAdequacy
