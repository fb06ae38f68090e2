import ShellGlob.Proofs.Regex.Parts
import ShellGlob.Proofs.Regex.WithinClass

/-!
# Reading with no escape half read

Where no escape is half read (`State.Settled`), a backslash begins one, a `[` opens a class,
and only a `]` closes one, in classes within classes too.  So in a text whose `^` and `$`
stand behind a backslash or directly behind a `[` (`Guarded`), none of them is an assertion,
whatever was read before (`Hereditary.run_guarded`).
-/

namespace ShellGlob.Regex

variable {c : Char}

namespace Brackets

def Progress.Settled : Progress → Prop
  | .reading brackets => brackets.stage.Settled
  | .complete _ _ => True

def Progress.IsOpen : Progress → Prop
  | .reading _ => True
  | .complete _ _ => False

/-- What a character can do to the open classes if no escape is half read. -/
structure Progress.Follows (c : Char) (progress : Progress) : Prop where
  settled : c ≠ '\\' → progress.Settled
  isOpen : c ≠ ']' → progress.IsOpen
  escapes : c = '\\' →
    ∃ current outer first, progress = .reading ⟨current, outer, .escape first .opened⟩

variable {position : Nat} {current : Bracket} {outer : List Bracket} {brackets : Brackets}
  {progress : Progress}

theorem settled_close : (close current outer).Settled := by
  cases outer with
  | nil => trivial
  | cons next rest => trivial

private theorem settled_of_readyStep (notEscape : c ≠ '\\')
    (ready : ReadyStep position current outer c progress) : progress.Settled := by
  cases ready with
  | closes => exact settled_close
  | escapes => exact absurd rfl notEscape
  | opens | symbol | operand => trivial

private theorem settled_of_steps (settled : brackets.stage.Settled) (notEscape : c ≠ '\\')
    (steps : Steps position brackets c progress) : progress.Settled := by
  induction steps with
  | begins _ ready | commits _ ready => exact settled_of_readyStep notEscape ready
  | closesBehindDash => exact settled_close
  | escapesBehindDash => exact absurd rfl notEscape
  | symbol _ ih => exact ih trivial notEscape
  | escape | escaped | endsEscapedRange => exact settled.elim
  | _ => trivial

private theorem isOpen_of_readyStep (notClosing : c ≠ ']')
    (ready : ReadyStep position current outer c progress) : progress.IsOpen := by
  cases ready with
  | closes => exact absurd rfl notClosing
  | opens | escapes | symbol | operand => trivial

private theorem isOpen_of_steps (notClosing : c ≠ ']') (steps :
    Steps position brackets c progress) :
    progress.IsOpen := by
  induction steps with
  | begins _ ready | commits _ ready => exact isOpen_of_readyStep notClosing ready
  | closesBehindDash => exact absurd rfl notClosing
  | symbol _ ih => exact ih notClosing
  | _ => trivial

private theorem follows_of_steps (settled : brackets.stage.Settled)
    (steps : Steps position brackets c progress) : progress.Follows c where
  settled notEscape := settled_of_steps settled notEscape steps
  isOpen notClosing := isOpen_of_steps notClosing steps
  escapes escape := by
    obtain ⟨current, first, same⟩ := escapes_of_steps settled escape steps
    exact ⟨current, _, first, same⟩

private theorem exists_reading_of_steps {first : Option Operand} {escape : Escape}
    (steps : Steps position ⟨current, outer, .escape first escape⟩ c progress) :
    ∃ next, progress = .reading next ∧
      ((∃ more, escape.step c = .reading more ∧ next.stage = .escape first more) ∨
        ∃ operand, escape.step c = .complete operand ∧ next.stage.Settled) := by
  cases steps with
  | begins front => simp at front
  | leadingDash front => simp at front
  | leadingBracket front => simp at front
  | escape read => exact ⟨_, rfl, Or.inl ⟨_, read, rfl⟩⟩
  | escaped read => exact ⟨_, rfl, Or.inr ⟨_, read, trivial⟩⟩
  | endsEscapedRange read => exact ⟨_, rfl, Or.inr ⟨_, read, trivial⟩⟩

end Brackets

namespace State

/-- No escape is half read. -/
def Settled (state : State) : Prop :=
  match state.pending with
  | .escape _ => False
  | .brackets classes => classes.stage.Settled
  | _ => True

/-- This much of an escape has been read. -/
def Escaping (escape : Escape) (state : State) : Prop :=
  match state.pending with
  | .escape reading => reading = escape
  | .brackets classes => ∃ first, classes.stage = .escape first escape
  | _ => False

variable {state next : State}

theorem not_idle_of_inClass (inside : state.inClass = true) : ¬ state.Idle := by
  rintro (nothing | parenthesis)
  · simp [inClass, nothing] at inside
  · simp [inClass, parenthesis] at inside

theorem Escaping.not_idle {escape : Escape} (escaping : state.Escaping escape) : ¬ state.Idle := by
  rintro (nothing | parenthesis)
  · simp [Escaping, nothing] at escaping
  · simp [Escaping, parenthesis] at escaping

/-- What a character does if no escape is half read. -/
structure Follows (c : Char) (state next : State) : Prop where
  settled : c ≠ '\\' → next.Settled
  escapes : c = '\\' → next.Escaping .opened
  opens : c = '[' → next.inClass = true
  staysInClass : state.inClass = true → c ≠ ']' → next.inClass = true

theorem follows_of_pending (outside : state.inClass = false)
    (settled : next.Idle ∨ next.pending = .question)
    (notEscape : c ≠ '\\') (notOpening : c ≠ '[') : Follows c state next := by
  refine ⟨fun _ => ?_, fun escape => absurd escape notEscape,
    fun opening => absurd opening notOpening,
    fun inside => ?_⟩
  · rcases settled with (nothing | parenthesis) | question
    · simp [Settled, nothing]
    · simp [Settled, parenthesis]
    · simp [Settled, question]
  · rw [outside] at inside
    cases inside

theorem follows_of_plainStep (nothing : state.pending = .nothing) (plain : PlainStep state c next) :
    Follows c state next := by
  have outside : state.inClass = false := by simp [inClass, nothing]
  cases plain with
  | opens => exact follows_of_pending outside (Or.inl (Or.inr rfl)) (by decide) (by decide)
  | closes | divides =>
      exact follows_of_pending outside (Or.inl (Or.inl nothing)) (by decide) (by decide)
  | opensClass => exact ⟨fun _ => trivial, by simp, fun _ => rfl, fun _ _ => rfl⟩
  | escapes =>
      refine ⟨fun other => absurd rfl other, fun _ => rfl, by simp, fun inside => ?_⟩
      rw [outside] at inside
      cases inside
  | dot | start | stop =>
      exact follows_of_pending outside (Or.inl (Or.inl rfl)) (by decide) (by decide)
  | repeats operator =>
      cases operator with
      | optional | star | plus =>
          exact follows_of_pending outside (Or.inl (Or.inl nothing)) (by decide) (by decide)
  | literal notEscape notOpening =>
      exact follows_of_pending outside (Or.inl (Or.inl rfl)) notEscape notOpening

theorem follows_of_pendingStep (settled : state.Settled) (step : PendingStep state c next) :
    Follows c state next := by
  cases step with
  | plain idle plain =>
      obtain ⟨settled, escapes, opens, _⟩ := follows_of_plainStep rfl plain
      refine ⟨settled, escapes, opens, fun inside => ?_⟩
      exact absurd idle (not_idle_of_inClass inside)
  | questions pending question =>
      have outside : state.inClass = false := by simp [inClass, pending]
      subst question
      exact follows_of_pending outside (Or.inr rfl) (by decide) (by decide)
  | uncaptures pending _ colon =>
      have outside : state.inClass = false := by simp [inClass, pending]
      subst colon
      exact follows_of_pending outside (Or.inl (Or.inl rfl)) (by decide) (by decide)
  | escape pending | escaped pending =>
      rw [Settled, pending] at settled
      exact settled.elim
  | member pending read =>
      rw [Settled, pending] at settled
      obtain ⟨settled, _, escapes⟩ :=
        Brackets.follows_of_steps settled (Brackets.steps_of_step read)
      refine ⟨settled, fun escape => ?_, fun _ => rfl, fun _ _ => rfl⟩
      obtain ⟨current, outer, first, same⟩ := escapes escape
      cases same
      exact ⟨first, rfl⟩
  | closesClass pending read =>
      rw [Settled, pending] at settled
      obtain ⟨_, isOpen, _⟩ := Brackets.follows_of_steps settled (Brackets.steps_of_step read)
      have closing : c = ']' := Decidable.byContradiction isOpen
      subst closing
      exact ⟨fun _ => trivial, by simp, by simp, fun _ other => absurd rfl other⟩

theorem follows_step (settled : state.Settled) (taken : state.step c = .ok next) :
    Follows c state next := by
  obtain ⟨middle, step, rfl⟩ := exists_pendingStep_of_step taken
  obtain ⟨settled, escapes, opens, stays⟩ := follows_of_pendingStep settled step
  exact ⟨settled, escapes, opens, stays⟩

/-- A further character of an escape completes it or not, in a class and elsewhere. -/
structure Completes (escape : Escape) (c : Char) (state next : State) : Prop where
  outcome : (∃ more, escape.step c = .reading more ∧ next.Escaping more) ∨
    ∃ operand, escape.step c = .complete operand ∧ next.Settled
  staysInClass : state.inClass = true → next.inClass = true

theorem completes_of_pendingStep {escape : Escape} (escaping : state.Escaping escape)
    (step : PendingStep state c next) : Completes escape c state next := by
  cases step with
  | plain idle => exact absurd idle escaping.not_idle
  | questions pending | uncaptures pending =>
      rw [Escaping, pending] at escaping
      exact escaping.elim
  | escape pending read =>
      rw [Escaping, pending] at escaping
      subst escaping
      exact ⟨Or.inl ⟨_, read, rfl⟩, fun inside => by simp [inClass, pending] at inside⟩
  | escaped pending read =>
      rw [Escaping, pending] at escaping
      subst escaping
      exact ⟨Or.inr ⟨_, read, trivial⟩, fun inside => by simp [inClass, pending] at inside⟩
  | @member classes _ pending read =>
      rw [Escaping, pending] at escaping
      obtain ⟨current, outer, stage⟩ := classes
      obtain ⟨first, rfl⟩ := escaping
      obtain ⟨further, same, outcome⟩ :=
        Brackets.exists_reading_of_steps (Brackets.steps_of_step read)
      cases same
      refine ⟨?_, fun _ => rfl⟩
      rcases outcome with ⟨more, reads, stage⟩ | ⟨operand, reads, settled⟩
      · exact Or.inl ⟨more, reads, first, stage⟩
      · exact Or.inr ⟨operand, reads, settled⟩
  | @closesClass classes _ _ pending read =>
      rw [Escaping, pending] at escaping
      obtain ⟨current, outer, stage⟩ := classes
      obtain ⟨first, rfl⟩ := escaping
      obtain ⟨further, same, _⟩ := Brackets.exists_reading_of_steps (Brackets.steps_of_step read)
      cases same

theorem completes_step {escape : Escape} (escaping : state.Escaping escape)
    (taken : state.step c = .ok next) : Completes escape c state next := by
  obtain ⟨middle, step, rfl⟩ := exists_pendingStep_of_step taken
  obtain ⟨outcome, stays⟩ := completes_of_pendingStep escaping step
  exact ⟨outcome, stays⟩

end State

private theorem Escape.step_opened_ne_reading (notHexadecimal : c ≠ 'x') (more : Escape) :
    Escape.opened.step c ≠ .reading more := by
  rw [step, if_neg notHexadecimal]
  split
  · simp
  · simp

/-- The text is read from a class without closing it, or from anywhere without any `^` or
`$` as an assertion. -/
inductive Guarded (inClass : Bool) : Text → Prop where
  | nil : Guarded inClass []
  | plain {c : Char} {rest : Text} :
      c ≠ '\\' → c ∉ (if inClass then [']'] else ['^', '$']) → Guarded inClass rest →
      Guarded inClass (c :: rest)
  | escaped {c : Char} {rest : Text} :
      c ≠ 'x' → Guarded inClass rest → Guarded inClass ('\\' :: c :: rest)
  | hexadecimal {high low : Char} {rest : Text} :
      Guarded inClass rest → Guarded inClass ('\\' :: 'x' :: high :: low :: rest)
  | complemented {rest : Text} :
      Guarded inClass rest → Guarded inClass ('[' :: '^' :: rest)

theorem Guarded.append {inClass : Bool} {front rest : Text} (first : Guarded inClass front)
    (second : Guarded inClass rest) : Guarded inClass (front ++ rest) := by
  induction first with
  | nil => exact second
  | plain notEscape ordinary _ ih => exact .plain notEscape ordinary ih
  | escaped notHexadecimal _ ih => exact .escaped notHexadecimal ih
  | hexadecimal _ ih => exact .hexadecimal ih
  | complemented _ ih => exact .complemented ih

namespace Hereditary

variable {item branch : Regex → Prop} {state next : State}

/-- What is kept by reading, in a class or from anywhere. -/
structure Kept (item branch : Regex → Prop) (inClass : Bool) (state : State) : Prop where
  shares : state.Shares item branch
  inClass : inClass = true → state.inClass = true

variable {inClass : Bool}

theorem kept_step (hereditary : Hereditary item branch) (kept : Kept item branch inClass state)
    (settled : state.Settled) (notAssertion : state.Idle → c ∉ ['^', '$'])
    (staysInClass : inClass = true → c ≠ ']') (taken : state.step c = .ok next) :
    Kept item branch inClass next := by
  have atEnd : ∀ {mark : Char}, mark ∈ ['^', '$'] → state.Idle → c = mark → False := by
    rintro mark isEnd idle rfl
    exact notAssertion idle isEnd
  constructor
  · exact hereditary.step kept.shares
      (fun idle caret => (atEnd (by simp) idle caret).elim)
      (fun idle dollar => (atEnd (by simp) idle dollar).elim) taken
  · intro inside
    exact (State.follows_step settled taken).staysInClass (kept.inClass inside)
      (staysInClass inside)

theorem kept_escape (hereditary : Hereditary item branch) (kept : Kept item branch inClass state)
    {escape : Escape} (escaping : state.Escaping escape) (taken : state.step c = .ok next) :
    Kept item branch inClass next := by
  constructor
  · exact hereditary.step kept.shares (fun idle => (escaping.not_idle idle).elim)
      (fun idle => (escaping.not_idle idle).elim) taken
  · intro inside
    exact (State.completes_step escaping taken).staysInClass (kept.inClass inside)

/-- A backslash and the character behind it. -/
theorem run_escape (hereditary : Hereditary item branch) (kept : Kept item branch inClass state)
    (settled : state.Settled) {last : State} {rest : Text}
    (ran : state.run ('\\' :: c :: rest) = .ok last) :
    ∃ middle, middle.run rest = .ok last ∧ Kept item branch inClass middle ∧
      ((∃ more, Escape.opened.step c = .reading more ∧ middle.Escaping more) ∨
        ∃ operand, Escape.opened.step c = .complete operand ∧ middle.Settled) := by
  obtain ⟨first, taken, ranFirst⟩ := State.run_cons_eq_ok.mp ran
  obtain ⟨second, takenSecond, ranRest⟩ := State.run_cons_eq_ok.mp ranFirst
  have escaping := (State.follows_step settled taken).escapes rfl
  have firstKept := hereditary.kept_step kept settled (by simp) (by simp) taken
  exact ⟨second, ranRest, hereditary.kept_escape firstKept escaping takenSecond,
    (State.completes_step escaping takenSecond).outcome⟩

/-- The two digits behind `\x`. -/
theorem run_digits (hereditary : Hereditary item branch) (kept : Kept item branch inClass state)
    (escaping : state.Escaping .hexadecimal) {last : State} {high low : Char} {rest : Text}
    (ran : state.run (high :: low :: rest) = .ok last) :
    ∃ middle, middle.run rest = .ok last ∧ Kept item branch inClass middle ∧ middle.Settled := by
  obtain ⟨first, taken, ranFirst⟩ := State.run_cons_eq_ok.mp ran
  obtain ⟨second, takenSecond, ranRest⟩ := State.run_cons_eq_ok.mp ranFirst
  have firstKept := hereditary.kept_escape kept escaping taken
  have firstEscaping : first.Escaping (.hexadecimalDigit high) := by
    rcases (State.completes_step escaping taken).outcome with ⟨more, reads, further⟩ | ⟨_, reads, _⟩
    · rw [Escape.step] at reads
      split at reads
      · cases reads
        exact further
      · cases reads
    · rw [Escape.step] at reads
      split at reads
      · cases reads
      · cases reads
  refine ⟨second, ranRest, hereditary.kept_escape firstKept firstEscaping takenSecond, ?_⟩
  rcases (State.completes_step firstEscaping takenSecond).outcome with
    ⟨_, reads, _⟩ | ⟨_, _, settled⟩
  · rw [Escape.step] at reads
    split at reads
    · cases reads
    · cases reads
  · exact settled

/-- No `^` or `$` of the text becomes an item. -/
theorem run_guarded (hereditary : Hereditary item branch) {last : State} {text : Text}
    (guarded : Guarded inClass text) (settled : state.Settled)
    (kept : Kept item branch inClass state) (ran : state.run text = .ok last) :
    last.Settled ∧ Kept item branch inClass last := by
  induction guarded generalizing state with
  | nil =>
      cases ran
      exact ⟨settled, kept⟩
  | @plain c rest notEscape ordinary _ ih =>
      obtain ⟨middle, taken, ranRest⟩ := State.run_cons_eq_ok.mp ran
      refine ih ((State.follows_step settled taken).settled notEscape) ?_ ranRest
      cases inClass with
      | false =>
          exact hereditary.kept_step kept settled (fun _ => ordinary) (by simp) taken
      | true =>
          have inside := State.not_idle_of_inClass (kept.inClass rfl)
          exact hereditary.kept_step kept settled (fun idle => (inside idle).elim)
            (fun _ => by simpa using ordinary) taken
  | @escaped c rest notHexadecimal _ ih =>
      obtain ⟨middle, ranRest, middleKept, outcome⟩ := hereditary.run_escape kept settled ran
      rcases outcome with ⟨more, reads, _⟩ | ⟨_, _, middleSettled⟩
      · exact absurd reads (Escape.step_opened_ne_reading notHexadecimal more)
      · exact ih middleSettled middleKept ranRest
  | @hexadecimal high low rest _ ih =>
      obtain ⟨middle, ranDigits, middleKept, outcome⟩ := hereditary.run_escape kept settled ran
      rcases outcome with ⟨more, reads, escaping⟩ | ⟨_, reads, _⟩
      · cases reads
        obtain ⟨behind, ranRest, behindKept, behindSettled⟩ :=
          hereditary.run_digits middleKept escaping ranDigits
        exact ih behindSettled behindKept ranRest
      · cases reads
  | @complemented rest _ ih =>
      obtain ⟨first, taken, ranFirst⟩ := State.run_cons_eq_ok.mp ran
      obtain ⟨second, takenSecond, ranRest⟩ := State.run_cons_eq_ok.mp ranFirst
      have follows := State.follows_step settled taken
      have firstSettled := follows.settled (by decide)
      have inside := State.not_idle_of_inClass (follows.opens rfl)
      have firstKept := hereditary.kept_step kept settled (by simp) (by simp) taken
      have secondKept := hereditary.kept_step firstKept firstSettled
        (fun idle => (inside idle).elim) (by simp) takenSecond
      exact ih ((State.follows_step firstSettled takenSecond).settled (by decide)) secondKept
        ranRest

end Hereditary

end ShellGlob.Regex
