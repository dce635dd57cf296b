import ProcessFlow.Proofs.Precondition.Acceptance

/-! # How a reading can go on

Wherever a reading stands, it can still come to an end. After an operand, and at the blank start of a
level, it is enough to close the open parentheses. Whatever token a reading waits for can be read, and
at most two more tokens lead from there to such a place.
-/

namespace ProcessFlow

/-- The tokens that begin a primary. -/
def Token.openers : List Token := [.openParen, .bang, .completeOpen, .execOpen, .always]

/-- A token is what the expectation asks for. The end of a text is no token. -/
def Expected.Admits : Expected → Token → Prop
  | .endOfInput, _ => False
  | .closeParen, token => token = .closeParen
  | .process, token => ∃ name, token = .name name
  | .deliverable, token => token = .star ∨ ∃ name, token = .name name
  | .primary, token => token ∈ Token.openers

namespace Reading

variable {context : ProcessId} {reading next : Reading} {token : Token} {tokens : List Token}
  {result : Precondition}

/-- The tokens lead to a place where the text may end. -/
def Completes (context : ProcessId) (reading : Reading) (tokens : List Token) : Prop :=
  ∃ last meaning, steps? context reading tokens = some last ∧ last.meaning? = some meaning

/-- After the token, others that can be written lead to a place where the text may end. -/
def Continues (context : ProcessId) (reading : Reading) (token : Token) : Prop :=
  ∃ more, (∀ token ∈ more, token.Lawful) ∧ reading.Completes context (token :: more)

theorem Completes.cons (step : step? context reading token = some next)
    (completes : next.Completes context tokens) : reading.Completes context (token :: tokens) := by
  obtain ⟨last, meaning, run, ended⟩ := completes
  exact ⟨last, meaning, by rw [steps?, step, Option.bind_some, run], ended⟩

/-- What has been read, and then tokens from where it led. -/
theorem Completes.append {seen : List Token} (run : steps? context reading seen = some next)
    (completes : next.Completes context tokens) : reading.Completes context (seen ++ tokens) := by
  obtain ⟨last, meaning, rest, ended⟩ := completes
  exact ⟨last, meaning, by rw [steps?_append, run, Option.bind_some, rest], ended⟩

theorem Continues.cons {other : Token} (step : step? context reading token = some next)
    (continues : next.Continues context other) (lawful : other.Lawful) :
    reading.Continues context token := by
  obtain ⟨more, all, completes⟩ := continues
  exact ⟨other :: more, List.forall_mem_cons.mpr ⟨lawful, all⟩, completes.cons step⟩

/-- Where the innermost level may end, closing the open parentheses ends the text. -/
theorem completes_of_result? (ended : reading.result? = some result) :
    reading.Completes context (List.replicate (parens reading.outer) .closeParen) := by
  generalize opened : parens reading.outer = count
  induction count generalizing reading result with
  | zero =>
    obtain ⟨meaning, finished⟩ := exists_finish? opened result
    exact ⟨reading, meaning, rfl, by rw [meaning?, ended, Option.bind_some, finished]⟩
  | succ count ih =>
    obtain ⟨chain, rest, closed, left⟩ := exists_closeParen? opened result
    rw [List.replicate_succ]
    exact .cons ((step?_closeParen ended).trans closed) (ih rfl left)

theorem lawful_of_mem_replicate {count : Nat}
    (member : token ∈ List.replicate count Token.closeParen) : token.Lawful := by
  rw [List.eq_of_mem_replicate member]
  trivial

/-- A step to where the innermost level may end. -/
theorem continues_of_result? (step : step? context reading token = some next)
    (ended : next.result? = some result) : reading.Continues context token :=
  ⟨_, fun _ => lawful_of_mem_replicate, (completes_of_result? ended).cons step⟩

/-! ## What is waited for -/

/-- The parenthesis of a call can be closed. -/
theorem continues_of_callEnd {call : Precondition} (stage : reading.stage = .callEnd call) :
    reading.Continues context .closeParen := by
  have step : step? context reading .closeParen = some (reading.add call) := by simp [step?, stage]
  exact continues_of_result? step rfl

theorem continues_of_execName (stage : reading.stage = .execName) (name : List Char) :
    reading.Continues context (.name name) := by
  have step : step? context reading (.name name) =
      some { reading with stage := .callEnd (.executable ⟨String.ofList name⟩) } := by
    simp [step?, stage]
  exact .cons step (continues_of_callEnd rfl) trivial

theorem continues_of_completeName (stage : reading.stage = .completeName)
    (admitted : Expected.deliverable.Admits token) : reading.Continues context token := by
  rcases admitted with rfl | ⟨name, rfl⟩
  · have step : step? context reading .star =
        some { reading with stage := .callEnd (.allFeedbackCompleted context) } := by
      simp [step?, stage]
    exact .cons step (continues_of_callEnd rfl) trivial
  · have step : step? context reading (.name name) =
        some { reading with stage := .callEnd (.feedbackCompleted ⟨String.ofList name⟩) } := by
      simp [step?, stage]
    exact .cons step (continues_of_callEnd rfl) trivial

/-- Each opener begins a level that may stay blank, is an operand, or begins a call. -/
theorem continues_of_opener (ready : reading.stage = .start ∨ reading.stage = .operand)
    (opener : token ∈ Token.openers) : reading.Continues context token := by
  simp only [Token.openers, List.mem_cons, List.not_mem_nil, or_false] at opener
  rcases opener with rfl | rfl | rfl | rfl | rfl
  · exact continues_of_result? (step?_opens .openParen ready rfl) rfl
  · exact continues_of_result? (step?_opens .bang ready rfl) rfl
  · exact .cons (step?_opens .completeOpen ready rfl)
      (continues_of_completeName rfl (.inl rfl)) trivial
  · have lawful : (Token.name ['A']).Lawful := (by decide : isIdName ['A'] = true)
    exact .cons (step?_opens .execOpen ready rfl) (continues_of_execName rfl _) lawful
  · exact continues_of_result? (step?_opens .always ready rfl) rfl

/-- Where the innermost level may end and a parenthesis is open, this can be closed. -/
theorem continues_of_parens (ended : reading.result? = some result)
    (opened : 0 < parens reading.outer) : reading.Continues context .closeParen := by
  have completes : reading.Completes context _ := completes_of_result? ended
  obtain ⟨count, opened⟩ := Nat.exists_eq_add_of_lt opened
  rw [opened, Nat.zero_add, List.replicate_succ] at completes
  exact ⟨_, fun _ => lawful_of_mem_replicate, completes⟩

/-- A parenthesis is open. -/
theorem parens_pos_iff {outer : List (Opener × Chain)} :
    0 < parens outer ↔ (outer.any fun level => level.1 = .paren) = true := by
  rw [parens, List.countP_pos_iff, List.any_eq_true]

/-- Whatever a reading waits for can come next. -/
theorem continues_of_admits (admitted : reading.expected.Admits token) :
    reading.Continues context token := by
  have closing (result : Precondition) (ended : reading.result? = some result)
      (waits : reading.expected =
        if reading.outer.any fun level => level.1 = .paren then .closeParen else .endOfInput) :
      reading.Continues context token := by
    rw [waits] at admitted
    split at admitted
    · rename_i opened
      obtain rfl : token = .closeParen := admitted
      exact continues_of_parens ended (parens_pos_iff.mpr opened)
    · cases admitted
  obtain ⟨stage, chain, outer⟩ := reading
  cases stage with
  | start => exact closing .always rfl rfl
  | operator => exact closing chain.result rfl rfl
  | operand => exact continues_of_opener (.inr rfl) admitted
  | execName =>
    obtain ⟨name, rfl⟩ := admitted
    exact continues_of_execName rfl name
  | completeName => exact continues_of_completeName rfl admitted
  | callEnd call =>
    obtain rfl : token = .closeParen := admitted
    exact continues_of_callEnd rfl

/-- Where a reading waits for the end of the text, the text may end. -/
theorem completes_of_endOfInput (waits : reading.expected = .endOfInput) :
    reading.Completes context [] := by
  have balanced (result : Precondition) (ended : reading.result? = some result)
      (closed : ¬ (reading.outer.any fun level => level.1 = .paren) = true) :
      reading.Completes context [] := by
    have completes : reading.Completes context _ := completes_of_result? ended
    rw [← parens_pos_iff, Nat.not_lt, Nat.le_zero] at closed
    rwa [closed, List.replicate_zero] at completes
  obtain ⟨stage, chain, outer⟩ := reading
  cases stage with
  | start =>
    apply balanced .always rfl
    intro opened
    simp [expected, opened] at waits
  | operator =>
    apply balanced chain.result rfl
    intro opened
    simp [expected, opened] at waits
  | _ => cases waits

/-! ## Names -/

/-- A name is read only within a call, whose parenthesis comes next. -/
theorem stage_of_name {name : List Char} (step : step? context reading (.name name) = some next) :
    ∃ call, next.stage = .callEnd call := by
  obtain ⟨stage, chain, outer⟩ := reading
  cases stage with
  | execName | completeName =>
    cases step
    exact ⟨_, rfl⟩
  | _ => cases step

theorem eq_closeParen_of_callEnd {call : Precondition} (stage : reading.stage = .callEnd call)
    (step : step? context reading token = some next) : token = .closeParen := by
  cases token with
  | closeParen => rfl
  | _ => simp [step?, stage] at step

/-- Tokens that are read up to a place outside a call close each name at once. -/
theorem namesClosed_of_steps? (run : steps? context reading tokens = some next)
    (outside : ∀ call, next.stage ≠ .callEnd call) : NamesClosed tokens := by
  induction tokens generalizing reading with
  | nil => trivial
  | cons token rest ih =>
    obtain ⟨middle, step, runRest⟩ := Option.bind_eq_some_iff.mp run
    have closed := ih runRest
    cases token with
    | name text =>
      refine ⟨?_, closed⟩
      obtain ⟨call, inside⟩ := stage_of_name step
      cases rest with
      | nil =>
        obtain rfl : middle = next := Option.some.inj runRest
        exact absurd inside (outside call)
      | cons second others =>
        obtain ⟨_, stepSecond, _⟩ := Option.bind_eq_some_iff.mp runRest
        rw [eq_closeParen_of_callEnd inside stepSecond]
        rfl
    | _ => exact closed

theorem Completes.namesClosed (completes : reading.Completes context tokens) :
    NamesClosed tokens := by
  obtain ⟨last, meaning, run, ended⟩ := completes
  apply namesClosed_of_steps? run
  intro call stage
  simp [meaning?, result?, stage] at ended

end Reading

end ProcessFlow
