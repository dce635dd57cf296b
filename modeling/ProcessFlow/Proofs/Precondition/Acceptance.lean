import ProcessFlow.Proofs.Precondition.Grammar

/-! # Every derivation is read

The reading of a text never goes back: it decides at each token. It stops at no token of a
derivation, greedy or not. What matters for this is only how many parentheses are open, and whether
an operand has just been completed.
-/

namespace ProcessFlow

namespace Reading

variable {context : ProcessId} {reading next : Reading} {token : Token}

/-! ## Runs over tokens -/

def steps? (context : ProcessId) : Reading → List Token → Option Reading
  | reading, [] => some reading
  | reading, token :: rest => (step? context reading token).bind (steps? context · rest)

theorem steps?_append (first second : List Token) :
    steps? context reading (first ++ second) =
      (steps? context reading first).bind (steps? context · second) := by
  induction first generalizing reading with
  | nil => rfl
  | cons token rest ih => simp only [List.cons_append, steps?, ih, Option.bind_assoc]

/-- What a reading means when the text ends here. -/
def meaning? (reading : Reading) : Option Precondition :=
  reading.result?.bind (finish? · reading.outer)

theorem run_eq_ok_iff {stop : List Char} {lexemes : List Lexeme} {meaning : Precondition} :
    run context stop reading lexemes = .ok meaning ↔
      stop = [] ∧ ∃ last, steps? context reading (lexemes.map (·.token)) = some last ∧
        last.meaning? = some meaning := by
  induction lexemes generalizing reading with
  | nil =>
    simp only [run, List.map_nil, steps?, Option.some.injEq, exists_eq_left', meaning?]
    by_cases whole : stop = []
    · rw [if_pos whole]
      cases reading.result?.bind (finish? · reading.outer) <;> simp [whole]
    · simp [whole]
  | cons lexeme rest ih =>
    simp only [run, List.map_cons, steps?]
    cases step? context reading lexeme.token with
    | none => simp
    | some next => exact ih

/-! ## Single steps -/

/-- At the start of a level or after an operator, a primary may begin. -/
theorem step?_opens (token : Token) (ready : reading.stage = .start ∨ reading.stage = .operand)
    (opens : reading.openPrimary? token = some next) : step? context reading token = some next := by
  rcases ready with stage | stage <;> simp [step?, stage, opens]

theorem step?_both (complete : reading.beforeOperator? = some next) :
    step? context reading .both = some { next with stage := .operand } := by
  obtain ⟨stage, chain, outer⟩ := reading
  cases stage with
  | start | operator => simp [step?, openPrimary?, continue?, complete]
  | _ => simp [beforeOperator?] at complete

theorem step?_either (complete : reading.beforeOperator? = some next) :
    step? context reading .either =
      some { next with stage := .operand, chain := next.chain.closeAlternative } := by
  obtain ⟨stage, chain, outer⟩ := reading
  cases stage with
  | start | operator => simp [step?, openPrimary?, continue?, complete]
  | _ => simp [beforeOperator?] at complete

theorem step?_closeParen {result : Precondition} (ended : reading.result? = some result) :
    step? context reading .closeParen = closeParen? result reading.outer := by
  obtain ⟨stage, chain, outer⟩ := reading
  cases stage with
  | start | operator => simp [step?, openPrimary?, continue?, ended]
  | _ => simp [result?] at ended

/-! ## Counting parentheses -/

def parens (outer : List (Opener × Chain)) : Nat := outer.countP fun level => level.1 = .paren

@[simp] theorem parens_paren (chain : Chain) (outer : List (Opener × Chain)) :
    parens ((.paren, chain) :: outer) = parens outer + 1 := by simp [parens]

@[simp] theorem parens_bang (chain : Chain) (outer : List (Opener × Chain)) :
    parens ((.bang, chain) :: outer) = parens outer := by simp [parens]

/-- An open parenthesis may be closed. -/
theorem exists_closeParen? {outer : List (Opener × Chain)} {count : Nat}
    (opened : parens outer = count + 1) (result : Precondition) :
    ∃ chain rest, closeParen? result outer = some ⟨.operator, chain, rest⟩ ∧ parens rest = count := by
  induction outer generalizing result with
  | nil => cases opened
  | cons level outer ih =>
    obtain ⟨opener, chain⟩ := level
    cases opener with
    | paren => exact ⟨chain.add result, outer, rfl, by simpa using opened⟩
    | bang => exact ih (by simpa using opened) _

/-- Without an open parenthesis the text may end. -/
theorem exists_finish? {outer : List (Opener × Chain)} (balanced : parens outer = 0)
    (result : Precondition) : ∃ meaning, finish? result outer = some meaning := by
  induction outer generalizing result with
  | nil => exact ⟨result, rfl⟩
  | cons level outer ih =>
    obtain ⟨opener, chain⟩ := level
    cases opener with
    | paren => simp at balanced
    | bang => exact ih (by simpa using balanced) _

/-- An operator may follow. -/
def Complete (reading : Reading) : Prop := ∃ next, reading.beforeOperator? = some next

theorem parens_beforeOperator? (complete : reading.beforeOperator? = some next) :
    parens next.outer = parens reading.outer := by
  obtain ⟨stage, chain, outer⟩ := reading
  cases stage with
  | operator =>
    cases complete
    rfl
  | start =>
    match outer, complete with
    | (.bang, before) :: outer, complete =>
      cases complete
      simp
  | _ => simp [beforeOperator?] at complete

theorem Complete.result? (complete : reading.Complete) : ∃ result, reading.result? = some result := by
  obtain ⟨next, complete⟩ := complete
  obtain ⟨stage, chain, outer⟩ := reading
  cases stage with
  | start | operator => exact ⟨_, rfl⟩
  | _ => simp [beforeOperator?] at complete

/-! ## Derivations -/

/-- Where a reading stands after a phrase: an operator may follow, or the phrase was blank. -/
def Passed (phrase : Phrase) (reading last : Reading) : Prop :=
  match phrase with
  | .precondition _ => last = reading ∨ last.Complete
  | _ => last.Complete

/-- A reading gets through each phrase of the grammar, and no parenthesis stays open from it. -/
theorem exists_steps? {greedy trailing : Bool} {phrase : Phrase} {tokens : List Token}
    (derives : Derives context greedy phrase trailing tokens) (reading : Reading)
    (ready : reading.stage = .start ∨ reading.stage = .operand) :
    ∃ last, steps? context reading tokens = some last ∧ parens last.outer = parens reading.outer ∧
      Passed phrase reading last := by
  induction derives generalizing reading with
  | blank => exact ⟨reading, rfl, rfl, .inl rfl⟩
  | solid _ ih =>
    obtain ⟨last, run, same, complete⟩ := ih reading ready
    exact ⟨last, run, same, .inr complete⟩
  | alternative _ ih => exact ih reading ready
  | operand _ ih => exact ih reading ready
  | either _ _ _ ihLeft ihRight =>
    obtain ⟨middle, runLeft, sameLeft, next, complete⟩ := ihLeft reading ready
    obtain ⟨last, runRight, sameRight, passed⟩ := ihRight
      { next with stage := .operand, chain := next.chain.closeAlternative } (.inr rfl)
    refine ⟨last, ?_, ?_, passed⟩
    · rw [steps?_append, runLeft, Option.bind_some, steps?, step?_either complete, Option.bind_some,
        runRight]
    · have kept := parens_beforeOperator? complete
      exact sameRight.trans (kept.trans sameLeft)
  | both _ _ _ ihLeft ihRight =>
    obtain ⟨middle, runLeft, sameLeft, next, complete⟩ := ihLeft reading ready
    obtain ⟨last, runRight, sameRight, passed⟩ := ihRight
      { next with stage := .operand } (.inr rfl)
    refine ⟨last, ?_, ?_, passed⟩
    · rw [steps?_append, runLeft, Option.bind_some, steps?, step?_both complete, Option.bind_some,
        runRight]
    · have kept := parens_beforeOperator? complete
      exact sameRight.trans (kept.trans sameLeft)
  | paren _ ih =>
    obtain ⟨middle, run, same, passed⟩ := ih (reading.descend .paren) (.inl rfl)
    have ended : ∃ result, middle.result? = some result := by
      rcases passed with rfl | complete
      · exact ⟨.always, rfl⟩
      · exact complete.result?
    obtain ⟨result, ended⟩ := ended
    obtain ⟨chain, rest, closed, count⟩ := exists_closeParen?
      (same.trans (parens_paren reading.chain reading.outer)) result
    refine ⟨⟨.operator, chain, rest⟩, ?_, count, _, rfl⟩
    rw [List.cons_append, steps?, step?_opens .openParen ready rfl, Option.bind_some,
      steps?_append, run, Option.bind_some, steps?, step?_closeParen ended, closed, Option.bind_some,
      steps?]
  | completeAll =>
    refine ⟨reading.add (.allFeedbackCompleted context), ?_, rfl, _, rfl⟩
    rw [steps?, step?_opens .completeOpen ready rfl]
    rfl
  | complete name =>
    refine ⟨reading.add (.feedbackCompleted ⟨String.ofList name⟩), ?_, rfl, _, rfl⟩
    rw [steps?, step?_opens .completeOpen ready rfl]
    rfl
  | exec name =>
    refine ⟨reading.add (.executable ⟨String.ofList name⟩), ?_, rfl, _, rfl⟩
    rw [steps?, step?_opens .execOpen ready rfl]
    rfl
  | bang _ ih =>
    obtain ⟨last, run, same, passed⟩ := ih (reading.descend .bang) (.inl rfl)
    refine ⟨last, ?_, same.trans (parens_bang reading.chain reading.outer), ?_⟩
    · rw [steps?, step?_opens .bang ready rfl, Option.bind_some, run]
    · rcases passed with rfl | complete
      · exact ⟨_, rfl⟩
      · exact complete
  | always =>
    refine ⟨reading.add .always, ?_, rfl, _, rfl⟩
    rw [steps?, step?_opens .always ready rfl]
    rfl

/-- What the grammar derives as a precondition has a meaning. -/
theorem exists_meaning? {greedy trailing : Bool} {meaning : Precondition} {tokens : List Token}
    (derives : Derives context greedy (.precondition meaning) trailing tokens) :
    ∃ last, steps? context initial tokens = some last ∧ ∃ meaning, last.meaning? = some meaning := by
  obtain ⟨last, run, same, passed⟩ := exists_steps? derives initial (.inl rfl)
  have ended : ∃ result, last.result? = some result := by
    rcases passed with rfl | complete
    · exact ⟨.always, rfl⟩
    · exact complete.result?
  obtain ⟨result, ended⟩ := ended
  obtain ⟨meaning, finished⟩ := exists_finish? same result
  exact ⟨last, run, meaning, by rw [meaning?, ended, Option.bind_some, finished]⟩

end Reading

end ProcessFlow
