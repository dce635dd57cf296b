import ProcessFlow.Proofs.Precondition.Meaning

/-! # What a reading represents

A reading in progress represents a greedy derivation that is not finished: for each open level the
operands before its opener, and within the innermost level what the stage says. Each step keeps this,
so tokens with a meaning are derived with that meaning.
-/

namespace ProcessFlow

variable {context : ProcessId}

/-! ## Parts before their operator -/

/-- The tokens are parts of a chain, given latest first, each with the operator after it. -/
inductive Leading (part : Precondition → List Token → Prop) (operator : Token) :
    List Precondition → List Token → Prop
  | nil : Leading part operator [] []
  | snoc {meanings : List Precondition} {meaning : Precondition} {tokens more : List Token}
      (before : Leading part operator meanings tokens) (last : part meaning more) :
      Leading part operator (meaning :: meanings) (tokens ++ (more ++ [operator]))

/-- What holds of the rest of a chain, and is kept by each part put before it, holds of the whole. -/
theorem Leading.extend {part : Precondition → List Token → Prop} {operator : Token}
    (whole : List Precondition → List Token → Prop)
    (join : ∀ {meaning others more rest}, part meaning more → whole others rest →
      whole (meaning :: others) (more ++ operator :: rest))
    {meanings others : List Precondition} {tokens rest : List Token}
    (leading : Leading part operator meanings tokens) (last : whole others rest) :
    whole (meanings.reverse ++ others) (tokens ++ rest) := by
  induction leading generalizing others rest with
  | nil => exact last
  | snoc _ part ih =>
    have extended := ih (join part last)
    simpa only [List.reverse_cons, List.append_assoc, List.singleton_append] using extended

/-- Operands, each with an `&&` after it. -/
def LeadingOperands (context : ProcessId) : List Precondition → List Token → Prop :=
  Leading (fun meaning => Derives context true (.primary meaning) false) .both

/-- Conjunctions, each with an `||` after it. -/
def LeadingAlternatives (context : ProcessId) : List Precondition → List Token → Prop :=
  Leading (fun meaning tokens => ∃ operands, .conjunctionOf operands = meaning ∧
    Derives context true (.conjunction operands) false tokens) .either

theorem LeadingOperands.extend {operands others : List Precondition} {tokens more : List Token}
    {trailing : Bool} (leading : LeadingOperands context operands tokens)
    (last : Derives context true (.conjunction others) trailing more) :
    Derives context true (.conjunction (operands.reverse ++ others)) trailing (tokens ++ more) := by
  apply Leading.extend (fun all => Derives context true (.conjunction all) trailing) _ leading last
  intro _ _ _ _ first rest
  exact .both first (fun _ => rfl) rest

theorem LeadingAlternatives.extend {alternatives others : List Precondition}
    {tokens more : List Token} {trailing : Bool}
    (leading : LeadingAlternatives context alternatives tokens)
    (last : Derives context true (.disjunction others) trailing more) :
    Derives context true (.disjunction (alternatives.reverse ++ others)) trailing
      (tokens ++ more) := by
  apply Leading.extend (fun all => Derives context true (.disjunction all) trailing) _ leading last
  rintro _ _ _ _ ⟨operands, rfl, first⟩ rest
  exact .either first (fun _ => rfl) rest

/-! ## One level -/

/-- The tokens of a level up to a place where an operand comes next. -/
def Awaits (context : ProcessId) (chain : Chain) (tokens : List Token) : Prop :=
  ∃ closed current, tokens = closed ++ current ∧
    LeadingAlternatives context chain.alternatives closed ∧
    LeadingOperands context chain.operands current

namespace Awaits

variable {chain : Chain} {tokens more : List Token} {meaning : Precondition} {trailing : Bool}

theorem start : Awaits context .start [] := ⟨[], [], rfl, Leading.nil, Leading.nil⟩

/-- With one more operand the conjunction is complete. -/
theorem conjunction {operands : List Precondition}
    (leading : LeadingOperands context operands tokens)
    (last : Derives context true (.primary meaning) trailing more) :
    ∃ all, Derives context true (.conjunction all) trailing (tokens ++ more) ∧
      Precondition.conjunctionOf all = Chain.conjunction (meaning :: operands) := by
  refine ⟨_, leading.extend (.operand last), ?_⟩
  rw [← List.reverse_cons, Precondition.conjunctionOf_reverse]

theorem both (awaits : Awaits context chain tokens)
    (last : Derives context true (.primary meaning) false more) :
    Awaits context (chain.add meaning) (tokens ++ more ++ [.both]) := by
  obtain ⟨closed, current, rfl, alternatives, operands⟩ := awaits
  have operandsToo : LeadingOperands context (chain.add meaning).operands
      (current ++ (more ++ [.both])) := Leading.snoc operands last
  refine ⟨closed, _, ?_, alternatives, operandsToo⟩
  simp only [List.append_assoc]

theorem either (awaits : Awaits context chain tokens)
    (last : Derives context true (.primary meaning) false more) :
    Awaits context (chain.add meaning).closeAlternative (tokens ++ more ++ [.either]) := by
  obtain ⟨closed, current, rfl, alternatives, operands⟩ := awaits
  obtain ⟨all, derives, same⟩ := conjunction operands last
  have closedToo : LeadingAlternatives context (chain.add meaning).closeAlternative.alternatives
      (closed ++ (current ++ more ++ [.either])) := Leading.snoc alternatives ⟨all, same, derives⟩
  refine ⟨_, [], ?_, closedToo, Leading.nil⟩
  simp only [List.append_assoc, List.append_nil]

/-- With one more operand the level is complete. -/
theorem complete (awaits : Awaits context chain tokens)
    (last : Derives context true (.primary meaning) trailing more) :
    Derives context true (.precondition (chain.add meaning).result) trailing (tokens ++ more) := by
  obtain ⟨closed, current, rfl, alternatives, operands⟩ := awaits
  obtain ⟨all, derives, same⟩ := conjunction operands last
  have body := alternatives.extend (.alternative derives)
  rw [same, ← List.reverse_cons, ← List.append_assoc] at body
  have whole := Derives.solid body
  rw [Precondition.disjunctionOf_reverse] at whole
  exact whole

end Awaits

def Opener.token : Opener → Token
  | .paren => .openParen
  | .bang => .bang

/-- The tokens of the open levels, each up to the opener of the next. -/
inductive Opened (context : ProcessId) : List (Opener × Chain) → List Token → Prop
  | nil : Opened context [] []
  | cons {opener : Opener} {chain : Chain} {outer : List (Opener × Chain)}
      {before tokens : List Token} (levels : Opened context outer before)
      (awaits : Awaits context chain tokens) :
      Opened context ((opener, chain) :: outer) (before ++ (tokens ++ [opener.token]))

/-- The tokens of the innermost level, as far as they have been read. -/
inductive Stands (context : ProcessId) : Stage → Chain → List Token → Prop
  | start : Stands context .start .start []
  | operand {chain : Chain} {tokens : List Token} (awaits : Awaits context chain tokens) :
      Stands context .operand chain tokens
  | operator {chain : Chain} {tokens more : List Token} {meaning : Precondition}
      (awaits : Awaits context chain tokens)
      (last : Derives context true (.primary meaning) false more) :
      Stands context .operator (chain.add meaning) (tokens ++ more)
  | execName {chain : Chain} {tokens : List Token} (awaits : Awaits context chain tokens) :
      Stands context .execName chain (tokens ++ [.execOpen])
  | completeName {chain : Chain} {tokens : List Token} (awaits : Awaits context chain tokens) :
      Stands context .completeName chain (tokens ++ [.completeOpen])
  | callEnd {chain : Chain} {tokens more : List Token} {call : Precondition}
      (awaits : Awaits context chain tokens)
      (last : Derives context true (.primary call) false (more ++ [.closeParen])) :
      Stands context (.callEnd call) chain (tokens ++ more)

/-- The reading represents these tokens. -/
def Reading.Represents (context : ProcessId) (reading : Reading) (seen : List Token) : Prop :=
  ∃ before inner, seen = before ++ inner ∧ Opened context reading.outer before ∧
    Stands context reading.stage reading.chain inner

namespace Reading

variable {reading next : Reading} {seen before inner tokens : List Token} {token : Token}
  {result : Precondition} {outer : List (Opener × Chain)}

theorem represents_initial : initial.Represents context [] := ⟨[], [], rfl, .nil, .start⟩

/-! ## Ends of levels -/

theorem derives_of_result? {stage : Stage} {chain : Chain}
    (stands : Stands context stage chain inner)
    (ended : result? ⟨stage, chain, outer⟩ = some result) :
    ∃ trailing, Derives context true (.precondition result) trailing inner := by
  cases stands with
  | start =>
    cases ended
    exact ⟨_, .blank⟩
  | operator awaits last =>
    cases ended
    exact ⟨_, awaits.complete last⟩
  | _ => cases ended

/-- A `!` takes its level as its operand, and so completes the level around it. -/
theorem derives_bang {chain : Chain} {trailing : Bool} (awaits : Awaits context chain tokens)
    (derives : Derives context true (.precondition result) trailing inner) :
    Derives context true (.precondition (chain.add (.not result)).result) (!inner.isEmpty)
      (tokens ++ [Opener.bang.token] ++ inner) := by
  rw [List.append_assoc]
  exact awaits.complete (.bang derives)

theorem represents_of_closeParen? {trailing : Bool} (opened : Opened context outer before)
    (derives : Derives context true (.precondition result) trailing inner)
    (closed : closeParen? result outer = some next) :
    next.Represents context (before ++ inner ++ [.closeParen]) := by
  induction opened generalizing result trailing inner with
  | nil => cases closed
  | cons levels awaits ih =>
    rename_i opener chain outer before tokens
    cases opener with
    | paren =>
      cases closed
      refine ⟨before, _, ?_, levels, .operator awaits (.paren derives)⟩
      simp [Opener.token]
    | bang =>
      have represents := ih (derives_bang awaits derives) closed
      simpa only [List.append_assoc] using represents

theorem derives_of_finish? {trailing : Bool} {meaning : Precondition}
    (opened : Opened context outer before)
    (derives : Derives context true (.precondition result) trailing inner)
    (finished : finish? result outer = some meaning) :
    ∃ trailing, Derives context true (.precondition meaning) trailing (before ++ inner) := by
  induction opened generalizing result trailing inner with
  | nil =>
    cases finished
    exact ⟨_, derives⟩
  | cons levels awaits ih =>
    rename_i opener chain outer before tokens
    cases opener with
    | paren => cases finished
    | bang =>
      have whole := ih (derives_bang awaits derives) finished
      simpa only [List.append_assoc] using whole

/-! ## Steps -/

/-- Closing a blank `!` leaves the tokens as they are. -/
theorem Represents.beforeOperator? (represents : reading.Represents context seen)
    (complete : reading.beforeOperator? = some next) :
    next.stage = .operator ∧ next.Represents context seen := by
  obtain ⟨before, inner, rfl, opened, stands⟩ := represents
  obtain ⟨stage, chain, outer⟩ := reading
  cases stands with
  | operator awaits last =>
    cases complete
    exact ⟨rfl, before, _, rfl, opened, .operator awaits last⟩
  | start =>
    cases opened with
    | nil => cases complete
    | cons levels awaits =>
      rename_i opener chain outer before tokens
      cases opener with
      | paren => cases complete
      | bang =>
        cases complete
        refine ⟨rfl, before, _, ?_, levels, .operator awaits (.bang .blank)⟩
        simp [Opener.token]
  | _ => cases complete

theorem represents_of_openPrimary? (opened : Opened context reading.outer before)
    (awaits : Awaits context reading.chain inner) (opens : reading.openPrimary? token = some next) :
    next.Represents context (before ++ (inner ++ [token])) := by
  cases token with
  | openParen =>
    cases opens
    have levels : Opened context ((.paren, reading.chain) :: reading.outer)
        (before ++ (inner ++ [.openParen])) := opened.cons awaits
    exact ⟨_, [], (List.append_nil _).symm, levels, .start⟩
  | bang =>
    cases opens
    have levels : Opened context ((.bang, reading.chain) :: reading.outer)
        (before ++ (inner ++ [.bang])) := opened.cons awaits
    exact ⟨_, [], (List.append_nil _).symm, levels, .start⟩
  | always =>
    cases opens
    exact ⟨before, _, rfl, opened, .operator awaits .always⟩
  | execOpen =>
    cases opens
    exact ⟨before, _, rfl, opened, .execName awaits⟩
  | completeOpen =>
    cases opens
    exact ⟨before, _, rfl, opened, .completeName awaits⟩
  | _ => cases opens

theorem Represents.continue? (represents : reading.Represents context seen)
    (continues : reading.continue? token = some next) :
    next.Represents context (seen ++ [token]) := by
  cases token with
  | both =>
    obtain ⟨⟨stage, chain, outer⟩, complete, rfl⟩ := Option.map_eq_some_iff.mp continues
    obtain ⟨operator, before, inner, rfl, opened, stands⟩ := represents.beforeOperator? complete
    cases operator
    cases stands with
    | operator awaits last =>
      exact ⟨before, _, List.append_assoc .., opened, .operand (awaits.both last)⟩
  | either =>
    obtain ⟨⟨stage, chain, outer⟩, complete, rfl⟩ := Option.map_eq_some_iff.mp continues
    obtain ⟨operator, before, inner, rfl, opened, stands⟩ := represents.beforeOperator? complete
    cases operator
    cases stands with
    | operator awaits last =>
      exact ⟨before, _, List.append_assoc .., opened, .operand (awaits.either last)⟩
  | closeParen =>
    obtain ⟨before, inner, rfl, opened, stands⟩ := represents
    obtain ⟨result, ended, closed⟩ := Option.bind_eq_some_iff.mp continues
    obtain ⟨_, derives⟩ := derives_of_result? stands ended
    exact represents_of_closeParen? opened derives closed
  | _ => cases continues

/-- Each step adds its token to those represented. -/
theorem Represents.step? (represents : reading.Represents context seen)
    (step : reading.step? context token = some next) :
    next.Represents context (seen ++ [token]) := by
  obtain ⟨before, inner, rfl, opened, stands⟩ := id represents
  obtain ⟨stage, chain, outer⟩ := reading
  rw [List.append_assoc]
  cases stands with
  | start =>
    rcases Option.or_eq_some_iff.mp step with opens | ⟨_, continues⟩
    · exact represents_of_openPrimary? opened .start opens
    · exact List.append_assoc .. ▸ represents.continue? continues
  | operand awaits => exact represents_of_openPrimary? opened awaits step
  | operator _ _ => exact List.append_assoc .. ▸ represents.continue? step
  | execName awaits =>
    rename_i tokens
    cases token with
    | name text =>
      cases step
      have called : Stands context (.callEnd (.executable ⟨String.ofList text⟩)) chain
          (tokens ++ [.execOpen, .name text]) := .callEnd awaits (.exec text)
      refine ⟨before, _, ?_, opened, called⟩
      simp
    | _ => cases step
  | completeName awaits =>
    rename_i tokens
    cases token with
    | name text =>
      cases step
      have called : Stands context (.callEnd (.feedbackCompleted ⟨String.ofList text⟩)) chain
          (tokens ++ [.completeOpen, .name text]) := .callEnd awaits (.complete text)
      refine ⟨before, _, ?_, opened, called⟩
      simp
    | star =>
      cases step
      have called : Stands context (.callEnd (.allFeedbackCompleted context)) chain
          (tokens ++ [.completeOpen, .star]) := .callEnd awaits .completeAll
      refine ⟨before, _, ?_, opened, called⟩
      simp
    | _ => cases step
  | callEnd awaits last =>
    cases token with
    | closeParen =>
      cases step
      refine ⟨before, _, ?_, opened, .operator awaits last⟩
      simp
    | _ => cases step

theorem Represents.steps? (represents : reading.Represents context seen)
    (run : steps? context reading tokens = some next) :
    next.Represents context (seen ++ tokens) := by
  induction tokens generalizing reading seen with
  | nil =>
    cases run
    rwa [List.append_nil]
  | cons token rest ih =>
    obtain ⟨middle, step, run⟩ := Option.bind_eq_some_iff.mp run
    have whole := ih (represents.step? step) run
    rwa [List.append_assoc, List.singleton_append] at whole

/-- Tokens that are read to their end are derived with the meaning found. -/
theorem derives_of_meaning? {meaning : Precondition}
    (run : steps? context initial tokens = some next) (ended : next.meaning? = some meaning) :
    ∃ trailing, Derives context true (.precondition meaning) trailing tokens := by
  obtain ⟨before, inner, whole, opened, stands⟩ := represents_initial.steps? run
  obtain ⟨result, ended, finished⟩ := Option.bind_eq_some_iff.mp ended
  obtain ⟨_, derives⟩ := derives_of_result? stands ended
  rw [List.nil_append] at whole
  rw [whole]
  exact derives_of_finish? opened derives finished

end Reading

end ProcessFlow
