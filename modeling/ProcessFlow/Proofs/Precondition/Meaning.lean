import ProcessFlow.Proofs.Precondition.Acceptance

/-! # Greedy derivations are read with their meaning

The reading gives each `!` all that follows at its level. Until the level ends, the chain around an
open `!` stays on the stack, so a reading is compared with a phrase by what it amounts to once the
levels that `!` opened have ended.
-/

namespace ProcessFlow

/-! ## Chains -/

theorem Precondition.chainOf_reverse (junction : List Precondition → Precondition)
    (operands : List Precondition) : chainOf junction operands.reverse =
      match operands with
      | [operand] => operand
      | operands => junction operands.reverse := by
  match operands with
  | [] => rfl
  | [_] => rfl
  | first :: second :: rest =>
    have several : ∀ operand, (first :: second :: rest).reverse ≠ [operand] := by
      intro operand single
      have := congrArg List.length single
      simp at this
    rw [chainOf]
    exact several

theorem Precondition.conjunctionOf_reverse (operands : List Precondition) :
    conjunctionOf operands.reverse = Chain.conjunction operands := chainOf_reverse .all operands

theorem Precondition.disjunctionOf_reverse (alternatives : List Precondition) :
    disjunctionOf alternatives.reverse = Chain.disjunction alternatives :=
  chainOf_reverse .any alternatives

/-- Add operands to the conjunction being read, in their order. -/
def Chain.addAll (chain : Chain) (operands : List Precondition) : Chain :=
  { chain with operands := operands.reverse ++ chain.operands }

theorem Chain.addAll_addAll (chain : Chain) (first second : List Precondition) :
    (chain.addAll first).addAll second = chain.addAll (first ++ second) := by
  simp [addAll]

/-! ## Phrases -/

/-- No phrase is blank but a precondition. -/
theorem Derives.tokens_ne_nil {context : ProcessId} {greedy trailing : Bool} {phrase : Phrase}
    {tokens : List Token} (derives : Derives context greedy phrase trailing tokens)
    (solid : ∀ meaning, phrase ≠ .precondition meaning) : tokens ≠ [] := by
  induction derives with
  | blank => exact absurd rfl (solid _)
  | solid _ _ => exact absurd rfl (solid _)
  | alternative _ ih => exact ih nofun
  | operand _ ih => exact ih nofun
  | _ => simp

theorem Derives.eq_always {context : ProcessId} {greedy trailing : Bool} {meaning : Precondition}
    (derives : Derives context greedy (.precondition meaning) trailing []) : meaning = .always := by
  cases derives with
  | blank => rfl
  | solid body => exact absurd rfl (body.tokens_ne_nil nofun)

namespace Reading

variable {context : ProcessId}

/-- Once the levels end that `!` opened within it, the reading comes to this result inside the outer
levels. -/
structure AmountsTo (reading : Reading) (result : Precondition) (outer : List (Opener × Chain)) :
    Prop where
  closes : reading.result?.bind (closeParen? · reading.outer) = closeParen? result outer
  finishes : reading.meaning? = finish? result outer

/-- From wherever a primary may begin, the tokens add the operands to the chain; and if they do not
trail, an operator may follow. -/
def ReadsOperands (context : ProcessId) (operands : List Precondition) (trailing : Bool)
    (tokens : List Token) : Prop :=
  ∀ stage chain outer, (stage = .start ∨ stage = .operand) →
    ∃ last, steps? context ⟨stage, chain, outer⟩ tokens = some last ∧
      last.AmountsTo (chain.addAll operands).result outer ∧
      (trailing = false → last.beforeOperator? = some ⟨.operator, chain.addAll operands, outer⟩)

/-- The tokens of a phrase are read with its meaning. -/
def Reads (context : ProcessId) (phrase : Phrase) (trailing : Bool) (tokens : List Token) : Prop :=
  match phrase with
  | .precondition meaning => ∀ outer, ∃ last,
      steps? context ⟨.start, .start, outer⟩ tokens = some last ∧ last.AmountsTo meaning outer
  | .disjunction alternatives => ∀ stage before outer, (stage = .start ∨ stage = .operand) →
      ∃ last, steps? context ⟨stage, ⟨before, []⟩, outer⟩ tokens = some last ∧
        last.AmountsTo (Chain.disjunction (alternatives.reverse ++ before)) outer
  | .conjunction operands => ReadsOperands context operands trailing tokens
  | .primary meaning => ReadsOperands context [meaning] trailing tokens

theorem amountsTo_operator (chain : Chain) (outer : List (Opener × Chain)) :
    (Reading.mk .operator chain outer).AmountsTo chain.result outer := ⟨rfl, rfl⟩

theorem readsOperands_leaf {meaning : Precondition} {tokens : List Token}
    (run : ∀ stage chain outer, (stage = .start ∨ stage = .operand) →
      steps? context ⟨stage, chain, outer⟩ tokens = some ⟨.operator, chain.add meaning, outer⟩) :
    ReadsOperands context [meaning] false tokens := fun stage chain outer ready =>
  ⟨_, run stage chain outer ready, amountsTo_operator _ outer, fun _ => rfl⟩

theorem reads_of_derives {phrase : Phrase} {trailing : Bool} {tokens : List Token}
    (derives : Derives context true phrase trailing tokens) :
    Reads context phrase trailing tokens := by
  induction derives with
  | blank => exact fun outer => ⟨_, rfl, rfl, rfl⟩
  | solid _ ih =>
    rename_i alternatives _ _ _
    intro outer
    obtain ⟨last, run, amounts⟩ := ih .start [] outer (.inl rfl)
    rw [List.append_nil, ← Precondition.disjunctionOf_reverse, List.reverse_reverse] at amounts
    exact ⟨last, run, amounts⟩
  | alternative _ ih =>
    intro stage before outer ready
    obtain ⟨last, run, amounts, _⟩ := ih stage ⟨before, []⟩ outer ready
    refine ⟨last, run, ?_⟩
    simpa [Chain.addAll, Chain.result, ← Precondition.conjunctionOf_reverse] using amounts
  | either _ ended _ ihLeft ihRight =>
    intro stage before outer ready
    obtain ⟨middle, runLeft, _, follows⟩ := ihLeft stage ⟨before, []⟩ outer ready
    have complete := follows (ended rfl)
    obtain ⟨last, runRight, amounts⟩ := ihRight .operand _ outer (.inr rfl)
    refine ⟨last, ?_, ?_⟩
    · rw [steps?_append, runLeft, Option.bind_some, steps?, step?_either complete, Option.bind_some]
      exact runRight
    · simpa [Chain.addAll, ← Precondition.conjunctionOf_reverse] using amounts
  | operand _ ih => exact ih
  | both _ ended _ ihLeft ihRight =>
    rename_i meaning _ _ _ _ _ _ _
    intro stage chain outer ready
    obtain ⟨middle, runLeft, _, follows⟩ := ihLeft stage chain outer ready
    have complete := follows (ended rfl)
    obtain ⟨last, runRight, amounts, followsRight⟩ :=
      ihRight .operand (chain.addAll [meaning]) outer (.inr rfl)
    rw [Chain.addAll_addAll, List.singleton_append] at amounts followsRight
    refine ⟨last, ?_, amounts, followsRight⟩
    rw [steps?_append, runLeft, Option.bind_some, steps?, step?_both complete, Option.bind_some]
    exact runRight
  | paren _ ih =>
    rename_i meaning _ _ _
    apply readsOperands_leaf
    intro stage chain outer ready
    obtain ⟨middle, run, closes, _⟩ := ih ((.paren, chain) :: outer)
    obtain ⟨result, ended, closed⟩ := Option.bind_eq_some_iff.mp closes
    rw [List.cons_append, steps?, step?_opens .openParen ready rfl, Option.bind_some, steps?_append]
    change (steps? context ⟨.start, .start, (.paren, chain) :: outer⟩ _).bind _ = _
    rw [run, Option.bind_some, steps?, step?_closeParen ended, closed]
    rfl
  | completeAll =>
    apply readsOperands_leaf
    intro stage chain outer ready
    rw [steps?, step?_opens .completeOpen ready rfl]
    rfl
  | complete name =>
    apply readsOperands_leaf
    intro stage chain outer ready
    rw [steps?, step?_opens .completeOpen ready rfl]
    rfl
  | exec name =>
    apply readsOperands_leaf
    intro stage chain outer ready
    rw [steps?, step?_opens .execOpen ready rfl]
    rfl
  | always =>
    apply readsOperands_leaf
    intro stage chain outer ready
    rw [steps?, step?_opens .always ready rfl]
    rfl
  | bang inner ih =>
    intro stage chain outer ready
    obtain ⟨last, run, closes, finishes⟩ := ih ((.bang, chain) :: outer)
    refine ⟨last, ?_, ⟨closes, finishes⟩, fun empty => ?_⟩
    · rw [steps?, step?_opens .bang ready rfl, Option.bind_some]
      exact run
    · -- without an operand the `!` is still the innermost level, and closes at the operator
      rw [Bool.not_eq_false', List.isEmpty_iff] at empty
      subst empty
      cases run
      rw [inner.eq_always]
      rfl

/-- A text of greedily derived tokens has the meaning of the derivation. -/
theorem meaning?_of_derives {meaning : Precondition} {trailing : Bool} {tokens : List Token}
    (derives : Derives context true (.precondition meaning) trailing tokens) :
    ∃ last, steps? context initial tokens = some last ∧ last.meaning? = some meaning := by
  obtain ⟨last, run, _, finishes⟩ := reads_of_derives derives []
  exact ⟨last, run, finishes⟩

end Reading

end ProcessFlow
