import ProcessFlow.Precondition.Parser
import ProcessFlow.Proofs.Precondition.Spelling

/-! # The grammar of preconditions

`Derives` is the grammar with the meaning of each of its phrases, said of tokens and apart from any
way of reading them. It leaves open how far an operand of `!` goes: `!\exec(A) && \exec(B)` is also
the conjunction of `!\exec(A)` and `\exec(B)`. The greedy derivations settle this. In them no
operator follows a `!` that has an operand, so the operand goes on to the end of its level, which is
the enclosing `)` or the end of the text.
-/

namespace ProcessFlow

namespace Precondition

/-- The meaning of a chain of operands at one level; one operand stands for itself. -/
def chainOf (junction : List Precondition → Precondition) : List Precondition → Precondition
  | [operand] => operand
  | operands => junction operands

def conjunctionOf : List Precondition → Precondition := chainOf .all

def disjunctionOf : List Precondition → Precondition := chainOf .any

end Precondition

/-- A part of the grammar with its meaning. -/
inductive Phrase where
  | precondition (meaning : Precondition)
  | disjunction (alternatives : List Precondition)
  | conjunction (operands : List Precondition)
  | primary (meaning : Precondition)

/-- The grammar. Beside each phrase stands whether it ends with a `!` that has an operand; in a
greedy derivation no operator follows such a phrase. The context is the process that
`\complete(*)` refers to. -/
inductive Derives (context : ProcessId) (greedy : Bool) : Phrase → Bool → List Token → Prop
  | blank : Derives context greedy (.precondition .always) false []
  | solid {alternatives : List Precondition} {trailing : Bool} {tokens : List Token}
      (body : Derives context greedy (.disjunction alternatives) trailing tokens) :
      Derives context greedy (.precondition (.disjunctionOf alternatives)) trailing tokens
  | alternative {operands : List Precondition} {trailing : Bool} {tokens : List Token}
      (only : Derives context greedy (.conjunction operands) trailing tokens) :
      Derives context greedy (.disjunction [.conjunctionOf operands]) trailing tokens
  | either {operands alternatives : List Precondition} {first trailing : Bool}
      {tokens rest : List Token}
      (left : Derives context greedy (.conjunction operands) first tokens)
      (ended : greedy = true → first = false)
      (right : Derives context greedy (.disjunction alternatives) trailing rest) :
      Derives context greedy (.disjunction (.conjunctionOf operands :: alternatives)) trailing
        (tokens ++ .either :: rest)
  | operand {meaning : Precondition} {trailing : Bool} {tokens : List Token}
      (only : Derives context greedy (.primary meaning) trailing tokens) :
      Derives context greedy (.conjunction [meaning]) trailing tokens
  | both {meaning : Precondition} {operands : List Precondition} {first trailing : Bool}
      {tokens rest : List Token}
      (left : Derives context greedy (.primary meaning) first tokens)
      (ended : greedy = true → first = false)
      (right : Derives context greedy (.conjunction operands) trailing rest) :
      Derives context greedy (.conjunction (meaning :: operands)) trailing
        (tokens ++ .both :: rest)
  | paren {meaning : Precondition} {trailing : Bool} {tokens : List Token}
      (inner : Derives context greedy (.precondition meaning) trailing tokens) :
      Derives context greedy (.primary meaning) false (.openParen :: tokens ++ [.closeParen])
  | completeAll : Derives context greedy (.primary (.allFeedbackCompleted context)) false
      [.completeOpen, .star, .closeParen]
  | complete (name : List Char) :
      Derives context greedy (.primary (.feedbackCompleted ⟨String.ofList name⟩)) false
        [.completeOpen, .name name, .closeParen]
  | exec (name : List Char) :
      Derives context greedy (.primary (.executable ⟨String.ofList name⟩)) false
        [.execOpen, .name name, .closeParen]
  | bang {meaning : Precondition} {trailing : Bool} {tokens : List Token}
      (inner : Derives context greedy (.precondition meaning) trailing tokens) :
      Derives context greedy (.primary (.not meaning)) (!tokens.isEmpty) (.bang :: tokens)
  | always : Derives context greedy (.primary .always) false [.always]

/-- The text is written with tokens that the grammar derives as a precondition of this meaning. -/
def Denotes (context : ProcessId) (greedy : Bool) (text : String) (meaning : Precondition) : Prop :=
  ∃ tokens trailing, Writes tokens text.toList ∧
    Derives context greedy (.precondition meaning) trailing tokens

namespace Derives

variable {context : ProcessId} {greedy : Bool} {phrase : Phrase} {trailing : Bool}
  {tokens : List Token}

/-- The grammar closes each name at once. -/
theorem namesClosed (derives : Derives context greedy phrase trailing tokens) :
    NamesClosed tokens := by
  induction derives with
  | blank => exact trivial
  | solid _ ih => exact ih
  | alternative _ ih => exact ih
  | either _ _ _ left right => exact left.append right
  | operand _ ih => exact ih
  | both _ _ _ left right => exact left.append right
  | paren _ ih => exact .append ih trivial
  | completeAll => exact trivial
  | complete name => exact ⟨rfl, trivial⟩
  | exec name => exact ⟨rfl, trivial⟩
  | bang _ ih => exact ih
  | always => exact trivial

end Derives

end ProcessFlow
