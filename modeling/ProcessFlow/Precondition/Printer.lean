import ProcessFlow.Precondition.Token

/-! # Written form of preconditions

A precondition is written as a list of tokens, with blanks around `&&` and `||` only. Operands of
`&&` and `||` that are compound stand in parentheses, and so does every operand of `!`.
-/

namespace ProcessFlow

def Token.printed : Token → List Char
  | .both => [' ', '&', '&', ' ']
  | .either => [' ', '|', '|', ' ']
  | token => token.spelling

namespace Precondition

/-- Whether a precondition needs parentheses as an operand. -/
def isCompound : Precondition → Bool
  | .all _ | .any _ | .not _ => true
  | _ => false

mutual

def tokens : Precondition → List Token
  | .always => [.always]
  | .executable target => [.execOpen, .name target.text.toList, .closeParen]
  | .feedbackCompleted source => [.completeOpen, .name source.text.toList, .closeParen]
  | .allFeedbackCompleted _ => [.completeOpen, .star, .closeParen]
  | .all children => List.intercalate [.both] (operandTokens children)
  | .any children => List.intercalate [.either] (operandTokens children)
  | .not child => .bang :: .openParen :: child.tokens ++ [.closeParen]

/-- The tokens of each operand of a list, in parentheses where it is compound. -/
def operandTokens : List Precondition → List (List Token)
  | [] => []
  | child :: rest =>
    (if child.isCompound then .openParen :: child.tokens ++ [.closeParen] else child.tokens) ::
      operandTokens rest

end

def chars (precondition : Precondition) : List Char := precondition.tokens.flatMap Token.printed

def text (precondition : Precondition) : String := String.ofList precondition.chars

end Precondition

end ProcessFlow
