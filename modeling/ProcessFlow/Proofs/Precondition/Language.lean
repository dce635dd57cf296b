import ProcessFlow.Proofs.Precondition.Representation

/-! # The language that is read

The texts that are read are those of the grammar: every derivation is read, greedy or not, and
whatever is read is derived. The meaning is that of the greedy derivation.
-/

namespace ProcessFlow

variable {context : ProcessId}

/-- Without the restriction on operators every greedy derivation remains. -/
theorem Derives.weaken {phrase : Phrase} {trailing : Bool} {tokens : List Token}
    (derives : Derives context true phrase trailing tokens) :
    Derives context false phrase trailing tokens := by
  induction derives with
  | blank => exact .blank
  | solid _ ih => exact .solid ih
  | alternative _ ih => exact .alternative ih
  | either _ _ _ left right => exact .either left nofun right
  | operand _ ih => exact .operand ih
  | both _ _ _ left right => exact .both left nofun right
  | paren _ ih => exact .paren ih
  | completeAll => exact .completeAll
  | complete name => exact .complete name
  | exec name => exact .exec name
  | bang _ ih => exact .bang ih
  | always => exact .always

namespace Precondition

theorem parse?_eq_ok_iff {text : String} {meaning : Precondition} :
    parse? context text = .ok meaning ↔ (cutTokens (skipBlank text.toList)).2 = [] ∧
      ∃ last, Reading.steps? context .initial
        ((cutTokens (skipBlank text.toList)).1.map (·.token)) = some last ∧
        last.meaning? = some meaning := by
  rw [← Reading.run_eq_ok_iff, parse?, ofChars?]
  split
  · rename_i found
    rw [found]
    constructor <;> exact fun same => by cases same; rfl
  · rename_i found
    rw [found]
    constructor <;> exact fun same => by cases same

/-- A written text is read with the meaning that its tokens have. -/
theorem parse?_of_writes {text : String} {tokens : List Token} {meaning : Precondition}
    {trailing : Bool} (writes : Writes tokens text.toList)
    (derives : Derives context true (.precondition meaning) trailing tokens) :
    parse? context text = .ok meaning := by
  obtain ⟨cut, whole⟩ := cutTokens_of_writes writes derives.namesClosed
  obtain ⟨last, run, ended⟩ := Reading.meaning?_of_derives derives
  exact parse?_eq_ok_iff.mpr ⟨whole, last, by rw [cut, run], ended⟩

theorem denotes_of_parse? {text : String} {meaning : Precondition}
    (success : parse? context text = .ok meaning) : Denotes context true text meaning := by
  obtain ⟨whole, last, run, ended⟩ := parse?_eq_ok_iff.mp success
  obtain ⟨trailing, derives⟩ := Reading.derives_of_meaning? run ended
  exact ⟨_, trailing, writes_of_cutTokens whole, derives⟩

/-- Every derivation, greedy or not, has a text that is read. -/
theorem exists_parse?_of_denotes {text : String} {meaning : Precondition}
    (denotes : Denotes context false text meaning) : ∃ meaning, parse? context text = .ok meaning := by
  obtain ⟨tokens, trailing, writes, derives⟩ := denotes
  obtain ⟨cut, whole⟩ := cutTokens_of_writes writes derives.namesClosed
  obtain ⟨last, run, meaning, ended⟩ := Reading.exists_meaning? derives
  exact ⟨meaning, parse?_eq_ok_iff.mpr ⟨whole, last, by rw [cut, run], ended⟩⟩

/-- The texts that are read are exactly those the grammar derives, although the grammar is ambiguous
and the reading never goes back; and what is read is exactly the meaning of the greedy derivation. -/
theorem parse?_exact (context : ProcessId) (text : String) :
    ((∃ meaning, parse? context text = .ok meaning) ↔
      ∃ meaning, Denotes context false text meaning) ∧
    ∀ meaning, parse? context text = .ok meaning ↔ Denotes context true text meaning := by
  refine ⟨⟨?_, ?_⟩, fun meaning => ⟨denotes_of_parse?, ?_⟩⟩
  · rintro ⟨meaning, success⟩
    obtain ⟨tokens, trailing, writes, derives⟩ := denotes_of_parse? success
    exact ⟨meaning, tokens, trailing, writes, derives.weaken⟩
  · rintro ⟨meaning, denotes⟩
    exact exists_parse?_of_denotes denotes
  · rintro ⟨tokens, trailing, writes, derives⟩
    exact parse?_of_writes writes derives

end Precondition

end ProcessFlow
