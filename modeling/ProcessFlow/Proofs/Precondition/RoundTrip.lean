import Mathlib
import ProcessFlow.Precondition.Printer
import ProcessFlow.Proofs.Precondition.Language
import ProcessFlow.Proofs.Precondition.Normal

/-! # Reading what was written

The tokens of the written form are derived with the normal form as their meaning: operands that are
compound stand in parentheses, and what follows a `!` does so as well, so nothing trails that an
operator follows. Reading the written form therefore gives the normal form. What is read is in
normal form already, so writing and reading it again changes nothing.
-/

namespace ProcessFlow

namespace Precondition

variable {context : ProcessId}

/-! ## Written tokens -/

/-- The tokens of an operand of `&&` or `||`. -/
def asOperand (tree : Precondition) : List Token :=
  if tree.isCompound then .openParen :: tree.tokens ++ [.closeParen] else tree.tokens

theorem operandTokens_eq (children : List Precondition) :
    operandTokens children = children.map asOperand := by
  induction children with
  | nil => rfl
  | cons child rest ih => rw [operandTokens, ih, List.map_cons, asOperand]

theorem forall_mem_intercalate {property : Token → Prop} {separator : List Token}
    {parts : List (List Token)} (between : ∀ token ∈ separator, property token)
    (within : ∀ part ∈ parts, ∀ token ∈ part, property token) :
    ∀ token ∈ List.intercalate separator parts, property token := by
  induction parts with
  | nil => nofun
  | cons part rest ih =>
    have first := within part (List.mem_cons_self ..)
    have others := ih fun part member => within part (List.mem_cons_of_mem _ member)
    cases rest with
    | nil => rwa [List.intercalate_singleton]
    | cons next rest =>
      intro token member
      rw [List.intercalate_cons_cons, List.mem_append, List.mem_append] at member
      rcases member with (member | member) | member
      · exact first token member
      · exact between token member
      · exact others token member

/-- The tokens of an operand are those of the precondition, perhaps in parentheses. -/
theorem lawful_operandTokens {children : List Precondition}
    (lawful : ∀ child ∈ children, ∀ token ∈ child.tokens, token.Lawful) :
    ∀ part ∈ operandTokens children, ∀ token ∈ part, token.Lawful := by
  intro part member
  rw [operandTokens_eq] at member
  obtain ⟨child, isChild, rfl⟩ := List.mem_map.mp member
  have inside := lawful child isChild
  rw [asOperand]
  split
  · intro token member
    rw [List.cons_append, List.mem_cons, List.mem_append, List.mem_singleton] at member
    rcases member with rfl | member | rfl
    · exact trivial
    · exact inside token member
    · exact trivial
  · exact inside

/-- With valid names only lawful tokens are written. -/
theorem lawful_tokens (tree : Precondition) (valid : tree.Throughout NameValid) :
    ∀ token ∈ tree.tokens, token.Lawful := by
  induction tree using children_induction with
  | step tree ih =>
    obtain ⟨root, below⟩ := throughout_iff.mp valid
    have inside (child : Precondition) (member : child ∈ tree.children) :
        ∀ token ∈ child.tokens, token.Lawful := ih child member (below child member)
    cases tree with
    | always => simp [tokens, Token.Lawful]
    | executable target => simpa [tokens, Token.Lawful, NameValid, Ident.Valid] using root
    | feedbackCompleted source => simpa [tokens, Token.Lawful, NameValid, Ident.Valid] using root
    | allFeedbackCompleted other => simp [tokens, Token.Lawful]
    | all children =>
      rw [tokens]
      exact forall_mem_intercalate (by simp [Token.Lawful]) (lawful_operandTokens inside)
    | any alternatives =>
      rw [tokens]
      exact forall_mem_intercalate (by simp [Token.Lawful]) (lawful_operandTokens inside)
    | not child =>
      have within := inside child (List.mem_singleton.mpr rfl)
      simpa [tokens, Token.Lawful, or_imp, forall_and] using within

/-- Printed tokens are written, with the blanks around an operator before and after it. -/
theorem writes_printed {list : List Token} (lawful : ∀ token ∈ list, token.Lawful) :
    Writes list (list.flatMap Token.printed) := by
  induction list with
  | nil => exact ⟨[], [], nofun, rfl, .nil⟩
  | cons token rest ih =>
    obtain ⟨blanks, text, blank, same, spells⟩ :=
      ih fun token member => lawful token (List.mem_cons_of_mem _ member)
    have around : ∃ before after, Blank before ∧ Blank after ∧
        token.printed = before ++ (token.spelling ++ after) := by
      cases token with
      | both | either => exact ⟨[' '], [' '], by simp [Blank, isBlank], by simp [Blank, isBlank], rfl⟩
      | _ => exact ⟨[], [], nofun, nofun, (List.append_nil _).symm⟩
    obtain ⟨before, after, blankBefore, blankAfter, printed⟩ := around
    have blankBetween : Blank (after ++ blanks) := by
      intro character member
      rcases List.mem_append.mp member with member | member
      · exact blankAfter character member
      · exact blank character member
    refine ⟨before, _, blankBefore, ?_, .cons (lawful token (List.mem_cons_self ..)) blankBetween spells⟩
    rw [List.flatMap_cons, same, printed]
    simp only [List.append_assoc]

/-! ## Written forms are derived -/

/-- A primary alone is a precondition. -/
theorem derives_of_primary {meaning : Precondition} {trailing : Bool} {written : List Token}
    (only : Derives context true (.primary meaning) trailing written) :
    Derives context true (.precondition meaning) trailing written :=
  .solid (.alternative (.operand only))

/-- A leaf is written as a primary. -/
theorem derives_leaf {tree : Precondition} (leaf : tree.isCompound = false) :
    Derives context true (.primary (tree.normalize context)) false tree.tokens := by
  cases tree with
  | always => exact .always
  | executable target =>
    have written : Derives context true
        (.primary (.executable ⟨String.ofList target.text.toList⟩)) false _ := .exec _
    rwa [String.ofList_toList] at written
  | feedbackCompleted source =>
    have written : Derives context true
        (.primary (.feedbackCompleted ⟨String.ofList source.text.toList⟩)) false _ := .complete _
    rwa [String.ofList_toList] at written
  | allFeedbackCompleted other => exact .completeAll
  | _ => cases leaf

/-- An operand is a primary and does not trail, for what is compound stands in parentheses. -/
theorem derives_asOperand {tree : Precondition} {trailing : Bool}
    (derives : Derives context true (.precondition (tree.normalize context)) trailing tree.tokens) :
    Derives context true (.primary (tree.normalize context)) false tree.asOperand := by
  rw [asOperand]
  split
  · exact .paren derives
  · rename_i leaf
    exact derives_leaf (Bool.not_eq_true _ ▸ leaf)

/-- A list of operands is derived from the last operand on. -/
theorem separated_induction (property : List Precondition → List Token → Prop) {separator : Token}
    {children : List Precondition} (solid : children ≠ [])
    (last : ∀ child ∈ children, property [child.normalize context] child.asOperand)
    (before : ∀ child ∈ children, ∀ meanings written, property meanings written →
      property (child.normalize context :: meanings) (child.asOperand ++ separator :: written)) :
    property (normalizeList context children)
      (List.intercalate [separator] (operandTokens children)) := by
  rw [normalizeList_eq, operandTokens_eq]
  induction children with
  | nil => exact absurd rfl solid
  | cons child rest ih =>
    have here := List.mem_cons_self (a := child) (l := rest)
    cases rest with
    | nil =>
      rw [List.map_singleton, List.map_singleton, List.intercalate_singleton]
      exact last child here
    | cons next rest =>
      have others := ih nofun (fun child member => last child (List.mem_cons_of_mem _ member))
        (fun child member => before child (List.mem_cons_of_mem _ member))
      have whole := before child here _ _ others
      simpa only [List.map_cons, List.intercalate_cons_cons, List.append_assoc,
        List.singleton_append] using whole

/-- The written form is derived with the normal form as its meaning. -/
theorem derives_tokens (context : ProcessId) (tree : Precondition) : ∃ trailing,
    Derives context true (.precondition (tree.normalize context)) trailing tree.tokens := by
  induction tree using children_induction with
  | step tree ih =>
    have each (child : Precondition) (member : child ∈ tree.children) :
        Derives context true (.primary (child.normalize context)) false child.asOperand := by
      obtain ⟨_, derives⟩ := ih child member
      exact derives_asOperand derives
    cases tree with
    | all children =>
      by_cases solid : children = []
      · subst solid
        exact ⟨_, .blank⟩
      · have listed := separated_induction
          (fun meanings written => Derives context true (.conjunction meanings) false written) solid
          (fun child member => .operand (each child member))
          (fun child member _ _ others => .both (each child member) (fun _ => rfl) others)
        have some : normalizeList context children ≠ [] := by simpa [normalizeList_eq] using solid
        rw [normalize, tokens, collapse_eq_chainOf some]
        exact ⟨_, .solid (.alternative listed)⟩
    | any alternatives =>
      by_cases solid : alternatives = []
      · subst solid
        exact ⟨_, .blank⟩
      · have listed := separated_induction
          (fun meanings written => Derives context true (.disjunction meanings) false written) solid
          (fun child member => .alternative (.operand (each child member)))
          (fun child member _ _ others =>
            .either (.operand (each child member)) (fun _ => rfl) others)
        have some : normalizeList context alternatives ≠ [] := by
          simpa [normalizeList_eq] using solid
        rw [normalize, tokens, collapse_eq_chainOf some]
        exact ⟨_, .solid listed⟩
    | not child =>
      obtain ⟨_, derives⟩ := ih child (List.mem_singleton.mpr rfl)
      exact ⟨_, derives_of_primary (.bang (derives_of_primary (.paren derives)))⟩
    | _ => exact ⟨_, derives_of_primary (derives_leaf rfl)⟩

/-! ## What is read -/

theorem lawful_of_spells {written : List Token} {text : List Char} (spells : Spells written text) :
    ∀ token ∈ written, token.Lawful := by
  induction spells with
  | nil => nofun
  | cons lawful _ _ ih => exact List.forall_mem_cons.mpr ⟨lawful, ih⟩

theorem settled_of_parse? {text : String} {tree : Precondition}
    (success : parse? context text = .ok tree) : tree.Settled context := by
  obtain ⟨written, trailing, ⟨_, _, _, _, spells⟩, derives⟩ := denotes_of_parse? success
  exact settled_of_derives derives (lawful_of_spells spells)

theorem parse?_text (tree : Precondition) (valid : tree.Throughout NameValid) :
    parse? context tree.text = .ok (tree.normalize context) := by
  obtain ⟨trailing, derives⟩ := derives_tokens context tree
  refine parse?_of_writes ?_ derives
  rw [Precondition.text, String.toList_ofList, chars]
  exact writes_printed (lawful_tokens tree valid)

/-- Reading the written form gives the normal form. What is read is in normal form, so writing and
reading it again gives it back. And the normal form is open under the same circumstances, if no
disjunction is without alternatives and every `\complete(*)` refers to the context. -/
theorem parse?_text_exact (context : ProcessId) :
    (∀ tree : Precondition, tree.Throughout NameValid →
      parse? context tree.text = .ok (tree.normalize context)) ∧
    (∀ text tree, parse? context text = .ok tree →
      tree.normalize context = tree ∧ parse? context tree.text = .ok tree) ∧
    ∀ tree : Precondition, tree.Throughout (Expressible context) →
      ∀ now, (tree.normalize context).evaluate now = tree.evaluate now := by
  refine ⟨parse?_text, fun text tree success => ?_, fun tree plain _ => evaluate_normalize tree plain⟩
  obtain ⟨fixed, valid⟩ := settled_of_parse? success
  refine ⟨fixed, ?_⟩
  rw [parse?_text tree valid, fixed]

/-- A conjunction of a negation, a disjunction of one and a conjunction of none. -/
def lossy : Precondition :=
  .all [.not (.any [.executable ⟨"A"⟩, .allFeedbackCompleted ⟨"C"⟩]),
    .any [.feedbackCompleted ⟨"D"⟩], .all []]

theorem parse?_text_exact_lossy :
    (lossy.Throughout NameValid ∧ parse? ⟨"C"⟩ lossy.text = .ok (lossy.normalize ⟨"C"⟩)) ∧
    (parse? ⟨"C"⟩ "!\\exec(A) && \\complete(*)" =
        .ok (.not (.all [.executable ⟨"A"⟩, .allFeedbackCompleted ⟨"C"⟩])) ∧
      parse? ⟨"C"⟩ (Precondition.not (.all [.executable ⟨"A"⟩, .allFeedbackCompleted ⟨"C"⟩])).text =
        .ok (.not (.all [.executable ⟨"A"⟩, .allFeedbackCompleted ⟨"C"⟩]))) ∧
    lossy.Throughout (Expressible ⟨"C"⟩) ∧
    ∀ now, (lossy.normalize ⟨"C"⟩).evaluate now = lossy.evaluate now := by
  obtain ⟨written, read, meant⟩ := parse?_text_exact ⟨"C"⟩
  have valid : lossy.Throughout NameValid := by
    simp [Throughout, walk, walkStack, lossy, Precondition.children, NameValid, Ident.Valid,
      isIdName, isIdChar]
  have plain : lossy.Throughout (Expressible ⟨"C"⟩) := by
    simp [Throughout, walk, walkStack, lossy, Precondition.children, Expressible]
  have success : parse? ⟨"C"⟩ "!\\exec(A) && \\complete(*)" =
      .ok (.not (.all [.executable ⟨"A"⟩, .allFeedbackCompleted ⟨"C"⟩])) := by cbv
  exact ⟨⟨valid, written lossy valid⟩, ⟨success, (read _ _ success).2⟩, plain, meant lossy plain⟩

end Precondition

end ProcessFlow
