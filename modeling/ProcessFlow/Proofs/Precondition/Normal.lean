import ProcessFlow.Proofs.Precondition.Grammar
import ProcessFlow.Proofs.Precondition.Nodes

/-! # Normal forms of preconditions

The written form of a precondition loses three things: whether a junction has no operands, whether
an operand is a junction of itself alone, and the context of `\complete(*)`. The normal form settles
them, and is open under the same circumstances where nothing was lost. The grammar derives nothing
but normal forms.
-/

namespace ProcessFlow

namespace Precondition

/-- A junction of operands, unless there is none, which is always open, or one, which stands for
itself. -/
def collapse (junction : List Precondition → Precondition) : List Precondition → Precondition
  | [] => .always
  | [operand] => operand
  | operands => junction operands

mutual

/-- The precondition as reading its written form in the context gives it. -/
def normalize (context : ProcessId) : Precondition → Precondition
  | .allFeedbackCompleted _ => .allFeedbackCompleted context
  | .all children => collapse .all (normalizeList context children)
  | .any children => collapse .any (normalizeList context children)
  | .not child => .not (child.normalize context)
  | leaf => leaf

def normalizeList (context : ProcessId) : List Precondition → List Precondition
  | [] => []
  | child :: rest => child.normalize context :: normalizeList context rest

end

variable {context : ProcessId}

theorem normalizeList_eq (children : List Precondition) :
    normalizeList context children = children.map (normalize context) := by
  induction children with
  | nil => rfl
  | cons child rest ih => rw [normalizeList, ih, List.map_cons]

/-- A chain of operands is a junction of them in normal form. -/
theorem collapse_eq_chainOf {junction : List Precondition → Precondition}
    {operands : List Precondition} (solid : operands ≠ []) :
    collapse junction operands = chainOf junction operands := by
  match operands with
  | [] => exact absurd rfl solid
  | [_] => rfl
  | _ :: _ :: _ => rfl

/-- Operands in normal form make a normal form. -/
theorem normalize_collapse {junction : List Precondition → Precondition}
    (junctions : ∀ children, (junction children).normalize context =
      collapse junction (normalizeList context children))
    {operands : List Precondition}
    (fixed : ∀ operand ∈ operands, operand.normalize context = operand) :
    (collapse junction operands).normalize context = collapse junction operands := by
  match operands with
  | [] => rfl
  | [operand] => exact fixed operand (List.mem_singleton.mpr rfl)
  | first :: second :: rest =>
    have same : normalizeList context (first :: second :: rest) = first :: second :: rest := by
      rw [normalizeList_eq]
      exact (List.map_congr_left fixed).trans (List.map_id _)
    change (junction (first :: second :: rest)).normalize context = _
    rw [junctions, same]

/-! ## Evaluation -/

variable {now : Circumstances}

theorem evaluate_collapse_all (operands : List Precondition) :
    (collapse .all operands).evaluate now = operands.all (evaluate now) := by
  match operands with
  | [] => rfl
  | [operand] => simp [collapse]
  | _ :: _ :: _ => rw [collapse, evaluate, evaluateAll_eq] <;> simp

/-- Without alternatives a disjunction is closed, although its written form is always open. -/
theorem evaluate_collapse_any {alternatives : List Precondition} (solid : alternatives ≠ []) :
    (collapse .any alternatives).evaluate now = alternatives.any (evaluate now) := by
  match alternatives with
  | [] => exact absurd rfl solid
  | [alternative] => simp [collapse]
  | _ :: _ :: _ => rw [collapse, evaluate, evaluateAny_eq] <;> simp

/-- The written form keeps what the node asks: it has an alternative if it is a disjunction, and the
context if it refers to one. -/
def Expressible (context : ProcessId) : Precondition → Prop
  | .any alternatives => alternatives ≠ []
  | .allFeedbackCompleted other => other = context
  | _ => True

theorem evaluate_normalize (tree : Precondition) (plain : tree.Throughout (Expressible context)) :
    (tree.normalize context).evaluate now = tree.evaluate now := by
  induction tree using children_induction with
  | step tree ih =>
    obtain ⟨root, below⟩ := throughout_iff.mp plain
    have same (child : Precondition) (member : child ∈ tree.children) :
        (child.normalize context).evaluate now = child.evaluate now :=
      ih child member (below child member)
    have values : (normalizeList context tree.children).map (evaluate now) =
        tree.children.map (evaluate now) := by
      rw [normalizeList_eq, List.map_map]
      exact List.map_congr_left same
    cases tree with
    | all children =>
      rw [normalize, evaluate_collapse_all, evaluate, evaluateAll_eq]
      simpa only [List.all_map, Function.id_comp, Precondition.children] using
        congrArg (List.all · id) values
    | any alternatives =>
      have solid : normalizeList context alternatives ≠ [] := by
        rw [normalizeList_eq]
        exact fun empty => root (List.map_eq_nil_iff.mp empty)
      rw [normalize, evaluate_collapse_any solid, evaluate, evaluateAny_eq]
      simpa only [List.any_map, Function.id_comp, Precondition.children] using
        congrArg (List.any · id) values
    | not child => rw [normalize, evaluate, evaluate, same child (List.mem_singleton.mpr rfl)]
    | allFeedbackCompleted other =>
      have here : other = context := root
      rw [normalize, here]
    | _ => rfl

/-! ## Normal forms are what the grammar derives -/

/-- An identifier that is written is valid. -/
def NameValid : Precondition → Prop
  | .executable target => target.Valid
  | .feedbackCompleted source => source.Valid
  | _ => True

/-- In normal form, and with valid names. -/
def Settled (context : ProcessId) (tree : Precondition) : Prop :=
  tree.normalize context = tree ∧ tree.Throughout NameValid

theorem settled_of_leaf {tree : Precondition} (leaf : tree.children = [])
    (fixed : tree.normalize context = tree) (valid : tree.NameValid) : tree.Settled context := by
  refine ⟨fixed, throughout_iff.mpr ⟨valid, ?_⟩⟩
  rw [leaf]
  nofun

theorem settled_chainOf (junction : List Precondition → Precondition)
    (junctions : ∀ children, (junction children).normalize context =
      collapse junction (normalizeList context children))
    (same : ∀ children, (junction children).children = children)
    (valid : ∀ children, (junction children).NameValid) {operands : List Precondition}
    (solid : operands ≠ []) (settled : ∀ operand ∈ operands, operand.Settled context) :
    (chainOf junction operands).Settled context := by
  have fixed := normalize_collapse junctions fun operand member => (settled operand member).1
  rw [collapse_eq_chainOf solid] at fixed
  refine ⟨fixed, ?_⟩
  match operands with
  | [] => exact absurd rfl solid
  | [operand] => exact (settled operand (List.mem_singleton.mpr rfl)).2
  | first :: second :: rest =>
    refine throughout_iff.mpr ⟨valid _, fun child member => ?_⟩
    change child ∈ (junction (first :: second :: rest)).children at member
    rw [same] at member
    exact (settled child member).2

/-- The preconditions of a phrase are settled; a chain has at least one. -/
def SettledPhrase (context : ProcessId) : Phrase → Prop
  | .precondition meaning | .primary meaning => meaning.Settled context
  | .disjunction meanings | .conjunction meanings =>
    meanings ≠ [] ∧ ∀ meaning ∈ meanings, meaning.Settled context

theorem settled_conjunctionOf {operands : List Precondition}
    (settled : SettledPhrase context (.conjunction operands)) :
    (conjunctionOf operands).Settled context :=
  settled_chainOf .all (fun _ => rfl) (fun _ => rfl) (fun _ => trivial) settled.1 settled.2

theorem settled_disjunctionOf {alternatives : List Precondition}
    (settled : SettledPhrase context (.disjunction alternatives)) :
    (disjunctionOf alternatives).Settled context :=
  settled_chainOf .any (fun _ => rfl) (fun _ => rfl) (fun _ => trivial) settled.1 settled.2

/-- The grammar derives what is settled. -/
theorem settled_of_derives {greedy trailing : Bool} {phrase : Phrase} {written : List Token}
    (derives : Derives context greedy phrase trailing written)
    (lawful : ∀ token ∈ written, token.Lawful) : SettledPhrase context phrase := by
  induction derives with
  | blank => exact settled_of_leaf rfl rfl trivial
  | solid _ ih => exact settled_disjunctionOf (ih lawful)
  | alternative _ ih =>
    refine ⟨nofun, fun meaning member => ?_⟩
    rw [List.mem_singleton.mp member]
    exact settled_conjunctionOf (ih lawful)
  | either _ _ _ ihLeft ihRight =>
    obtain ⟨onLeft, onRight⟩ := List.forall_mem_append.mp lawful
    have left := settled_conjunctionOf (ihLeft onLeft)
    have right := ihRight (List.forall_mem_cons.mp onRight).2
    exact ⟨nofun, List.forall_mem_cons.mpr ⟨left, right.2⟩⟩
  | operand _ ih =>
    refine ⟨nofun, fun meaning member => ?_⟩
    rw [List.mem_singleton.mp member]
    exact ih lawful
  | both _ _ _ ihLeft ihRight =>
    obtain ⟨onLeft, onRight⟩ := List.forall_mem_append.mp lawful
    have right := ihRight (List.forall_mem_cons.mp onRight).2
    exact ⟨nofun, List.forall_mem_cons.mpr ⟨ihLeft onLeft, right.2⟩⟩
  | paren _ ih =>
    obtain ⟨inside, _⟩ := List.forall_mem_append.mp lawful
    exact ih (List.forall_mem_cons.mp inside).2
  | completeAll => exact settled_of_leaf rfl rfl trivial
  | complete name =>
    have valid : isIdName name = true := lawful (.name name) (by simp)
    exact settled_of_leaf rfl rfl (by simpa [NameValid, Ident.Valid] using valid)
  | exec name =>
    have valid : isIdName name = true := lawful (.name name) (by simp)
    exact settled_of_leaf rfl rfl (by simpa [NameValid, Ident.Valid] using valid)
  | bang _ ih =>
    have operand := ih (List.forall_mem_cons.mp lawful).2
    refine ⟨congrArg Precondition.not operand.1, throughout_iff.mpr ⟨trivial, ?_⟩⟩
    intro child member
    rw [List.mem_singleton.mp member]
    exact operand.2
  | always => exact settled_of_leaf rfl rfl trivial

end Precondition

end ProcessFlow
