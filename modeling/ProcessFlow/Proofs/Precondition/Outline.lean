import ProcessFlow.CommandLine.Run
import ProcessFlow.Proofs.Identifier
import ProcessFlow.Proofs.Precondition.Places

/-! # Reading a precondition off its outline

The indentation of a line tells the depth of its node, and the label tells its kind and its identifier.
The children of a node are the nodes one level below it up to the next node that is no deeper than
itself; so the outline of a precondition determines it, junctions without children included. The lines
can be told apart in the printed text because no identifier breaks a line.
-/

namespace ProcessFlow

/-! ## Printed lines -/

/-- The printed lines are found again between the line breaks, if they have none of their own. -/
theorem Outcome.pieces_text {outcome : Outcome}
    (unbroken : ∀ line ∈ outcome.lines, '\n' ∉ line.toList) :
    pieces '\n' outcome.text.toList = outcome.lines.map String.toList ++ [[]] := by
  obtain ⟨lines, failure⟩ := outcome
  induction lines with
  | nil => simp [Outcome.text, pieces]
  | cons line rest ih =>
    obtain ⟨here, later⟩ := List.forall_mem_cons.mp unbroken
    have shape : (Outcome.text ⟨line :: rest, failure⟩).toList =
        line.toList ++ '\n' :: (Outcome.text ⟨rest, failure⟩).toList := by
      simp [Outcome.text]
    rw [shape, pieces_append_cons here, ih later]
    rfl

/-- Lines without line breaks can be told from the printed text. -/
theorem Outcome.lines_eq_of_text_eq {left right : Outcome} (same : left.text = right.text)
    (leftUnbroken : ∀ line ∈ left.lines, '\n' ∉ line.toList)
    (rightUnbroken : ∀ line ∈ right.lines, '\n' ∉ line.toList) : left.lines = right.lines := by
  have cut : left.lines.map String.toList ++ [[]] = right.lines.map String.toList ++ [[]] := by
    rw [← pieces_text leftUnbroken, ← pieces_text rightUnbroken, same]
  exact (List.map_inj_right fun _ _ => String.toList_inj.mp).mp (List.append_cancel_right cut)

theorem Ident.unbroken {kind : IdKind} {id : Ident kind} (valid : id.Valid) :
    '\n' ∉ id.text.toList := fun member => absurd (isIdChar_of_mem valid member) (by decide)

namespace Precondition

/-! ## Labels -/

/-- The identifier of a node is valid, if it has one. -/
def IdsValid : Precondition → Prop
  | .executable target => target.Valid
  | .feedbackCompleted source => source.Valid
  | .allFeedbackCompleted context => context.Valid
  | .always | .all _ | .any _ | .not _ => True

/-- The node that a label and its children make. -/
def ofLabel? (children : List Precondition) (label : List Char) : Option Precondition :=
  if label = "true".toList then some .always
  else if label = "and".toList then some (.all children)
  else if label = "or".toList then some (.any children)
  else if label = "not".toList then children.head?.map .not
  else
    match dropWord? "exec ".toList label, dropWord? "complete ".toList label with
    | some target, _ => some (.executable ⟨String.ofList target⟩)
    | none, some rest =>
      if isIdName rest then some (.feedbackCompleted ⟨String.ofList rest⟩)
      else (dropWord? "* (context ".toList rest).map fun context =>
        .allFeedbackCompleted ⟨String.ofList context.dropLast⟩
    | none, none => none

variable {tree left right : Precondition} {depth : Nat}

section

variable (target context : ProcessId) (source : DeliverableId) (children : List Precondition)
  (child : Precondition)

@[simp] theorem label_always : label .always = "true" := rfl

@[simp] theorem label_executable : label (.executable target) = "exec " ++ target.text := rfl

@[simp] theorem label_feedbackCompleted :
    label (.feedbackCompleted source) = "complete " ++ source.text := rfl

@[simp] theorem label_allFeedbackCompleted :
    label (.allFeedbackCompleted context) = "complete * (context " ++ context.text ++ ")" := rfl

@[simp] theorem label_all : label (.all children) = "and" := rfl

@[simp] theorem label_any : label (.any children) = "or" := rfl

@[simp] theorem label_not : label (.not child) = "not" := rfl

end

/-- A node is made again of its label and its children. -/
theorem ofLabel?_label (valid : tree.IdsValid) :
    ofLabel? tree.children tree.label.toList = some tree := by
  cases tree with
  | always | all _ | any _ | not _ => simp [ofLabel?, children]
  | executable target => simp [ofLabel?, dropWord?]
  | feedbackCompleted source =>
    have name : isIdName source.text.toList = true := valid
    simp [ofLabel?, dropWord?, name]
  | allFeedbackCompleted context =>
    -- The star is in no identifier, so that the two labels for feedback are told apart.
    simp [ofLabel?, dropWord?, isIdName, isIdChar]

/-- A node has no other label with the same children. -/
theorem eq_of_label_eq (leftValid : left.IdsValid) (rightValid : right.IdsValid)
    (sameLabel : left.label = right.label) (sameChildren : left.children = right.children) :
    left = right := by
  have made := ofLabel?_label leftValid
  rw [sameLabel, sameChildren, ofLabel?_label rightValid] at made
  exact (Option.some.inj made).symm

theorem exists_label_eq_cons (tree : Precondition) :
    ∃ first rest, tree.label.toList = first :: rest ∧ first ≠ ' ' := by
  cases tree <;> simp

theorem unbroken_label (valid : tree.IdsValid) : '\n' ∉ tree.label.toList := by
  cases tree with
  | always | all _ | any _ | not _ => simp
  | executable _ | feedbackCompleted _ | allFeedbackCompleted _ => simpa using Ident.unbroken valid

/-! ## Lines -/

/-- A node of an outline as its line tells it: its depth and its label. -/
def labelled (level : Nat × Precondition) : Nat × String := (level.1, level.2.label)

/-- The depth and the label that a line tells. -/
def ofLine (line : String) : Nat × String :=
  ((line.toList.takeWhile (· = ' ')).length / 2, String.ofList (line.toList.dropWhile (· = ' ')))

theorem ofLine_outlineLine (level : Nat × Precondition) :
    ofLine (outlineLine level) = labelled level := by
  obtain ⟨first, rest, shape, solid⟩ := exists_label_eq_cons level.2
  have blanks : ∀ character ∈ List.replicate (2 * level.1) ' ', decide (character = ' ') = true := by
    simp
  have line : (outlineLine level).toList =
      List.replicate (2 * level.1) ' ' ++ level.2.label.toList := by
    simp [outlineLine]
  have before : level.2.label.toList.takeWhile (· = ' ') = [] := by simp [shape, solid]
  have after : level.2.label.toList.dropWhile (· = ' ') = level.2.label.toList := by
    simp [shape, solid]
  rw [ofLine, line, List.takeWhile_append_of_pos blanks, List.dropWhile_append_of_pos blanks, before,
    after]
  simp [labelled]

theorem map_ofLine_outline (tree : Precondition) :
    tree.outline.map ofLine = (tree.levels 0).map labelled := by
  rw [outline, List.map_map]
  exact List.map_congr_left fun level _ => ofLine_outlineLine level

theorem unbroken_outline (valid : tree.Throughout IdsValid) :
    ∀ line ∈ tree.outline, '\n' ∉ line.toList := by
  intro line member
  obtain ⟨level, isLevel, rfl⟩ := List.mem_map.mp member
  have isNode : level.2 ∈ tree.walk := map_levels_zero tree ▸ List.mem_map_of_mem isLevel
  simpa [outlineLine] using unbroken_label (valid level.2 isNode)

/-- The outline as it is printed. -/
def outlineText (tree : Precondition) : String := (Outcome.ofLines (.ok tree.outline)).text

/-! ## Levels -/

/-- Only lines above the depth follow next. -/
def EndsAbove (depth : Nat) (rest : List (Nat × String)) : Prop :=
  ∀ line ∈ rest.head?, line.1 < depth

theorem head?_levelsList (depth : Nat) (tree : Precondition) (rest : List Precondition)
    (after : List (Nat × String)) :
    ((levelsList depth (tree :: rest)).map labelled ++ after).head? = some (depth, tree.label) := by
  rw [levelsList, levels_eq]
  rfl

/-- The lines of a tree do not end above its depth. -/
theorem EndsAbove.ne_levelsList {after : List (Nat × String)} (ends : EndsAbove depth after)
    (rest : List Precondition) (other : List (Nat × String)) :
    after ≠ (levelsList depth (tree :: rest)).map labelled ++ other := by
  rintro rfl
  exact Nat.lt_irrefl depth (ends _ (head?_levelsList depth tree rest other))

/-- The lines of trees end those below them. -/
theorem EndsAbove.below {after : List (Nat × String)} (ends : EndsAbove depth after)
    (trees : List Precondition) :
    EndsAbove (depth + 1) ((levelsList depth trees).map labelled ++ after) := by
  intro line next
  cases trees with
  | nil => exact Nat.lt_succ_of_lt (ends line next)
  | cons tree rest =>
    rw [head?_levelsList] at next
    cases next
    exact Nat.lt_succ_self depth

/-- The lines of trees side by side, up to the next line above them, tell the trees. -/
theorem eq_of_levelsList_eq (depth : Nat) :
    (left right : List Precondition) → (afterLeft afterRight : List (Nat × String)) →
      (∀ tree ∈ left, tree.Throughout IdsValid) → (∀ tree ∈ right, tree.Throughout IdsValid) →
      EndsAbove depth afterLeft → EndsAbove depth afterRight →
      (levelsList depth left).map labelled ++ afterLeft =
        (levelsList depth right).map labelled ++ afterRight →
      left = right ∧ afterLeft = afterRight
  | [], [], _, _, _, _, _, _, same => ⟨rfl, same⟩
  | [], _ :: rest, _, afterRight, _, _, endsLeft, _, same =>
    absurd same (endsLeft.ne_levelsList rest afterRight)
  | _ :: rest, [], afterLeft, _, _, _, _, endsRight, same =>
    absurd same.symm (endsRight.ne_levelsList rest afterLeft)
  | first :: left, second :: right, afterLeft, afterRight, validLeft, validRight, endsLeft, endsRight,
      same => by
    obtain ⟨validFirst, validLeft⟩ := List.forall_mem_cons.mp validLeft
    obtain ⟨validSecond, validRight⟩ := List.forall_mem_cons.mp validRight
    have firstValid := throughout_iff.mp validFirst
    have secondValid := throughout_iff.mp validSecond
    simp only [levelsList, levels_eq, List.map_append, List.map_cons, List.cons_append,
      List.append_assoc, List.cons.injEq, labelled, Prod.mk.injEq, true_and] at same
    obtain ⟨sameLabel, same⟩ := same
    obtain ⟨sameChildren, same⟩ := eq_of_levelsList_eq (depth + 1) first.children second.children _ _
      firstValid.2 secondValid.2 (endsLeft.below left) (endsRight.below right) same
    obtain ⟨rfl, sameAfter⟩ := eq_of_levelsList_eq depth left right afterLeft afterRight
      validLeft validRight endsLeft endsRight same
    rw [eq_of_label_eq firstValid.1 secondValid.1 sameLabel sameChildren]
    exact ⟨rfl, sameAfter⟩
termination_by left => nodeCountList left
decreasing_by
  all_goals
    rw [nodeCountList, nodeCount_eq]
    omega

/-- Valid preconditions with the same printed outline are the same. -/
theorem eq_of_outlineText_eq (leftValid : left.Throughout IdsValid)
    (rightValid : right.Throughout IdsValid) (same : left.outlineText = right.outlineText) :
    left = right := by
  have lines : left.outline = right.outline :=
    Outcome.lines_eq_of_text_eq same (unbroken_outline leftValid) (unbroken_outline rightValid)
  have levels : (left.levels 0).map labelled = (right.levels 0).map labelled := by
    rw [← map_ofLine_outline, ← map_ofLine_outline, lines]
  have ended : EndsAbove 0 [] := by
    rintro _ ⟨⟩
  have trees := eq_of_levelsList_eq 0 [left] [right] [] []
    (List.forall_mem_singleton.mpr leftValid) (List.forall_mem_singleton.mpr rightValid) ended ended
    (by simpa only [levelsList, List.append_nil] using levels)
  exact (List.cons.inj trees.1).1

/-! ## Traversals -/

/-- The target that a node waits on, if it is an `\exec` leaf. -/
def target? : Precondition → Option ProcessId
  | .executable target => some target
  | _ => none

/-- The iterator ends on every precondition. It yields the nodes in pre-order, children from left to
right, each occurrence once, and from them come the targets and the outline, which is indented by the
depth of the nodes. The printed outline determines a precondition whose identifiers are valid. -/
theorem traversal_exact (tree : Precondition) :
    (∀ nodes, Yields [tree] nodes ↔ nodes = tree.walk) ∧
    tree.walk = tree :: tree.children.flatMap walk ∧
    tree.Lists tree.visits ∧
    tree.walk = tree.visits.map Prod.snd ∧
    tree.executableTargets = tree.visits.filterMap (fun visit => visit.2.target?) ∧
    tree.outline = tree.visits.map (fun visit => outlineLine (visit.1.length, visit.2)) ∧
    ∀ other, tree.Throughout IdsValid → other.Throughout IdsValid →
      tree.outlineText = other.outlineText → tree = other := by
  refine ⟨fun _ => yields_iff, walk_eq tree, lists_visits tree, walk_eq_map tree, ?_, ?_, ?_⟩
  · have targets : tree.executableTargets = tree.walk.filterMap target? := rfl
    rw [targets, walk_eq_map, List.filterMap_map]
    rfl
  · have depths : ∀ visit : List Nat × Precondition,
        outlineLine (depthFrom 0 visit) = outlineLine (visit.1.length, visit.2) := by
      intro visit
      rw [depthFrom, Nat.zero_add]
    rw [outline, levels_eq_map, List.map_map]
    exact List.map_congr_left fun visit _ => depths visit
  · intro other valid otherValid same
    exact eq_of_outlineText_eq valid otherValid same

/-- A junction without children before two leaves that ask for the same. -/
def leavesAfter : Precondition := .all [.any [], .executable ⟨"P1"⟩, .executable ⟨"P1"⟩]

/-- The first of the leaves goes under the junction. -/
def leafUnder : Precondition := .all [.any [.executable ⟨"P1"⟩], .executable ⟨"P1"⟩]

theorem traversal_exact_leavesAfter :
    leavesAfter.Throughout IdsValid ∧ leafUnder.Throughout IdsValid ∧
    Yields [leavesAfter] [leavesAfter, .any [], .executable ⟨"P1"⟩, .executable ⟨"P1"⟩] ∧
    leavesAfter.executableTargets = [⟨"P1"⟩, ⟨"P1"⟩] ∧
    leavesAfter.outline = ["and", "  or", "  exec P1", "  exec P1"] ∧
    leavesAfter.outlineText ≠ leafUnder.outlineText := by
  have valid : leavesAfter.Throughout IdsValid := by
    simp [Throughout, walk, walkStack, leavesAfter, children, IdsValid, Ident.Valid, isIdName, isIdChar]
  have underValid : leafUnder.Throughout IdsValid := by
    simp [Throughout, walk, walkStack, leafUnder, children, IdsValid, Ident.Valid, isIdName, isIdChar]
  have different : leavesAfter ≠ leafUnder := by simp [leavesAfter, leafUnder]
  obtain ⟨yields, _, _, walk, targets, outline, determines⟩ := traversal_exact leavesAfter
  refine ⟨valid, underValid, (yields _).mpr ?_, ?_, ?_, ?_⟩
  · rw [walk]
    rfl
  · rw [targets]
    rfl
  · rw [outline]
    decide
  · exact fun same => different (determines leafUnder valid underValid same)

end Precondition

end ProcessFlow
