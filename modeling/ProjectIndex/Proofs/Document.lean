import Mathlib
import ProjectIndex.Document
import ProjectIndex.Proofs.Text.Quiet
import ProjectIndex.Proofs.Yaml.QuietDocument

/-!
# Texts that are taken for empty

Before a text is read as a document, `Text.isIdle` asks whether all of its lines are blank or comments;
if so, the text is not read at all.  `Outcome.ofText_of_mapping` says what this costs.  A text that
denotes a mapping loads as that mapping unless it is idle, and it is not idle unless a comment in it
begins or ends where only one of the two readings lets it.

Such comments exist, and they hide mappings: `Outcome.ofText_hides_mapping`.
-/

namespace ProjectIndex.Outcome

open Yaml (PlainComments Value isQuiet_of_isIdle)

/-- **A text that denotes a mapping loads as the mapping, if it is not idle; and it is not idle, if both
readings agree on its comments.** -/
theorem ofText_of_mapping {text : String} {m : Document} (read : Value.ofText text = .ok (.mapping m)) :
    (Text.isIdle text.toList = false → ∀ allowEmpty, ofText text allowEmpty = .found m) ∧
    (PlainComments text.toList → Text.isIdle text.toList = false) := by
  constructor
  · intro busy allowEmpty
    rw [ofText, busy, if_neg Bool.false_ne_true, read]
    rfl
  · intro plain
    by_contra idle
    have quiet := isQuiet_of_isIdle plain (Bool.not_eq_false _ ▸ idle)
    exact Value.ofText_ne_mapping quiet m read

/-- A comment that both readings end at the line feed hides nothing of the mapping below it. -/
theorem ofText_of_mapping_below_comment :
    Value.ofText "#c\na: 1" = .ok (.mapping [(.string "a", .int 1)]) ∧
    PlainComments "#c\na: 1".toList ∧
    ∀ allowEmpty, ofText "#c\na: 1" allowEmpty = .found [(.string "a", .int 1)] := by
  have read : Value.ofText "#c\na: 1" = .ok (.mapping [(.string "a", .int 1)]) := by cbv
  have plain : PlainComments "#c\na: 1".toList := .of_all rfl
  have hides := ofText_of_mapping read
  exact ⟨read, plain, hides.1 (hides.2 plain)⟩

/-- A carriage return ends the comment for the reader of documents, but not the line for the reader of
idle lines, to which the mapping behind it is a part of the comment. -/
theorem ofText_hides_mapping :
    Value.ofText "#c\ra: 1" = .ok (.mapping [(.string "a", .int 1)]) ∧
    ofText "#c\ra: 1" false = .invalid .empty ∧ ofText "#c\ra: 1" true = .found [] := by
  have idle : Text.isIdle "#c\ra: 1".toList = true := by decide
  refine ⟨by cbv, ?_, ?_⟩
  · rw [ofText, if_pos idle]; rfl
  · rw [ofText, if_pos idle]; rfl

end ProjectIndex.Outcome
