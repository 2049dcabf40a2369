import CssTheming.Proofs.Sheet.Scan.Block
import CssTheming.Proofs.Value.Scan

/-!
# Readers make progress

The readers of stylesheets and of values go over every text with a cursor that is never asked for a
character behind the end, and each round of theirs leaves fewer characters in front of the cursor.
-/

namespace CssTheming

open Text

/-- On every text the scan of a stylesheet ends as reading does, with all of the text behind its
cursor or with the fault that is reported, and the scan of a value ends with all of the text behind
its cursor. No round of either stalls and no character is taken behind the end, for these are faults
that the scans would answer instead. -/
theorem scans_reach_end (text : String) :
    (Sheet.scanSheet.onText text = match Sheet.statements text with
      | .ok top => .ok (top, .behind text.toList)
      | .error fault => .error (.reported fault)) ∧
    Value.scanValue.onText text = .ok (Value.parse text, .behind text.toList) :=
  ⟨Sheet.scanSheet_onText text, Value.scanValue_onText text⟩

end CssTheming
