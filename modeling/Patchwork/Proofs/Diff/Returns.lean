import Patchwork.Diff
import Patchwork.Proofs.Lines.Returns

/-!
# Diffs with carriage returns in their newlines

A reader sees the lines of a diff and not how they end. So a diff that gets a carriage return in
every newline says what it said before, and what is wrong with it is wrong at the same line. Main
statement: `parse_withReturns`.
-/

namespace Patchwork.Diff

variable {text : String}

/-- A text has the same lines with carriage returns in its newlines, if none was in an ending
before. -/
theorem linesOf_withReturns (h : Lines.style (Lines.cut text.toList).1 ≠ .crlf) :
    linesOf (Lines.withReturns text) = linesOf text := by
  rw [linesOf, linesOf, Lines.withReturns, String.toList_ofList]
  by_cases hnewline : '\n' ∈ text.toList
  · rw [Lines.ofChars_returned (Lines.cut_ne_nil hnewline) h, List.map_map]
    rfl
  · rw [Lines.returned_of_notMem hnewline]

/-- A diff without carriage returns is read as before when every newline gets one: as the same
document or with the same error, and with the same reports on the way. -/
theorem parse_withReturns (h : '\r' ∉ text.toList) :
    parse (Lines.withReturns text) = parse text ∧
      events (Lines.withReturns text) = events text := by
  have hstyle : Lines.style (Lines.cut text.toList).1 ≠ .crlf := LineSet.style_ofText_ne_crlf h
  have hread : read (Lines.withReturns text) = read text := by
    rw [read, read, linesOf_withReturns hstyle]
  exact ⟨by rw [parse, parse, hread], by rw [events, events, hread]⟩

section Instances

/-- A change of one line, whose marker nothing ends. -/
def unended : String :=
  "--- a/f\n+++ b/f\n@@ -1 +1 @@\n-x\n+y\n\\ No newline at end of file"

/-- The change, and behind it a hunk with a line that is none of its own. -/
def unfit : String := unended ++ "\n@@ -3,2 +3,2 @@\n\n*z\n"

theorem parse_withReturns_unended_unfit :
    '\r' ∉ unended.toList ∧ '\r' ∉ unfit.toList ∧
      parse (Lines.withReturns unended) =
        .ok ⟨[⟨.modify, some ⟨"f"⟩, some ⟨"f"⟩,
          [⟨1, 1, [.remove "x", .add "y", .noNewline]⟩]⟩]⟩ ∧
      parse (Lines.withReturns unfit) = .error ⟨9, .unfittingLine "*z"⟩ := by
  have hunended : '\r' ∉ unended.toList := by decide
  have hunfit : '\r' ∉ unfit.toList := by decide
  refine ⟨hunended, hunfit, ?_, ?_⟩
  · rw [(parse_withReturns hunended).1]
    rfl
  · rw [(parse_withReturns hunfit).1]
    rfl

end Instances

end Patchwork.Diff
