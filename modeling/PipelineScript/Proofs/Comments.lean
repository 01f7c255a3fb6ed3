import Mathlib.Data.List.TakeWhile
import PipelineScript.Comment

/-!
Comments that were read from a script.

A comment is read from comment tokens, each of which gives at least one line. So its lines come in
blocks with a gap between any two, and no line has a newline in it or a blank at its end
(`Comment.Tidy`).
-/
namespace PipelineScript

namespace Text

/-- The last character of a trimmed text is no blank. -/
theorem isSpace_getLast?_trim {cs : List Char} {c : Char} (h : (trim cs).getLast? = some c) :
    isSpace c = false := by
  rw [trim, List.getLast?_reverse] at h
  have := List.head?_dropWhile_not isSpace (cs.dropWhile isSpace).reverse
  rw [h] at this
  simpa using this

end Text

namespace Comment

/-- A line without a newline in it or a blank at its end. -/
structure TidyLine (line : String) : Prop where
  newline : '\n' ∉ line.toList
  blank : ∀ c, line.toList.getLast? = some c → Text.isSpace c = false

theorem TidyLine.ne_gap {line : String} (h : TidyLine line) : line ≠ gap := by
  rintro rfl
  exact h.newline (by decide)

/-- Blocks of lines with a gap between any two. -/
inductive TidyLines : List String → Prop where
  | last {line : String} (h : TidyLine line) : TidyLines [line]
  | line {line : String} {lines : List String} (h : TidyLine line) (hs : TidyLines lines) :
      TidyLines (line :: lines)
  | gap {line : String} {lines : List String} (h : TidyLine line) (hs : TidyLines lines) :
      TidyLines (line :: gap :: lines)

/-- Every line is tidy or a gap. -/
theorem TidyLines.eq_gap_or {lines : List String} (h : TidyLines lines) :
    ∀ line ∈ lines, line = Comment.gap ∨ TidyLine line := by
  intro line hm
  induction h with
  | last h =>
    obtain rfl := List.mem_singleton.1 hm
    exact .inr h
  | line h _ ih =>
    rcases List.mem_cons.1 hm with rfl | hm
    · exact .inr h
    · exact ih hm
  | gap h _ ih =>
    rcases List.mem_cons.1 hm with rfl | hm
    · exact .inr h
    · rcases List.mem_cons.1 hm with rfl | hm
      · exact .inl rfl
      · exact ih hm

theorem TidyLines.lined {lines : List String} (h : TidyLines lines) :
    ∀ line ∈ lines, line = Comment.gap ∨ '\n' ∉ line.toList :=
  fun line hm => (h.eq_gap_or line hm).imp id fun h => h.newline

theorem TidyLines.exists_line {lines : List String} (h : TidyLines lines) :
    ∃ line ∈ lines, line ≠ Comment.gap := by
  cases h with
  | last h | line h _ | gap h _ => exact ⟨_, List.mem_cons_self, h.ne_gap⟩

/-- A comment as it is read from a script. -/
def Tidy (c : Comment) : Prop := TidyLines c.lines

/-! ## Lines -/

theorem not_mem_splitLines {cs line : List Char} (h : line ∈ splitLines cs) : '\n' ∉ line := by
  induction cs generalizing line with
  | nil =>
    obtain rfl : line = [] := by simpa [splitLines] using h
    simp
  | cons c cs ih =>
    rw [splitLines] at h
    split at h
    · rcases List.mem_cons.1 h with rfl | h
      · simp
      · exact ih h
    · rename_i hc
      split at h
      · rename_i first rest hsplit
        rcases List.mem_cons.1 h with rfl | h
        · have hfirst : '\n' ∉ first := ih (by simp [hsplit])
          simp [hfirst, Ne.symm hc]
        · exact ih (by simp [hsplit, h])
      · obtain rfl : line = [c] := by simpa using h
        simp [Ne.symm hc]

/-- A marker is taken from the front, so what is left ends as the text does. -/
theorem dropMarker_suffix (marker text : List Char) : dropMarker marker text <:+ text := by
  rw [dropMarker]
  split
  · exact List.drop_suffix _ _
  · exact List.suffix_refl _

theorem tidyLine_of_line? {text : List Char} {line : String} (hn : '\n' ∉ text)
    (h : line? text = some line) : TidyLine line := by
  simp only [line?] at h
  split at h
  · cases h
  · cases h
    have htrim : Text.trim text <:+: text := by
      rw [Text.trim, ← List.reverse_infix, List.reverse_reverse]
      exact (List.dropWhile_suffix _).isInfix.trans
        (List.reverse_infix.2 (List.dropWhile_suffix _).isInfix)
    have hsuffix :=
      (dropMarker_suffix [' '] _).trans (dropMarker_suffix ['/', '/'] (Text.trim text))
    refine ⟨?_, ?_⟩
    · rw [String.toList_ofList]
      exact fun hmem => hn (htrim.subset (hsuffix.subset hmem))
    · intro c hc
      rw [String.toList_ofList] at hc
      obtain ⟨start, hstart⟩ := hsuffix
      have hlast : (Text.trim text).getLast? = some c := by
        rw [← hstart, List.getLast?_append, hc]
        rfl
      exact Text.isSpace_getLast?_trim hlast

theorem tidyLine_of_mem_linesOf {text line : String} (h : line ∈ linesOf text) : TidyLine line := by
  obtain ⟨l, hl, hline⟩ := List.mem_filterMap.1 h
  exact tidyLine_of_line? (not_mem_splitLines hl) hline

/-- A text that begins with slashes has a line. -/
theorem linesOf_ne_nil {cs : List Char} : linesOf (String.ofList ('/' :: '/' :: cs)) ≠ [] := by
  have hsplit : ∃ line rest, splitLines ('/' :: '/' :: cs) = ('/' :: '/' :: line) :: rest := by
    have hne : '/' ≠ '\n' := by decide
    cases h : splitLines cs with
    | nil => exact ⟨[], [], by simp [splitLines, hne, h]⟩
    | cons line rest => exact ⟨line, rest, by simp [splitLines, hne, h]⟩
  obtain ⟨line, rest, hsplit⟩ := hsplit
  have hline : (line? ('/' :: '/' :: line)).isSome := by
    have hspace : Text.isSpace '/' = false := by decide
    have htrim : Text.trim ('/' :: '/' :: line) ≠ [] := by
      simp only [Text.trim, hspace, Bool.false_eq_true, not_false_eq_true,
        List.dropWhile_cons_of_neg, ne_eq, List.reverse_eq_nil_iff, List.dropWhile_eq_nil_iff,
        not_forall]
      exact ⟨'/', by simp, by simp [hspace]⟩
    rw [line?]
    simp [htrim]
  obtain ⟨l, hl⟩ := Option.isSome_iff_exists.1 hline
  simp [linesOf, hsplit, hl]

/-! ## Comments -/

theorem tidyLines_append {block lines : List String} (hb : block ≠ [])
    (hbt : ∀ line ∈ block, TidyLine line) (hl : TidyLines lines) :
    TidyLines (block ++ gap :: lines) := by
  induction block with
  | nil => contradiction
  | cons line block ih =>
    cases block with
    | nil => exact .gap (hbt line (by simp)) hl
    | cons line' block =>
      exact .line (hbt line (by simp)) (ih (by simp) fun l hm => hbt l (by simp [hm]))

theorem tidyLines_of_block {block : List String} (hb : block ≠ [])
    (hbt : ∀ line ∈ block, TidyLine line) : TidyLines block := by
  induction block with
  | nil => contradiction
  | cons line block ih =>
    cases block with
    | nil => exact .last (hbt line (by simp))
    | cons line' block =>
      exact .line (hbt line (by simp)) (ih (by simp) fun l hm => hbt l (by simp [hm]))

/-- The comment of adjacent comment tokens is tidy. -/
theorem tidy_ofTexts (position : Position) {texts : List String} (hne : texts ≠ [])
    (h : ∀ text ∈ texts, ∃ cs, text = String.ofList ('/' :: '/' :: cs)) :
    (ofTexts position texts).Tidy := by
  have hblock : ∀ text ∈ texts, linesOf text ≠ [] := by
    intro text hm
    obtain ⟨cs, rfl⟩ := h text hm
    exact linesOf_ne_nil
  show TidyLines (joinTexts texts)
  clear h
  induction texts with
  | nil => contradiction
  | cons text texts ih =>
    have hfirst := hblock text (by simp)
    cases texts with
    | nil => exact tidyLines_of_block hfirst fun _ => tidyLine_of_mem_linesOf
    | cons text' texts =>
      exact tidyLines_append hfirst (fun _ => tidyLine_of_mem_linesOf)
        (ih (by simp) fun t hm => hblock t (by simp [hm]))

end Comment

end PipelineScript
