import Mathlib.Data.List.Chain
import PipelineScript.Proofs.Agreement
import PipelineScript.Proofs.ScanStates

/-!
Runs of the scanner on bytes.

A scanner between two tokens goes through at most three states until it gives the next token, which
is the one that `Scanner.read` reads there, and then it is between two tokens again. So it gives
what `Scanner` gives, however often it is asked, and comes to no fault
(`ByteScanner.delivers_tokenize`).
-/
namespace PipelineScript

section

variable {engine : PatternEngine}

/-- No slash stands immediately before a character that is not ASCII. -/
def NarrowSlashes (source : List Char) : Prop :=
  source.IsChain fun c d => c = '/' → d.toNat < 128

instance (source : List Char) : Decidable (NarrowSlashes source) :=
  inferInstanceAs (Decidable (source.IsChain _))

theorem NarrowSlashes.not_wideSlash {source : List Char} (h : NarrowSlashes source)
    (offset : Nat) : ¬Scan.WideSlash source offset := by
  rintro ⟨d, ds, hplace, hwide⟩
  obtain ⟨before, rfl, -⟩ := Text.suffixAt_eq_some_iff.1 hplace
  have hpair := (List.isChain_cons_cons.1 (List.isChain_append.1 h).2.1).1
  have hval : d.val ≤ 127 := Nat.lt_succ_iff.1 (hpair rfl)
  rw [Char.utf8Size_eq_one_iff.2 hval] at hwide
  omega

namespace ByteScanner

variable {s : ByteScanner} {source : List Char} {scan : Scan} {next : Option ScanState}
variable {emitted : Option Token} {cursor : Option Cursor} {t : Token} {n : Nat}

/-! ### Between two tokens -/

/-- A scanner between two tokens that has given out the one that it has read. -/
def Stands (source : List Char) (cursor : Option Cursor) (s : ByteScanner) : Prop :=
  s.Meets source none cursor s.state

theorem Meets.past (h : s.Meets source emitted cursor next) :
    ∀ head ∈ s.past, head.InBounds source := by
  rcases cursor with _ | ⟨mode, offset, rest⟩
  · exact h.2.2
  · cases mode <;> exact h.2.past

theorem Meets.emitted_eq (h : s.Meets source emitted cursor next) : s.emitted = emitted := by
  rcases cursor with _ | ⟨mode, offset, rest⟩
  · exact h.2.1
  · cases mode <;> exact h.2.emitted_eq

theorem Meets.exists_state {cursor : Cursor} (h : s.Meets source emitted (some cursor) next) :
    ∃ state, next = some state := by
  obtain ⟨mode, offset, rest⟩ := cursor
  cases mode <;> exact ⟨_, h.1⟩

/-- What a scanner is going to read next and what it has read do not matter for its place. -/
theorem Meets.update (h : s.Meets source emitted cursor next) (state : Option ScanState)
    (emitted' : Option Token) :
    Meets source emitted' cursor next { s with state, emitted := emitted' } := by
  rcases cursor with _ | ⟨mode, offset, rest⟩
  · exact ⟨h.1, rfl, h.2.2⟩
  · cases mode <;> exact ⟨h.1, h.2.place, h.2.start_eq, h.2.pos_eq, rfl, h.2.past⟩

theorem stands_initial (source : List Char) :
    initial.Stands source (Scanner.ofSource source).cursor := by
  have hplace : Text.suffixAt source 0 = some ([] ++ source) :=
    Text.suffixAt_size_append [] source
  refine ⟨rfl, hplace, rfl, rfl, rfl, fun head hhead => ?_⟩
  obtain rfl := List.mem_singleton.1 hhead
  exact Head.inBounds_of_suffixAt hplace

/-! ### Giving out tokens -/

/-- A scanner that has given what `scan` says. -/
def Given (source : List Char) (scan : Scan) (result : Option Token) (s : ByteScanner) : Prop :=
  ∃ t cursor, scan = .token t cursor ∧ result = some t ∧ s.Stands source cursor

theorem Emits.drive_gives (h : s.Emits source scan next) :
    Gives (drive source (n + 1)) { s with state := next } (Given source scan) := by
  obtain ⟨t, cursor, rfl, hmeets⟩ := h
  refine gives_get ?_
  simp only [hmeets.emitted_eq]
  exact gives_set (gives_pure ⟨t, cursor, rfl, rfl, hmeets.update next none⟩)

theorem Leads.drive_gives (h : s.Leads source scan n next) :
    Gives (drive source (n + 1)) { s with state := next } (Given source scan) := by
  induction n generalizing s next with
  | zero => exact Emits.drive_gives h
  | succ n ih =>
    rcases h with h | ⟨he, state, rfl, hstep⟩
    · exact h.drive_gives
    · have hrun := hstep none
      refine gives_get ?_
      simp only [he] at hrun ⊢
      exact gives_set (hrun.bind fun a s' hs' => gives_modify (ih hs'))

theorem nextToken_gives (hw : ∀ offset, ¬Scan.WideSlash source offset) {cursor : Cursor}
    (h : s.Stands source (some cursor)) :
    Gives (nextToken source) s (Given source (Scanner.read source cursor)) := by
  obtain ⟨state, hstate⟩ := h.exists_state
  have hleads : s.Leads source (Scanner.read source cursor) 3 s.state := by
    refine .inr ⟨h.emitted_eq, state, hstate, fun after => step_gives hw ?_⟩
    rw [Stands, hstate] at h
    simpa only [h.emitted_eq] using h.update after none
  exact hleads.drive_gives

theorem nextToken_over (h : s.Stands source none) :
    Gives (nextToken source) s fun result s' => result = none ∧ s' = s := by
  refine gives_get ?_
  simp only [h.emitted_eq, show s.state = none from h.1]
  exact gives_pure ⟨rfl, rfl⟩

/-- **A scanner on bytes gives what `Scanner` gives.** It comes to no fault, however often it is
asked, and is between two tokens behind every one that it gives. -/
theorem tokens_gives (hw : ∀ offset, ¬Scan.WideSlash source offset)
    (h : s.Stands source cursor) (n : Nat) :
    Gives (tokens source n) s fun results s' =>
      Scanner.steps n ⟨source, cursor⟩ = some results ∧ ∃ after, s'.Stands source after := by
  induction n generalizing s cursor with
  | zero => exact gives_pure ⟨rfl, cursor, h⟩
  | succ n ih =>
    rw [tokens]
    cases cursor with
    | none =>
      refine (nextToken_over h).bind ?_
      rintro _ _ ⟨rfl, rfl⟩
      refine (ih h).bind fun results s' hs' => gives_pure ⟨?_, hs'.2⟩
      simp only [Scanner.steps, Scanner.next, hs'.1, Option.map_some]
    | some cursor =>
      refine (nextToken_gives hw h).bind ?_
      rintro _ s₁ ⟨t, after, hread, rfl, h₁⟩
      refine (ih h₁).bind fun results s' hs' => gives_pure ⟨?_, hs'.2⟩
      have hnext : Scanner.next ⟨source, some cursor⟩ = .token t after := hread
      simp only [Scanner.steps, hnext, hs'.1, Option.map_some]

/-! ### The tokens of a script -/

/-- A scanner on bytes gives these tokens and then nothing. -/
structure Delivers [PatternEngine] (source : List Char) (ts : List Token) : Prop where
  /-- There is at most one more of them than the script has bytes. -/
  length_le : ts.length ≤ Text.size source + 1
  /-- The last of them, and no other, is the end of the text or a diagnostic. -/
  ends : ∃ front last, ts = front ++ [last] ∧ (last.kind = .eof ∨ last.kind = .error) ∧
    ∀ t ∈ front, t.kind ≠ .eof ∧ t.kind ≠ .error
  /-- Every string has a node. -/
  strings : ∀ t ∈ ts, t.kind = .string → ∀ info, (Node.stringOfText? info t.text).isSome
  /-- However often the scanner is asked, it comes to no fault and stays in the script. -/
  runs : ∀ n, ∃ s, tokens source n initial =
      .ok ((ts.map some).take n ++ List.replicate (n - ts.length) none) s ∧
    ∀ head ∈ s.past, head.InBounds source

theorem kind_of_isLast (h : t.kind.isLast = true) : t.kind = .eof ∨ t.kind = .error := by
  cases hk : t.kind <;> simp_all [TokenKind.isLast]

theorem kind_of_inner (h : t.kind.isLast = false) : t.kind ≠ .eof ∧ t.kind ≠ .error := by
  constructor <;> intro hk <;> rw [hk] at h <;> cases h

/-- **A scanner on bytes stays in the script.** Unless a slash stands immediately before a character
that is not ASCII, asking for tokens never comes to a fault: no place lies outside the script or
inside a character, the scanner never goes back too far, and what it gives are the tokens of the
script, which come to an end. -/
theorem delivers_tokenize (source : String) (h : NarrowSlashes source.toList) :
    Delivers source.toList (tokenize source).tokens := by
  have hk : Text.suffixAt source.toList 0 = some source.toList :=
    Text.suffixAt_size_append [] source.toList
  obtain ⟨ts, fate, hbehaves, hlength, hfate⟩ := Scanner.exists_fate source
  obtain rfl : fate = .ends := by
    rcases hfate with hfate | ⟨⟨offset, hwide⟩, -⟩
    · exact hfate
    · exact absurd hwide (h.not_wideSlash offset)
  have htokens : tokenize source = ⟨ts, .ended⟩ := hbehaves.run_eq hk hlength
  obtain ⟨front, last, hts, hlast, hfront⟩ := hbehaves.exists_last hk
  have hstrings : ∀ t ∈ ts, t.kind = .string → t.Formed := by
    intro t ht hstring
    rw [hts, List.mem_append, List.mem_singleton] at ht
    rcases ht with ht | rfl
    · exact (hfront t ht).2
    · rw [hstring] at hlast
      cases hlast
  rw [htokens]
  refine ⟨hlength, ⟨front, last, hts, kind_of_isLast hlast, fun t ht =>
    kind_of_inner (hfront t ht).1⟩, fun t ht hstring info => ?_, fun n => ?_⟩
  · obtain ⟨body, triple, hbody⟩ := (hstrings t ht hstring).exists_string hstring
    rw [Node.stringOfText?, hbody]
    rfl
  · obtain ⟨results, s, hrun, hsteps, after, hstands⟩ :=
      tokens_gives h.not_wideSlash (stands_initial source.toList) n
    have hresults : results = (ts.map some).take n ++ List.replicate (n - ts.length) none := by
      have hboth := hsteps.symm.trans (hbehaves n)
      simpa [Fate.results] using hboth
    rw [← hresults]
    exact ⟨s, hrun, hstands.past⟩

end ByteScanner

end

namespace ByteScanner

open scoped PatternEngine

/-- No slash stands immediately before one of the wide characters here. -/
theorem delivers_tokenize_quotes :
    NarrowSlashes "'''é''' / a == '€' // é".toList ∧
      Delivers "'''é''' / a == '€' // é".toList
        [⟨.string, 0, "'''é'''"⟩, ⟨.binary .divide, 9, "/"⟩, ⟨.ident, 11, "a"⟩,
          ⟨.binary .equal, 13, "=="⟩, ⟨.string, 16, "'€'"⟩, ⟨.comment, 22, "// é"⟩,
          ⟨.eof, 27, ""⟩] := by
  have hnarrow : NarrowSlashes "'''é''' / a == '€' // é".toList := by decide +kernel
  have htokens : (tokenize "'''é''' / a == '€' // é").tokens =
      [⟨.string, 0, "'''é'''"⟩, ⟨.binary .divide, 9, "/"⟩, ⟨.ident, 11, "a"⟩,
        ⟨.binary .equal, 13, "=="⟩, ⟨.string, 16, "'€'"⟩, ⟨.comment, 22, "// é"⟩,
        ⟨.eof, 27, ""⟩] := by decide +kernel
  exact ⟨hnarrow, htokens ▸ delivers_tokenize _ hnarrow⟩

/-- Before a character of three bytes the scanner goes back from the slash by three. -/
example : ∃ s, nextToken "/€".toList initial = .error .underflow s := ⟨_, rfl⟩

end ByteScanner

end PipelineScript
