import PipelineScript.Proofs.Parsed
import PipelineScript.Proofs.Reread
import PipelineScript.Proofs.Settled

/-!
Canonical texts that are formatted again.

To format a canonical text is to set its line breaks anew (`Canonical.format`). A text in which a
line break is missing changes each time until none is missing (`formatScript_settles`). The first
text of a script can be such a text, so formatting twice is not the same as formatting once
(`formatScript_chain_argument`).
-/
namespace PipelineScript

section

variable {engine : PatternEngine}

/-! ## Whole programs -/

/-- What is read from the text of some statements. -/
theorem rewrites_statements {ns : List Node} (hs : ∀ n ∈ ns, Spellable .statement n)
    (hk : ∀ n ∈ ns, n.keepsComments false false = true) {bytes : List UInt8} {indent : List Char}
    (hi : Spaces indent) {first : Bool} {offset : Nat} {qs : List Node}
    (hat : StandsAt bytes offset (spelled (Node.statementPieces indent first ns)))
    (hecho : EchoRuns bytes ns (slotsAt bytes offset (Node.statementPieces indent first ns)) qs)
    (ms : List Node) (indent' : List Char) (first' : Bool) :
    Node.renderStatements indent' first' (qs ++ ms) =
      Node.renderStatements indent' first' (Node.reflowAll ns ++ ms) := by
  induction ns generalizing first offset qs first' with
  | nil =>
    obtain ⟨-, rfl⟩ := hecho
    rfl
  | cons n ns ih =>
    have hn := hs n (by simp)
    rw [Node.statementPieces, List.cons_append] at hat hecho
    rw [slotsAt_blank, slotsAt_append (hn.trails_pieces _ _ _), slotsAt_blank] at hecho
    rw [spelled_blank, spelled_append, spelled_blank] at hat
    obtain ⟨tn, tns, q, qs, hts, rfl, hq, hqs⟩ := hecho
    have hlength := hq.length_eq indent true
    rw [← map_sign_slotsAt bytes, List.length_map] at hlength
    obtain ⟨rfl, rfl⟩ := List.append_inj hts hlength.symm
    have hrender := hn.rewrites_statement hi (hk n (by simp)) hat.right.left hq
    have ih := ih (fun m hm => hs m (by simp [hm])) (fun m hm => hk m (by simp [hm]))
      hat.right.right.right hqs false
    simp only [List.cons_append, Node.renderStatements, Node.reflowAll, hrender, ih]

theorem SameLines.renderStatements_eq {c d : Option Comment} (h : SameLines c d) (ns : List Node)
    (indent : List Char) (first : Bool) :
    Node.renderStatements indent first (ns ++ c.toList.map .comment) =
      Node.renderStatements indent first (ns ++ d.toList.map .comment) := by
  induction ns generalizing first with
  | nil =>
    cases c <;> cases d <;>
      simp_all [SameLines, Node.renderStatements, Node.renderIn, Comment.render]
  | cons n ns ih => simp [Node.renderStatements, ih]

/-- The comment behind the statements is read with its lines. -/
theorem slotsBehind_trailing (bytes : List UInt8) {trailing : Option Comment}
    (h : Remarked trailing) (offset : Nat) (first : Bool) :
    ∃ t d, SameLines d trailing ∧ slotsBehind bytes []
      (tokensAt offset (Node.statementPieces [] first (trailing.toList.map .comment))) =
        [⟨t, d⟩] := by
  cases trailing with
  | none => exact ⟨_, none, rfl, rfl⟩
  | some c =>
    let start := offset + Text.size (if first then [] else ['\n'])
    let stop := start + Text.size (spelled (lead (some c) [] [] true)) + Text.size ['\n']
    obtain ⟨d, hd, hslots⟩ := slotsBehind_lead bytes true h spaces_nil
      spaces_nil start (t := ⟨.eof, stop, ""⟩) (by simp) []
    refine ⟨_, d, hd, Eq.trans ?_ hslots⟩
    simp only [Option.toList_some, List.map_cons, List.map_nil, Node.statementPieces, Node.pieces,
      List.cons_append, tokensAt]
    rw [tokensAt_append]
    rfl

/-- The program with these statements and a comment behind them is read back from its canonical
text, and every comment of the text comes before the node that it stood before. -/
structure Canonical (ns : List Node) (trailing : Option Comment) : Prop where
  spellable : ∀ n ∈ ns, Spellable .statement n
  apart : Node.keptApart ns = true
  remarked : Remarked trailing
  placed : Placed .operand (Node.statementPieces [] true (Node.withTrailing ns trailing)) = true
  keeps : ∀ n ∈ ns, n.keepsComments false false = true

theorem Node.reflowAll_withTrailing (ns : List Node) (trailing : Option Comment) :
    reflowAll (withTrailing ns trailing) = withTrailing (reflowAll ns) trailing := by
  rw [withTrailing, withTrailing, reflowAll_eq_map, List.map_append, ← reflowAll_eq_map]
  cases trailing <;> rfl

namespace Canonical

variable {ns : List Node} {trailing : Option Comment}

/-- New line breaks do not spoil a canonical text. -/
theorem reflow (h : Canonical ns trailing) : Canonical (Node.reflowAll ns) trailing where
  spellable := by
    rw [Node.reflowAll_eq_map]
    exact List.forall_mem_map.2 fun n hn => (h.spellable n hn).reflow
  apart := (Node.keptApart_reflow ns).trans h.apart
  remarked := h.remarked
  placed := by
    rw [← Node.reflowAll_withTrailing, Node.placed_reflow]
    exact h.placed
  keeps := by
    rw [Node.reflowAll_eq_map]
    refine List.forall_mem_map.2 fun n hn => ?_
    rw [Node.keepsComments_reflow]
    exact h.keeps n hn

/-- **Formatting a canonical text sets its line breaks anew**: the text that comes out is that of
the tree with the line breaks that it has when it is read. -/
theorem format (h : Canonical ns trailing) (position : Position) :
    formatScript (Node.program position (Node.withTrailing ns trailing)).render =
      .ok (Node.program position (Node.withTrailing ns trailing)).reflow.render := by
  obtain ⟨hd, ts, e, qs, hin, -, hts, hqs, -, hparse⟩ :=
    parse_render_echo h.spellable h.apart h.remarked h.placed
  let bytes := Text.bytes (spelled (Node.statementPieces [] true (Node.withTrailing ns trailing)))
  let rest := Node.statementPieces [] ns.isEmpty (trailing.toList.map Node.comment)
  have hps : Node.statementPieces [] true (Node.withTrailing ns trailing) =
      Node.statementPieces [] true ns ++ rest := by
    simp only [rest, Node.withTrailing, Node.statementPieces_append, Bool.true_and]
  have htrails : trails (!([] : List Token).isEmpty) (Node.statementPieces [] true ns) = false := by
    have hquiet : quiet false false (Node.statementPieces [] true ns ++ []) = true :=
      quiet_statements (fun n hn => (h.spellable n hn).quiets false) [] true rfl
    rw [List.append_nil] at hquiet
    exact trails_of_quiet hquiet
  -- The slots are those of the statements and one for the end.
  obtain ⟨t, d, hlines, hend⟩ := slotsBehind_trailing bytes h.remarked
    (0 + Text.size (spelled (Node.statementPieces [] true ns))) ns.isEmpty
  have hslots : slotsAt bytes 0 (Node.statementPieces [] true ns) ++ [⟨t, d⟩] = ts ++ [e] := by
    rw [← hin, slotsIn, TokenStream.ofSource_spelled hd h.placed, ← hend, slotsAt,
      ← slotsBehind_tokensOf htrails, ← tokensAt_append, ← hps]
    rfl
  obtain ⟨rfl, he⟩ := List.append_inj' hslots rfl
  obtain rfl : ⟨t, d⟩ = e := by simpa using he
  have hat : StandsAt bytes 0 (spelled (Node.statementPieces [] true ns)) :=
    ⟨[], spelled rest, by simp [bytes, hps], rfl⟩
  have hrender := rewrites_statements h.spellable h.keeps spaces_nil hat hqs
    (d.toList.map .comment) [] true
  rw [formatScript, hparse]
  show Except.ok (String.ofList (Node.renderStatements [] true (qs ++ d.toList.map .comment))) =
    Except.ok (String.ofList
      (Node.renderStatements [] true (Node.reflowAll (Node.withTrailing ns trailing))))
  rw [hrender, hlines.renderStatements_eq, Node.reflowAll_withTrailing, Node.withTrailing]

/-- What is formatted again and again stays canonical. -/
theorem iterate (h : Canonical ns trailing) (position : Position) (k : Nat) :
    ∃ ms, Canonical ms trailing ∧
      Node.reflow^[k] (.program position (Node.withTrailing ns trailing)) =
        .program position (Node.withTrailing ms trailing) := by
  induction k with
  | zero => exact ⟨ns, h, rfl⟩
  | succ k ih =>
    obtain ⟨ms, hms, heq⟩ := ih
    refine ⟨Node.reflowAll ms, hms.reflow, ?_⟩
    rw [Function.iterate_succ_apply', heq, Node.reflow, Node.reflowAll_withTrailing]

/-- Each round sets the line breaks anew. -/
theorem format_iterate (h : Canonical ns trailing) (position : Position) (k : Nat) :
    let p := Node.program position (Node.withTrailing ns trailing)
    formatScript (Node.reflow^[k] p).render = .ok (Node.reflow^[k + 1] p).render := by
  intro p
  obtain ⟨ms, hms, heq⟩ := h.iterate position k
  rw [Function.iterate_succ_apply', heq]
  exact hms.format position

end Canonical

theorem Node.render_reflow_eq_iff (n : Node) :
    n.reflow.render = n.render ↔ n.missingBreaks = 0 := by
  rw [render, render, renderAt, renderAt, String.ofList_inj, renderIn_reflow_eq_iff]

/-- **Formatting settles.** A script whose canonical text is legible, with every comment before a
node that keeps it, is formatted to the canonical text of its tree. Formatting that text again
gives the same text if and only if no line break is missing in it; and it sets the line breaks that
are missing, so that after as many rounds as there are operations and calls on one line, at the
latest, the text stays as it is. -/
theorem formatScript_settles {source : String} {p : Node} (h : parse source = .ok p)
    (hb : p.isBounded = true) (hl : p.isLegible = true)
    (hk : p.keepsComments false false = true) :
    formatScript source = .ok p.render ∧
      (formatScript p.render = .ok p.render ↔ p.missingBreaks = 0) ∧
      (∀ k, formatScript (Node.reflow^[k] p).render = .ok (Node.reflow^[k + 1] p).render) ∧
      ∃ k ≤ p.unbroken,
        formatScript (Node.reflow^[k] p).render = .ok (Node.reflow^[k] p).render := by
  have hformat : formatScript source = .ok p.render := by rw [formatScript, h]; rfl
  obtain ⟨position, ns, trailing, rfl, hs, ha, ht, hp⟩ := legible_of_parse h hb hl
  have hkeeps : ∀ n ∈ ns, n.keepsComments false false = true := by
    rw [Node.keepsComments, Node.keepCommentsAll_eq_all, List.all_eq_true] at hk
    exact fun n hn => hk n (by simp [Node.withTrailing, hn])
  have hcanonical : Canonical ns trailing := ⟨hs, ha, ht, hp, hkeeps⟩
  refine ⟨hformat, ?_, fun k => ?_, ?_⟩
  · rw [← Node.render_reflow_eq_iff, hcanonical.format, Except.ok.injEq]
  · exact hcanonical.format_iterate position k
  · obtain ⟨k, hle, hsettled⟩ :=
      Node.exists_settled (.program position (Node.withTrailing ns trailing))
    refine ⟨k, hle, ?_⟩
    rw [hcanonical.format_iterate, Function.iterate_succ_apply', Node.reflow_eq_self hsettled]

end

open scoped PatternEngine

/-- A chain with a comment, and a call in it that stands on several lines. -/
theorem formatScript_settles_chain :
    ∃ p, parse "stream\n  // only errors\n  |where(lambda: \"level\" == 'e')\n  |log('a\nb', 2)" =
        .ok p ∧
      p.isBounded = true ∧ p.isLegible = true ∧ p.keepsComments false false = true ∧
      formatScript p.render = .ok p.render := by
  obtain ⟨p, hparse, hp⟩ := exists_ok_of_any (x := parse
      "stream\n  // only errors\n  |where(lambda: \"level\" == 'e')\n  |log('a\nb', 2)")
    (P := fun p => p.isBounded && p.isLegible && p.keepsComments false false &&
      p.missingBreaks == 0) (by decide +kernel)
  simp only [Bool.and_eq_true, beq_iff_eq] at hp
  obtain ⟨⟨⟨hb, hl⟩, hk⟩, hmissing⟩ := hp
  obtain ⟨-, hagain, -⟩ := formatScript_settles hparse hb hl hk
  exact ⟨p, hparse, hb, hl, hk, hagain.2 hmissing⟩

/-- A chain as an argument stands at its operator, on a new line. So the call that is written on
one line is read as one on several lines. -/
theorem formatScript_chain_argument :
    formatScript "f(a|b())" = .ok "f(a\n        |b())\n" ∧
      formatScript "f(a\n        |b())\n" = .ok "f(\n    a\n        |b()\n)\n" := by
  decide +kernel

end PipelineScript
