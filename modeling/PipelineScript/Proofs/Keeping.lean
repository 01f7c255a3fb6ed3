import Mathlib.Data.List.Count
import PipelineScript.Proofs.Dropped
import PipelineScript.Proofs.Marks

/-!
The comment lines of a script and of its canonical text.

The lines of the script are those before its slots and the lines of its canonical text are those of
its tree, so `Reads.weight_le` and `Reads.balances` compare them line by line
(`entries_of_format`).
-/
namespace PipelineScript

section

variable {engine : PatternEngine}

/-! ## Canonical texts that are divided as they were written -/

namespace Node

/-- Whether the scanner divides the canonical text of a program as it was written: no number is too
large, no node is garbled, and the scanner arrives at every sign in a mode that suits it. -/
def isDivided : Node → Bool
  | .program _ ns => (preorderAll ns).all isClean && Placed .operand (statementPieces [] true ns)
  | _ => false

end Node

/-- Comments as statements. -/
theorem delimits_remarks {cs : List Comment} (h : ∀ c ∈ cs, c.Tidy) (first : Bool) :
    Delimits (Node.statementPieces [] first (cs.map .comment)) := by
  induction cs generalizing first with
  | nil => trivial
  | cons c cs ih =>
    rw [List.forall_mem_cons] at h
    have hrest : Delimits (.blank ['\n'] :: Node.statementPieces [] false (cs.map .comment)) :=
      ⟨Text.isSpace_newline, ih h.2 false⟩
    rw [List.map_cons, Node.statementPieces, Node.pieces]
    refine ⟨List.all_eq_true.1 (by cases first <;> decide), ?_⟩
    refine delimits_lead (fun d hd => ?_) spaces_nil spaces_nil (fun _ d hd => ?_) hrest
    · cases hd
      exact h.1
    · exact .inl (by simpa using hd.symm)

/-- The statements of a script leave no comment behind. -/
theorem Reads.left_of_statements {bytes : List UInt8} {ns : List Node} {left₀ left : Option Comment}
    {before after : List Slot} (h : Reads bytes (.statements left₀ ns) before after left) :
    left = none := by
  generalize hph : Phrase.statements left₀ ns = ph at h
  induction h generalizing left₀ ns with
  | done => rfl
  | more _ _ _ _ ih => cases hph; exact ih rfl
  | _ => cases hph

/-- A comment of a tree stands before a slot. -/
theorem Reads.exists_slot_of_mem {bytes : List UInt8} {ns : List Node} {before after : List Slot}
    {left : Option Comment} (h : Reads bytes (.statements none ns) before after left) {c : Comment}
    (hc : c ∈ Node.commentsAll ns) : ∃ t ∈ before, t.comment = some c := by
  let f : Comment → Nat := fun d => if d = c then 1 else 0
  have hone : 1 ≤ Node.weightAll f ns :=
    List.single_le_sum (by simp) 1 (List.mem_map.2 ⟨c, hc, by simp [f]⟩)
  have hle := h.weight_le f
  simp only [Phrase.trees, Phrase.stem, Phrase.found, weigh_none, Node.weightAll_nil] at hle
  by_contra hnone
  have hzero : load f before = 0 := by
    refine List.sum_eq_zero fun w hw => ?_
    obtain ⟨t, ht, rfl⟩ := List.mem_map.1 hw
    cases hd : t.comment with
    | none => rfl
    | some d =>
      have hne : d ≠ c := by
        rintro rfl
        exact hnone ⟨t, ht, hd⟩
      simp [weigh, f, hne]
  omega

/-- The canonical text of a program that was parsed is divided as it was written, if the scanner
arrives at every sign in a mode that suits it and no node is garbled. -/
theorem delimits_of_parse {source : String} {p : Node} (h : parse source = .ok p)
    (hd : p.isDivided = true) :
    (∀ c ∈ p.comments, c.Tidy) ∧ Delimits (p.pieces [] true false) ∧
      Placed .operand (p.pieces [] true false) = true := by
  obtain ⟨ns, after, left, rfl, hreads⟩ := reads_of_parse h
  simp only [Node.isDivided, Bool.and_eq_true] at hd
  obtain ⟨ms, cs, hns, hms, hcs⟩ :=
    hreads.written (fun t => formed_of_mem_slotsIn) (remarked_of_none rfl)
  simp only [Node.comments, Node.pieces]
  refine ⟨fun c hc => ?_, ?_, hd.2⟩
  · obtain ⟨t, ht, hcomment⟩ := hreads.exists_slot_of_mem hc
    exact (formed_of_mem_slotsIn ht).comment c hcomment
  · rw [hns, Node.statementPieces_append]
    refine delimits_statements (fun m hm => ?_) spaces_nil true (delimits_remarks hcs _)
    have hplain : m.isPlain = true := by
      have hall := hd.1
      rw [Node.all_preorderAll, List.all_eq_true] at hall
      exact hall m (by simp [hns, hm])
    exact (hms m hm hplain).settles

/-! ## What is kept -/

/-- The weight of a comment is the number of times that a line is in it. -/
theorem count_entries_slots (line : String) (ts : List Slot) :
    (ts.flatMap Slot.entries).count line = load (fun c => c.entries.count line) ts := by
  rw [List.count_flatMap, load]
  congr 1
  refine List.map_congr_left fun t _ => ?_
  cases ht : t.comment <;> simp [Slot.entries, weigh, ht]

theorem count_entries_comments (line : String) (n : Node) :
    (n.comments.flatMap Comment.entries).count line = n.weight fun c => c.entries.count line := by
  rw [List.count_flatMap, Node.weight]
  rfl

/-- **What becomes of the comment lines of a script.** If its canonical text is divided as it was
written, no line is in the text more often than in the script, and every line of the script that is
not in the text stood before a slot whose comment is dropped. So if no such slot has a comment, the
lines are the same. -/
theorem entries_of_format {source : String} {p : Node} (h : parse source = .ok p)
    (hd : p.isDivided = true) :
    let kept := (tokenize p.render).entries
    let dropped := droppedSlots (slotsIn source.toList) p
    kept.Subperm (tokenize source).entries ∧
      (tokenize source).entries.Subperm (kept ++ dropped.flatMap Slot.entries) ∧
      ((∀ t ∈ dropped, t.comment = none) → kept.Perm (tokenize source).entries) := by
  intro kept dropped
  obtain ⟨htidy, hdelimits, hplaced⟩ := delimits_of_parse h hd
  have hkept : kept = p.comments.flatMap Comment.entries :=
    entries_tokenize_render htidy hdelimits hplaced
  obtain ⟨ns, after, left, rfl, hreads⟩ := reads_of_parse h
  obtain ⟨-, start, e, htokens, he, rfl⟩ := hreads.ends
  obtain rfl := hreads.left_of_statements
  have hlines : (tokenize source).entries = (slotsIn source.toList).flatMap Slot.entries := by
    have hlast : Lookahead.isComment e.token = false := by simp [Lookahead.isComment, he]
    rw [TokenStream.entries_eq, slotsIn, slotsOf]
    exact (flatMap_entries_slotsBehind _ [] hlast (by rw [tokenize, htokens]; simp)).symm
  have hle : kept.Subperm (tokenize source).entries := by
    rw [hkept, hlines, List.subperm_iff_count]
    intro line
    rw [count_entries_slots, count_entries_comments]
    have hweight := hreads.weight_le fun c => c.entries.count line
    simp only [Phrase.trees, Phrase.stem, Phrase.found, weigh_none, Node.weightAll_nil] at hweight
    exact Nat.le_trans (Nat.le_trans (Nat.le_add_right _ _) (Nat.le_add_right _ _)) hweight
  have hge : (tokenize source).entries.Subperm (kept ++ dropped.flatMap Slot.entries) := by
    rw [hkept, hlines, List.subperm_iff_count]
    intro line
    rw [List.count_append, count_entries_slots, count_entries_slots, count_entries_comments]
    have hmem : ∀ t ∈ slotsIn source.toList, t ∈ slotsIn source.toList := fun _ ht => ht
    obtain ⟨s, haccounts, -⟩ := hreads.balances (fun c => c.entries.count line) hmem Scope.start
      ⟨rfl, fun _ => rfl⟩ trivial
    have hbound := haccounts.bound (by simp [Phrase.isBracketed])
    have hdropped : load (fun c => c.entries.count line) dropped =
        load (fun c => c.entries.count line) (Scope.start.dropped (slotsIn source.toList)) +
          muteLoad (fun c => c.entries.count line) (slotsIn source.toList) (Node.muteAll ns) := by
      simp only [dropped, droppedSlots, load_append, Node.mute, muteLoad]
    have hnone : load (fun c => c.entries.count line) [e.bare] = 0 := rfl
    simp only [Phrase.trees, Phrase.stem, Phrase.found, owed_none, Node.weightAll_nil,
      Node.muteAll, muteLoad_nil, hnone] at hbound
    show _ ≤ Node.weightAll _ ns + _
    omega
  refine ⟨hle, hge, fun hnone => hle.antisymm ?_⟩
  have hempty : dropped.flatMap Slot.entries = [] := by
    rw [List.flatMap_eq_nil_iff]
    intro t ht
    simp [Slot.entries, hnone t ht]
  rwa [hempty, List.append_nil] at hge

end

open scoped PatternEngine

/-- Comments before statements, arguments, steps of a chain and the end of a script, and one before
a comma. -/
theorem entries_of_format_call :
    ∃ p, parse "// a\nvar x = f(1, // b\n 2 // c\n, g)\nx // d\n|h() // e" = .ok p ∧
      p.isDivided = true ∧
      ["a", "b", "d", "e"].Subperm
        (tokenize "// a\nvar x = f(1, // b\n 2 // c\n, g)\nx // d\n|h() // e").entries := by
  obtain ⟨p, hparse, hp⟩ := exists_ok_of_any (x := parse
      "// a\nvar x = f(1, // b\n 2 // c\n, g)\nx // d\n|h() // e")
    (P := fun p => p.isDivided && (tokenize p.render).entries == ["a", "b", "d", "e"])
    (by decide +kernel)
  rw [Bool.and_eq_true, beq_iff_eq] at hp
  have hkept := (entries_of_format hparse hp.1).1
  rw [hp.2] at hkept
  exact ⟨p, hparse, hp.1, hkept⟩

/-- The comment before an operator in parentheses gives way to the one before the parenthesis, of
which there is none. -/
theorem entries_of_format_parens :
    ∃ p, parse "var x = lambda: (a // c\n AND b)" = .ok p ∧
      p.render = "var x = lambda: (a AND\n    b)\n" ∧
      ¬ (tokenize p.render).entries.Perm (tokenize "var x = lambda: (a // c\n AND b)").entries := by
  obtain ⟨p, hparse, hp⟩ := exists_ok_of_any (x := parse "var x = lambda: (a // c\n AND b)")
    (P := fun p => p.render == "var x = lambda: (a AND\n    b)\n")
    (by decide +kernel)
  rw [beq_iff_eq] at hp
  refine ⟨p, hparse, hp, fun hperm => ?_⟩
  rw [hp] at hperm
  have hlength := hperm.length_eq
  exact absurd hlength (by decide +kernel)

end PipelineScript
