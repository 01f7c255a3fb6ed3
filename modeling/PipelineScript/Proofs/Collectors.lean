import Mathlib.Data.List.Induction
import PipelineScript.Proofs.Inspection

/-!
The names that are collected from trees.

A collector keeps the names that it has met, each where it met it first: one more node keeps this
true (`run_noteName`), so it is true of a whole inspection (`collectNames_eq`).
-/
namespace PipelineScript

section

variable {engine : PatternEngine}

/-! ## Lists without repetitions -/

section

variable {α : Type} [BEq α] [LawfulBEq α]

/-- One more element is kept if it is not there yet. -/
theorem eraseDups_concat (as : List α) (a : α) :
    (as ++ [a]).eraseDups = if as.contains a then as.eraseDups else as.eraseDups ++ [a] := by
  rw [List.eraseDups_append, List.cons_removeAll, List.nil_removeAll]
  cases as.contains a with
  | true => simp
  | false => simp [List.eraseDups_cons]

theorem contains_eraseDups (as : List α) (a : α) : as.eraseDups.contains a = as.contains a := by
  rw [Bool.eq_iff_iff, List.contains_iff_mem, List.contains_iff_mem, List.mem_eraseDups]

/-- What is kept stands in the order of the first places. -/
theorem pairwise_eraseDups (as : List α) :
    as.eraseDups.Pairwise fun a b => as.idxOf a < as.idxOf b := by
  induction as using List.reverseRecOn with
  | nil => exact .nil
  | append_singleton as a ih =>
    have hold : as.eraseDups.Pairwise fun b c => (as ++ [a]).idxOf b < (as ++ [a]).idxOf c := by
      refine ih.imp_of_mem fun hb hc h => ?_
      rw [List.idxOf_append_of_mem (List.mem_eraseDups.1 hb),
        List.idxOf_append_of_mem (List.mem_eraseDups.1 hc)]
      exact h
    rw [eraseDups_concat]
    split
    · exact hold
    · rename_i hnew
      rw [List.contains_iff_mem] at hnew
      refine List.pairwise_append.2 ⟨hold, List.pairwise_singleton _ a, fun b hb c hc => ?_⟩
      obtain rfl := List.mem_singleton.1 hc
      have hmem := List.mem_eraseDups.1 hb
      rw [List.idxOf_append_of_mem hmem, List.idxOf_append_of_notMem hnew]
      exact Nat.lt_add_right _ (List.idxOf_lt_length_iff.2 hmem)

theorem nodup_eraseDups (as : List α) : as.eraseDups.Nodup := by
  refine (pairwise_eraseDups as).imp fun h he => ?_
  rw [he] at h
  exact Nat.lt_irrefl _ h

theorem eraseDups_filter (p : α → Bool) (as : List α) :
    (as.filter p).eraseDups = as.eraseDups.filter p := by
  induction as using List.reverseRecOn with
  | nil => rfl
  | append_singleton as a ih =>
    rw [List.filter_append, eraseDups_concat]
    cases hp : p a with
    | true =>
      have hcontains : (as.filter p).contains a = as.contains a := by simp [hp]
      rw [List.filter_singleton, hp, cond_true, eraseDups_concat, hcontains, ih]
      split
      · rfl
      · rw [List.filter_append, List.filter_singleton, hp, cond_true]
    | false =>
      rw [List.filter_singleton, hp, cond_false, List.append_nil, ih]
      split
      · rfl
      · rw [List.filter_append, List.filter_singleton, hp, cond_false, List.append_nil]

/-- Of a second list what the first one does not have is kept. -/
theorem eraseDups_append_eq (as bs : List α) :
    (as ++ bs).eraseDups =
      as.eraseDups ++ bs.eraseDups.filter fun b => !as.eraseDups.contains b := by
  simp only [contains_eraseDups]
  rw [List.eraseDups_append, List.removeAll, eraseDups_filter]

end

namespace Node

/-! ## Collected names -/

section

variable (nameOf : Node → Option String)

/-- One more node: its name is kept unless it was met before. -/
theorem run_noteName (n : Node) (seen : List String) :
    ((noteName nameOf n).run seen.eraseDups).2 = (seen ++ (nameOf n).toList).eraseDups := by
  cases hname : nameOf n with
  | none =>
    simp only [noteName, hname, Option.toList_none, List.append_nil]
    rfl
  | some name =>
    rw [Option.toList_some, eraseDups_concat, ← contains_eraseDups]
    simp only [noteName, hname]
    rfl

/-- The nodes that are still to come, when some names have been met. -/
theorem run_noteNames (ns : List Node) (seen : List String) :
    ((forM ns (noteName nameOf)).run seen.eraseDups).2 =
      (seen ++ ns.filterMap nameOf).eraseDups := by
  induction ns generalizing seen with
  | nil =>
    rw [List.filterMap_nil, List.append_nil]
    rfl
  | cons n ns ih =>
    have hnames : (n :: ns).filterMap nameOf = (nameOf n).toList ++ ns.filterMap nameOf := by
      rw [List.filterMap_eq_flatMap_toList, List.flatMap_cons, ← List.filterMap_eq_flatMap_toList]
    calc ((forM (n :: ns) (noteName nameOf)).run seen.eraseDups).2
        = ((forM ns (noteName nameOf)).run ((noteName nameOf n).run seen.eraseDups).2).2 := rfl
      _ = ((seen ++ (nameOf n).toList) ++ ns.filterMap nameOf).eraseDups := by
        rw [run_noteName, ih]
      _ = (seen ++ (n :: ns).filterMap nameOf).eraseDups := by rw [hnames, List.append_assoc]

/-- The names on the nodes that an inspection meets. -/
def namesMet (nodes : List Node) : List String := (met nodes).filterMap nameOf

theorem collectNames_eq (nodes : List Node) :
    collectNames nameOf nodes = (namesMet nameOf nodes).eraseDups := by
  rw [collectNames, inspectAll_eq, namesMet, met_eq]
  exact run_noteNames nameOf (preorderAll nodes) []

end

/-- What finds the names that `nameOf` reads from nodes. -/
structure Finds (nameOf : Node → Option String) (find : List Node → List String) : Prop where
  /-- It gives the names that an inspection meets, without every one that was met before. -/
  eq_names : ∀ nodes, find nodes = (namesMet nameOf nodes).eraseDups
  nodup : ∀ nodes, (find nodes).Nodup
  mem_iff : ∀ nodes name, name ∈ find nodes ↔
    ∃ n ∈ nodes, ∃ m, Within m n ∧ nameOf m = some name
  /-- The names are in the order in which they were met first. -/
  ordered : ∀ nodes, (find nodes).Pairwise fun a b =>
    (namesMet nameOf nodes).idxOf a < (namesMet nameOf nodes).idxOf b
  append : ∀ xs ys, find (xs ++ ys) =
    find xs ++ (find ys).filter fun name => !(find xs).contains name

theorem finds_collectNames (nameOf : Node → Option String) :
    Finds nameOf (collectNames nameOf) where
  eq_names := collectNames_eq nameOf
  nodup nodes := by
    rw [collectNames_eq]
    exact nodup_eraseDups _
  mem_iff nodes name := by
    rw [collectNames_eq, List.mem_eraseDups, namesMet, List.mem_filterMap]
    constructor
    · rintro ⟨m, hm, hname⟩
      obtain ⟨n, hn, hwithin⟩ := mem_met_iff.1 hm
      exact ⟨n, hn, m, hwithin, hname⟩
    · rintro ⟨n, hn, m, hwithin, hname⟩
      exact ⟨m, mem_met_iff.2 ⟨n, hn, hwithin⟩, hname⟩
  ordered nodes := by
    rw [collectNames_eq]
    exact pairwise_eraseDups _
  append xs ys := by
    simp only [collectNames_eq, namesMet, met_append, List.filterMap_append]
    exact eraseDups_append_eq _ _

/-- **The collectors of names.** The references of some trees, and the functions called in them, are
the names met by an inspection of the trees in order, each kept where it is met first. None is
missed wherever it is within the trees, and for more trees only the names that are new come
behind. -/
theorem finds_references_and_calls :
    Finds referenceName? references ∧ Finds callName? calls :=
  ⟨finds_collectNames referenceName?, finds_collectNames callName?⟩

end Node

end

namespace Node

open scoped PatternEngine

example : references [.ofLambda (.ofReference "a"),
    .ofLambda (.ofBinary .add (.ofReference "b") (.ofReference "a"))] = ["a", "b"] := by decide

end Node

end PipelineScript
