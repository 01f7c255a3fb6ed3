import PipelineScript.Proofs.Children

/-!
Inspections of trees.

An inspection shows its visitor the nodes of the trees one by one and in order (`inspect_eq`), so
what one visitor is shown every visitor is. These are all the nodes that are anywhere within the
trees (`mem_met_iff`).
-/
namespace PipelineScript.Node

variable {engine : PatternEngine}

section

variable {σ : Type} (visit : Node → StateM σ PUnit)

mutual

theorem inspect_eq : (n : Node) → inspect visit n = forM n.preorder visit
  | .program position statements => by
    simp [inspect, preorder, inspectAll_eq statements]
  | .declaration info name value => by simp [inspect, preorder, inspect_eq value]
  | .typeDeclaration .. => by simp [inspect, preorder]
  | .chain _ _ left right => by
    simp [inspect, preorder, inspect_eq left, inspect_eq right, List.forM_append]
  | .func _ _ _ args _ => by simp [inspect, preorder, inspectAll_eq args]
  | .lambda _ body => by simp [inspect, preorder, inspect_eq body]
  | .binary _ _ left right _ _ => by
    simp [inspect, preorder, inspect_eq left, inspect_eq right, List.forM_append]
  | .unary _ _ operand => by simp [inspect, preorder, inspect_eq operand]
  | .list _ items => by simp [inspect, preorder, inspectAll_eq items]
  | .number .. | .duration .. | .bool .. | .string .. | .regex .. | .reference .. | .star _
  | .identifier _ | .comment _ => by simp [inspect, preorder]
termination_by structural n => n

/-- An inspection shows the nodes of the trees to the visitor, one by one and in order. -/
theorem inspectAll_eq : (ns : List Node) → inspectAll visit ns = forM (preorderAll ns) visit
  | [] => rfl
  | n :: ns => by rw [inspectAll, preorderAll, List.forM_append, inspect_eq n, inspectAll_eq ns]
termination_by structural ns => ns

end

end

/-- A visitor that writes down what it is shown. -/
def noteNode (n : Node) : StateM (List Node) PUnit := modify (· ++ [n])

theorem run_forM_noteNode (ns seen : List Node) :
    ((forM ns noteNode).run seen).2 = seen ++ ns := by
  induction ns generalizing seen with
  | nil => exact (List.append_nil seen).symm
  | cons n ns ih =>
    rw [List.forM_cons]
    simpa [noteNode] using ih (seen ++ [n])

/-- The nodes that an inspection of a tree visits, in order. -/
def inspected (n : Node) : List Node := ((inspect noteNode n).run []).2

theorem inspected_eq (n : Node) : inspected n = n.preorder := by
  rw [inspected, inspect_eq, run_forM_noteNode, List.nil_append]

/-- The nodes that an inspection of several trees visits, in order. -/
def met (nodes : List Node) : List Node :=
  ((inspectAll (fun n => modify (· ++ [n])) nodes).run []).2

theorem met_eq (nodes : List Node) : met nodes = preorderAll nodes := by
  rw [met, inspectAll_eq]
  exact run_forM_noteNode (preorderAll nodes) []

/-- A node that is somewhere within a tree. -/
inductive Within (m : Node) : Node → Prop
  | root : Within m m
  | child {n : Node} {c : Child} (mem : c ∈ n.children) (within : Within m c.node) : Within m n

theorem within_of_mem {m n : Node} (h : m ∈ n.preorder) : Within m n := by
  rw [preorder_eq, List.mem_cons] at h
  rcases h with rfl | h
  · exact .root
  · obtain ⟨_, hchild, hm⟩ := List.mem_flatMap.1 h
    obtain ⟨c, hc, rfl⟩ := List.mem_map.1 hchild
    have := length_preorder_lt hc
    exact .child hc (within_of_mem hm)
termination_by n.preorder.length

theorem Within.mem {m n : Node} (h : Within m n) : m ∈ n.preorder := by
  induction h with
  | root =>
    rw [preorder_eq]
    exact List.mem_cons_self
  | @child n c hc _ ih =>
    rw [preorder_eq n]
    exact List.mem_cons_of_mem n (List.mem_flatMap.2 ⟨c.node, List.mem_map_of_mem hc, ih⟩)

/-- An inspection meets the nodes within the trees and no others. -/
theorem mem_met_iff {m : Node} {nodes : List Node} : m ∈ met nodes ↔ ∃ n ∈ nodes, Within m n := by
  rw [met_eq, preorderAll_eq, List.mem_flatMap]
  exact exists_congr fun n => and_congr_right fun _ => ⟨within_of_mem, Within.mem⟩

theorem met_append (xs ys : List Node) : met (xs ++ ys) = met xs ++ met ys := by
  simp only [met_eq, preorderAll_eq, List.flatMap_append]

end PipelineScript.Node
