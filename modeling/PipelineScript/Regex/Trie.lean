/-!
Tries of literals.

A trie holds literals by their common beginnings. The ways on from a node are kept in runs, in the
order in which the literals came: a literal that ends at the node closes a run, so that longer
literals which came later are less preferred than it.
-/
namespace PipelineScript.Regex

/-- A node of a trie: the runs that are closed, and the one that is open. -/
inductive Trie where
  | node (closed : List (List (UInt8 × Trie))) (open_ : List (UInt8 × Trie))
deriving Inhabited

namespace Trie

/-- A node without ways on. -/
def leaf : Trie := .node [] []

/-- Whether there is no way on from a node. -/
def isLeaf : Trie → Bool
  | .node closed run => closed.all List.isEmpty && run.isEmpty

/-- Replaces the way on for a byte, or puts it in its place. -/
def setWay (byte : UInt8) (child : Trie) : List (UInt8 × Trie) → List (UInt8 × Trie)
  | [] => [(byte, child)]
  | (b, t) :: ways =>
    if b = byte then (byte, child) :: ways
    else if byte < b then (byte, child) :: (b, t) :: ways
    else (b, t) :: setWay byte child ways

/-- Adds a literal. -/
def insert : List UInt8 → Trie → Trie
  | [], .node closed run =>
    if isLeaf (.node closed run) && !closed.isEmpty then .node closed run
    else .node (closed ++ [run]) []
  | b :: bs, .node closed run =>
    .node closed (setWay b (insert bs ((run.lookup b).getD leaf)) run)

/-- The trie of some literals. -/
def ofLiterals (literals : List (List UInt8)) : Trie :=
  literals.foldl (fun trie literal => insert literal trie) leaf

/-- The states and the extra bytes of a run itself: a state, with bytes for each way on if there
are at least two. -/
def runCost (run : List (UInt8 × Trie)) : Nat × Nat :=
  match run with
  | [] => (0, 0)
  | [_] => (1, 0)
  | _ => (1, 8 * run.length)

/-- The sum of two costs. -/
def addCost (a b : Nat × Nat) : Nat × Nat := (a.1 + b.1, a.2 + b.2)

/-- The number of ways from a node to its runs and past them. -/
def forks (closed : List (List (UInt8 × Trie))) (run : List (UInt8 × Trie)) : Nat :=
  ((run :: closed).filter fun run => !run.isEmpty).length + closed.length

mutual

/-- The states and the extra bytes that a node with ways on takes in a program: a state that leads
to its runs and past them, the runs, and the nodes behind them. -/
def cost : Trie → Nat × Nat
  | .node closed run =>
    addCost (1, 4 * forks closed run)
      (addCost (runsCost closed) (addCost (runCost run) (waysCost run)))
termination_by structural t => t

/-- What several runs and the nodes behind them take. -/
def runsCost : List (List (UInt8 × Trie)) → Nat × Nat
  | [] => (0, 0)
  | run :: runs => addCost (addCost (runCost run) (waysCost run)) (runsCost runs)
termination_by structural runs => runs

/-- What the nodes behind the ways of a run take. -/
def waysCost : List (UInt8 × Trie) → Nat × Nat
  | [] => (0, 0)
  | way :: ways => addCost (wayCost way) (waysCost ways)
termination_by structural ways => ways

/-- What the node behind a way takes. -/
def wayCost : UInt8 × Trie → Nat × Nat
  | (_, child) => if child.isLeaf then (0, 0) else cost child
termination_by structural way => way

end

end Trie

end PipelineScript.Regex
