import PipelineScript.Node.Literal
import PipelineScript.Proofs.Transcript

/-!
Chains under a walk.

A chain ends in a call or a name. What builds and what decodes a chain sees to it, and a walk sees
to it only as far as the visitor does: the right side of a chain is walked like any other child, and
what comes of it is not looked at. So a walk keeps trees linked when the visitor gives linked nodes
and gives a call or a name for one that ends a chain (`isLinked_of_walk`); linked nodes alone are
not enough (`walk_unlinks_chain`).
-/
namespace PipelineScript.Node

section

variable {engine : PatternEngine}

/-- A chain that ends in a call or a name; any other node. -/
def endsInStep : Node → Bool
  | .chain _ _ _ right => right.isStep
  | _ => true

/-- A tree whose chains all end in calls and names. -/
def isLinked (n : Node) : Bool := n.preorder.all endsInStep

theorem isStep_eq_kind (n : Node) : n.isStep = (n.kind == .func || n.kind == .identifier) := by
  cases n <;> rfl

theorem isLinked_eq (n : Node) :
    n.isLinked = (n.endsInStep && (n.children.map Child.node).all isLinked) := by
  rw [isLinked, preorder_eq, List.all_cons, List.all_flatMap]
  rfl

theorem endsInStep_of_kind {n : Node} (h : n.kind ≠ .chain) : n.endsInStep = true := by
  cases n with
  | chain => exact absurd rfl h
  | _ => rfl

variable {σ ε : Type}

/-- No call or name at the end of a chain that the visitor gave is answered by another kind of
node. -/
def KeepsSteps (calls : List (Call ε)) : Prop :=
  ∀ c ∈ calls, ∀ d ∈ calls, ∀ info op left m, c.answer = .ok (.chain info op left d.asked) →
    d.answer = .ok m → d.asked.isStep = true → m.isStep = true

/-- A visitor that gives calls and names for calls and names keeps the ends of chains. -/
theorem keepsSteps_transcript {visitor : Visitor σ ε}
    (h : ∀ n s m s', visitor n s = .ok m s' → n.isStep = true → m.isStep = true) (fuel : Nat)
    (n : Node) (s : σ) : KeepsSteps (transcript visitor fuel n s) := by
  intro c _ d hd info op left m _ hm hstep
  obtain ⟨s₁, s₂, hanswers⟩ := (runs_transcript visitor fuel n s).answers hd
  rw [Visitor.Answers, hm] at hanswers
  exact h d.asked s₁ m s₂ hanswers hstep

/-- What comes of a child is of the kind of the answer to it. -/
theorem Walks.kinds {cs : List Child} {calls : List (Call ε)} {ns : List Node}
    (h : Walks cs calls ns) :
    List.Forall₂ (fun c n => ∃ m, ⟨c.node, .ok m⟩ ∈ calls ∧ m.kind = n.kind) cs ns := by
  induction h with
  | nil => exact .nil
  | @cons c cs m calls calls' ns ns' below _ _ _ ih =>
    obtain ⟨-, hshell⟩ := children_withChildren below.allAdmit
    refine .cons ⟨m, List.mem_cons_self, (kind_eq_of_shell hshell).symm⟩ (ih.imp ?_)
    rintro d n ⟨m', hm', hkind⟩
    exact ⟨m', List.mem_append_right _ hm', hkind⟩

/-- The calls of a part of a walk, among all calls of it. -/
theorem Walks.linked {cs : List Child} {calls all : List (Call ε)} {ns : List Node}
    (h : Walks cs calls ns) (hall : ∀ c ∈ calls, c ∈ all)
    (hlinked : ∀ c ∈ all, ∀ m, c.answer = .ok m → m.isLinked = true) (hsteps : KeepsSteps all) :
    ∀ n ∈ ns, n.isLinked = true := by
  induction h with
  | nil => nofun
  | @cons c cs m calls calls' ns ns' below _ _ ihbelow ihbehind =>
    rw [List.cons_append, List.forall_mem_cons, List.forall_mem_append] at hall
    obtain ⟨hm, hbelow, hbehind⟩ := hall
    obtain ⟨hchildren, hshell⟩ := children_withChildren below.allAdmit
    refine List.forall_mem_cons.2 ⟨?_, ihbehind hbehind⟩
    rw [isLinked_eq, hchildren, Bool.and_eq_true]
    refine ⟨?_, List.all_eq_true.2 (ihbelow hbelow)⟩
    have hends := hlinked _ hm m rfl
    rw [isLinked_eq, Bool.and_eq_true] at hends
    cases m with
    | chain info op left right =>
      obtain _ | ⟨-, _ | ⟨⟨r, hr, hkind⟩, ⟨⟩⟩⟩ := below.kinds
      have hstep := hsteps _ hm _ (hbelow _ hr) info op left r rfl rfl hends.1
      rw [isStep_eq_kind, hkind, ← isStep_eq_kind] at hstep
      exact hstep
    | _ => exact endsInStep_of_kind (by rw [kind_eq_of_shell hshell]; nofun)

/-- A walk keeps chains: when every answer is linked, and a call or name that ends a chain is
answered by a call or a name, the tree that comes out is linked. -/
theorem isLinked_of_walk {visitor : Visitor σ ε} {fuel : Nat} {n t : Node} {s s' : σ}
    (hwalk : walk visitor fuel n s = .ok t s')
    (hlinked : ∀ c ∈ transcript visitor fuel n s, ∀ m, c.answer = .ok m → m.isLinked = true)
    (hsteps : KeepsSteps (transcript visitor fuel n s)) : t.isLinked = true :=
  (walks_transcript hwalk).linked (fun _ hc => hc) hlinked hsteps t List.mem_cons_self

/-- A visitor that gives every call another name and a string for every number. -/
def relabel : Visitor Unit Empty := fun n =>
  match n with
  | .func info kind _ args broken => pure (.func info kind "g" args broken)
  | .number info _ => pure (.string info "n" false)
  | n => pure n

end

open scoped PatternEngine

theorem isLinked_of_walk_relabel :
    let n := Node.chain .built .pipe (.ofName "a") (.ofCall .chain "f" [.ofInt 1])
    let t := Node.chain .built .pipe (.ofName "a") (.ofCall .chain "g" [.ofString "n"])
    walk relabel 3 n () = .ok t () ∧
      (∀ c ∈ transcript relabel 3 n (), ∀ m, c.answer = .ok m → m.isLinked = true) ∧
      KeepsSteps (transcript relabel 3 n ()) ∧ t.isLinked = true := by
  intro n t
  have hwalk : walk relabel 3 n () = .ok t () := rfl
  have hlinked : ∀ c ∈ transcript relabel 3 n (), ∀ m, c.answer = .ok m → m.isLinked = true := by
    have hcalls : transcript relabel 3 n () =
      [⟨n, .ok n⟩, ⟨.ofName "a", .ok (.ofName "a")⟩,
        ⟨.ofCall .chain "f" [.ofInt 1], .ok (.ofCall .chain "g" [.ofInt 1])⟩,
        ⟨.ofInt 1, .ok (.ofString "n")⟩] := rfl
    rw [hcalls]
    simp only [List.forall_mem_cons, Except.ok.injEq, forall_eq']
    exact ⟨rfl, rfl, rfl, rfl, nofun⟩
  have hsteps : KeepsSteps (transcript relabel 3 n ()) := by
    refine keepsSteps_transcript (fun n s m s' h hstep => ?_) 3 n ()
    cases n with
    | func | identifier =>
      cases h
      rfl
    | _ => cases hstep
  exact ⟨hwalk, hlinked, hsteps, isLinked_of_walk hwalk hlinked hsteps⟩

/-- A visitor that gives a number for a call, a star for a tree with other chains, and otherwise the
node itself. -/
def numberCalls : Visitor Unit Empty := fun n =>
  match n with
  | .func info .. => pure (.number info (.int 7 decimalBase))
  | n => if n.isLinked then pure n else pure .ofStar

/-- Every node that this visitor gives is linked, whatever it is asked about. Still a walk of a
linked chain comes to a chain that ends in a number. -/
theorem walk_unlinks_chain :
    let n := Node.chain .built .dot (.ofName "a") (.ofCall .property "b" [])
    n.isLinked = true ∧
      (∀ m s m' s', numberCalls m s = .ok m' s' → m'.isLinked = true) ∧
      walk numberCalls 2 n () = .ok (.chain .built .dot (.ofName "a") (.ofInt 7)) () ∧
      (Node.chain .built .dot (.ofName "a") (.ofInt 7)).isLinked = false := by
  refine ⟨rfl, ?_, rfl, rfl⟩
  intro m s m' s' h
  unfold numberCalls at h
  split at h
  · cases h
    rfl
  · split at h
    · cases h
      assumption
    · cases h
      rfl

end PipelineScript.Node
