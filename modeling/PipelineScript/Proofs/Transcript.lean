import PipelineScript.Proofs.Inspection

/-!
The calls that a walk makes.

A visitor that also writes down each call and its answer walks like the visitor itself
(`walk_logged`), and what it writes down is the transcript of the walk. A walk that nothing stops
makes its calls tree by tree and child by child (`Walks`), so its transcript lists the nodes that an
inspection of the tree it ends with visits, as they were before their children were replaced.
-/
namespace PipelineScript

section

variable {engine : PatternEngine}

/-- A call of a visitor: the node that it is asked about and its answer. -/
structure Call [PatternEngine] (ε : Type) where
  asked : Node
  answer : Except ε Node

/-- The visitor gave a node. -/
def Call.Answered {ε : Type} (c : Call ε) : Prop := ∃ m, c.answer = .ok m

/-- The answer is a node as it was before its children were replaced: everything else of it is as in
the node `k`. -/
def Call.Shows {ε : Type} (c : Call ε) (k : Node) : Prop :=
  ∃ a, c.answer = .ok a ∧ a.kind = k.kind ∧ a.shell = k.shell

namespace Visitor

variable {σ ε : Type}

/-- The visitor that also writes down its calls. -/
def logged (visitor : Visitor σ ε) : Visitor (σ × List (Call ε)) ε := fun n s =>
  match visitor n s.1 with
  | .ok m s' => .ok m (s', s.2 ++ [⟨n, .ok m⟩])
  | .error e s' => .error e (s', s.2 ++ [⟨n, .error e⟩])

/-- The visitor answers a call, which brings it from one state to another. -/
def Answers (visitor : Visitor σ ε) (s : σ) (c : Call ε) (s' : σ) : Prop :=
  match c.answer with
  | .ok m => visitor c.asked s = .ok m s'
  | .error e => visitor c.asked s = .error e s'

/-- A visitor that gives a node back says so in its answer. -/
theorem Answers.same {visitor : Visitor σ ε} {s s' : σ} {c : Call ε}
    (h : visitor.Answers s c s') (hsame : ∃ s₁, visitor c.asked s = .ok c.asked s₁) :
    c.answer = .ok c.asked := by
  obtain ⟨s₁, hsame⟩ := hsame
  rw [Answers, hsame] at h
  cases ha : c.answer with
  | ok m =>
    rw [ha] at h
    cases h
    rfl
  | error e =>
    rw [ha] at h
    cases h

/-- The visitor answers some calls one after the other. -/
def Runs (visitor : Visitor σ ε) : σ → List (Call ε) → σ → Prop
  | s, [], s' => s = s'
  | s, c :: calls, s' => ∃ s₁, visitor.Answers s c s₁ ∧ Runs visitor s₁ calls s'

theorem Runs.append {visitor : Visitor σ ε} {s s₁ s' : σ} {calls calls' : List (Call ε)}
    (h : Runs visitor s calls s₁) (h' : Runs visitor s₁ calls' s') :
    Runs visitor s (calls ++ calls') s' := by
  induction calls generalizing s with
  | nil =>
    cases h
    exact h'
  | cons c calls ih =>
    obtain ⟨s₂, hc, h⟩ := h
    exact ⟨s₂, hc, ih h⟩

theorem Runs.answers {visitor : Visitor σ ε} {s s' : σ} {calls : List (Call ε)}
    (h : Runs visitor s calls s') {c : Call ε} (hc : c ∈ calls) :
    ∃ s₁ s₂, visitor.Answers s₁ c s₂ := by
  induction calls generalizing s with
  | nil => cases hc
  | cons d calls ih =>
    obtain ⟨s₁, hd, h⟩ := h
    rcases List.mem_cons.1 hc with rfl | hc
    · exact ⟨s, s₁, hd⟩
    · exact ih h hc

end Visitor

namespace Node

variable {ε σ α β : Type}

/-- What a computation ends with, without the state. -/
def outcome : EStateM.Result ε σ α → Except ε α
  | .ok a _ => .ok a
  | .error e _ => .error e

/-- The state that a computation ends in. -/
def finalState : EStateM.Result ε σ α → σ
  | .ok _ s => s
  | .error _ s => s

theorem bind_of_ok {x : EStateM ε σ α} (f : α → EStateM ε σ β) {a : α} {s s' : σ}
    (h : x s = .ok a s') : (x >>= f) s = f a s' := by
  refine (EStateM.run_bind x f).trans ?_
  rw [EStateM.run, h]
  rfl

theorem bind_of_error {x : EStateM ε σ α} (f : α → EStateM ε σ β) {e : ε} {s s' : σ}
    (h : x s = .error e s') : (x >>= f) s = .error e s' := by
  refine (EStateM.run_bind x f).trans ?_
  rw [EStateM.run, h]

/-- The same end with a log beside the state. -/
def withLog (log : List (Call ε)) : EStateM.Result (WalkError ε) σ α →
    EStateM.Result (WalkError ε) (σ × List (Call ε)) α
  | .ok a s => .ok a (s, log)
  | .error e s => .error e (s, log)

/-- The calls of a walk, in order. -/
def transcript (visitor : Visitor σ ε) (fuel : Nat) (n : Node) (s : σ) : List (Call ε) :=
  (finalState (walk visitor.logged fuel n (s, []))).2

/-- The computation `y` does what `x` does and writes down the calls that it makes of the visitor;
the calls and the outcome of `x` stand in the relation `P`. -/
def Logs (visitor : Visitor σ ε) (x : EStateM (WalkError ε) σ α)
    (y : EStateM (WalkError ε) (σ × List (Call ε)) α)
    (P : List (Call ε) → Except (WalkError ε) α → Prop) : Prop :=
  ∀ s, ∃ calls, (∀ log, y (s, log) = withLog (log ++ calls) (x s)) ∧
    visitor.Runs s calls (finalState (x s)) ∧ P calls (outcome (x s))

section

variable {visitor : Visitor σ ε}

theorem logs_pure {P : List (Call ε) → Except (WalkError ε) α → Prop} {a : α} (h : P [] (.ok a)) :
    Logs visitor (pure a) (pure a) P := by
  intro s
  refine ⟨[], fun log => ?_, rfl, h⟩
  rw [List.append_nil]
  rfl

theorem logs_throw {P : List (Call ε) → Except (WalkError ε) α → Prop} {e : WalkError ε}
    (h : P [] (.error e)) : Logs visitor (throw e) (throw e) P := by
  intro s
  refine ⟨[], fun log => ?_, rfl, h⟩
  rw [List.append_nil]
  rfl

theorem Logs.bind {P : List (Call ε) → Except (WalkError ε) α → Prop}
    {Q : List (Call ε) → Except (WalkError ε) β → Prop} {x : EStateM (WalkError ε) σ α}
    {y : EStateM (WalkError ε) (σ × List (Call ε)) α} {f : α → EStateM (WalkError ε) σ β}
    {g : α → EStateM (WalkError ε) (σ × List (Call ε)) β} (h : Logs visitor x y P)
    (hok : ∀ calls a, P calls (.ok a) →
      Logs visitor (f a) (g a) fun calls' r => Q (calls ++ calls') r)
    (herror : ∀ calls e, P calls (.error e) → Q calls (.error e)) :
    Logs visitor (x >>= f) (y >>= g) Q := by
  intro s
  obtain ⟨calls, hy, hruns, hP⟩ := h s
  -- Behind a failure nothing is called; else the calls of the second part follow.
  cases hx : x s with
  | error e s' =>
    rw [hx] at hy hruns hP
    rw [bind_of_error f hx]
    exact ⟨calls, fun log => bind_of_error g (hy log), hruns, herror calls e hP⟩
  | ok a s' =>
    rw [hx] at hy hruns hP
    obtain ⟨calls', hg, hruns', hQ⟩ := hok calls a hP s'
    rw [bind_of_ok f hx]
    refine ⟨calls ++ calls', fun log => ?_, hruns.append hruns', hQ⟩
    rw [bind_of_ok g (hy log), ← List.append_assoc]
    exact hg (log ++ calls)

end

/-! ## The order of the calls -/

/-- The calls of a walk of some children that nothing stops, and the nodes it ends with: for each
child the visitor is asked about it, the children of its answer are walked, and the nodes that come
of them are the children of the answer from then on. -/
inductive Walks : List Child → List (Call ε) → List Node → Prop where
  | nil : Walks [] [] []
  | cons {c : Child} {cs : List Child} {m : Node} {calls calls' : List (Call ε)}
      {ns ns' : List Node} (below : Walks m.children calls ns) (fits : c.Admits (m.withChildren ns))
      (behind : Walks cs calls' ns') :
      Walks (c :: cs) (⟨c.node, .ok m⟩ :: calls ++ calls') (m.withChildren ns :: ns')

/-- The calls of a walk that an error ends: only the last of them is not answered, and only when it
is the visitor that ends the walk. -/
def Breaks (calls : List (Call ε)) : WalkError ε → Prop
  | .stopped e => ∃ before asked, (∀ c ∈ before, c.Answered) ∧ calls = before ++ [⟨asked, .error e⟩]
  | _ => ∀ c ∈ calls, c.Answered

/-- The calls of a walk of some children, by how it ends. -/
def Records (cs : List Child) (calls : List (Call ε)) : Except (WalkError ε) (List Node) → Prop
  | .ok ns => Walks cs calls ns
  | .error e => Breaks calls e

/-- The calls of a walk of one tree are the call about it and those below the answer. -/
theorem walks_singleton {c : Child} {calls : List (Call ε)} {t : Node} :
    Walks [c] calls [t] ↔ ∃ m below ns, Walks m.children below ns ∧ c.Admits t ∧
      calls = ⟨c.node, .ok m⟩ :: below ∧ t = m.withChildren ns := by
  constructor
  · intro h
    cases h with
    | cons below fits behind =>
      cases behind
      exact ⟨_, _, _, below, fits, List.append_nil _, rfl⟩
  · rintro ⟨m, below, ns, h, hfits, rfl, rfl⟩
    simpa using Walks.cons h hfits .nil

theorem Walks.answered {cs : List Child} {calls : List (Call ε)} {ns : List Node}
    (h : Walks cs calls ns) : ∀ c ∈ calls, c.Answered := by
  induction h with
  | nil => nofun
  | @cons c cs m calls calls' ns ns' _ _ _ ihbelow ihbehind =>
    intro d hd
    rw [List.cons_append, List.mem_cons, List.mem_append] at hd
    rcases hd with rfl | hd | hd
    · exact ⟨m, rfl⟩
    · exact ihbelow d hd
    · exact ihbehind d hd

theorem Walks.allAdmit {cs : List Child} {calls : List (Call ε)} {ns : List Node}
    (h : Walks cs calls ns) : AllAdmit cs ns := by
  induction h with
  | nil => exact .nil
  | cons _ fits _ _ ih => exact .cons fits ih

/-- What comes before the calls of a broken walk may be any answered calls. -/
theorem Breaks.behind {calls calls' : List (Call ε)} {e : WalkError ε} (h : Breaks calls' e)
    (hcalls : ∀ c ∈ calls, c.Answered) : Breaks (calls ++ calls') e := by
  cases e with
  | stopped e =>
    obtain ⟨before, asked, hbefore, rfl⟩ := h
    refine ⟨calls ++ before, asked, ?_, (List.append_assoc ..).symm⟩
    intro c hc
    exact (List.mem_append.1 hc).elim (hcalls c) (hbefore c)
  | notAName | exhausted =>
    intro c hc
    exact (List.mem_append.1 hc).elim (hcalls c) (h c)

section

variable {visitor : Visitor σ ε}

/-- The call of a visit, and its answer. -/
theorem logs_visit (visitor : Visitor σ ε) (n : Node) :
    Logs visitor (visit visitor n) (visit visitor.logged n) fun calls r =>
      match r with
      | .ok m => calls = [⟨n, .ok m⟩]
      | .error e => Breaks calls e := by
  intro s
  cases h : visitor n s with
  | ok m s' =>
    have hvisit : visit visitor n s = .ok m s' := by simp [visit, h]
    have hlogged : ∀ log, visit visitor.logged n (s, log) = .ok m (s', log ++ [⟨n, .ok m⟩]) := by
      simp [visit, Visitor.logged, h]
    rw [hvisit]
    exact ⟨[⟨n, .ok m⟩], hlogged, ⟨s', h, rfl⟩, rfl⟩
  | error e s' =>
    have hvisit : visit visitor n s = .error (.stopped e) s' := by simp [visit, h]
    have hlogged : ∀ log, visit visitor.logged n (s, log) =
        .error (.stopped e) (s', log ++ [⟨n, .error e⟩]) := by
      simp [visit, Visitor.logged, h]
    rw [hvisit]
    exact ⟨[⟨n, .error e⟩], hlogged, ⟨s', h, rfl⟩, [], n, nofun, rfl⟩

/-- The check of a child makes no call, and goes on only when the node can take its place. -/
theorem logs_check (visitor : Visitor σ ε) (c : Child) (n : Node) :
    Logs visitor (c.check n) (c.check n) fun calls r =>
      calls = [] ∧ match r with
      | .ok _ => c.Admits n
      | .error e => Breaks calls e := by
  obtain ⟨_ | role, child⟩ := c
  · exact logs_pure ⟨rfl, trivial⟩
  · cases n with
    | identifier ident => exact logs_pure ⟨rfl, ident, rfl⟩
    | _ => exact logs_throw ⟨rfl, nofun⟩

/-- The step of the induction below: when the walks of single trees record their calls, so does a
walk of all children. -/
theorem logs_eachChild {f : Node → EStateM (WalkError ε) σ Node}
    {g : Node → EStateM (WalkError ε) (σ × List (Call ε)) Node}
    (h : ∀ n, Logs visitor (f n) (g n) fun calls r => Records [.any n] calls (r.map ([·])))
    (cs : List Child) : Logs visitor (eachChild f cs) (eachChild g cs) (Records cs) := by
  -- A child is walked, fitted to its place, and the others are walked; each of the three may break
  -- off.
  induction cs with
  | nil => exact logs_pure .nil
  | cons c cs ih =>
    refine (h c.node).bind (fun calls t ht => ?_) fun calls e he => he
    have hanswered := Walks.answered ht
    refine (logs_check visitor c t).bind (fun _ _ hfits => ?_) fun _ e he => ?_
    · obtain ⟨rfl, hfits⟩ := hfits
      refine ih.bind (fun calls' ns hns => logs_pure ?_) fun calls' e he => ?_
      · obtain ⟨m, below, ns', hbelow, -, rfl, rfl⟩ := walks_singleton.1 ht
        rw [List.nil_append, List.append_nil]
        exact .cons hbelow hfits hns
      · exact he.behind hanswered
    · obtain ⟨rfl, he⟩ := he
      exact he.behind hanswered

/-- A walk with a visitor that writes down its calls walks like the visitor, and its calls are those
of a walk. -/
theorem logs_walk (visitor : Visitor σ ε) (fuel : Nat) (n : Node) :
    Logs visitor (walk visitor fuel n) (walk visitor.logged fuel n) fun calls r =>
      Records [.any n] calls (r.map ([·])) := by
  induction fuel generalizing n with
  | zero => exact logs_throw nofun
  | succ fuel ih =>
    rw [walk_succ, walk_succ]
    refine (logs_visit visitor n).bind (fun calls m hm => ?_) fun calls e he => he
    have hm : calls = [⟨n, .ok m⟩] := hm
    subst hm
    refine (logs_eachChild ih m.children).bind (fun calls ns hns => logs_pure ?_)
      fun calls e he => ?_
    · rw [List.append_nil]
      exact walks_singleton.2 ⟨m, calls, ns, hns, trivial, rfl, rfl⟩
    · exact Breaks.behind he fun c hc => ⟨m, by rw [List.mem_singleton.1 hc]⟩

/-- What the three theorems below say of the transcript. -/
theorem exists_transcript (visitor : Visitor σ ε) (fuel : Nat) (n : Node) (s : σ) :
    (∀ log, walk visitor.logged fuel n (s, log) =
      withLog (log ++ transcript visitor fuel n s) (walk visitor fuel n s)) ∧
    visitor.Runs s (transcript visitor fuel n s) (finalState (walk visitor fuel n s)) ∧
    Records [.any n] (transcript visitor fuel n s)
      ((outcome (walk visitor fuel n s)).map ([·])) := by
  obtain ⟨calls, hlog, hruns, hrecords⟩ := logs_walk visitor fuel n s
  have hcalls : transcript visitor fuel n s = calls := by
    rw [transcript, hlog []]
    cases walk visitor fuel n s <;> rfl
  rw [hcalls]
  exact ⟨hlog, hruns, hrecords⟩

/-- Writing down the calls changes nothing else of a walk. -/
theorem walk_logged (visitor : Visitor σ ε) (fuel : Nat) (n : Node) (s : σ)
    (log : List (Call ε)) :
    walk visitor.logged fuel n (s, log) =
      withLog (log ++ transcript visitor fuel n s) (walk visitor fuel n s) :=
  (exists_transcript visitor fuel n s).1 log

/-- The visitor answers the calls of the transcript one after the other. -/
theorem runs_transcript (visitor : Visitor σ ε) (fuel : Nat) (n : Node) (s : σ) :
    visitor.Runs s (transcript visitor fuel n s) (finalState (walk visitor fuel n s)) :=
  (exists_transcript visitor fuel n s).2.1

theorem records_transcript (visitor : Visitor σ ε) (fuel : Nat) (n : Node) (s : σ) :
    Records [.any n] (transcript visitor fuel n s)
      ((outcome (walk visitor fuel n s)).map ([·])) :=
  (exists_transcript visitor fuel n s).2.2

theorem walks_transcript {fuel : Nat} {n t : Node} {s s' : σ}
    (h : walk visitor fuel n s = .ok t s') :
    Walks [.any n] (transcript visitor fuel n s) [t] := by
  have hrecords := records_transcript visitor fuel n s
  rw [h] at hrecords
  exact hrecords

/-! ## The transcript and the nodes of a tree -/

/-- The answers are the nodes that a walk ends with, but for their children. -/
theorem Walks.shows {cs : List Child} {calls : List (Call ε)} {ns : List Node}
    (h : Walks cs calls ns) : List.Forall₂ Call.Shows calls (ns.flatMap preorder) := by
  induction h with
  | nil => exact .nil
  | @cons c cs m calls calls' ns ns' below _ _ ihbelow ihbehind =>
    obtain ⟨hchildren, hshell⟩ := children_withChildren below.allAdmit
    have hnodes : (m.withChildren ns).preorder = m.withChildren ns :: ns.flatMap preorder := by
      rw [preorder_eq, hchildren]
    rw [List.flatMap_cons, hnodes]
    refine List.rel_append (.cons ⟨m, rfl, ?_, hshell.symm⟩ ihbelow) ihbehind
    exact (kind_eq_of_shell hshell).symm

/-- Answers that change nothing: the walk ends with the trees it began with, and was asked about
their nodes. -/
theorem Walks.unchanged {cs : List Child} {calls : List (Call ε)} {ns : List Node}
    (h : Walks cs calls ns) (hcalls : ∀ c ∈ calls, c.answer = .ok c.asked) :
    ns = cs.map Child.node ∧ calls = (ns.flatMap preorder).map fun k => ⟨k, .ok k⟩ := by
  induction h with
  | nil => exact ⟨rfl, rfl⟩
  | @cons c cs m calls calls' ns ns' below _ _ ihbelow ihbehind =>
    rw [List.cons_append, List.forall_mem_cons, List.forall_mem_append] at hcalls
    obtain ⟨hm, hbelow, hbehind⟩ := hcalls
    obtain rfl : m = c.node := Except.ok.inj hm
    obtain ⟨rfl, hcalls⟩ := ihbelow hbelow
    obtain ⟨rfl, hcalls'⟩ := ihbehind hbehind
    rw [withChildren_children]
    refine ⟨rfl, ?_⟩
    rw [List.flatMap_cons, preorder_eq, List.map_append, List.map_cons, ← hcalls, ← hcalls']

theorem eachChild_keeps {f : Node → EStateM (WalkError ε) σ Node} {cs : List Child}
    (hf : ∀ c ∈ cs, ∀ s, ∃ s', f c.node s = .ok c.node s') (hcs : AllAdmit cs (cs.map Child.node))
    (s : σ) : ∃ s', eachChild f cs s = .ok (cs.map Child.node) s' := by
  induction cs generalizing s with
  | nil => exact ⟨s, rfl⟩
  | cons c cs ih =>
    obtain _ | ⟨hc, hcs⟩ := hcs
    obtain ⟨s₁, hs₁⟩ := hf c List.mem_cons_self s
    obtain ⟨s₂, hs₂⟩ := ih (fun d hd => hf d (List.mem_cons_of_mem c hd)) hcs s₁
    refine ⟨s₂, ?_⟩
    rw [eachChild, bind_of_ok _ hs₁, check_of_admits hc, pure_bind, bind_of_ok _ hs₂]
    rfl

/-- A visitor that gives every node back leaves the tree as it is, and the walk needs no more levels
than the tree has nodes. -/
theorem walk_keeps (hvisitor : ∀ n s, ∃ s', visitor n s = .ok n s') (fuel : Nat) (n : Node) (s : σ)
    (hfuel : n.preorder.length ≤ fuel) : ∃ s', walk visitor fuel n s = .ok n s' := by
  induction fuel generalizing n s with
  | zero =>
    rw [preorder_eq] at hfuel
    cases hfuel
  | succ fuel ih =>
    obtain ⟨s₁, hs₁⟩ := hvisitor n s
    have hvisit : visit visitor n s = .ok n s₁ := by simp [visit, hs₁]
    have hchild : ∀ c ∈ n.children, ∀ s, ∃ s', walk visitor fuel c.node s = .ok c.node s' := by
      intro c hc s
      -- A child has fewer nodes, so one level less is enough for it.
      have hlt := length_preorder_lt hc
      exact ih c.node s (by omega)
    obtain ⟨s₂, hs₂⟩ := eachChild_keeps hchild (allAdmit_children n) s₁
    refine ⟨s₂, ?_⟩
    rw [walk_succ, bind_of_ok _ hvisit, bind_of_ok _ hs₂, withChildren_children]
    rfl

/-! ## The depth of a walk -/

/-- Whenever `x` ends before its fuel does, `y` ends the same way. -/
def Extends (x y : EStateM (WalkError ε) σ α) : Prop :=
  ∀ s, outcome (x s) ≠ .error .exhausted → y s = x s

theorem Extends.bind {x y : EStateM (WalkError ε) σ α} {f g : α → EStateM (WalkError ε) σ β}
    (h : Extends x y) (hf : ∀ a, Extends (f a) (g a)) : Extends (x >>= f) (y >>= g) := by
  intro s hs
  cases hx : x s with
  | error e s' =>
    rw [bind_of_error f hx] at hs ⊢
    have he : e ≠ .exhausted := fun he => hs (congrArg Except.error he)
    have hy : y s = x s := h s (by rw [hx]; exact fun h => he (Except.error.inj h))
    exact bind_of_error g (hy.trans hx)
  | ok a s' =>
    rw [bind_of_ok f hx] at hs ⊢
    have hy : y s = x s := h s (by rw [hx]; nofun)
    rw [bind_of_ok g (hy.trans hx)]
    exact hf a s' hs

theorem extends_refl (x : EStateM (WalkError ε) σ α) : Extends x x := fun _ _ => rfl

theorem extends_eachChild {f g : Node → EStateM (WalkError ε) σ Node}
    (h : ∀ n, Extends (f n) (g n)) (cs : List Child) :
    Extends (eachChild f cs) (eachChild g cs) := by
  induction cs with
  | nil => exact extends_refl _
  | cons c cs ih =>
    exact (h c.node).bind fun n => (extends_refl _).bind fun _ => ih.bind fun ns => extends_refl _

theorem extends_walk_succ (visitor : Visitor σ ε) (fuel : Nat) (n : Node) :
    Extends (walk visitor fuel n) (walk visitor (fuel + 1) n) := by
  induction fuel generalizing n with
  | zero => exact fun s hs => absurd rfl hs
  | succ fuel ih =>
    rw [walk_succ, walk_succ visitor (fuel + 1)]
    exact (extends_refl _).bind fun m => (extends_eachChild ih m.children).bind fun ns =>
      extends_refl _

/-- The fuel bounds the depth of a walk and nothing else: a walk that ends within some levels ends
the same way when it may take more. -/
theorem walk_of_le {fuel fuel' : Nat} {n : Node} {s : σ} (hle : fuel ≤ fuel')
    (h : outcome (walk visitor fuel n s) ≠ .error .exhausted) :
    walk visitor fuel' n s = walk visitor fuel n s := by
  induction hle with
  | refl => rfl
  | @step fuel' _ ih =>
    rw [← ih]
    exact extends_walk_succ visitor fuel' n s (by rwa [ih])

/-! ## The transcript of a walk -/

/-- **A walk and an inspection agree.** The visitor answers the calls of the transcript one after
the other, from the first state of the walk to the last. The answers of a walk that ends with a tree
are the nodes that an inspection of this tree visits, one for one and in order, but for the
children. A call that is not answered is the last one, and its error ends the walk. A visitor that
gives every node back is asked about the nodes that an inspection of the tree visits, in that order,
and the tree comes out unchanged. Every inspection visits the same nodes, whatever its visitor
does. -/
theorem transcript_of_walk (visitor : Visitor σ ε) (fuel : Nat) (n : Node) (s : σ) :
    visitor.Runs s (transcript visitor fuel n s) (finalState (walk visitor fuel n s)) ∧
    (∀ t s', walk visitor fuel n s = .ok t s' →
      List.Forall₂ Call.Shows (transcript visitor fuel n s) (inspected t)) ∧
    (∀ c ∈ transcript visitor fuel n s, ∀ e, c.answer = .error e →
      (∃ before, transcript visitor fuel n s = before ++ [c] ∧ ∀ d ∈ before, d.Answered) ∧
      ∃ s', walk visitor fuel n s = .error (.stopped e) s') ∧
    ((∀ n s, ∃ s', visitor n s = .ok n s') → (inspected n).length ≤ fuel →
      (∃ s', walk visitor fuel n s = .ok n s') ∧
      transcript visitor fuel n s = (inspected n).map fun k => ⟨k, .ok k⟩) ∧
    ∀ (τ : Type) (see : Node → StateM τ PUnit) (m : Node),
      inspect see m = forM (inspected m) see := by
  refine ⟨runs_transcript visitor fuel n s, ?_, ?_, ?_, ?_⟩
  · intro t s' h
    have hshows := (walks_transcript h).shows
    rwa [List.flatMap_singleton, ← inspected_eq] at hshows
  · intro c hc e he
    have hrecords := records_transcript visitor fuel n s
    -- A call without an answer is in no transcript but that of a walk which the visitor stopped.
    have hunanswered : ¬ ∀ d ∈ transcript visitor fuel n s, d.Answered := by
      intro hall
      obtain ⟨m, hm⟩ := hall c hc
      rw [he] at hm
      cases hm
    cases hwalk : walk visitor fuel n s with
    | ok t s' => exact absurd (walks_transcript hwalk).answered hunanswered
    | error e' s' =>
      rw [hwalk] at hrecords
      cases e' with
      | notAName | exhausted => exact absurd hrecords hunanswered
      | stopped e' =>
        obtain ⟨before, asked, hbefore, hcalls⟩ := hrecords
        rw [hcalls, List.mem_append, List.mem_singleton] at hc
        rcases hc with hc | rfl
        · obtain ⟨m, hm⟩ := hbefore c hc
          rw [he] at hm
          cases hm
        · cases he
          exact ⟨⟨before, hcalls, hbefore⟩, s', rfl⟩
  · intro hvisitor hfuel
    rw [inspected_eq] at hfuel ⊢
    obtain ⟨s', h⟩ := walk_keeps hvisitor fuel n s hfuel
    refine ⟨⟨s', h⟩, ?_⟩
    have hcalls : ∀ c ∈ transcript visitor fuel n s, c.answer = .ok c.asked := by
      intro c hc
      obtain ⟨s₁, s₂, hanswers⟩ := (runs_transcript visitor fuel n s).answers hc
      exact Visitor.Answers.same hanswers (hvisitor c.asked s₁)
    have hunchanged := ((walks_transcript h).unchanged hcalls).2
    rwa [List.flatMap_singleton] at hunchanged
  · intro τ see m
    rw [inspected_eq, inspect_eq]

/-- A visitor that counts its calls, gives the negation of a name for the name and stops at a
star. -/
def negate : Visitor Nat String := fun n count =>
  match n with
  | .identifier ident => .ok (.unary .built .not (.ofString ident.name)) (count + 1)
  | .star _ => .error "star" count
  | n => .ok n (count + 1)

end

end Node

end

namespace Node

open scoped PatternEngine

theorem transcript_of_walk_negate :
    (walk negate 4 (.ofList [.ofName "a", .ofBool true]) 0 =
        .ok (.ofList [.ofUnary .not (.ofString "a"), .ofBool true]) 4 ∧
      List.Forall₂ Call.Shows (transcript negate 4 (.ofList [.ofName "a", .ofBool true]) 0)
        (inspected (.ofList [.ofUnary .not (.ofString "a"), .ofBool true]))) ∧
    (⟨.ofStar, .error "star"⟩ ∈ transcript negate 4 (.ofList [.ofStar, .ofName "a"]) 0 ∧
      ∃ s', walk negate 4 (.ofList [.ofStar, .ofName "a"]) 0 = .error (.stopped "star") s') ∧
    inspected (.ofList [.ofStar]) = [.ofList [.ofStar], .ofStar] ∧
    transcript (fun n s => .ok n s : Visitor Nat String) 2 (.ofList [.ofStar]) 0 =
      (inspected (.ofList [.ofStar])).map fun k => ⟨k, .ok k⟩ := by
  have hwalk : walk negate 4 (.ofList [.ofName "a", .ofBool true]) 0 =
      .ok (.ofList [.ofUnary .not (.ofString "a"), .ofBool true]) 4 := rfl
  have hshows := (transcript_of_walk negate 4 (.ofList [.ofName "a", .ofBool true]) 0).2.1
  have hstar : ⟨.ofStar, .error "star"⟩ ∈ transcript negate 4 (.ofList [.ofStar, .ofName "a"]) 0 :=
    List.mem_cons_of_mem _ List.mem_cons_self
  have hstops := (transcript_of_walk negate 4 (.ofList [.ofStar, .ofName "a"]) 0).2.2.1
  have hkeeps :=
    (transcript_of_walk (fun n s => .ok n s : Visitor Nat String) 2 (.ofList [.ofStar]) 0).2.2.2.1
  refine ⟨⟨hwalk, hshows _ _ hwalk⟩, ⟨hstar, (hstops _ hstar _ rfl).2⟩, rfl, ?_⟩
  exact (hkeeps (fun n s => ⟨s, rfl⟩) (by decide)).2

end Node

end PipelineScript
