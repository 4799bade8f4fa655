import Mathlib.Data.List.Induction
import MulticastMesh.Graph.Edit
import MulticastMesh.Proofs.Graph.WellFormed
/-!
# Calls on a machine graph

A graph that is changed in place goes through the graphs of the operations that return a new one,
and a call that fails leaves it where it was.  This needs the graph to be well-formed: adding an
edge may create a partition first, and only a well-formed graph is sure to let the edge into it.
-/

namespace MulticastMesh.Graph

open MachineGraph
open Outcome

variable {α : Type} {g g' : MachineGraph} {p q : EdgePartition} {edge : MachineEdge}
  {identifier : String} {traffic : Traffic}

/-! ## Operations in place -/

/-- What a call in place does that has a new graph as its result, or fails. -/
def settled (g : MachineGraph) (x : Except GraphError (α × MachineGraph)) :
    Except GraphError α × MachineGraph :=
  match x with
  | .ok (a, g') => (.ok a, g')
  | .error e => (.error e, g)

def unitResult (x : Except GraphError MachineGraph) : Except GraphError (Unit × MachineGraph) :=
  x.map ((), ·)

theorem bind_result_run {β : Type} (x : Except GraphError α) (f : α → Edit β) :
    (Edit.result x >>= f).run.run g = match x with
      | .ok a => (f a).run.run g
      | .error e => (.error e, g) := by
  rw [change_bind_run]
  cases x <;> rfl

theorem forM_result_run {β : Type} (l : List β) (f : β → Except GraphError α) :
    (l.forM fun a => do let _ ← Edit.result (f a)).run.run g =
      (l.forM fun a => do let _ ← f a, g) := by
  induction l with
  | nil => rfl
  | cons a l ih =>
      change ((Edit.result (f a) >>= fun _ => pure ()) >>= fun _ =>
          l.forM fun a => do let _ ← Edit.result (f a)).run.run g =
        ((f a >>= fun _ => pure ()) >>= fun _ => l.forM fun a => do let _ ← f a, g)
      rw [change_bind_run, bind_result_run]
      cases f a with
      | error e => rfl
      | ok _ => exact ih

theorem run_addVertex (v : MachineVertex) :
    (Edit.addVertex v).run.run g = settled g (g.addVertex v) := by
  unfold Edit.addVertex MachineGraph.addVertex
  cases happ : v.app? with
  | none => rfl
  | some app =>
      simp only [change_bind_run, change_get_run]
      by_cases hlt : app.index < g.byApp.size
      · simp only [hlt, if_true]
        rfl
      · simp only [hlt, if_false]
        rfl

theorem run_addPartition :
    (Edit.addPartition p).run.run g = settled g (unitResult (g.addPartition p)) := by
  unfold Edit.addPartition MachineGraph.addPartition
  rw [change_bind_run, change_get_run]
  simp only [bind_result_run, forIn_eq_forM]
  cases g.vertex p.pre with
  | error e => rfl
  | ok v =>
      simp only [ok_bind]
      split
      · rfl
      · rw [bind_result_run]
        cases p.register g.code with
        | error e => rfl
        | ok q =>
            simp only [ok_bind]
            rw [change_bind_run, forM_result_run]
            cases q.edges.forM fun edge => do let _ ← g.vertex edge.post
            · rfl
            · rfl

theorem run_extendPartition : (Edit.extendPartition edge identifier traffic).run.run g =
    settled g (unitResult (g.extendPartition edge identifier traffic)) := by
  unfold Edit.extendPartition MachineGraph.extendPartition
  rw [change_bind_run, change_get_run]
  simp only
  cases g.partitionIndex? edge.pre identifier with
  | none => rfl
  | some i =>
      simp only
      cases g.partitions[i]? with
      | none => rfl
      | some p =>
          simp only
          split
          · rfl
          · rw [bind_result_run]
            cases p.addEdge edge g.code with
            | error e => rfl
            | ok q => rfl

theorem MachineGraph.WellFormed.extendPartition_newPartition (h : g.WellFormed)
    (hadd : g.addPartition { pre := edge.pre, identifier, traffic } = .ok g') :
    ∃ g'', g'.extendPartition edge identifier traffic = .ok g'' := by
  obtain ⟨hacc, rfl⟩ := addPartition_eq_ok.1 hadd
  have hwell := h.withNewPartition traffic hacc.source hacc.free
  have hlast : (g.withPartition (g.newPartition edge identifier traffic)).partitions[
      g.partitions.size]? = some (g.newPartition edge identifier traffic) := by
    simp [MachineGraph.withPartition]
  exact ⟨_, hwell.extendPartition_eq hlast rfl⟩

theorem run_addEdge (h : g.WellFormed) : (Edit.addEdge edge identifier traffic).run.run g =
    settled g (unitResult (g.addEdge edge identifier traffic)) := by
  unfold Edit.addEdge MachineGraph.addEdge
  rw [change_bind_run, change_get_run]
  simp only [bind_result_run]
  cases g.vertex edge.post with
  | error e => rfl
  | ok v =>
      simp only [ok_bind]
      cases hlook : g.outgoingPartition? edge.pre identifier with
      | some p => exact run_extendPartition
      | none =>
          simp only [Option.isNone_none, Option.isSome_none, if_true, Bool.false_eq_true, if_false]
          rw [change_bind_run, run_addPartition]
          cases hadd : g.addPartition { pre := edge.pre, identifier, traffic } with
          | error e => rfl
          | ok g₁ =>
              obtain ⟨g₂, hextend⟩ := h.extendPartition_newPartition hadd
              change (Edit.extendPartition edge identifier traffic).run.run g₁ =
                settled g (unitResult (g₁.extendPartition edge identifier traffic))
              rw [run_extendPartition, hextend]
              rfl

theorem settled_unitResult_eq_ok {x : Except GraphError MachineGraph} :
    settled g (unitResult x) = (.ok (), g') ↔ x = .ok g' := by
  cases x <;> simp [settled, unitResult, Except.map]

/-- Of any graph at all: an edge that gets in gets in the same way. -/
theorem run_addEdge_eq_ok : (Edit.addEdge edge identifier traffic).run.run g = (.ok (), g') ↔
    g.addEdge edge identifier traffic = .ok g' := by
  unfold Edit.addEdge MachineGraph.addEdge
  rw [change_bind_run, change_get_run]
  simp only [bind_result_run]
  cases g.vertex edge.post with
  | error e => exact ⟨nofun, nofun⟩
  | ok v =>
      simp only [ok_bind]
      cases g.outgoingPartition? edge.pre identifier with
      | some p =>
          change (Edit.extendPartition edge identifier traffic).run.run g = _ ↔
            g.extendPartition edge identifier traffic = _
          rw [run_extendPartition, settled_unitResult_eq_ok]
      | none =>
          simp only [Option.isNone_none, Option.isSome_none, if_true, Bool.false_eq_true, if_false]
          rw [change_bind_run, run_addPartition]
          cases g.addPartition { pre := edge.pre, identifier, traffic } with
          | error e => exact ⟨nofun, nofun⟩
          | ok g₁ =>
              change (Edit.extendPartition edge identifier traffic).run.run g₁ = _ ↔
                g₁.extendPartition edge identifier traffic = _
              rw [run_extendPartition, settled_unitResult_eq_ok]

/-! ## Partitions outside of any graph -/

inductive PartitionStep where
  | register (code : Nat)
  | addEdge (edge : MachineEdge) (code : Nat)

def PartitionStep.run (p : EdgePartition) : PartitionStep → Except GraphError EdgePartition
  | register code => p.register code
  | addEdge edge code => p.addEdge edge code

/-- The partition after some steps; one that fails leaves it as it is. -/
def afterSteps (p : EdgePartition) (steps : List PartitionStep) : EdgePartition :=
  steps.foldl (fun p step => (step.run p).toOption.getD p) p

/-- A new partition and what is done to it before it is given to a graph. -/
structure Draft where
  pre : MachineVertexId
  identifier : String
  traffic : Traffic
  steps : List PartitionStep

def Draft.partition (d : Draft) : EdgePartition :=
  afterSteps { pre := d.pre, identifier := d.identifier, traffic := d.traffic } d.steps

theorem afterSteps_induction {P : EdgePartition → Prop} {steps : List PartitionStep}
    (hstart : P p) (hstep : ∀ step q q', P q → PartitionStep.run q step = .ok q' → P q') :
    P (afterSteps p steps) := by
  unfold afterSteps
  induction steps generalizing p with
  | nil => exact hstart
  | cons step steps ih =>
      rw [List.foldl_cons]
      apply ih
      cases hrun : step.run p with
      | error e => exact hstart
      | ok q => exact hstep step p q hstart hrun

theorem Draft.tidy (d : Draft) : Tidy d.partition := by
  refine afterSteps_induction (tidy_of_nil rfl) ?_
  intro step p q hp hrun
  cases step with
  | register code =>
      obtain ⟨_, rfl⟩ := register_eq_ok.1 hrun
      exact ⟨hp.starts, hp.once⟩
  | addEdge edge code =>
      obtain ⟨_, hpre, rfl⟩ := addEdge_partition_eq_ok.1 hrun
      exact hp.withEdge hpre

theorem owner_afterSteps {code : Nat} {steps : List PartitionStep} (h : p.owner? = some code) :
    (afterSteps p steps).owner? = some code := by
  refine afterSteps_induction (P := fun q => q.owner? = some code) h ?_
  intro step q q' hq hrun
  cases step with
  | register other =>
      obtain ⟨hother, rfl⟩ := register_eq_ok.1 hrun
      rw [hq, Option.all_some, beq_iff_eq] at hother
      rw [hother]
  | addEdge edge other =>
      obtain ⟨_, _, rfl⟩ := addEdge_partition_eq_ok.1 hrun
      exact (withEdge_spec q edge).2.2.2.trans hq

/-- A graph that takes a partition in none of the ways that there are. -/
structure Refuses (g : MachineGraph) (p : EdgePartition) : Prop where
  register : p.register g.code = .error (.ownedByOtherGraph p.identifier)
  addEdge : ∀ edge, p.addEdge edge g.code = .error (.ownedByOtherGraph p.identifier)
  addPartition : ∃ e, (Edit.addPartition p).run.run g = (.error e, g)

theorem refuses_of_owner {other : Nat} (howner : p.owner? = some other) (hother : other ≠ g.code) :
    Refuses g p where
  register := by simp [EdgePartition.register, howner, hother]
  addEdge := by simp [EdgePartition.addEdge, howner, hother]
  addPartition := by
    rw [run_addPartition]
    cases hadd : g.addPartition p with
    | error e => exact ⟨e, rfl⟩
    | ok g' =>
        have haccepts := (addPartition_eq_ok.1 hadd).1.owner
        rw [howner, Option.all_some, beq_iff_eq] at haccepts
        exact absurd haccepts hother

/-! ## Sequences of calls -/

inductive Call where
  | vertex (v : MachineVertex)
  | partition (draft : Draft)
  | edge (edge : MachineEdge) (identifier : String) (traffic : Traffic)

def Call.edit : Call → Edit Unit
  | .vertex v => do
    let _ ← Edit.addVertex v
  | .partition draft => Edit.addPartition draft.partition
  | .edge e identifier traffic => Edit.addEdge e identifier traffic

/-- The graph after some calls, also after those that fail. -/
def afterCalls (g : MachineGraph) (calls : List Call) : MachineGraph :=
  calls.foldl (fun g call => (call.edit.run.run g).2) g

inductive Called (g : MachineGraph) : Except GraphError Unit × MachineGraph → Prop where
  | done {g' : MachineGraph} (wellFormed : g'.WellFormed) (code : g'.code = g.code) :
      Called g (.ok (), g')
  | failed (e : GraphError) : Called g (.error e, g)

theorem MachineGraph.WellFormed.called (h : g.WellFormed) (call : Call) :
    Called g (call.edit.run.run g) := by
  cases call with
  | vertex v =>
      change Called g ((Edit.addVertex v >>= fun _ => pure ()).run.run g)
      rw [change_bind_run, run_addVertex]
      cases hadd : g.addVertex v with
      | error e => exact .failed e
      | ok r =>
          obtain ⟨_, hext⟩ := addVertex_spec hadd
          exact .done (h.extend hext) hext.code
  | partition draft =>
      change Called g ((Edit.addPartition draft.partition).run.run g)
      rw [run_addPartition]
      cases hadd : g.addPartition draft.partition with
      | error e => exact .failed e
      | ok g' =>
          obtain ⟨hacc, rfl⟩ := addPartition_eq_ok.1 hadd
          have htidy := draft.tidy
          exact .done (h.withPartition hacc.source hacc.target hacc.free rfl
            ⟨htidy.starts, htidy.once⟩) rfl
  | edge edge identifier traffic =>
      change Called g ((Edit.addEdge edge identifier traffic).run.run g)
      rw [run_addEdge h]
      cases hadd : g.addEdge edge identifier traffic with
      | error e => exact .failed e
      | ok g' =>
          have hgains := h.gains_of_addEdge hadd
          exact .done hgains.wellFormed hgains.code

theorem MachineGraph.WellFormed.afterCalls (h : g.WellFormed) (calls : List Call) :
    (afterCalls g calls).WellFormed ∧ (afterCalls g calls).code = g.code := by
  unfold Graph.afterCalls
  induction calls generalizing g with
  | nil => exact ⟨h, rfl⟩
  | cons call calls ih =>
      rw [List.foldl_cons]
      rcases hrun : call.edit.run.run g with ⟨r, g'⟩
      have hcalled := h.called call
      rw [hrun] at hcalled
      cases hcalled with
      | done hwell hcode =>
          obtain ⟨hafter, hsame⟩ := ih hwell
          exact ⟨hafter, hsame.trans hcode⟩
      | failed e => exact ih h

def graphOf (code appVertices : Nat) (calls : List Call) : MachineGraph :=
  afterCalls (empty code appVertices) calls

theorem MachineGraph.WellFormed.byApp_size_called (h : g.WellFormed) (call : Call) :
    (call.edit.run.run g).2.byApp.size = g.byApp.size := by
  cases call with
  | vertex v =>
      change ((Edit.addVertex v >>= fun _ => pure ()).run.run g).2.byApp.size = _
      rw [change_bind_run, run_addVertex]
      cases hadd : g.addVertex v with
      | error e => rfl
      | ok r => exact (addVertex_spec hadd).2.byApp_size
  | partition draft =>
      change ((Edit.addPartition draft.partition).run.run g).2.byApp.size = _
      rw [run_addPartition]
      cases hadd : g.addPartition draft.partition with
      | error e => rfl
      | ok g' =>
          obtain ⟨_, rfl⟩ := addPartition_eq_ok.1 hadd
          rfl
  | edge edge identifier traffic =>
      change ((Edit.addEdge edge identifier traffic).run.run g).2.byApp.size = _
      rw [run_addEdge h]
      cases hadd : g.addEdge edge identifier traffic with
      | error e => rfl
      | ok g' => exact congrArg Array.size (h.gains_of_addEdge hadd).same.byApp

/-- Induction over the calls from the last one. -/
theorem byApp_size_graphOf (code appVertices : Nat) (calls : List Call) :
    (graphOf code appVertices calls).byApp.size = appVertices := by
  unfold graphOf
  induction calls using List.reverseRecOn with
  | nil => exact Array.size_replicate
  | append_singleton calls call ih =>
      have hwell := ((wellFormed_empty code appVertices).afterCalls calls).1
      unfold Graph.afterCalls at ih ⊢
      rw [List.foldl_append]
      exact (hwell.byApp_size_called call).trans ih

structure Upheld (code : Nat) (g : MachineGraph) : Prop where
  wellFormed : g.WellFormed
  sameCode : g.code = code
  /-- A call that fails changes nothing. -/
  atomic : ∀ (call : Call) e g', call.edit.run.run g = (.error e, g') → g' = g
  /-- A partition that was registered with another graph is refused, whatever is done to it. -/
  foreign : ∀ (p q : EdgePartition) other steps, other ≠ code → p.register other = .ok q →
    Refuses g (afterSteps q steps)
  /-- The partitions of another graph are refused. -/
  others : ∀ other appVertices calls, other ≠ code →
    ∀ p ∈ (graphOf other appVertices calls).partitions, Refuses g p

/-- Whatever is called, failing calls included, the vectors of a graph stay in step, a call that
fails changes nothing, and no partition gets in that belongs to another graph. -/
theorem calls_keep_wellFormed (code appVertices : Nat) (calls : List Call) :
    Upheld code (graphOf code appVertices calls) := by
  have hkept := fun code appVertices => (wellFormed_empty code appVertices).afterCalls
  obtain ⟨hwell, hcode⟩ := hkept code appVertices calls
  refine ⟨hwell, hcode, ?_, ?_, ?_⟩
  · intro call e g' hrun
    have hcalled := hwell.called call
    unfold graphOf at hrun
    rw [hrun] at hcalled
    cases hcalled
    rfl
  · intro p q other steps hother hregister
    obtain ⟨_, rfl⟩ := register_eq_ok.1 hregister
    refine refuses_of_owner (owner_afterSteps rfl) ?_
    rwa [show (graphOf code appVertices calls).code = code from hcode]
  · intro other otherVertices otherCalls hother p hp
    obtain ⟨hwell', hcode'⟩ := hkept other otherVertices otherCalls
    refine refuses_of_owner (hwell'.owned p hp) ?_
    rw [hcode', show (graphOf code appVertices calls).code = code from hcode]
    exact hother

end MulticastMesh.Graph
