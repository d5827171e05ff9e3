import GraphSplice.Proofs.Samples
import GraphSplice.Proofs.Succession

/-!
Histories of a graph. Elements are added to it, with indices that the caller gives or without, and
it is replaced by what a batch of applications derives from it. No index is handed out twice: what
is added or created later has a greater one than all that ever was in the graph, and what stays
keeps its own.
-/

namespace GraphSplice

open Blueprint Register

variable {D : Domain} {host : Host D} {batch : List (Resolved D)}

/-! ## Moves -/

/-- What a caller does to a graph: an element is added, with an index of the caller or without, or
the graph is replaced by what a batch of applications derives from it. -/
inductive Move (D : Domain) where
  | addVertex (payload : D.Node)
  | addVertexAt (index : StableIndex) (payload : D.Node)
  | addEdge (a b : VertexId) (payload : D.Arc)
  | addEdgeAt (a b : VertexId) (index : StableIndex) (payload : D.Arc)
  | derive (grammar : Grammar D) (applications : List Application) (state : D.BuildState)

namespace Move

/-- The graph that the move makes, unless it fails. -/
def next? (host : Host D) : Move D → Option (Host D)
  | .addVertex payload => some (host.addVertex payload)
  | .addVertexAt index payload => some (host.addVertexAt index payload)
  | .addEdge a b payload => (host.addEdge a b payload).toOption
  | .addEdgeAt a b index payload => (host.addEdgeAt a b index payload).toOption
  | .derive g applications state =>
    (g.derive host applications state).result.toOption.map (·.graph)

/-- A move that fails leaves the graph as it is. -/
def result (host : Host D) (m : Move D) : Host D := (m.next? host).getD host

/-- The move succeeds with this derivation. -/
def Derives (host : Host D) (d : Derivation D) : Move D → Prop
  | .derive g applications state => (g.derive host applications state).result = .ok d
  | _ => False

/-- The move succeeds with a derivation, and one of its applications writes the element. -/
def Removes {kind : Kind} (host : Host D) (written : Footprint → List (Handle kind))
    (h : Handle kind) : Move D → Prop
  | .derive g applications state =>
    (∃ d, (g.derive host applications state).result = .ok d) ∧
      ∃ app ∈ applications, ∃ f, g.footprint host app = .ok f ∧ h ∈ written f
  | _ => False

/-- The caller gives the index of the vertex. -/
def GivesVertex (host : Host D) (v : VertexId) : Move D → Prop
  | .addVertexAt .. => v = host.nextVertex
  | _ => False

/-- The caller gives the index of the edge. -/
def GivesEdge (host : Host D) (e : EdgeId) : Move D → Prop
  | .addEdgeAt .. => e = host.nextEdge
  | _ => False

/-- The creation callbacks of the rules only add elements. -/
def Lawful : Move D → Prop
  | .derive g _ _ => g.Grown ∧ ∀ rule ∈ g.rules.toList, rule.AddsOnly
  | _ => True

/-- The base is what the derivation assembled before the creation callbacks extended it. -/
def Assembles (host : Host D) (d : Derivation D) (base : Host D) : Move D → Prop
  | .derive g applications _ => base.Extension d.graph ∧
      ∃ batch, g.resolveAll host applications = .ok batch ∧
        (Blueprint.of host batch).Yields host ⟨base, d.createdVertices, d.createdEdges⟩
  | _ => False

/-- Where the elements that stay are found: in what a successful derivation assembles, and
otherwise in the graph as it was. -/
def Base (host : Host D) (m : Move D) (base : Host D) : Prop :=
  (∀ d, m.Derives host d → m.Assembles host d base) ∧ ((∀ d, ¬ m.Derives host d) → base = host)

/-- One step from a graph to the next, with the places of the elements that stay. -/
structure Step (host : Host D) (m : Move D) (base : Host D) (place : VertexId → Option VertexId)
    (edgePlace : EdgeId → Option EdgeId) : Prop where
  staysVertex : ∀ v, (place v).isSome = true ↔
    host.Contains v ∧ ¬ m.Removes host Footprint.verticesWritten v
  staysEdge : ∀ e, (edgePlace e).isSome = true ↔
    e.slot < host.size ∧ ¬ m.Removes host Footprint.edgesWritten e
  apart : ∀ e e' x, edgePlace e = some x → edgePlace e' = some x → e = e'
  vertexRange : ∀ w, (∃ v, place v = some w) ↔
    base.Contains w ∧ ∀ d, m.Derives host d → w ∉ d.createdVertices
  edgeRange : ∀ w, (∃ e, edgePlace e = some w) ↔
    w.slot < base.size ∧ ∀ d, m.Derives host d → w ∉ d.createdEdges
  base : m.Base host base
  vertices : Succession host.vertexRegister (m.result host).vertexRegister place
    (m.GivesVertex host)
  edges : Succession host.edgeRegister (m.result host).edgeRegister edgePlace (m.GivesEdge host)
  consistent : (m.result host).Consistent

variable {m : Move D}

theorem Removes.derives {kind : Kind} {written : Footprint → List (Handle kind)} {h : Handle kind}
    (removes : m.Removes host written h) : ∃ d, m.Derives host d := by
  cases m with
  | derive => exact removes.1
  | addVertex | addVertexAt | addEdge | addEdgeAt => exact removes.elim

theorem Derives.next? {d : Derivation D} (derives : m.Derives host d) :
    m.next? host = some d.graph := by
  cases m with
  | derive g applications state =>
    exact congrArg (fun x : Except ApplyError (Derivation D) => x.toOption.map (·.graph)) derives
  | addVertex | addVertexAt | addEdge | addEdgeAt => exact derives.elim

theorem Derives.result {d : Derivation D} (derives : m.Derives host d) :
    m.result host = d.graph := by
  rw [Move.result, derives.next?, Option.getD_some]

/-- A move that derives nothing leaves every element where it is. -/
theorem Step.of_stay {next : Host D} (made : m.result host = next)
    (quiet : ∀ d, ¬ m.Derives host d) (consistent : next.Consistent)
    (vertices : Succession host.vertexRegister next.vertexRegister host.vertexRegister.stay
      (m.GivesVertex host))
    (edges : Succession host.edgeRegister next.edgeRegister host.edgeRegister.stay
      (m.GivesEdge host)) :
    m.Step host host host.vertexRegister.stay host.edgeRegister.stay where
  staysVertex v := by
    have unremoved : ¬ m.Removes host Footprint.verticesWritten v :=
      fun removes => removes.derives.elim quiet
    simp [Register.stay, Graph.vertexRegister, unremoved, Graph.contains_iff,
      Option.isSome_iff_exists]
  staysEdge e := by
    have unremoved : ¬ m.Removes host Footprint.edgesWritten e :=
      fun removes => removes.derives.elim quiet
    simp [Register.stay, Graph.edgeRegister, unremoved, ← Graph.edge?_isSome_iff,
      Option.isSome_iff_exists]
  apart e e' x here here' := by
    rw [(stay_eq_some_iff.mp here).1, (stay_eq_some_iff.mp here').1]
  vertexRange w := by
    have contained : (host.vertexRegister.index? w).isSome = true ↔ host.Contains w := by
      simp [Graph.vertexRegister, Graph.contains_iff, Option.isSome_iff_exists]
    simp [stay_eq_some_iff, contained, quiet]
  edgeRange w := by
    have inside : (host.edgeRegister.index? w).isSome = true ↔ w.slot < host.size := by
      simp [Graph.edgeRegister, ← Graph.edge?_isSome_iff, Option.isSome_iff_exists]
    simp [stay_eq_some_iff, inside, quiet]
  base := ⟨fun d derives => absurd derives (quiet d), fun _ => rfl⟩
  vertices := made ▸ vertices
  edges := made ▸ edges
  consistent := made ▸ consistent

theorem Step.of_failed (consistent : host.Consistent) (failed : m.next? host = none) :
    m.Step host host host.vertexRegister.stay host.edgeRegister.stay := by
  have unchanged : m.result host = host := by rw [result, failed, Option.getD_none]
  refine .of_stay unchanged (fun d derives => ?_) consistent
    (consistent.boundedVertices.succession _) (consistent.boundedEdges.succession _)
  cases derives.next?.symm.trans failed

theorem Step.of_addEdgeAt (consistent : host.Consistent) {a b : VertexId} {index : StableIndex}
    {payload : D.Arc} (attempts : m.next? host = (host.addEdgeAt a b index payload).toOption)
    (quiet : ∀ d, ¬ m.Derives host d)
    (own : index = host.nextEdgeIndex ∨ m.GivesEdge host host.nextEdge) :
    m.Step host host host.vertexRegister.stay host.edgeRegister.stay := by
  cases added : host.addEdgeAt a b index payload with
  | error e => exact .of_failed consistent (by rw [attempts, added]; rfl)
  | ok next =>
    have made : m.result host = next := by rw [result, attempts, added]; rfl
    refine .of_stay made quiet (consistent.addEdgeAt added) ?_ ?_
    · exact Graph.vertexRegister_addEdgeAt added ▸ consistent.boundedVertices.succession _
    · exact (consistent.boundedEdges.succession _).enter (Graph.enters_addEdgeAt added) own

theorem exists_footprint_iff {g : Grammar D} {applications : List Application}
    (resolved : g.resolveAll host applications = .ok batch) {P : Footprint → Prop} :
    (∃ app ∈ applications, ∃ f, g.footprint host app = .ok f ∧ P f) ↔
      ∃ r ∈ batch, P (Footprint.of host r) := by
  have pairs := forall₂_of_mapM resolved
  have footprint : ∀ app r, app.resolve g.rules host = .ok r →
      g.footprint host app = .ok (Footprint.of host r) := by
    intro app r resolves
    unfold Grammar.footprint
    rw [resolves]
    rfl
  constructor
  · rintro ⟨app, happ, f, found, holds⟩
    obtain ⟨i, there⟩ := List.getElem?_of_mem happ
    obtain ⟨r, there', resolves⟩ := (forall₂_getElem? pairs i).1 app there
    cases (footprint app r resolves).symm.trans found
    exact ⟨r, List.mem_of_getElem? there', holds⟩
  · rintro ⟨r, hr, holds⟩
    obtain ⟨i, there⟩ := List.getElem?_of_mem hr
    obtain ⟨app, there', resolves⟩ := (forall₂_getElem? pairs i).2 r there
    exact ⟨app, List.mem_of_getElem? there', _, footprint app r resolves, holds⟩

theorem removes_derive_iff {g : Grammar D} {applications : List Application} {state : D.BuildState}
    {d : Derivation D} (h : (g.derive host applications state).result = .ok d)
    (resolved : g.resolveAll host applications = .ok batch) {kind : Kind}
    {written : Footprint → List (Handle kind)} {x : Handle kind} :
    (Move.derive g applications state).Removes host written x ↔
      ∃ r ∈ batch, x ∈ written (Footprint.of host r) :=
  (and_iff_right ⟨d, h⟩).trans (exists_footprint_iff resolved)

theorem forall_derives_iff {g : Grammar D} {applications : List Application}
    {state : D.BuildState} {d : Derivation D}
    (h : (g.derive host applications state).result = .ok d) (P : Derivation D → Prop) :
    (∀ d', (Move.derive g applications state).Derives host d' → P d') ↔ P d := by
  refine ⟨fun each => each d h, fun holds d' derives => ?_⟩
  cases h.symm.trans derives
  exact holds

theorem exists_step_of_derive (consistent : host.Consistent) {g : Grammar D}
    {applications : List Application} {state : D.BuildState}
    (lawful : (Move.derive g applications state).Lawful) {d : Derivation D}
    (h : (g.derive host applications state).result = .ok d) :
    ∃ base place edgePlace, (Move.derive g applications state).Step host base place edgePlace := by
  obtain ⟨grown, adds⟩ := lawful
  obtain ⟨batch, resolved, -⟩ := Grammar.derive_ok h
  have valid := Grammar.valid_of_resolveAll grown.sound resolved
  have accounts := Grammar.accounts grown consistent resolved state
  rw [h] at accounts
  generalize (g.derive host applications state).state = after at accounts
  obtain _ | ⟨a, fresh, -, -, yields, -, assembled⟩ := accounts
  have grounded := Derivation.grounded_of consistent (fun r hr => (valid r hr).1) state fresh
  have adding : ∀ r ∈ batch, r.rule.AddsOnly := by
    intro r hr
    obtain ⟨-, app, -, found⟩ := valid r hr
    exact adds r.rule (Array.mem_toList_iff.mpr (Array.mem_of_getElem? found))
  have extension : a.graph.Extension (Creation.run host batch a
      (Cutting.applyAll host batch ⟨.ofGraph host, state⟩).state).1 :=
    Creation.extension_run adding a _
  have made : (Move.derive g applications state).result host =
      (Creation.run host batch a (Cutting.applyAll host batch ⟨.ofGraph host, state⟩).state).1 :=
    Derives.result (m := .derive g applications state) h
  have successions := extension.succession
    (yields.vertex_succession grounded consistent
      (GivesVertex host · (.derive g applications state)))
    (yields.edge_succession grounded consistent
      (GivesEdge host · (.derive g applications state)))
  refine ⟨a.graph, (of host batch).vertexOf?, edgeOf? host batch, ?_⟩
  constructor
  case staysVertex =>
    intro v
    rw [vertexOf?_isSome_iff, host_mem_nodes_iff, removes_derive_iff h resolved,
      cutsVertex_iff_exists]
    simp only [Footprint.mem_verticesWritten_iff]
  case staysEdge =>
    intro e
    rw [edgeOf?_isSome_iff, removes_derive_iff h resolved]
    constructor
    · intro remains
      have inside := (List.mem_filter.mp (mem_remaining_iff.mpr remains)).1
      refine ⟨Graph.mem_edgeIds.mp inside, ?_⟩
      rintro ⟨r, hr, written⟩
      exact (remains_iff_forall_not_written consistent inside).mp remains r hr written
    · rintro ⟨inside, unwritten⟩
      refine (remains_iff_forall_not_written consistent (Graph.mem_edgeIds.mpr inside)).mpr ?_
      exact fun r hr written => unwritten ⟨r, hr, written⟩
  case apart =>
    intro e e' x here here'
    have same := (hostLink_of_edgeOf? here).symm.trans (hostLink_of_edgeOf? here')
    exact LinkOrigin.host.inj (congrArg Strand.origin (Option.some.inj same))
  case vertexRange =>
    intro w
    refine (yields.exists_vertexOf?_iff grounded).trans (and_congr_right fun _ => ?_)
    exact (forall_derives_iff h fun d => w ∉ d.createdVertices).symm
  case edgeRange =>
    intro w
    refine (yields.exists_edgeOf?_iff grounded).trans (and_congr_right fun _ => ?_)
    exact (forall_derives_iff h fun d => w ∉ d.createdEdges).symm
  case base =>
    refine ⟨(forall_derives_iff h fun d =>
      Move.Assembles host d a.graph (.derive g _ state)).mpr ?_, fun none => absurd h (none _)⟩
    exact ⟨extension, batch, resolved, yields⟩
  case vertices => exact made ▸ successions.1
  case edges => exact made ▸ successions.2
  case consistent => exact made ▸ extension.consistent assembled

theorem exists_step (consistent : host.Consistent) (lawful : m.Lawful) :
    ∃ base place edgePlace, m.Step host base place edgePlace := by
  have vertices := consistent.boundedVertices.succession
  have edges := consistent.boundedEdges.succession
  cases m with
  | addVertex payload =>
    refine ⟨_, _, _, .of_stay rfl (fun _ => id) (consistent.addVertexAt _ payload) ?_ (edges _)⟩
    exact (vertices _).enter (Graph.enters_addVertexAt host _ payload) (.inl rfl)
  | addVertexAt index payload =>
    refine ⟨_, _, _, .of_stay rfl (fun _ => id) (consistent.addVertexAt index payload) ?_ (edges _)⟩
    exact (vertices _).enter (Graph.enters_addVertexAt host index payload) (.inr rfl)
  | addEdge a b payload => exact ⟨_, _, _, .of_addEdgeAt consistent rfl (fun _ => id) (.inl rfl)⟩
  | addEdgeAt a b index payload =>
    exact ⟨_, _, _, .of_addEdgeAt consistent rfl (fun _ => id) (.inr rfl)⟩
  | derive g applications state =>
    cases h : (g.derive host applications state).result with
    | error e => exact ⟨_, _, _, .of_failed consistent (by rw [next?, h]; rfl)⟩
    | ok d => exact exists_step_of_derive consistent lawful h

end Move

/-! ## Histories -/

/-- From the empty graph, moves lead over the graphs of the list, the last of them first. -/
inductive History : Host D → List (Host D) → Prop
  | start : History .empty []
  | move {g : Host D} {past : List (Host D)} (m : Move D) :
      History g past → m.Lawful → History (m.result g) (g :: past)

namespace History

variable {g : Host D} {past : List (Host D)} {m : Move D}

theorem consistent (history : History g past) : g.Consistent := by
  induction history with
  | start => exact .empty
  | move m _ lawful ih =>
    obtain ⟨_, _, _, step⟩ := Move.exists_step ih lawful
    exact step.consistent

/-- The counters are beyond all indices that ever were in use. -/
theorem covers (history : History g past) : ∀ h ∈ g :: past,
    g.vertexRegister.Covers h.vertexRegister ∧ g.edgeRegister.Covers h.edgeRegister := by
  have own {g : Host D} (consistent : g.Consistent) :
      g.vertexRegister.Covers g.vertexRegister ∧ g.edgeRegister.Covers g.edgeRegister :=
    ⟨consistent.boundedVertices, consistent.boundedEdges⟩
  induction history with
  | start =>
    intro h hh
    cases List.mem_singleton.mp hh
    exact own .empty
  | move m history lawful ih =>
    obtain ⟨_, _, _, step⟩ := Move.exists_step history.consistent lawful
    intro h hh
    rcases List.mem_cons.mp hh with rfl | earlier
    · exact own step.consistent
    · obtain ⟨vertices, edges⟩ := ih h earlier
      exact ⟨fun v i found => Nat.le_trans (vertices v i found) step.vertices.counter,
        fun e i found => Nat.le_trans (edges e i found) step.edges.counter⟩

/-- No index is used again. In a move that continues a history, all elements stay that no
application of a successful derivation writes, and they keep their indices, where vertices are
merged the first one its own; what is added or created takes indices greater than all those that
ever were in use. -/
theorem exists_renews (history : History g past) (lawful : m.Lawful) :
    ∃ (base : Host D) (place : VertexId → Option VertexId) (edgePlace : EdgeId → Option EdgeId),
      m.Base g base ∧
      (∀ v, (place v).isSome = true ↔
        g.Contains v ∧ ¬ m.Removes g Footprint.verticesWritten v) ∧
      (∀ e, (edgePlace e).isSome = true ↔
        e.slot < g.size ∧ ¬ m.Removes g Footprint.edgesWritten e) ∧
      (∀ e e' x, edgePlace e = some x → edgePlace e' = some x → e = e') ∧
      (∀ w, (∃ v, place v = some w) ↔
        base.Contains w ∧ ∀ d, m.Derives g d → w ∉ d.createdVertices) ∧
      (∀ w, (∃ e, edgePlace e = some w) ↔
        w.slot < base.size ∧ ∀ d, m.Derives g d → w ∉ d.createdEdges) ∧
      Renews ((g :: past).map (·.vertexRegister)) g.vertexRegister (m.result g).vertexRegister
        place (m.GivesVertex g) ∧
      Renews ((g :: past).map (·.edgeRegister)) g.edgeRegister (m.result g).edgeRegister
        edgePlace (m.GivesEdge g) := by
  obtain ⟨base, place, edgePlace, step⟩ := Move.exists_step history.consistent lawful
  refine ⟨base, place, edgePlace, step.base, step.staysVertex, step.staysEdge, step.apart,
    step.vertexRange, step.edgeRange, step.vertices.renews ?_, step.edges.renews ?_⟩
  · exact List.forall_mem_map.mpr fun h hh => (history.covers h hh).1
  · exact List.forall_mem_map.mpr fun h hh => (history.covers h hh).2

open Samples in
/-- A leaf that is grown in the place of another one does not take its index. -/
theorem exists_renews_renewLeaf :
    let g : Host .plain := (Move.addEdge ⟨0⟩ ⟨1⟩ ()).result ((Move.addVertex ()).result
      ((Move.addVertexAt 7 ()).result .empty))
    ∃ d index, ((single renewLeaf).derive g [applyAt [0, 1] [0]] ()).result = .ok d ∧
      g.vertexRegister.index? ⟨1⟩ = some 8 ∧ d.graph.vertexRegister.index? ⟨1⟩ = some index ∧
      8 < index := by
  intro g
  obtain ⟨past, history⟩ : ∃ past, History g past :=
    ⟨_, .move _ (.move _ (.move _ .start trivial) trivial) trivial⟩
  let m : Move .plain := .derive (single renewLeaf) [applyAt [0, 1] [0]] ()
  have silent : ∀ rule ∈ (single renewLeaf).rules.toList, rule.IsSilent := by decide +kernel
  have lawful : m.Lawful := ⟨grown_single renewLeaf, fun rule hr => (silent rule hr).addsOnly⟩
  have old : g.vertexRegister.index? ⟨1⟩ = some 8 := by decide +kernel
  obtain ⟨d, derived, created, there⟩ : ∃ d,
      ((single renewLeaf).derive g [applyAt [0, 1] [0]] ()).result = .ok d ∧
      ⟨1⟩ ∈ d.createdVertices ∧ (d.graph.vertexRegister.index? ⟨1⟩).isSome = true :=
    exists_of_check (by decide +kernel)
  obtain ⟨index, found⟩ := Option.isSome_iff_exists.mp there
  have result : m.result g = d.graph := Move.Derives.result (m := m) derived
  obtain ⟨base, place, edgePlace, -, -, -, -, range, -, ⟨-, greater⟩, -⟩ :=
    exists_renews (m := m) history lawful
  refine ⟨d, index, derived, old, found, ?_⟩
  refine greater ⟨1⟩ index (result ▸ found) ?_ (fun given => given) 8 ?_ (by decide)
  · exact fun v placed => ((range ⟨1⟩).mp ⟨v, placed⟩).2 d derived created
  · exact .inl ⟨g.vertexRegister, List.mem_cons_self, ⟨1⟩, old⟩

end History

end GraphSplice
