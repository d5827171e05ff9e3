import GraphSplice.Proofs.Derivation

/-!
The removal callbacks of a batch. The applications request removals in order; a request is served if
no earlier one took its element along, so that no element is reported twice. After all requests the
requested elements are gone and, of the others, the edges at a requested vertex.
-/

namespace GraphSplice

open Wiring

variable {D : Domain} {host : Host D} {batch : List (Resolved D)}

/-! ## Requests -/

inductive Element where
  | vertex (v : VertexId)
  | edge (e : EdgeId)
  deriving DecidableEq, Repr

namespace Element

/-- The elements of the host. -/
def In (host : Host D) : Element → Prop
  | vertex v => host.Contains v
  | edge e => ∃ record, host.edge? e = some record

/-- The second element goes with the first: it is the same, or an edge at the vertex. -/
def Takes (host : Host D) : Element → Element → Prop
  | vertex v, edge e => ∃ record ∈ host.edge? e, record.ends.Touches v
  | x, y => x = y

instance (x y : Element) : Decidable (x.Takes host y) := by
  cases x <;> cases y <;> unfold Takes <;> infer_instance

theorem takes_self (x : Element) : x.Takes host x := by
  cases x <;> rfl

theorem takes_vertex_iff {x : Element} {v : VertexId} : x.Takes host (vertex v) ↔ x = vertex v := by
  cases x <;> rfl

theorem takes_edge_iff {x : Element} {e : EdgeId} {record : Edge D.Arc}
    (found : host.edge? e = some record) : x.Takes host (edge e) ↔
      x = edge e ∨ x = vertex record.ends.first ∨ x = vertex record.ends.second := by
  cases x with
  | edge d => simp [Takes]
  | vertex v => simp [Takes, found, Ends.Touches, eq_comm]

end Element

/-- A matched element is to be cut, after a last callback if there is one. -/
structure Request (D : Domain) where
  element : Element
  callback : Option (D.BuildState → D.BuildState)

def Request.run (q : Request D) (s : D.BuildState) : D.BuildState := q.callback.elim s (· s)

def Request.ofEdge? (context : BuildContext D) (x : MatchedEdge D × EdgeId) : Option (Request D) :=
  match x.1.fate with
  | .kept => none
  | .cut removal => some ⟨.edge x.2, removal.map fun run => run context x.2⟩

def Request.ofVertex? (context : BuildContext D) (x : MatchedVertex D × VertexId) :
    Option (Request D) :=
  match x.1.fate with
  | .kept => none
  | .cut removal => some ⟨.vertex x.2, removal.map fun run => run context x.2⟩

/-- What an application requests: first its edges, then its vertices. -/
def Resolved.requests (host : Host D) (r : Resolved D) : List (Request D) :=
  let context := r.context host
  (r.rule.edges.zip r.occurrence.edges).filterMap (Request.ofEdge? context) ++
    (r.rule.vertices.zip r.occurrence.vertices).filterMap (Request.ofVertex? context)

/-- What the applications request, in order. -/
def requests (host : Host D) (batch : List (Resolved D)) : List (Request D) :=
  batch.flatMap (Resolved.requests host)

/-- The element is the subject of a request. -/
def Requested (qs : List (Request D)) (x : Element) : Prop := ∃ q ∈ qs, q.element = x

/-- No request takes the element along. -/
def Spared (host : Host D) (qs : List (Request D)) (x : Element) : Prop :=
  ∀ q ∈ qs, ¬ q.element.Takes host x

instance (qs : List (Request D)) (x : Element) : Decidable (Spared host qs x) :=
  inferInstanceAs (Decidable (∀ q ∈ qs, _))

/-- The requests whose element no earlier one takes along. -/
def due (host : Host D) (qs : List (Request D)) : List (Request D) :=
  (qs.zipIdx.filter fun x => Spared host (qs.take x.2) x.1.element).map (·.1)

section Lists

variable {qs : List (Request D)}

theorem spared_vertex_iff {v : VertexId} :
    Spared host qs (.vertex v) ↔ ¬ Requested qs (.vertex v) := by
  simp only [Spared, Requested, Element.takes_vertex_iff, not_exists, not_and]

theorem spared_edge_iff {e : EdgeId} {record : Edge D.Arc} (found : host.edge? e = some record) :
    Spared host qs (.edge e) ↔ ¬ Requested qs (.edge e) ∧
      ¬ Requested qs (.vertex record.ends.first) ∧
      ¬ Requested qs (.vertex record.ends.second) := by
  simp only [Spared, Requested, Element.takes_edge_iff found, not_exists, not_and, not_or,
    forall_and]

theorem requested_concat_iff {q : Request D} {x : Element} :
    Requested (qs ++ [q]) x ↔ Requested qs x ∨ x = q.element := by
  simp only [Requested, List.mem_append, List.mem_singleton, or_and_right, exists_or,
    exists_eq_left, eq_comm (a := x)]

theorem due_concat (qs : List (Request D)) (q : Request D) : due host (qs ++ [q]) =
    due host qs ++ if Spared host qs q.element then [q] else [] := by
  unfold due
  rw [List.zipIdx_append, List.filter_append, List.map_append]
  congr 1
  · congr 1
    apply List.filter_congr
    intro x hx
    rw [List.take_append_of_le_length (List.snd_lt_of_mem_zipIdx hx).le]
  · simp only [List.zipIdx_singleton, Nat.zero_add, List.filter_singleton, List.take_left]
    by_cases spared : Spared host qs q.element <;> simp [spared]

theorem mem_of_mem_due {q : Request D} (h : q ∈ due host qs) : q ∈ qs := by
  obtain ⟨x, hx, rfl⟩ := List.mem_map.mp h
  exact List.fst_mem_of_mem_zipIdx (List.mem_filter.mp hx).1

/-- No two of the requests that are due have the same element. -/
theorem nodup_due (qs : List (Request D)) : ((due host qs).map (·.element)).Nodup := by
  induction qs using List.reverseRecOn with
  | nil => exact List.nodup_nil
  | append_singleton qs q ih =>
    rw [due_concat]
    split
    · next spared =>
      rw [List.map_append, List.nodup_append]
      refine ⟨ih, List.nodup_singleton _, ?_⟩
      rintro x hx y hy rfl
      obtain ⟨p, hp, rfl⟩ := List.mem_map.mp hx
      obtain same := List.mem_singleton.mp hy
      exact spared p (mem_of_mem_due hp) (same ▸ Element.takes_self _)
    · rw [List.append_nil]
      exact ih

end Lists

/-! ## Service -/

namespace Cutting

/-- Cuts the requested element, unless it is gone. -/
def serve (c : Cutting D) (q : Request D) : Cutting D :=
  match q.element with
  | .edge e => if c.wiring.HasHostLink e then ⟨c.wiring.cutEdge e, q.run c.state⟩ else c
  | .vertex v =>
    if (c.wiring.hostNode? v).isSome then ⟨c.wiring.cutVertex v, q.run c.state⟩ else c

theorem cutEdge_eq_serve (context : BuildContext D) (c : Cutting D) (x : MatchedEdge D × EdgeId) :
    cutEdge context c x = (Request.ofEdge? context x).elim c c.serve := by
  unfold cutEdge Request.ofEdge?
  cases x.1.fate with
  | kept => rfl
  | cut removal => cases removal <;> rfl

theorem cutVertex_eq_serve (context : BuildContext D) (c : Cutting D)
    (x : MatchedVertex D × VertexId) :
    cutVertex context c x = (Request.ofVertex? context x).elim c c.serve := by
  unfold cutVertex Request.ofVertex?
  cases x.1.fate with
  | kept => rfl
  | cut removal => cases removal <;> rfl

theorem apply_eq_serve (host : Host D) (c : Cutting D) (r : Resolved D) :
    apply host c r = (r.requests host).foldl serve c := by
  unfold apply Resolved.requests
  rw [List.foldl_append, ← foldl_eq_of_elim (cutEdge_eq_serve _),
    ← foldl_eq_of_elim (cutVertex_eq_serve _)]

theorem applyAll_eq_serve (batch : List (Resolved D)) (c : Cutting D) :
    applyAll host batch c = (requests host batch).foldl serve c := by
  unfold applyAll requests
  rw [List.foldl_flatMap, funext fun c => funext (apply_eq_serve host c)]

/-- The wiring after the requests. -/
abbrev Served (host : Host D) (qs : List (Request D)) (w : Wiring) : Prop :=
  Trimmed host (fun v => Requested qs (.vertex v)) (fun e => Requested qs (.edge e)) w

namespace Served

variable {qs : List (Request D)} {w : Wiring}

theorem hasHostLink_iff (served : Served host qs w) {e : EdgeId} {record : Edge D.Arc}
    (found : host.edge? e = some record) : w.HasHostLink e ↔ Spared host qs (.edge e) := by
  rw [Trimmed.hasHostLink_iff served found, Option.isSome_iff_exists, spared_edge_iff found]
  simp only [served.link e record found]
  exact ⟨fun ⟨_, kept, _⟩ => kept, fun kept => ⟨_, kept, rfl⟩⟩

theorem isSome_hostNode?_iff (served : Served host qs w) {v : VertexId} (hv : host.Contains v) :
    (w.hostNode? v).isSome ↔ Spared host qs (.vertex v) := by
  obtain ⟨gone, there⟩ := served.hostNode?_eq hv
  rw [spared_vertex_iff]
  by_cases requested : Requested qs (.vertex v)
  · simp [gone requested, requested]
  · simp [there requested, requested]

end Served

/-- One request: where its element is still there, it is reported and goes. -/
theorem served_serve (consistent : host.Consistent) {qs : List (Request D)} {q : Request D}
    {c : Cutting D} (known : q.element.In host) (served : Served host qs c.wiring) :
    (c.serve q).state = (if Spared host qs q.element then q.run c.state else c.state) ∧
      Served host (qs ++ [q]) (c.serve q).wiring := by
  obtain ⟨element, callback⟩ := q
  cases element with
  | edge e =>
    obtain ⟨record, found⟩ := known
    have wiring : (c.serve ⟨.edge e, callback⟩).wiring = c.wiring.cutEdge e := by
      unfold serve
      dsimp only
      split
      · rfl
      · next gone => rw [Wiring.cutEdge, if_neg gone]
    constructor
    · simp only [serve, served.hasHostLink_iff found]
      split <;> rfl
    · rw [wiring]
      refine (Trimmed.cutEdge served found).congr (fun v => ?_) fun d => ?_
      · simp [requested_concat_iff]
      · simp [requested_concat_iff]
  | vertex v =>
    have wiring : (c.serve ⟨.vertex v, callback⟩).wiring = c.wiring.cutVertex v := by
      unfold serve
      dsimp only
      split
      · rfl
      · next gone => rw [cutVertex_of_none (Option.not_isSome_iff_eq_none.mp gone)]
    constructor
    · simp only [serve, served.isSome_hostNode?_iff known]
      split <;> rfl
    · rw [wiring]
      refine (Trimmed.cutVertex served known consistent).congr (fun u => ?_) fun d => ?_
      · simp [requested_concat_iff]
      · simp [requested_concat_iff]

/-- All requests, by induction on their number: what is due is reported, in order. -/
theorem served_foldl (consistent : host.Consistent) (qs : List (Request D))
    (known : ∀ q ∈ qs, q.element.In host) (state : D.BuildState) :
    (qs.foldl serve ⟨.ofGraph host, state⟩).state =
        (due host qs).foldl (fun s q => q.run s) state ∧
      Served host qs (qs.foldl serve ⟨.ofGraph host, state⟩).wiring := by
  induction qs using List.reverseRecOn with
  | nil =>
    refine ⟨rfl, (trimmed_ofGraph consistent).congr (fun v => ?_) fun e => ?_⟩
    · simp [Requested]
    · simp [Requested]
  | append_singleton qs q ih =>
    obtain ⟨told, served⟩ := ih fun p hp => known p (List.mem_append_left _ hp)
    obtain ⟨told', served'⟩ := served_serve consistent
      (known q (List.mem_append_right _ List.mem_cons_self)) served
    rw [List.foldl_concat, due_concat, List.foldl_append, ← told]
    refine ⟨told'.trans ?_, served'⟩
    split <;> rfl

end Cutting

/-- The requests of a valid batch are for elements of the host. -/
theorem in_of_mem_requests (valid : ∀ r ∈ batch, r.Valid host) :
    ∀ q ∈ requests host batch, q.element.In host := by
  intro q hq
  obtain ⟨r, hr, hq⟩ := List.mem_flatMap.mp hq
  rcases List.mem_append.mp hq with hq | hq
  · obtain ⟨x, hx, made⟩ := List.mem_filterMap.mp hq
    unfold Request.ofEdge? at made
    split at made
    · cases made
    · cases made
      exact (valid r hr).edge_of_mem_zip hx
  · obtain ⟨x, hx, made⟩ := List.mem_filterMap.mp hq
    unfold Request.ofVertex? at made
    split at made
    · cases made
    · cases made
      exact (valid r hr).vertices x.2 (List.of_mem_zip hx).2

namespace Grammar

variable {g : Grammar D} {applications : List Application}

/-- The removals of a valid batch are reported in the order of the requests, each element at most
once, and after them exactly what is requested is gone and the edges at requested vertices. With the
state that the callbacks leave a refusal ends or the creation callbacks begin. -/
theorem derive_reports_once (grown : g.Grown) (built : host.Built)
    (resolved : g.resolveAll host applications = .ok batch) (state : D.BuildState) :
    let asked := requests host batch
    let told := (due host asked).foldl (fun s q => q.run s) state
    let cut := Cutting.applyAll host batch ⟨.ofGraph host, state⟩
    cut.state = told ∧ ((due host asked).map (·.element)).Nodup ∧
    (∀ v, host.Contains v →
      ((cut.wiring.hostNode? v).isSome ↔ ¬ Requested asked (.vertex v))) ∧
    (∀ e record, host.edge? e = some record → (cut.wiring.HasHostLink e ↔
      ¬ Requested asked (.edge e) ∧ ¬ Requested asked (.vertex record.ends.first) ∧
        ¬ Requested asked (.vertex record.ends.second))) ∧
    (∀ e, (g.derive host applications state).result = .error e →
      (g.derive host applications state).state = told) ∧
    ∀ d, (g.derive host applications state).result = .ok d → ∃ a,
      Creation.run host batch a told = (d.graph, (g.derive host applications state).state) := by
  intro asked told cut
  have consistent := built.consistent
  have known := in_of_mem_requests fun r hr => (valid_of_resolveAll grown.sound resolved r hr).1
  obtain ⟨reported, served⟩ := Cutting.served_foldl consistent asked known state
  rw [← Cutting.applyAll_eq_serve] at reported served
  refine ⟨reported, nodup_due asked, fun v hv => ?_, fun e record found => ?_, ?_⟩
  · exact (served.isSome_hostNode?_iff hv).trans spared_vertex_iff
  · exact (served.hasHostLink_iff found).trans (spared_edge_iff found)
  · have accounts := accounts grown consistent resolved state
    rw [reported] at accounts
    generalize (g.derive host applications state).result = result at accounts ⊢
    generalize (g.derive host applications state).state = after at accounts ⊢
    cases accounts with
    | refused e verdict => exact ⟨fun _ _ => rfl, nofun⟩
    | built a =>
      refine ⟨nofun, ?_⟩
      intro d same
      cases same
      exact ⟨a, rfl⟩

open Samples in
/-- Two applications renew the same leaf: its edge and the leaf go once. -/
theorem derive_reports_once_shared_leaf :
    ∃ batch, (single renewLeaf).resolveAll (shaped 3 [(0, 1), (0, 2)])
      [applyAt [0, 1] [0], applyAt [0, 1] [0]] = .ok batch ∧
      (requests (shaped 3 [(0, 1), (0, 2)]) batch).map (·.element) =
        [.edge ⟨0⟩, .vertex ⟨1⟩, .edge ⟨0⟩, .vertex ⟨1⟩] ∧
      (due (shaped 3 [(0, 1), (0, 2)]) (requests (shaped 3 [(0, 1), (0, 2)]) batch)).map
        (·.element) = [.edge ⟨0⟩, .vertex ⟨1⟩] ∧
      ((due (shaped 3 [(0, 1), (0, 2)]) (requests (shaped 3 [(0, 1), (0, 2)]) batch)).map
        (·.element)).Nodup := by
  obtain ⟨batch, resolved, asked, left⟩ : ∃ batch,
      (single renewLeaf).resolveAll (shaped 3 [(0, 1), (0, 2)])
        [applyAt [0, 1] [0], applyAt [0, 1] [0]] = .ok batch ∧
      (requests (shaped 3 [(0, 1), (0, 2)]) batch).map (·.element) =
        [.edge ⟨0⟩, .vertex ⟨1⟩, .edge ⟨0⟩, .vertex ⟨1⟩] ∧
      (due (shaped 3 [(0, 1), (0, 2)]) (requests (shaped 3 [(0, 1), (0, 2)]) batch)).map
        (·.element) = [.edge ⟨0⟩, .vertex ⟨1⟩] := exists_of_check (by decide +kernel)
  exact ⟨batch, resolved, asked, left, (derive_reports_once (grown_single renewLeaf)
    (built_shaped 3 [(0, 1), (0, 2)]) resolved ()).2.1⟩

end Grammar

end GraphSplice
