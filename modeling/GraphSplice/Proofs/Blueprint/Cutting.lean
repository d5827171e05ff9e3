import GraphSplice.Proofs.Blueprint.Batch
import GraphSplice.Proofs.Blueprint.Realization

/-!
Cutting. After all cuts the wiring realizes the part of the blueprint that comes from the host.
-/

namespace GraphSplice

open Wiring

variable {D : Domain} {host : Host D} {V V' : VertexId → Prop} {F F' : EdgeId → Prop}

theorem Wiring.Trimmed.congr {w : Wiring} (trimmed : Trimmed host V F w) (hV : ∀ v, V v ↔ V' v)
    (hF : ∀ e, F e ↔ F' e) : Trimmed host V' F' w := by
  obtain rfl : V = V' := funext fun v => propext (hV v)
  obtain rfl : F = F' := funext fun e => propext (hF e)
  exact trimmed

namespace Cutting

theorem wiring_cutEdge (context : BuildContext D) (c : Cutting D) (x : MatchedEdge D × EdgeId) :
    (cutEdge context c x).wiring =
      if x.1.fate.isCut = true then c.wiring.cutEdge x.2 else c.wiring := by
  unfold cutEdge
  cases fate : x.1.fate with
  | kept => simp [Fate.isCut]
  | cut removal =>
    simp only [Fate.isCut, if_true]
    split
    · rfl
    · next gone => rw [Wiring.cutEdge, if_neg gone]

theorem wiring_cutVertex (context : BuildContext D) (c : Cutting D)
    (x : MatchedVertex D × VertexId) : (cutVertex context c x).wiring =
      if x.1.fate.isCut = true then c.wiring.cutVertex x.2 else c.wiring := by
  unfold cutVertex
  cases fate : x.1.fate with
  | kept => simp [Fate.isCut]
  | cut removal =>
    simp only [Fate.isCut, if_true]
    split
    · rfl
    · next gone =>
      rw [Option.not_isSome_iff_eq_none] at gone
      rw [Wiring.cutVertex, gone]

theorem trimmed_cutEdges (context : BuildContext D) (xs : List (MatchedEdge D × EdgeId))
    (known : ∀ x ∈ xs, ∃ record, host.edge? x.2 = some record) :
    ∀ (F : EdgeId → Prop) (c : Cutting D), Trimmed host V F c.wiring →
      Trimmed host V (fun e => F e ∨ ∃ x ∈ xs, x.1.fate.isCut = true ∧ x.2 = e)
        (xs.foldl (cutEdge context) c).wiring := by
  induction xs with
  | nil =>
    intro F c trimmed
    exact trimmed.congr (fun _ => Iff.rfl) (by simp)
  | cons x rest ih =>
    intro F c trimmed
    obtain ⟨record, found⟩ := known x List.mem_cons_self
    have step : Trimmed host V (fun e => F e ∨ (x.1.fate.isCut = true ∧ e = x.2))
        (cutEdge context c x).wiring := by
      rw [wiring_cutEdge]
      split
      · next cut => exact (trimmed.cutEdge found).congr (fun _ => Iff.rfl) (by simp [cut])
      · next kept => exact trimmed.congr (fun _ => Iff.rfl) (by simp [kept])
    refine (ih (fun y hy => known y (List.mem_cons_of_mem _ hy)) _ _ step).congr
      (fun _ => Iff.rfl) ?_
    intro e
    rw [List.exists_mem_cons_iff, or_assoc, eq_comm (a := e)]

theorem trimmed_cutVertices (consistent : host.Consistent) (context : BuildContext D)
    (xs : List (MatchedVertex D × VertexId)) (known : ∀ x ∈ xs, host.Contains x.2) :
    ∀ (V : VertexId → Prop) (c : Cutting D), Trimmed host V F c.wiring →
      Trimmed host (fun v => V v ∨ ∃ x ∈ xs, x.1.fate.isCut = true ∧ x.2 = v) F
        (xs.foldl (cutVertex context) c).wiring := by
  induction xs with
  | nil =>
    intro V c trimmed
    exact trimmed.congr (by simp) (fun _ => Iff.rfl)
  | cons x rest ih =>
    intro V c trimmed
    have step : Trimmed host (fun v => V v ∨ (x.1.fate.isCut = true ∧ v = x.2)) F
        (cutVertex context c x).wiring := by
      rw [wiring_cutVertex]
      split
      · next cut =>
        exact (trimmed.cutVertex (known x List.mem_cons_self) consistent).congr (by simp [cut])
          (fun _ => Iff.rfl)
      · next kept => exact trimmed.congr (by simp [kept]) (fun _ => Iff.rfl)
    refine (ih (fun y hy => known y (List.mem_cons_of_mem _ hy)) _ _ step).congr ?_
      (fun _ => Iff.rfl)
    intro v
    rw [List.exists_mem_cons_iff, or_assoc, eq_comm (a := v)]

theorem trimmed_apply (consistent : host.Consistent) {r : Resolved D} (valid : r.Valid host)
    {c : Cutting D} (trimmed : Trimmed host V F c.wiring) :
    Trimmed host (fun v => V v ∨ CutsVertex [r] v) (fun e => F e ∨ CutsEdge [r] e)
      (apply host c r).wiring := by
  have edges : ∀ x ∈ r.rule.edges.zip r.occurrence.edges,
      ∃ record, host.edge? x.2 = some record := fun x hx => valid.edge_of_mem_zip hx
  have vertices : ∀ x ∈ r.rule.vertices.zip r.occurrence.vertices, host.Contains x.2 :=
    fun x hx => valid.vertices x.2 (List.of_mem_zip hx).2
  refine (trimmed_cutVertices consistent _ _ vertices _ _
    (trimmed_cutEdges _ _ edges _ c trimmed)).congr ?_ ?_
  · simp [CutsVertex]
  · simp [CutsEdge]

/-- After all cuts, what is cut is gone with all that hangs on it, and nothing else. -/
theorem trimmed_applyAll (consistent : host.Consistent) (batch : List (Resolved D))
    (valid : ∀ r ∈ batch, r.Valid host) : ∀ (V : VertexId → Prop) (F : EdgeId → Prop)
      (c : Cutting D), Trimmed host V F c.wiring →
        Trimmed host (fun v => V v ∨ CutsVertex batch v) (fun e => F e ∨ CutsEdge batch e)
          (applyAll host batch c).wiring := by
  induction batch with
  | nil =>
    intro V F c trimmed
    exact trimmed.congr (by simp [CutsVertex]) (by simp [CutsEdge])
  | cons r rest ih =>
    intro V F c trimmed
    refine (ih (fun x hx => valid x (List.mem_cons_of_mem _ hx)) _ _ _
      (trimmed_apply consistent (valid r List.mem_cons_self) trimmed)).congr ?_ ?_
    · intro v
      simp [CutsVertex, or_assoc]
    · intro e
      simp [CutsEdge, or_assoc]

end Cutting

/-! ## What is left of the host -/

namespace Blueprint

variable (host : Host D) (batch : List (Resolved D))

/-- The places of the host elements. -/
def hostLayout : Layout where
  node
    | .host v => v.slot
    | .created _ => 0
  socket
    | .host e side => socketSlot host.order e side
    | .fresh _ _ => 0
  link
    | .host e => linkSlot e
    | .created _ => 0

/-- The host sockets whose vertex is not cut. -/
def HostPresent : Socket → Prop
  | .host e side => (ownerIn host batch (.host e side)).isSome = true
  | .fresh _ _ => False

variable {host batch}

theorem hostPresent_iff {e : EdgeId} {side : Side} :
    HostPresent host batch (.host e side) ↔ ∃ record, host.edge? e = some record ∧
      ¬ CutsVertex batch (record.ends.get side) := by
  rw [HostPresent, Option.isSome_iff_exists]
  constructor
  · rintro ⟨n, h⟩
    obtain ⟨record, found, kept, -⟩ := ownerIn_host_iff.mp h
    exact ⟨record, found, kept⟩
  · rintro ⟨record, found, kept⟩
    exact ⟨_, ownerIn_host_iff.mpr ⟨record, found, kept, rfl⟩⟩

section Trimmed

variable {w : Wiring}

theorem node_iff_of_trimmed (trimmed : Trimmed host V F w) {j : Nat} {n : NodeOrigin} :
    w.kind? j = some (.node n) ↔
      ∃ v, n = .host v ∧ host.Contains v ∧ ¬ V v ∧ v.slot = j := by
  constructor
  · intro h
    rcases trimmed.joint_cases (isLive_iff_kind?.mpr ⟨_, h⟩) with ⟨v, hv, rfl⟩ |
      ⟨e, record, side, found, rfl⟩
    · obtain ⟨kept, same⟩ := (trimmed.node v hv _).mp h
      cases same
      exact ⟨v, rfl, hv, kept, rfl⟩
    · obtain ⟨-, same⟩ := (trimmed.socket e record found side _).mp h
      cases same
  · rintro ⟨v, rfl, hv, kept, rfl⟩
    exact (trimmed.node v hv _).mpr ⟨kept, rfl⟩

theorem isSocket_iff_of_trimmed (trimmed : Trimmed host V F w) {j : Nat} :
    w.IsSocket j ↔ ∃ e record side, host.edge? e = some record ∧
      ¬ V (record.ends.get side) ∧ socketSlot host.order e side = j := by
  constructor
  · rintro ⟨origin, h⟩
    rcases trimmed.joint_cases (isLive_iff_kind?.mpr ⟨_, h⟩) with ⟨v, hv, rfl⟩ |
      ⟨e, record, side, found, rfl⟩
    · obtain ⟨-, same⟩ := (trimmed.node v hv _).mp h
      cases same
    · obtain ⟨kept, -⟩ := (trimmed.socket e record found side _).mp h
      exact ⟨e, record, side, found, kept, rfl⟩
  · rintro ⟨e, record, side, found, kept, rfl⟩
    exact ⟨_, (trimmed.socket e record found side _).mpr ⟨kept, rfl⟩⟩

/-- The place of an attachment tells that of its socket. -/
theorem exists_of_attachment (trimmed : Trimmed host V F w) {f m s : Nat}
    (h : w.wire? f = some ⟨⟨m, s⟩, .attachment⟩) :
    ∃ (e : EdgeId) (side : Side), f = 3 * e.slot + side.toNat ∧ s = socketSlot host.order e side := by
  obtain ⟨e, record, found, rfl | ⟨side, rfl⟩⟩ := trimmed.wire_cases h
  · obtain ⟨-, same⟩ := (trimmed.link e record found _).mp h
    cases same
  · obtain ⟨-, same⟩ := (trimmed.attachment e record found side _).mp h
    cases same
    exact ⟨e, side, rfl, rfl⟩

theorem link_iff_of_trimmed (trimmed : Trimmed host V F w) {f : Nat} {ends : Ends JointId}
    {origin : LinkOrigin} : w.wire? f = some ⟨ends, .link origin⟩ ↔
      ∃ e record, host.edge? e = some record ∧
        (¬ F e ∧ ¬ V record.ends.first ∧ ¬ V record.ends.second) ∧ linkSlot e = f ∧
        origin = .host e ∧
        ends = ⟨socketSlot host.order e .first, socketSlot host.order e .second⟩ := by
  constructor
  · intro h
    obtain ⟨e, record, found, rfl | ⟨side, rfl⟩⟩ := trimmed.wire_cases h
    · obtain ⟨kept, same⟩ := (trimmed.link e record found _).mp h
      cases same
      exact ⟨e, record, found, kept, rfl, rfl, rfl⟩
    · obtain ⟨-, same⟩ := (trimmed.attachment e record found side _).mp h
      cases same
  · rintro ⟨e, record, found, kept, rfl, rfl, rfl⟩
    exact (trimmed.link e record found _).mpr ⟨kept, rfl⟩

theorem ascending_hostNodes :
    ((hostNodes host batch).map (hostLayout host).node).Pairwise (· < ·) := by
  simp only [hostNodes, List.map_map, List.pairwise_map]
  refine List.Pairwise.filter _ ?_
  simp only [Graph.vertexIds, List.pairwise_map]
  exact List.pairwise_lt_range

theorem ascending_hostLinks :
    ((hostLinks host batch).map fun x => (hostLayout host).link x.origin).Pairwise (· < ·) := by
  simp only [hostLinks, List.map_map, List.pairwise_map]
  refine List.Pairwise.filter _ ?_
  simp only [Graph.edgeIds, List.pairwise_map]
  refine List.pairwise_lt_range.imp ?_
  intro a b less
  have slots : 3 * a + 2 < 3 * b + 2 := by omega
  exact slots

/-- The cut wiring realizes the host part of the blueprint. -/
theorem realizes_trimmed (consistent : host.Consistent)
    (trimmed : Trimmed host (CutsVertex batch) (CutsEdge batch) w) :
    Realizes host (ownerIn host batch)
      ⟨hostNodes host batch, HostPresent host batch, hostLinks host batch⟩ (hostLayout host) w where
  sound := trimmed.sound
  hostOrder := trimmed.hostOrder
  hostSize := trimmed.hostSize
  room := Nat.le_of_eq trimmed.joints.symm
  node_iff j n := by
    rw [node_iff_of_trimmed trimmed, mem_hostNodes_iff]
    constructor
    · rintro ⟨v, rfl, hv, kept, rfl⟩
      exact ⟨⟨v, rfl, hv, kept⟩, rfl⟩
    · rintro ⟨⟨v, rfl, hv, kept⟩, rfl⟩
      exact ⟨v, rfl, hv, kept, rfl⟩
  nodeAscending := ascending_hostNodes
  socket_iff j := by
    rw [isSocket_iff_of_trimmed trimmed]
    constructor
    · rintro ⟨e, record, side, found, kept, rfl⟩
      exact ⟨.host e side, hostPresent_iff.mpr ⟨record, found, kept⟩, rfl⟩
    · rintro ⟨⟨e, side⟩ | _, hs, rfl⟩
      · obtain ⟨record, found, kept⟩ := hostPresent_iff.mp hs
        exact ⟨e, record, side, found, kept, rfl⟩
      · cases hs
  distinct s t hs ht same := by
    cases s with
    | fresh p side => cases hs
    | host e side =>
      cases t with
      | fresh p side => cases ht
      | host e' side' =>
        obtain ⟨rfl, rfl⟩ := socketSlot_inj same
        rfl
  owned s hs := by
    cases s with
    | fresh p side => cases hs
    | host e side =>
      obtain ⟨record, found, kept⟩ := hostPresent_iff.mp hs
      exact ⟨.host (record.ends.get side),
        mem_hostNodes_iff.mpr ⟨_, rfl, consistent.contains_get found side, kept⟩,
        ownerIn_host_iff.mpr ⟨record, found, kept, rfl⟩, _,
        (trimmed.attachment e record found side _).mpr ⟨kept, rfl⟩⟩
  single e f m n s he hf := by
    obtain ⟨d, side, rfl, rfl⟩ := exists_of_attachment trimmed he
    obtain ⟨d', side', rfl, same⟩ := exists_of_attachment trimmed hf
    obtain ⟨rfl, rfl⟩ := socketSlot_inj same
    rfl
  link_iff f ends origin := by
    rw [link_iff_of_trimmed trimmed]
    constructor
    · rintro ⟨e, record, found, ⟨kept, first, second⟩, rfl, rfl, rfl⟩
      exact ⟨_, mem_hostLinks_iff.mpr ⟨e, rfl, kept, record, found, first, second⟩, rfl, rfl, rfl⟩
    · rintro ⟨x, hx, rfl, rfl, rfl⟩
      obtain ⟨e, rfl, kept, record, found, first, second⟩ := mem_hostLinks_iff.mp hx
      exact ⟨e, record, found, ⟨kept, first, second⟩, rfl, rfl, rfl⟩
  linkAscending := ascending_hostLinks
  ends x hx side := by
    obtain ⟨e, rfl, -, record, found, first, second⟩ := mem_hostLinks_iff.mp hx
    cases side with
    | first => exact hostPresent_iff.mpr ⟨record, found, first⟩
    | second => exact hostPresent_iff.mpr ⟨record, found, second⟩
  hostNode v hv := by
    obtain ⟨u, same, contained, -⟩ := mem_hostNodes_iff.mp hv
    cases same
    exact ⟨contained, rfl⟩
  createdNode p hp := by
    obtain ⟨v, same, -⟩ := mem_hostNodes_iff.mp hp
    cases same
  hostSocket e side hs := by
    obtain ⟨record, found, -⟩ := hostPresent_iff.mp hs
    exact ⟨Graph.edge?_isSome_iff.mp ⟨record, found⟩, rfl⟩
  freshSocket p side hs := by
    cases hs

end Trimmed

end Blueprint

end GraphSplice
