import GraphSplice.Proofs.Blueprint.Batch
import GraphSplice.Proofs.Blueprint.Classes
import GraphSplice.Proofs.Blueprint.Renaming
import GraphSplice.Proofs.Numbering

/-!
The blueprint of a reordered batch is that of the batch with other numbers of applications.
-/

namespace GraphSplice

variable {D : Domain} {host : Host D} {batch batch' : List (Resolved D)}

/-! ## What depends on the members only -/

section Members

variable (same : ∀ r, r ∈ batch ↔ r ∈ batch')
include same

theorem CutsVertex.congr_mem {v : VertexId} : CutsVertex batch v ↔ CutsVertex batch' v :=
  exists_congr fun r => and_congr (same r) Iff.rfl

theorem CutsEdge.congr_mem {e : EdgeId} : CutsEdge batch e ↔ CutsEdge batch' e :=
  exists_congr fun r => and_congr (same r) Iff.rfl

theorem Resolved.Stale.congr_mem {r : Resolved D} : r.Stale batch ↔ r.Stale batch' := by
  have blocked : ∀ endpoint, r.Blocked batch endpoint ↔ r.Blocked batch' endpoint := by
    intro endpoint
    cases endpoint with
    | matched i => exact exists_congr fun v => and_congr Iff.rfl (CutsVertex.congr_mem same)
    | created k => exact Iff.rfl
  exact exists_congr fun x => and_congr Iff.rfl (exists_congr fun side => blocked _)

namespace Blueprint

theorem hostNodes_congr : hostNodes host batch = hostNodes host batch' := by
  unfold hostNodes
  simp only [CutsVertex.congr_mem same]

theorem remains_congr {e : EdgeId} : Remains host batch e ↔ Remains host batch' e := by
  unfold Remains
  simp only [CutsVertex.congr_mem same, CutsEdge.congr_mem same]

theorem hostLinks_congr : hostLinks host batch = hostLinks host batch' := by
  unfold hostLinks
  simp only [remains_congr same]

end Blueprint

end Members

/-! ## Renaming -/

namespace Resolved

variable {σ : Equiv.Perm Nat} {r : Resolved D}

theorem spliced?_relabel (host : Host D) (endpoint : Endpoint) (socket : Option Nat) :
    (r.spliced? host endpoint socket).map (Socket.relabel σ) =
      r.spliced? host endpoint socket := by
  cases found : r.spliced? host endpoint socket with
  | none => rfl
  | some s =>
    cases endpoint with
    | created k => cases found
    | matched i =>
      cases socket with
      | none => cases found
      | some cut =>
        unfold spliced? at found
        simp only [Option.bind_eq_bind, Option.bind_eq_some_iff] at found
        obtain ⟨v, -, e, -, record, -, side, -, same⟩ := found
        cases same
        rfl

theorem socket_relabel (a k : Nat) (x : AddedEdge D) (side : Side) :
    (r.socket host a k x side).relabel σ = r.socket host (σ a) k x side := by
  have stays := r.spliced?_relabel host (σ := σ) (x.ends.get side) (x.sockets.get side)
  unfold socket
  cases found : r.spliced? host (x.ends.get side) (x.sockets.get side) with
  | none => rfl
  | some s =>
    rw [found] at stays
    exact Option.some.inj stays

theorem strand_relabel (a : Nat) (x : AddedEdge D × Nat) :
    (r.strand host a x).relabel σ = r.strand host (σ a) x := by
  unfold strand Strand.relabel
  simp only [Ends.map, socket_relabel]
  rfl

theorem node?_relabel (a : Nat) (endpoint : Endpoint) :
    (r.node? a endpoint).map (NodeOrigin.relabel σ) = r.node? (σ a) endpoint := by
  cases endpoint with
  | matched i =>
    unfold node?
    rw [Option.map_map]
    rfl
  | created k =>
    unfold node?
    dsimp only
    by_cases inside : k < r.rule.addedVertices.length
    · rw [if_pos inside, if_pos inside]
      rfl
    · rw [if_neg inside, if_neg inside]
      rfl

end Resolved

namespace Blueprint

variable {σ : Equiv.Perm Nat}

theorem relabel_mem_nodes (numbers : Numbers σ batch batch') {n : NodeOrigin}
    (hn : n ∈ (of host batch).nodes) : n.relabel σ ∈ (of host batch').nodes := by
  apply mem_nodes_iff.mpr
  rcases mem_nodes_iff.mp hn with ⟨v, rfl, contained, uncut⟩ | ⟨a, r, k, found, inside, rfl⟩
  · rw [CutsVertex.congr_mem numbers.mem_iff] at uncut
    exact .inl ⟨v, rfl, contained, uncut⟩
  · rw [← numbers] at found
    exact .inr ⟨σ a, r, k, found, inside, rfl⟩

theorem relabel_mem_links (numbers : Numbers σ batch batch') {x : Strand}
    (hx : x ∈ (of host batch).links) : x.relabel σ ∈ (of host batch').links := by
  apply mem_links_iff.mpr
  rcases mem_links_iff.mp hx with ⟨e, rfl, remains⟩ | ⟨a, r, k, y, found, added, rfl⟩
  · rw [remains_congr numbers.mem_iff] at remains
    exact .inl ⟨e, rfl, remains⟩
  · rw [← numbers] at found
    exact .inr ⟨σ a, r, k, y, found, added, Resolved.strand_relabel a (y, k)⟩

theorem ownerIn_relabel (numbers : Numbers σ batch batch') (s : Socket) :
    ownerIn host batch' (s.relabel σ) = (ownerIn host batch s).map (NodeOrigin.relabel σ) := by
  cases s with
  | host e side =>
    unfold ownerIn Socket.relabel
    dsimp only
    cases found : host.edge? e with
    | none => rfl
    | some record =>
      have cut := CutsVertex.congr_mem numbers.mem_iff (v := record.ends.get side)
      by_cases gone : CutsVertex batch (record.ends.get side)
      · simp [gone, cut.mp gone]
      · have gone' := mt cut.mpr gone
        simp [gone, gone', NodeOrigin.relabel]
  | fresh p side =>
    unfold ownerIn Socket.relabel
    dsimp only
    have same : batch'[(p.relabel σ).application]? = batch[p.application]? := numbers p.application
    simp only [same]
    cases found : batch[p.application]? with
    | none => rfl
    | some r =>
      cases there : r.rule.addedEdges[p.element]? with
      | none => simp [Provenance.relabel, there]
      | some x =>
        simp only [Provenance.relabel, Option.bind_eq_bind, Option.bind_some, there]
        rw [← r.node?_relabel]
        by_cases own : p.rule = r.id ∧
            r.spliced? host (x.ends.get side) (x.sockets.get side) = none
        · simp only [own, and_self, if_true]
        · simp only [own, if_false, Option.map_none]

/-- The blueprint of a reordered batch. -/
theorem renamed_of (numbers : Numbers σ batch batch') (grounded : (of host batch).Grounded host)
    (grounded' : (of host batch').Grounded host) :
    Renamed σ (of host batch) (of host batch') := by
  refine {
    nodes := ?nodes
    owner := ownerIn_relabel numbers
    links := ?links
    hostNodes := sameFront_nodes (hostNodes_congr numbers.mem_iff).symm
    hostLinks := ?hostLinks }
  case nodes =>
    intro n
    constructor
    · intro hn
      have back := relabel_mem_nodes numbers.symm hn
      rwa [NodeOrigin.relabel_symm] at back
    · exact relabel_mem_nodes numbers
  case links =>
    have injective : Function.Injective (Strand.relabel σ) :=
      Function.LeftInverse.injective (Strand.relabel_symm σ)
    apply (List.perm_ext_iff_of_nodup (List.Nodup.map injective grounded.links)
      grounded'.links).mpr
    intro x
    have back : (x.relabel σ.symm).relabel σ = x := Strand.relabel_symm σ.symm x
    rw [List.mem_map]
    constructor
    · intro mem
      obtain ⟨y, hy, same⟩ := mem
      rw [← same]
      exact relabel_mem_links numbers hy
    · exact fun hx => ⟨_, relabel_mem_links numbers.symm hx, back⟩
  case hostLinks =>
    unfold of
    dsimp only
    rw [← hostLinks_congr numbers.mem_iff]
    apply SameFront.of_append
    · intro x hx
      obtain ⟨e, rfl, -⟩ := mem_hostLinks_iff.mp hx
      rfl
    · exact fun x hx => origin_isCreated_of_added hx
    · exact fun x hx => origin_isCreated_of_added hx

end Blueprint

end GraphSplice
