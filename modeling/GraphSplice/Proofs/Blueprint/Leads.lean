import GraphSplice.Proofs.Blueprint.Assembly
import GraphSplice.Proofs.Blueprint.Transport
import GraphSplice.Proofs.Lists

/-!
The nodes of a settled wiring are the leads of the blueprint, in order, and the vertex of a socket
is found at the lead of its owner.
-/

namespace GraphSplice

open Wiring

namespace Assembly

theorem nodeItem?_eq_some_iff {x : JointId × Joint} {y : JointId × NodeOrigin} :
    nodeItem? x = some y ↔ y.1 = x.1 ∧ x.2.kind = .node y.2 := by
  obtain ⟨j, ⟨kind, incident⟩⟩ := x
  obtain ⟨i, n⟩ := y
  cases kind with
  | node origin => simp [nodeItem?, eq_comm]
  | socket origin => simp [nodeItem?]

theorem mem_nodeItems_iff {w : Wiring} {j : JointId} {n : NodeOrigin} :
    (j, n) ∈ w.liveJoints.filterMap nodeItem? ↔ w.kind? j = some (.node n) := by
  simp only [List.mem_filterMap, nodeItem?_eq_some_iff, kind?, Option.map_eq_some_iff]
  constructor
  · rintro ⟨⟨i, joint⟩, mem, rfl, kind⟩
    exact ⟨joint, mem_live_iff.mp mem, kind⟩
  · rintro ⟨joint, found, kind⟩
    exact ⟨(j, joint), mem_live_iff.mpr found, rfl, kind⟩

end Assembly

namespace Realizes

open Assembly Blueprint

variable {N E : Type} {host : Graph N E} {b : Blueprint} {L : Layout} {w w' : Wiring}
  {p q : Nat → Nat}

theorem leads_iff (r : Realizes host b.owner b.outline L w) (balanced : ¬ b.Odd)
    (settled : Settled w (ownerAt b L) p q w') {n : NodeOrigin} (hn : n ∈ b.nodes) :
    b.Leads n ↔ q (L.node n) = L.node n := by
  have equivalence := Relation.EqvGen.is_equivalence (w.Touching (ownerAt b L))
  have order : ∀ m ∈ b.nodes, b.nodes.idxOf n ≤ b.nodes.idxOf m ↔ L.node n ≤ L.node m :=
    fun m hm => idxOf_le_idxOf_iff L.node r.nodeAscending hn hm
  constructor
  · intro leads
    have related := settled.leastNode.related (L.node n)
    rcases r.merged_of_eqvGen balanced related with same | ⟨n', hn', m, hm, merged, first, second⟩
    · exact same.symm
    · obtain rfl := r.node_inj hn' hn first
      have below := (order m hm).mp (leads m hm merged.symm)
      rw [second] at below
      exact Nat.le_antisymm (settled.leastNode.le equivalence _) below
  · intro fixed m hm merged
    rw [order m hm, ← fixed]
    exact settled.leastNode.least _ _ ((r.merged_iff balanced hn hm).mpr merged.symm)

theorem mem_leads_iff (r : Realizes host b.owner b.outline L w) (balanced : ¬ b.Odd)
    (settled : Settled w (ownerAt b L) p q w') {n : NodeOrigin} :
    n ∈ b.leads ↔ n ∈ b.nodes ∧ q (L.node n) = L.node n := by
  simp only [leads, List.mem_filter, decide_eq_true_eq]
  exact and_congr_right fun hn => r.leads_iff balanced settled hn

/-- Every node is merged with one lead. -/
theorem exists_lead (r : Realizes host b.owner b.outline L w) (balanced : ¬ b.Odd)
    (settled : Settled w (ownerAt b L) p q w') {n : NodeOrigin} (hn : n ∈ b.nodes) :
    ∃ m ∈ b.leads, b.Merged m n ∧ L.node m = q (L.node n) := by
  have equivalence := Relation.EqvGen.is_equivalence (w.Touching (ownerAt b L))
  have idem := settled.leastNode.idem equivalence (L.node n)
  have related := settled.leastNode.related (L.node n)
  rcases r.merged_of_eqvGen balanced related with same | ⟨n', hn', m, hm, merged, first, second⟩
  · exact ⟨n, (r.mem_leads_iff balanced settled).mpr ⟨hn, same.symm⟩, .refl n, same⟩
  · obtain rfl := r.node_inj hn' hn first
    refine ⟨m, (r.mem_leads_iff balanced settled).mpr ⟨hm, ?_⟩, merged.symm, second⟩
    rw [second, idem]

/-- A lead is merged with the owner of a socket exactly if it took the place of the owner. -/
theorem merged_owner_iff (r : Realizes host b.owner b.outline L w) (balanced : ¬ b.Odd)
    (settled : Settled w (ownerAt b L) p q w') {s : Socket} (hs : (b.owner s).isSome = true)
    {m : NodeOrigin} (hm : m ∈ b.leads) :
    (∃ n, b.owner s = some n ∧ b.Merged m n) ↔ L.node m = q (ownerAt b L (L.socket s)) := by
  have equivalence := Relation.EqvGen.is_equivalence (w.Touching (ownerAt b L))
  obtain ⟨inside, fixed⟩ := (r.mem_leads_iff balanced settled).mp hm
  obtain ⟨n, owns⟩ := Option.isSome_iff_exists.mp hs
  have hn := (r.mem_nodes owns).1
  rw [r.ownerAt_socket owns]
  constructor
  · rintro ⟨n', owns', merged⟩
    rw [owns] at owns'
    cases owns'
    rw [← fixed]
    exact (settled.leastNode.eq_iff equivalence).mpr ((r.merged_iff balanced inside hn).mpr merged)
  · intro same
    refine ⟨n, owns, (r.merged_iff balanced inside hn).mp ?_⟩
    apply (settled.leastNode.eq_iff equivalence).mp
    rw [fixed, same]

/-- Sockets at even distance have owners that are merged. -/
theorem owner_target (r : Realizes host b.owner b.outline L w)
    (settled : Settled w (ownerAt b L) p q w') {s : Socket} (hs : (b.owner s).isSome = true) :
    q (ownerAt b L (p (L.socket s))) = q (ownerAt b L (L.socket s)) := by
  have equivalence := Relation.EqvGen.is_equivalence (w.Touching (ownerAt b L))
  apply (settled.leastNode.eq_iff equivalence).mpr
  apply Relation.EqvGen.rel
  refine ⟨_, _, isSocket_target r.sound settled.leastSocket (r.isSocket hs), r.isSocket hs, rfl, rfl,
    (Wiring.beside_equivalence w).symm (settled.leastSocket.related _)⟩

/-- The nodes that are left are the leads. -/
theorem nodeItems_eq (r : Realizes host b.owner b.outline L w) (balanced : ¬ b.Odd)
    (settled : Settled w (ownerAt b L) p q w') :
    w'.liveJoints.filterMap Assembly.nodeItem? = b.leads.map fun n => (L.node n, n) := by
  apply eq_of_ascending (fun x : JointId × NodeOrigin => x.1)
  · rw [List.pairwise_filterMap]
    apply (live_ascending w'.joints).imp
    intro x y less m hm n hn
    rw [(nodeItem?_eq_some_iff.mp hm).1, (nodeItem?_eq_some_iff.mp hn).1]
    exact less
  · rw [List.pairwise_map]
    have ascending := r.nodeAscending
    rw [List.pairwise_map] at ascending
    exact ascending.sublist List.filter_sublist
  · rintro ⟨j, n⟩
    rw [mem_nodeItems_iff, settled.node, r.node_iff, List.mem_map]
    constructor
    · rintro ⟨⟨hn, rfl⟩, fixed⟩
      exact ⟨n, (r.mem_leads_iff balanced settled).mpr ⟨hn, fixed⟩, rfl⟩
    · rintro ⟨m, hm, same⟩
      cases same
      obtain ⟨inside, fixed⟩ := (r.mem_leads_iff balanced settled).mp hm
      exact ⟨⟨inside, rfl⟩, fixed⟩

/-! ## Vertices -/

/-- The vertex made of the node at a joint. -/
noncomputable def vertexOfNode (b : Blueprint) (L : Layout) (j : Nat) : VertexId :=
  ⟨b.leads.findIdx fun m => L.node m = j⟩

theorem vertexOfNode_eq (r : Realizes host b.owner b.outline L w) (balanced : ¬ b.Odd)
    (settled : Settled w (ownerAt b L) p q w') {s : Socket} (hs : (b.owner s).isSome = true) :
    vertexOfNode b L (q (ownerAt b L (L.socket s))) = b.vertexAt s := by
  unfold vertexOfNode vertexAt
  congr 1
  apply findIdx_congr
  intro m hm
  simp only [decide_eq_decide]
  exact (r.merged_owner_iff balanced settled hs hm).symm

/-- The vertex of a socket is that of the lead of its owner. -/
theorem exists_lead_of_socket (r : Realizes host b.owner b.outline L w) (balanced : ¬ b.Odd)
    (settled : Settled w (ownerAt b L) p q w') {s : Socket} (hs : (b.owner s).isSome = true) :
    ∃ m ∈ b.leads, L.node m = q (ownerAt b L (L.socket s)) := by
  obtain ⟨n, owns⟩ := Option.isSome_iff_exists.mp hs
  rw [r.ownerAt_socket owns]
  obtain ⟨m, hm, -, place⟩ := r.exists_lead balanced settled (r.mem_nodes owns).1
  exact ⟨m, hm, place⟩

theorem vertexAt_eq_iff (r : Realizes host b.owner b.outline L w) (balanced : ¬ b.Odd)
    (settled : Settled w (ownerAt b L) p q w') {s t : Socket} (hs : (b.owner s).isSome = true)
    (ht : (b.owner t).isSome = true) : b.vertexAt s = b.vertexAt t ↔
      q (ownerAt b L (L.socket s)) = q (ownerAt b L (L.socket t)) := by
  rw [← r.vertexOfNode_eq balanced settled hs, ← r.vertexOfNode_eq balanced settled ht]
  constructor
  · intro same
    exact eq_of_findIdx_eq (r.exists_lead_of_socket balanced settled hs)
      (r.exists_lead_of_socket balanced settled ht) (congrArg Handle.slot same)
  · exact fun same => by rw [same]

theorem vertexAt_lt (r : Realizes host b.owner b.outline L w) (balanced : ¬ b.Odd)
    (settled : Settled w (ownerAt b L) p q w') {s : Socket} (hs : (b.owner s).isSome = true) :
    (b.vertexAt s).slot < b.leads.length := by
  rw [← r.vertexOfNode_eq balanced settled hs]
  obtain ⟨m, hm, place⟩ := r.exists_lead_of_socket balanced settled hs
  exact List.findIdx_lt_length_of_exists ⟨m, hm, by simpa using place⟩

end Realizes

end GraphSplice
