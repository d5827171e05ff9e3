import GraphSplice.Proofs.Binding
import GraphSplice.Proofs.Numbering
import GraphSplice.Proofs.Rule.Symmetries

/-!
What a symmetry does with the elements of its rule. It takes matched edges to matched edges of the
same fate, as many of them between the images of two vertices as between the vertices, and added
edges to added edges with the sockets they are spliced into.
-/

namespace GraphSplice

open Symmetry

variable {D : Domain}

theorem Fate.isCut_eq {Removal : Type} (fate : Fate Removal) :
    fate.isCut = decide (fate.role = .cut) := by
  rw [Bool.eq_iff_iff, isCut_iff, decide_eq_true_eq]

theorem Symmetry.Arrangement.Permutes.exists_perm {n : Nat} {sigma : Arrangement}
    (h : sigma.Permutes n) : ∃ p : Equiv.Perm Nat, ⇑p = sigma.apply :=
  ⟨.ofBijective sigma.apply ⟨h.apply_injective, h.exists_apply⟩, rfl⟩

/-- The second edge has the fate of the first one and joins the images of its ends. -/
def MatchedEdge.MapsTo (sigma : Arrangement) (edge edge' : MatchedEdge D) : Prop :=
  edge'.fate.isCut = edge.fate.isCut ∧
    edge'.ends.Joins (sigma.apply edge.ends.first) (sigma.apply edge.ends.second)

/-- The second edge joins the images of the ends of the first one, and is spliced there into the
images of its sockets. -/
def AddedEdge.MapsTo (sigma tau rho : Arrangement) (edge edge' : AddedEdge D) : Prop :=
  (edge'.ends.zip edge'.sockets).Joins
    (Endpoint.map sigma tau edge.ends.first, edge.sockets.first.map rho.apply)
    (Endpoint.map sigma tau edge.ends.second, edge.sockets.second.map rho.apply)

namespace Rule

/-- Permutations of the matched vertices, the added vertices and the matched edges that map the rule
onto itself. -/
structure Automorphism (r : Rule D) (sigma tau rho : Arrangement) : Prop where
  vertices : sigma.Permutes r.vertices.length
  addedVertices : tau.Permutes r.addedVertices.length
  edges : rho.Permutes r.edges.length
  fate : ∀ i : Nat, (r.vertices[sigma.apply i]?).map (·.fate.isCut) =
    (r.vertices[i]?).map (·.fate.isCut)
  edge : ∀ (j : Nat) (edge : MatchedEdge D), r.edges[j]? = some edge →
    ∃ edge', r.edges[rho.apply j]? = some edge' ∧ edge.MapsTo sigma edge'
  alongside : ∀ edge ∈ r.edges, ∀ edge' : MatchedEdge D, edge.MapsTo sigma edge' →
    edge'.alongside r.edges = edge.alongside r.edges
  added : ∃ kappa : Equiv.Perm Nat,
    (∀ k, kappa k < r.addedEdges.length ↔ k < r.addedEdges.length) ∧
    ∀ (k : Nat) (edge : AddedEdge D), r.addedEdges[k]? = some edge →
      ∃ edge', r.addedEdges[kappa k]? = some edge' ∧ edge.MapsTo sigma tau rho edge'

variable {r : Rule D} {sigma tau rho : Arrangement}

theorem length_signatures (a b : Nat) :
    ((sketch r.vertices r.edges r.addedVertices r.addedEdges).signatures a b).length =
      r.edges.countP fun edge => edge.ends.Joins a b := by
  simp [Sketch.signatures, sketch, List.filter_map, List.countP_eq_length_filter, Function.comp_def]

section

variable (h : (sketch r.vertices r.edges r.addedVertices r.addedEdges).Automorphism sigma tau rho)
include h

theorem fate_of_automorphism (i : Nat) : (r.vertices[sigma.apply i]?).map (·.fate.isCut) =
    (r.vertices[i]?).map (·.fate.isCut) := by
  have same := congrArg (Option.map fun x : VertexSketch => decide (x.role = .cut)) (h.vertices i)
  simpa only [sketch, List.getElem?_map, Option.map_map, Function.comp_def, ← Fate.isCut_eq]
    using same

theorem edge_of_automorphism {j : Nat} {edge : MatchedEdge D} (found : r.edges[j]? = some edge) :
    ∃ edge', r.edges[rho.apply j]? = some edge' ∧ edge.MapsTo sigma edge' := by
  have sketched : (sketch r.vertices r.edges r.addedVertices r.addedEdges).edges[j]? =
      some ⟨edge.fate.role, edge.tag, edge.ends⟩ := by
    simp [sketch, found]
  obtain ⟨_, there, ⟨⟨role, -⟩, joins⟩⟩ := h.pairs.mapsTo j _ sketched
  simp only [sketch, List.getElem?_map, Option.map_eq_some_iff] at there
  obtain ⟨edge', there, rfl⟩ := there
  refine ⟨edge', there, ?_, joins⟩
  rw [Fate.isCut_eq, Fate.isCut_eq]
  exact congrArg (fun x => decide (x = Role.cut)) role

theorem alongside_of_automorphism {edge edge' : MatchedEdge D}
    (distinct : edge.ends.first ≠ edge.ends.second)
    (inside : ∀ side, edge.ends.get side < r.vertices.length) (maps : edge.MapsTo sigma edge') :
    edge'.alongside r.edges = edge.alongside r.edges := by
  have matched (side : Side) : edge.ends.get side <
      (sketch r.vertices r.edges r.addedVertices r.addedEdges).vertices.length := by
    simpa [sketch] using inside side
  have between := (h.between edge.ends.first edge.ends.second (matched .first) (matched .second)
    distinct).length_eq
  rw [length_signatures, length_signatures] at between
  simp only [MatchedEdge.alongside, Ends.joins_congr maps.2]
  exact between.symm

theorem added_of_automorphism : ∃ kappa : Equiv.Perm Nat,
    (∀ k, kappa k < r.addedEdges.length ↔ k < r.addedEdges.length) ∧
    ∀ (k : Nat) (edge : AddedEdge D), r.addedEdges[k]? = some edge →
      ∃ edge', r.addedEdges[kappa k]? = some edge' ∧ edge.MapsTo sigma tau rho edge' := by
  obtain ⟨kappa, numbers⟩ := exists_numbers (Sketch.carries_iff.mp h.carries)
  simp only [Numbers, sketch, List.map_map, List.getElem?_map] at numbers
  refine ⟨kappa, fun k => ?_, fun k edge found => ?_⟩
  · have same := congrArg Option.isSome (numbers k)
    rw [Option.isSome_map, Option.isSome_map, Bool.eq_iff_iff] at same
    simpa only [isSome_getElem?] using same
  · have image := numbers k
    rw [found, Option.map_some, Option.map_eq_some_iff] at image
    obtain ⟨edge', there, alike⟩ := image
    exact ⟨edge', there, (AddedSketch.unordered_eq_iff.mp alike).2⟩

end

/-- Every symmetry in the list of a rule maps the rule onto itself. -/
theorem exists_automorphism (wellFormed : r.WellFormed) (symmetric : sigma ∈ r.symmetries) :
    ∃ tau rho, r.Automorphism sigma tau rho := by
  rw [wellFormed.symmetries] at symmetric
  obtain ⟨tau, rho, h⟩ := Sketch.mem_symmetries_iff.mp symmetric
  refine ⟨tau, rho, ?_, ?_, ?_, fate_of_automorphism h, fun _ _ => edge_of_automorphism h, ?_,
    added_of_automorphism h⟩
  · simpa [sketch] using h.permutes
  · simpa [sketch] using h.permutesAdded
  · simpa [sketch] using h.pairs.permutes
  · intro edge hedge edge' maps
    obtain ⟨distinct, inside⟩ := wellFormed.matched edge hedge
    exact alongside_of_automorphism h distinct inside maps

theorem Automorphism.edgeFate (h : r.Automorphism sigma tau rho) (j : Nat) :
    (r.edges[rho.apply j]?).map (·.fate.isCut) = (r.edges[j]?).map (·.fate.isCut) := by
  cases found : r.edges[j]? with
  | none =>
    rw [h.edges.apply_of_le (List.getElem?_eq_none_iff.mp found), found]
  | some edge =>
    obtain ⟨edge', there, maps⟩ := h.edge j edge found
    rw [there]
    exact congrArg some maps.1

end Rule

end GraphSplice
