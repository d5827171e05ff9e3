import GraphSplice.Proofs.Completeness
import GraphSplice.Proofs.Dungeon.Callbacks
import GraphSplice.Proofs.Dungeon.FloorPlan
import GraphSplice.Proofs.Dungeon.Rules

/-!
What the rules of the dungeon do to a floor plan: the corridor rule puts a room into a doorway, the
cycle rule does so too and adds a detour, and the branch rule hangs a room off one that is not the
final room. A batch of applications that keep apart does one of this after the other.
-/

namespace GraphSplice.Dungeon

variable {host : Host dungeon} {batch : List (Resolved dungeon)} {r : Resolved dungeon}

def growthRules : List (Rule dungeon) := [corridorRule, cycleRule, branchRule]

/-- One of the rules at an occurrence of distinct elements that its predicates accept. -/
structure Grows (host : Host dungeon) (r : Resolved dungeon) : Prop where
  rule : r.rule ∈ growthRules
  valid : r.Valid host
  distinct : r.Distinct
  passes : ∀ (i : Nat) (v : VertexId), r.occurrence.vertices[i]? = some v →
    r.rule.PassesVertex host i v

theorem forall_growthRules {P : Rule dungeon → Prop} (corridor : P corridorRule)
    (cycle : P cycleRule) (branch : P branchRule) : ∀ rule ∈ growthRules, P rule := by
  simp [growthRules, corridor, cycle, branch]

/-! ## What the rules have in common -/

theorem tallies_of_mem : ∀ rule ∈ growthRules, Tallies rule := by
  apply forall_growthRules <;> constructor <;>
    simp [corridorRule, cycleRule, branchRule]

theorem splicesApart_of_mem : ∀ rule ∈ growthRules, rule.SplicesApart := by
  apply forall_growthRules <;> decide

theorem kept_of_mem : ∀ rule ∈ growthRules, ∀ x ∈ rule.vertices, x.fate.isCut = false := by
  apply forall_growthRules <;> decide

theorem pair_of_mem : ∀ rule ∈ growthRules, rule.vertices.length = 2 ∧
    rule.edges.map (·.ends) = [⟨0, 1⟩] := by
  apply forall_growthRules <;> exact ⟨rfl, rfl⟩

theorem oblivious_of_mem : ∀ rule ∈ growthRules, rule.Oblivious := fun _ _ =>
  ⟨fun _ _ _ _ _ _ _ _ => rfl, fun _ _ _ _ _ _ _ _ => rfl, fun _ _ _ _ _ _ => rfl⟩

namespace Grows

/-- The two rooms and the doorway between them. -/
theorem exists_doorway (grows : Grows host r) : ∃ u v e record,
    r.occurrence.vertices = [u, v] ∧ r.occurrence.edges = [e] ∧ host.Contains u ∧
      host.Contains v ∧ u ≠ v ∧ host.edge? e = some record ∧ record.ends.Joins u v := by
  obtain ⟨two, single⟩ := pair_of_mem r.rule grows.rule
  obtain ⟨edge, edges, ends⟩ : ∃ edge, r.rule.edges = [edge] ∧ edge.ends = ⟨0, 1⟩ := by
    obtain ⟨edge, rest, same, ends, none⟩ := List.map_eq_cons_iff.mp single
    rw [List.map_eq_nil_iff.mp none] at same
    exact ⟨edge, same, ends⟩
  obtain ⟨u, v, vertices⟩ := List.length_eq_two.mp (grows.valid.arity.trans two)
  obtain ⟨e, bound⟩ := List.length_eq_one_iff.mp
    (grows.valid.edgeArity.trans (congrArg List.length edges))
  obtain ⟨record, bounds, found, at', joins⟩ :=
    grows.valid.edges 0 edge e (by rw [edges]; rfl) (by rw [bound]; rfl)
  rw [vertices, Rule.boundEnds?, ends] at at'
  cases at'
  have distinct := grows.distinct.1
  rw [vertices] at distinct
  refine ⟨u, v, e, record, vertices, bound, ?_, ?_, ?_, found, joins⟩
  · exact grows.valid.vertices u (by simp [vertices])
  · exact grows.valid.vertices v (by simp [vertices])
  · simpa using distinct

end Grows

/-! ## Floor plans -/

/-- Whatever was built before, the application turns a floor plan into a floor plan. -/
def Extends (host : Host dungeon) (r : Resolved dungeon) : Prop :=
  ∀ (n : Nat) (rest : List (Ends VertexId)), host.order ≤ n →
    IsFloorPlan n (rest ++ r.cutEnds host) →
    IsFloorPlan (n + r.rule.addedVertices.length) (rest ++ r.addedEnds n)

theorem ne_final_of_isNotFinal (final : roomAt? host ⟨1⟩ = some ⟨.final, roomSize⟩) {v : VertexId}
    (h : isNotFinal host v = true) : v ≠ ⟨1⟩ := by
  rintro rfl
  simp [isNotFinal, final] at h

theorem isNotFinal_of_canBranch {v : VertexId} (h : canBranch host v = true) :
    isNotFinal host v = true := (Bool.and_eq_true_iff.mp h).1

section Rules

variable {u v : VertexId} {e : EdgeId} {record : Edge Doorway}

theorem extends_corridor (rule : r.rule = corridorRule) (vertices : r.occurrence.vertices = [u, v])
    (edges : r.occurrence.edges = [e]) (found : host.edge? e = some record)
    (joins : record.ends.Joins u v) : Extends host r := by
  intro n rest _ plan
  have cut : r.cutEnds host = [record.ends] := by
    simp [Resolved.cutEnds, Resolved.cutEdges, rule, corridorRule, edges, Graph.ends?, found,
      Fate.isCut]
  have added : r.addedEnds n = [⟨u, ⟨n⟩⟩, ⟨v, ⟨n⟩⟩] := by
    simp [Resolved.addedEnds, Resolved.vertexOf, Ends.map, rule, corridorRule, vertices]
  rw [cut] at plan
  rw [added, rule]
  exact .of_reverse ((plan.perm List.perm_append_comm).divide joins)

theorem extends_cycle (rule : r.rule = cycleRule) (vertices : r.occurrence.vertices = [u, v])
    (edges : r.occurrence.edges = [e]) (found : host.edge? e = some record)
    (joins : record.ends.Joins u v) (hu : host.Contains u) (hv : host.Contains v)
    (distinct : u ≠ v) (first : u ≠ ⟨1⟩) (second : v ≠ ⟨1⟩) : Extends host r := by
  intro n rest bound plan
  have cut : r.cutEnds host = [record.ends] := by
    simp [Resolved.cutEnds, Resolved.cutEdges, rule, cycleRule, edges, Graph.ends?, found,
      Fate.isCut]
  have added : r.addedEnds n =
      [⟨u, ⟨n⟩⟩, ⟨v, ⟨n⟩⟩, ⟨u, ⟨n + 1⟩⟩, ⟨v, ⟨n + 1⟩⟩] := by
    simp [Resolved.addedEnds, Resolved.vertexOf, Ends.map, rule, cycleRule, vertices]
  rw [cut] at plan
  rw [added, rule]
  have inside {w : VertexId} (contained : host.Contains w) : w.slot < n + 1 :=
    Nat.lt_succ_of_lt (Nat.lt_of_lt_of_le contained bound)
  exact .of_reverse (((plan.perm List.perm_append_comm).divide joins).detour (inside hu)
    (inside hv) distinct first second)

theorem extends_branch (rule : r.rule = branchRule) (vertices : r.occurrence.vertices = [u, v])
    (edges : r.occurrence.edges = [e]) (hu : host.Contains u) (spared : u ≠ ⟨1⟩) :
    Extends host r := by
  intro n rest bound plan
  have cut : r.cutEnds host = [] := by
    simp [Resolved.cutEnds, Resolved.cutEdges, rule, branchRule, edges, Fate.isCut]
  have added : r.addedEnds n = [⟨u, ⟨n⟩⟩] := by
    simp [Resolved.addedEnds, Resolved.vertexOf, Ends.map, rule, branchRule, vertices]
  rw [cut, List.append_nil] at plan
  rw [added, rule]
  exact .of_reverse (plan.hang (Nat.lt_of_lt_of_le hu bound) spared)

end Rules

theorem Grows.extends (grows : Grows host r)
    (final : roomAt? host ⟨1⟩ = some ⟨.final, roomSize⟩) : Extends host r := by
  obtain ⟨u, v, e, record, vertices, edges, hu, hv, distinct, found, joins⟩ := grows.exists_doorway
  have passes := grows.passes
  have first : r.occurrence.vertices[0]? = some u := by rw [vertices]; rfl
  have second : r.occurrence.vertices[1]? = some v := by rw [vertices]; rfl
  have member := grows.rule
  simp only [growthRules, List.mem_cons, List.not_mem_nil, or_false] at member
  obtain rule | rule | rule := member
  · exact extends_corridor rule vertices edges found joins
  · rw [rule] at passes
    have branches := passes 0 u first _ rfl _ rfl ()
    have branches' := passes 1 v second _ rfl _ rfl ()
    exact extends_cycle rule vertices edges found joins hu hv distinct
      (ne_final_of_isNotFinal final (isNotFinal_of_canBranch branches))
      (ne_final_of_isNotFinal final (isNotFinal_of_canBranch branches'))
  · rw [rule] at passes
    exact extends_branch rule vertices edges hu
      (ne_final_of_isNotFinal final (passes 0 u first _ rfl _ rfl ()))

/-- A batch of applications does one after the other. -/
theorem floorPlan_of_batch : ∀ (batch : List (Resolved dungeon)), (∀ r ∈ batch, Extends host r) →
    ∀ (n : Nat) (rest : List (Ends VertexId)), host.order ≤ n →
      IsFloorPlan n (rest ++ batch.flatMap (Resolved.cutEnds host)) →
      IsFloorPlan (n + addedOrder batch) (rest ++ addedEndsFrom n batch) := by
  intro batch
  induction batch with
  | nil => exact fun _ _ _ _ plan => plan
  | cons r batch ih =>
    intro extends' n rest bound plan
    have others : (rest ++ (r.cutEnds host ++ batch.flatMap (Resolved.cutEnds host))).Perm
        ((rest ++ batch.flatMap (Resolved.cutEnds host)) ++ r.cutEnds host) := by
      rw [List.append_assoc]
      exact .append_left rest List.perm_append_comm
    have built := extends' r List.mem_cons_self n _ bound (plan.perm others)
    have moved : (rest ++ batch.flatMap (Resolved.cutEnds host) ++ r.addedEnds n).Perm
        (rest ++ r.addedEnds n ++ batch.flatMap (Resolved.cutEnds host)) := by
      rw [List.append_assoc, List.append_assoc]
      exact .append_left rest List.perm_append_comm
    have all := ih (fun s hs => extends' s (List.mem_cons_of_mem r hs)) _ _
      (Nat.le_add_right_of_le bound) (built.perm moved)
    rw [addedEndsFrom, ← List.append_assoc]
    have count : n + addedOrder (r :: batch) =
        n + r.rule.addedVertices.length + addedOrder batch := by
      simp [addedOrder, Nat.add_assoc]
    rw [count]
    exact all

end GraphSplice.Dungeon
