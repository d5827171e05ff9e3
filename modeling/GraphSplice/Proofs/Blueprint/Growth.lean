import GraphSplice.Proofs.Blueprint.Batch

/-!
The blueprint of a batch with one more application: what the application does not cut stays in its
order, and what it adds comes last.
-/

namespace GraphSplice

variable {D : Domain} {host : Host D} {done : List (Resolved D)} {r : Resolved D}

theorem cutsVertex_append_iff {v : VertexId} :
    CutsVertex (done ++ [r]) v ↔ CutsVertex done v ∨ CutsVertex [r] v := by
  simp only [CutsVertex, List.mem_append, or_and_right, exists_or]

theorem cutsEdge_append_iff {e : EdgeId} :
    CutsEdge (done ++ [r]) e ↔ CutsEdge done e ∨ CutsEdge [r] e := by
  simp only [CutsEdge, List.mem_append, or_and_right, exists_or]

namespace Blueprint

theorem remains_append_iff {e : EdgeId} :
    Remains host (done ++ [r]) e ↔ Remains host done e ∧ Remains host [r] e := by
  unfold Remains
  rw [cutsEdge_append_iff]
  constructor
  · intro remains
    obtain ⟨uncut, record, found, first, second⟩ := remains
    rw [cutsVertex_append_iff, not_or] at first second
    rw [not_or] at uncut
    exact ⟨⟨uncut.1, record, found, first.1, second.1⟩, uncut.2, record, found, first.2, second.2⟩
  · intro remains
    obtain ⟨⟨uncut, record, found, first, second⟩, uncut', record', found', first', second'⟩ :=
      remains
    rw [found] at found'
    cases found'
    refine ⟨not_or.mpr ⟨uncut, uncut'⟩, record, found, ?_, ?_⟩
    · rw [cutsVertex_append_iff]
      exact not_or.mpr ⟨first, first'⟩
    · rw [cutsVertex_append_iff]
      exact not_or.mpr ⟨second, second'⟩

theorem ownerIn_append {s : Socket} {n : NodeOrigin} (owns : ownerIn host done s = some n)
    (spared : ∀ v, n = .host v → ¬ CutsVertex [r] v) :
    ownerIn host (done ++ [r]) s = some n := by
  cases s with
  | host e side =>
    obtain ⟨record, found, uncut, rfl⟩ := ownerIn_host_iff.mp owns
    apply ownerIn_host_iff.mpr
    refine ⟨record, found, ?_, rfl⟩
    rw [cutsVertex_append_iff]
    exact not_or.mpr ⟨uncut, spared _ rfl⟩
  | fresh p side =>
    unfold ownerIn at owns ⊢
    dsimp only at owns ⊢
    cases there : done[p.application]? with
    | none =>
      rw [there] at owns
      cases owns
    | some s =>
      have inside := (List.getElem?_eq_some_iff.mp there).1
      rw [List.getElem?_append_left inside, there]
      rw [there] at owns
      exact owns

/-! ## Nodes -/

theorem added_mem_nodes {n : NodeOrigin}
    (hn : n ∈ done.zipIdx.flatMap fun x => x.1.addedNodes x.2) :
    n ∈ (of host (done ++ [r])).nodes := by
  unfold of
  dsimp only
  rw [List.zipIdx_append, List.flatMap_append]
  exact List.mem_append_right _ (List.mem_append_left _ hn)

theorem hostNodes_append : hostNodes host (done ++ [r]) =
    (hostNodes host done).filter fun n => n ∈ (of host (done ++ [r])).nodes := by
  unfold hostNodes
  rw [List.filter_map, List.filter_filter]
  congr 1
  apply List.filter_congr
  intro v hv
  have contained := Graph.mem_vertexIds.mp hv
  simp only [Function.comp, host_mem_nodes_iff, cutsVertex_append_iff, contained, true_and, not_or]
  by_cases cut : CutsVertex done v <;> simp [cut]

/-- The nodes that stay come first, then the new ones. -/
theorem nodes_append : (of host (done ++ [r])).nodes =
    ((of host done).nodes.filter fun n => n ∈ (of host (done ++ [r])).nodes) ++
      r.addedNodes done.length := by
  have old : ((done.zipIdx.flatMap fun x => x.1.addedNodes x.2).filter fun n =>
      n ∈ (of host (done ++ [r])).nodes) = done.zipIdx.flatMap fun x => x.1.addedNodes x.2 := by
    apply List.filter_eq_self.mpr
    exact fun n hn => decide_eq_true (added_mem_nodes hn)
  have split : (of host (done ++ [r])).nodes = hostNodes host (done ++ [r]) ++
      ((done.zipIdx.flatMap fun x => x.1.addedNodes x.2) ++ r.addedNodes done.length) := by
    unfold of
    dsimp only
    rw [List.zipIdx_append, List.flatMap_append]
    simp
  have front : ((of host done).nodes.filter fun n => n ∈ (of host (done ++ [r])).nodes) =
      hostNodes host (done ++ [r]) ++ done.zipIdx.flatMap fun x => x.1.addedNodes x.2 := by
    rw [show (of host done).nodes = hostNodes host done ++
      done.zipIdx.flatMap fun x => x.1.addedNodes x.2 from rfl, List.filter_append, old,
      ← hostNodes_append]
  rw [front, split, List.append_assoc]

/-! ## Links -/

/-- The link of a host edge. -/
def hostStrand (e : EdgeId) : Strand := ⟨.host e, ⟨.host e .first, .host e .second⟩⟩

theorem hostStrand_mem_links_iff {batch : List (Resolved D)} {e : EdgeId} :
    hostStrand e ∈ (of host batch).links ↔ Remains host batch e := by
  rw [mem_links_iff]
  constructor
  · intro mem
    rcases mem with ⟨d, same, remains⟩ | ⟨_, _, _, _, _, _, same⟩
    · cases same
      exact remains
    · cases congrArg Strand.origin same
  · exact fun remains => .inl ⟨e, rfl, remains⟩

theorem added_mem_links {x : Strand}
    (hx : x ∈ done.zipIdx.flatMap fun s => s.1.addedLinks host s.2) :
    x ∈ (of host (done ++ [r])).links := by
  unfold of
  dsimp only
  rw [List.zipIdx_append, List.flatMap_append]
  exact List.mem_append_right _ (List.mem_append_left _ hx)

theorem hostLinks_append : hostLinks host (done ++ [r]) =
    (hostLinks host done).filter fun x => x ∈ (of host (done ++ [r])).links := by
  unfold hostLinks
  rw [List.filter_map, List.filter_filter]
  congr 1
  apply List.filter_congr
  intro e _
  have mem : hostStrand e ∈ (of host (done ++ [r])).links ↔ Remains host (done ++ [r]) e :=
    hostStrand_mem_links_iff
  unfold hostStrand at mem
  simp only [Function.comp, mem, remains_append_iff]
  by_cases remains : Remains host done e <;> simp [remains]

/-- The links that stay come first, then the new ones. -/
theorem links_append : (of host (done ++ [r])).links =
    ((of host done).links.filter fun x => x ∈ (of host (done ++ [r])).links) ++
      r.addedLinks host done.length := by
  have old : ((done.zipIdx.flatMap fun s => s.1.addedLinks host s.2).filter fun x =>
      x ∈ (of host (done ++ [r])).links) =
        done.zipIdx.flatMap fun s => s.1.addedLinks host s.2 := by
    apply List.filter_eq_self.mpr
    exact fun x hx => decide_eq_true (added_mem_links hx)
  have split : (of host (done ++ [r])).links = hostLinks host (done ++ [r]) ++
      ((done.zipIdx.flatMap fun s => s.1.addedLinks host s.2) ++
        r.addedLinks host done.length) := by
    unfold of
    dsimp only
    rw [List.zipIdx_append, List.flatMap_append]
    simp
  have front : ((of host done).links.filter fun x => x ∈ (of host (done ++ [r])).links) =
      hostLinks host (done ++ [r]) ++ done.zipIdx.flatMap fun s => s.1.addedLinks host s.2 := by
    rw [show (of host done).links = hostLinks host done ++
      done.zipIdx.flatMap fun s => s.1.addedLinks host s.2 from rfl, List.filter_append, old,
      ← hostLinks_append]
  rw [front, split, List.append_assoc]

end Blueprint

end GraphSplice
