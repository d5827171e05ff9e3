import GraphSplice.Dungeon
import GraphSplice.Proofs.Rule.Compilation

/-!
The rules that register in a dungeon.
-/

namespace GraphSplice.Dungeon

/-! ## Declarations -/

def corridorDeclarations : List (Declaration dungeon) :=
  [.named "corridor-room", .keepVertex 0, .keepVertex 0, .checkVertex 0 (vertexCheck isPlaced),
    .checkVertex 1 (vertexCheck isPlaced), .cutEdge 0 1 0, .checkEdge 0 (edgeCheck isDoorway),
    .onRemoveEdge 0 countRemovedDoorway, .addVertex 0, .onCreateVertex 2 createRoom,
    .addEdge 0 2 (some 0) none 0, .addEdge 1 2 (some 0) none 0, .onCreateEdge 1 createDoorway,
    .onCreateEdge 2 createDoorway]

def cycleDeclarations : List (Declaration dungeon) :=
  [.named "cycle-room", .keepVertex 1, .keepVertex 1, .checkVertex 0 (vertexCheck canBranch),
    .checkVertex 1 (vertexCheck canBranch), .cutEdge 0 1 0, .checkEdge 0 (edgeCheck isDoorway),
    .onRemoveEdge 0 countRemovedDoorway,
    .addVertex 0, .onCreateVertex 2 createRoom,
    .addEdge 0 2 none none 0, .onCreateEdge 1 createDoorway,
    .addEdge 1 2 none none 0, .onCreateEdge 2 createDoorway,
    .addVertex 0, .onCreateVertex 3 createRoom,
    .addEdge 0 3 none none 0, .onCreateEdge 3 createDoorway,
    .addEdge 1 3 none none 0, .onCreateEdge 4 createDoorway]

def branchDeclarations : List (Declaration dungeon) :=
  [.named "branch-room", .keepVertex 2, .keepVertex 0, .checkVertex 0 (vertexCheck isNotFinal),
    .keepEdge 0 1 0, .checkEdge 0 (edgeCheck isDoorway), .addVertex 0, .onCreateVertex 2 createRoom,
    .addEdge 0 2 none none 0, .onCreateEdge 1 createDoorway]

theorem corridor_eq : corridor = .ok (Draft.empty.declareAll corridorDeclarations) := rfl

set_option maxRecDepth 2000 in
theorem cycle_eq : cycle = .ok (Draft.empty.declareAll cycleDeclarations) := rfl

theorem branch_eq : branch = .ok (Draft.empty.declareAll branchDeclarations) := rfl

/-! ## Rules -/

def corridorRule : Rule dungeon where
  id := ⟨0⟩
  name := some "corridor-room"
  vertices := [⟨0, some (vertexCheck isPlaced), .kept⟩, ⟨0, some (vertexCheck isPlaced), .kept⟩]
  edges := [⟨0, ⟨0, 1⟩, some (edgeCheck isDoorway), .cut (some countRemovedDoorway)⟩]
  addedVertices := [⟨0, some createRoom⟩]
  addedEdges := [⟨0, ⟨.matched 0, .created 0⟩, ⟨some 0, none⟩, some createDoorway⟩,
    ⟨0, ⟨.matched 1, .created 0⟩, ⟨some 0, none⟩, some createDoorway⟩]
  symmetries := [[0, 1], [1, 0]]
  accepts := none

def cycleRule : Rule dungeon where
  id := ⟨1⟩
  name := some "cycle-room"
  vertices := [⟨1, some (vertexCheck canBranch), .kept⟩, ⟨1, some (vertexCheck canBranch), .kept⟩]
  edges := [⟨0, ⟨0, 1⟩, some (edgeCheck isDoorway), .cut (some countRemovedDoorway)⟩]
  addedVertices := [⟨0, some createRoom⟩, ⟨0, some createRoom⟩]
  addedEdges := [⟨0, ⟨.matched 0, .created 0⟩, ⟨none, none⟩, some createDoorway⟩,
    ⟨0, ⟨.matched 1, .created 0⟩, ⟨none, none⟩, some createDoorway⟩,
    ⟨0, ⟨.matched 0, .created 1⟩, ⟨none, none⟩, some createDoorway⟩,
    ⟨0, ⟨.matched 1, .created 1⟩, ⟨none, none⟩, some createDoorway⟩]
  symmetries := [[0, 1], [1, 0]]
  accepts := none

def branchRule : Rule dungeon where
  id := ⟨2⟩
  name := some "branch-room"
  vertices := [⟨2, some (vertexCheck isNotFinal), .kept⟩, ⟨0, none, .kept⟩]
  edges := [⟨0, ⟨0, 1⟩, some (edgeCheck isDoorway), .kept⟩]
  addedVertices := [⟨0, some createRoom⟩]
  addedEdges := [⟨0, ⟨.matched 0, .created 0⟩, ⟨none, none⟩, some createDoorway⟩]
  symmetries := [[0, 1]]
  accepts := none

theorem compile_corridor :
    (Draft.empty.declareAll corridorDeclarations).compile ⟨0⟩ none = .ok corridorRule := rfl

set_option maxRecDepth 2000 in
theorem compile_cycle :
    (Draft.empty.declareAll cycleDeclarations).compile ⟨1⟩ none = .ok cycleRule := rfl

theorem compile_branch :
    (Draft.empty.declareAll branchDeclarations).compile ⟨2⟩ none = .ok branchRule := rfl

/-! ## Registration -/

/-- Registration of a draft that compiles. -/
theorem Progress.add_eq {p : Progress} {draft : Except DraftError (Draft dungeon)}
    {declarations : List (Declaration dungeon)} {rule : Rule dungeon}
    (drafted : draft = .ok (Draft.empty.declareAll declarations))
    (compiled : (Draft.empty.declareAll declarations).compile p.grammar.nextRule none = .ok rule) :
    ∃ p', p.add draft = .ok p' ∧ p'.ids = p.ids ++ [rule.id] ∧
      p'.grammar.rules = p.grammar.rules.push rule ∧ (p.grammar.Grown → p'.grammar.Grown) := by
  subst drafted
  have added : p.grammar.add (Draft.empty.declareAll declarations) none =
      ⟨(p.grammar.register rule).1, .ok rule.id, (p.grammar.register rule).2⟩ := by
    unfold Grammar.add
    rw [compiled]
  refine ⟨⟨_, p.ids ++ [rule.id], p.events ++ (p.grammar.register rule).2⟩, ?_, rfl, ?_,
    fun grown => .add declarations none grown⟩
  · simp only [Progress.add, bind, Except.bind, added]
    rfl
  · rw [added]
    rfl

/-- The three rules are registered under their ids. -/
structure Progress.Ready (p : Progress) : Prop where
  ids : p.ids = [⟨0⟩, ⟨1⟩, ⟨2⟩]
  rules : p.grammar.rules = #[corridorRule, cycleRule, branchRule]
  grown : p.grammar.Grown

/-- Registration succeeds whatever the settings are. -/
theorem exists_ready (settings : Settings) :
    ∃ p, register (.empty settings) = .ok p ∧ p.Ready := by
  obtain ⟨p₁, added₁, ids₁, rules₁, grown₁⟩ :=
    Progress.add_eq (p := ⟨.empty settings, [], []⟩) corridor_eq compile_corridor
  have next₁ : p₁.grammar.nextRule = ⟨1⟩ := by
    unfold Grammar.nextRule
    rw [rules₁]
    rfl
  obtain ⟨p₂, added₂, ids₂, rules₂, grown₂⟩ :=
    Progress.add_eq (p := p₁) cycle_eq (next₁ ▸ compile_cycle)
  have next₂ : p₂.grammar.nextRule = ⟨2⟩ := by
    unfold Grammar.nextRule
    rw [rules₂, rules₁]
    rfl
  obtain ⟨p₃, added₃, ids₃, rules₃, grown₃⟩ :=
    Progress.add_eq (p := p₂) branch_eq (next₂ ▸ compile_branch)
  refine ⟨p₃, ?_, ?_, ?_, grown₃ (grown₂ (grown₁ (.empty settings)))⟩
  · unfold register
    rw [List.foldlM_cons, added₁]
    change ([cycle, branch].foldlM Progress.add p₁) = _
    rw [List.foldlM_cons, added₂]
    change ([branch].foldlM Progress.add p₂) = _
    rw [List.foldlM_cons, added₃]
    rfl
  · rw [ids₃, ids₂, ids₁]
    rfl
  · rw [rules₃, rules₂, rules₁]
    rfl

end GraphSplice.Dungeon
