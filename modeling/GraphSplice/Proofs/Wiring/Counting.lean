import GraphSplice.Proofs.Wiring.Reconciliation

/-!
How many sockets are merged. The components of the walk are counted by their lowest sockets, and of
each of them all sockets but two are folded away.
-/

namespace GraphSplice.Wiring

variable {w : Wiring}

/-- The sockets that carry a link, in order. -/
def linkedSockets (w : Wiring) : List JointId := w.liveSockets.filter fun j => w.links j ≠ []

open Classical in
/-- The sockets that links connect to this one, in order. -/
noncomputable def componentOf (w : Wiring) (j : JointId) : List JointId :=
  w.liveSockets.filter fun k => Connected w.LinkedTo j k

open Classical in
/-- The linked sockets with no lower one in their component, so one of each component. -/
noncomputable def firstSockets (w : Wiring) : List JointId :=
  w.linkedSockets.filter fun j => ∀ k, Connected w.LinkedTo j k → j ≤ k

theorem mem_linkedSockets_iff (sound : w.Sound) {j : JointId} :
    j ∈ w.linkedSockets ↔ w.links j ≠ [] := by
  simp only [linkedSockets, List.mem_filter, mem_liveSockets_iff, decide_eq_true_eq]
  exact ⟨And.right, fun linked => ⟨isSocket_of_links sound linked, linked⟩⟩

theorem mem_firstSockets_iff (sound : w.Sound) {j : JointId} : j ∈ w.firstSockets ↔
    w.links j ≠ [] ∧ ∀ k, Connected w.LinkedTo j k → j ≤ k := by
  simp only [firstSockets, List.mem_filter, mem_linkedSockets_iff sound, decide_eq_true_eq]

theorem mem_componentOf_iff {j k : JointId} :
    k ∈ w.componentOf j ↔ w.IsSocket k ∧ Connected w.LinkedTo j k := by
  simp only [componentOf, List.mem_filter, mem_liveSockets_iff, decide_eq_true_eq]

theorem nodup_liveSockets (w : Wiring) : w.liveSockets.Nodup :=
  (liveSockets_ascending w).imp fun less => Nat.ne_of_lt less

theorem nodup_linkedSockets (w : Wiring) : w.linkedSockets.Nodup := (nodup_liveSockets w).filter _

theorem nodup_componentOf (w : Wiring) (j : JointId) : (w.componentOf j).Nodup :=
  (nodup_liveSockets w).filter _

theorem nodup_firstSockets (w : Wiring) : w.firstSockets.Nodup := (nodup_linkedSockets w).filter _

/-! ## The sockets of a component -/

namespace IsComponent

variable {start : Nat} {c : Component}

theorem perm_componentOf (component : w.IsComponent start c) (sound : w.Sound) :
    (c.sockets.map (·.1)).Perm (w.componentOf start) := by
  rw [List.perm_ext_iff_of_nodup component.nodup (nodup_componentOf w start)]
  intro j
  rw [mem_componentOf_iff, ← component.mem_iff]
  constructor
  · intro h
    obtain ⟨⟨_, side⟩, there, rfl⟩ := List.mem_map.mp h
    exact ⟨isSocket_of_links sound (component.linked _ there), side, there⟩
  · rintro ⟨-, side, there⟩
    exact List.mem_map.mpr ⟨_, there, rfl⟩

theorem length_sockets (component : w.IsComponent start c) (sound : w.Sound) :
    c.sockets.length = (w.componentOf start).length := by
  rw [← (component.perm_componentOf sound).length_eq, List.length_map]

theorem mem_firstSockets (component : w.IsComponent start c) (sound : w.Sound) :
    start ∈ w.firstSockets := by
  refine (mem_firstSockets_iff sound).mpr ⟨component.linked _ component.begins, ?_⟩
  intro k connected
  obtain ⟨side, there⟩ := component.mem_iff.mpr connected
  exact component.lowest _ there

/-- Both sides of a component have a socket. -/
theorem onSide_ne_nil (component : w.IsComponent start c) (sound : w.Sound)
    (balanced : c.odd = false) (side : Side) : c.onSide side ≠ [] := by
  cases side with
  | first => exact List.ne_nil_of_mem (mem_onSide_iff.mpr component.begins)
  | second =>
    obtain ⟨k, linked⟩ := (links_ne_nil_iff sound).mp (component.linked _ component.begins)
    obtain ⟨side, there, noted⟩ := component.closed _ component.begins k linked
    cases side with
    | first =>
      rw [noted rfl] at balanced
      cases balanced
    | second => exact List.ne_nil_of_mem (mem_onSide_iff.mpr there)

end IsComponent

theorem length_onSide (c : Component) :
    (c.onSide .first).length + (c.onSide .second).length = c.sockets.length := by
  unfold Component.onSide
  rw [List.length_map, List.length_map]
  induction c.sockets with
  | nil => rfl
  | cons x rest ih =>
    obtain ⟨j, side⟩ := x
    cases side <;> simp <;> omega

/-! ## All components -/

/-- A component is known by its lowest socket. -/
theorem exists_firsts (sound : w.Sound) : ∃ first : Component → Nat,
    (∀ c ∈ w.components, w.IsComponent (first c) c) ∧
      (w.components.map first).Perm w.firstSockets := by
  obtain ⟨p, valid, same⟩ := components_valid sound
  rw [← same]
  have each : ∀ c ∈ p.components, ∃ start, w.IsComponent start c := by
    intro c hc
    obtain ⟨start, -, component⟩ := valid.each c hc
    exact ⟨start, component⟩
  choose! first component using each
  refine ⟨first, component, ?_⟩
  have distinct : (p.components.map first).Nodup := by
    rw [List.Nodup, List.pairwise_map]
    refine valid.ascending.imp_of_mem ?_
    rintro c d hc hd ⟨a, b, ha, hb, less⟩
    rw [ha.start_unique (component c hc), hb.start_unique (component d hd)] at less
    exact Nat.ne_of_lt less
  rw [List.perm_ext_iff_of_nodup distinct (nodup_firstSockets w)]
  intro j
  constructor
  · intro h
    obtain ⟨c, hc, rfl⟩ := List.mem_map.mp h
    exact (component c hc).mem_firstSockets sound
  · intro h
    obtain ⟨linked, lowest⟩ := (mem_firstSockets_iff sound).mp h
    obtain ⟨c, hc, side, there⟩ :=
      valid.covered j (mem_liveSockets_iff.mpr (isSocket_of_links sound linked)) linked
    have connected := (component c hc).mem_iff.mp ⟨side, there⟩
    have below := lowest _ (Connected.symm LinkedTo.symm connected)
    have above := (component c hc).lowest _ there
    exact List.mem_map.mpr ⟨c, hc, Nat.le_antisymm above below⟩

theorem length_components (sound : w.Sound) :
    w.components.length = w.firstSockets.length := by
  obtain ⟨first, -, perm⟩ := exists_firsts sound
  rw [← perm.length_eq, List.length_map]

/-- Every linked socket is in one component. -/
theorem length_flatMap_sockets (sound : w.Sound) :
    (w.components.flatMap (·.sockets)).length = w.linkedSockets.length := by
  obtain ⟨p, valid, same⟩ := components_valid sound
  rw [← same]
  have distinct : ((p.components.flatMap (·.sockets)).map (·.1)).Nodup := by
    rw [List.map_flatMap, List.nodup_flatMap]
    constructor
    · intro c hc
      obtain ⟨start, -, component⟩ := valid.each c hc
      exact component.nodup
    · refine valid.disjoint.imp ?_
      intro c d disjoint j hj hj'
      obtain ⟨⟨_, side⟩, there, rfl⟩ := List.mem_map.mp hj
      obtain ⟨⟨_, other⟩, there', rfl⟩ := List.mem_map.mp hj'
      exact disjoint _ side other there there'
  have perm : ((p.components.flatMap (·.sockets)).map (·.1)).Perm w.linkedSockets := by
    rw [List.perm_ext_iff_of_nodup distinct (nodup_linkedSockets w)]
    intro j
    rw [mem_linkedSockets_iff sound, List.mem_map]
    constructor
    · rintro ⟨x, inside, rfl⟩
      obtain ⟨c, hc, there⟩ := List.mem_flatMap.mp inside
      obtain ⟨start, -, component⟩ := valid.each c hc
      exact component.linked x there
    · intro linked
      obtain ⟨c, hc, side, there⟩ :=
        valid.covered j (mem_liveSockets_iff.mpr (isSocket_of_links sound linked)) linked
      exact ⟨(j, side), List.mem_flatMap.mpr ⟨c, hc, there⟩, rfl⟩
  rw [← perm.length_eq, List.length_map]

/-! ## What is folded away -/

theorem foldl_mergeClass_folded (groups : List (List JointId)) (state : Wiring × Nat) :
    (groups.foldl mergeClass state).2 = state.2 + (groups.flatMap List.tail).length := by
  induction groups generalizing state with
  | nil => rfl
  | cons members rest ih =>
    rw [List.foldl_cons, ih, List.flatMap_cons, List.length_append, List.length_tail]
    unfold mergeClass
    cases least : members.min? with
    | none =>
      rw [List.min?_eq_none_iff.mp least]
      simp
    | some rep => exact Nat.add_assoc ..

theorem length_tails_socketClasses {components : List Component}
    (full : ∀ c ∈ components, ∀ side, c.onSide side ≠ []) :
    ((socketClasses components).flatMap List.tail).length + 2 * components.length =
      (components.flatMap (·.sockets)).length := by
  induction components with
  | nil => rfl
  | cons c rest ih =>
    have first := List.length_pos_of_ne_nil (full c List.mem_cons_self .first)
    have second := List.length_pos_of_ne_nil (full c List.mem_cons_self .second)
    have both := length_onSide c
    have others := ih fun d hd => full d (List.mem_cons_of_mem c hd)
    have split : socketClasses (c :: rest) =
        c.onSide .first :: c.onSide .second :: socketClasses rest := rfl
    simp only [split, List.flatMap_cons, List.length_append, List.length_tail, List.length_cons]
    omega

/-- Of each component two sockets are left. -/
theorem folded_of_mergeSockets (sound : w.Sound) {w' : Wiring} {folded : Nat}
    (h : w.mergeSockets true = .ok (w', folded)) :
    folded + 2 * w.firstSockets.length = w.linkedSockets.length := by
  unfold mergeSockets at h
  simp only [Bool.true_and] at h
  cases search : w.components.find? fun c => c.odd with
  | some c =>
    rw [search] at h
    cases h
  | none =>
    rw [search] at h
    have counted : ((socketClasses w.components).foldl mergeClass (w, 0)).2 = folded :=
      congrArg Prod.snd (Except.ok.inj h)
    obtain ⟨first, component, -⟩ := exists_firsts sound
    have full : ∀ c ∈ w.components, ∀ side, c.onSide side ≠ [] := by
      intro c hc
      have balanced := List.find?_eq_none.mp search c hc
      exact (component c hc).onSide_ne_nil sound (Bool.eq_false_iff.mpr balanced)
    rw [← counted, foldl_mergeClass_folded, Nat.zero_add, ← length_components sound,
      ← length_flatMap_sockets sound]
    exact length_tails_socketClasses full

end GraphSplice.Wiring
