import GraphSplice.Proofs.Blueprint.Cutting
import GraphSplice.Proofs.Wiring.Reconciliation

/-!
The wirings that cuts and insertions make of a host graph, in any order. Each of them is sound, every
socket hangs off one node, and the places of the host elements hold what they held at first, or
nothing.
-/

namespace GraphSplice.Wiring

variable {D : Domain} {host : Host D} {w w' : Wiring} {owner : Nat → Nat}

/-- What cuts and insertions make of the host. -/
inductive Prepared (host : Host D) : Wiring → Prop
  | expanded : Prepared host (ofGraph host)
  | cutEdge {w : Wiring} (e : EdgeId) : Prepared host w → Prepared host (w.cutEdge e)
  | cutVertex {w : Wiring} (v : VertexId) : Prepared host w → Prepared host (w.cutVertex v)
  | addNode {w : Wiring} (p : Provenance) :
      Prepared host w → Prepared host (w.addNode (.created p))
  | addSocket {w : Wiring} {n : JointId} :
      Prepared host w → w.IsNode n → Prepared host (w.addSocket n .fresh)
  | addLink {w : Wiring} {a b : JointId} (p : Provenance) :
      Prepared host w → w.IsSocket a → w.IsSocket b →
      Prepared host (w.addLink a b (.created p))

/-! ## Places -/

/-- The places of the host elements hold nothing of another sort. -/
structure Placed (w : Wiring) : Prop where
  joints : w.hostOrder + 2 * w.hostSize ≤ w.joints.size
  wires : 3 * w.hostSize ≤ w.wires.size
  node : ∀ j < w.hostOrder, ¬ w.IsSocket j
  socket : ∀ j, w.hostOrder ≤ j → j < w.hostOrder + 2 * w.hostSize → ¬ w.IsNode j
  link : ∀ e ends, e.slot < w.hostSize → w.wire? (linkSlot e) ≠ some ⟨ends, .attachment⟩

/-- It matters only what is new at old places. -/
theorem Placed.of_old (placed : w.Placed) (same : SameHost w w')
    (joints : w.joints.size ≤ w'.joints.size) (wires : w.wires.size ≤ w'.wires.size)
    (kinds : ∀ j < w.joints.size, ∀ k, w'.kind? j = some k → w.kind? j = some k)
    (old : ∀ e < w.wires.size, ∀ x, w'.wire? e = some x → w.wire? e = some x) : w'.Placed := by
  have room := placed.joints
  have wireRoom := placed.wires
  refine { joints := ?joints, wires := ?wires, node := ?node, socket := ?socket, link := ?link }
  case joints =>
    rw [same.order, same.size]
    exact room.trans joints
  case wires =>
    rw [same.size]
    exact wireRoom.trans wires
  case node =>
    rintro j hj ⟨origin, h⟩
    rw [same.order] at hj
    exact placed.node j hj ⟨origin, kinds j (by omega) _ h⟩
  case socket =>
    rintro j above below ⟨origin, h⟩
    rw [same.order] at above
    rw [same.order, same.size] at below
    exact placed.socket j above below ⟨origin, kinds j (by omega) _ h⟩
  case link =>
    intro e ends he h
    rw [same.size] at he
    have inside : 3 * e.slot + 2 < w.wires.size := by omega
    exact placed.link e ends he (old _ inside _ h)

/-- What cuts and insertions keep. -/
structure Formed (w : Wiring) : Prop where
  sound : w.Sound
  rooted : ∃ owner, w.Rooted owner
  placed : w.Placed

theorem Trimmed.formed {V : VertexId → Prop} {F : EdgeId → Prop} (trimmed : Trimmed host V F w) :
    w.Formed := by
  refine { sound := trimmed.sound, rooted := ?rooted, placed := ?placed }
  case rooted =>
    have attached : ∀ s, ∃ n, w.IsSocket s → w.AttachedTo n s := by
      intro s
      by_cases socket : w.IsSocket s
      · obtain ⟨e, record, side, found, kept, rfl⟩ :=
          (Blueprint.isSocket_iff_of_trimmed trimmed).mp socket
        exact ⟨_, fun _ => ⟨_, (trimmed.attachment e record found side _).mpr ⟨kept, rfl⟩⟩⟩
      · exact ⟨0, fun there => absurd there socket⟩
    choose owner attached using attached
    refine ⟨owner, attached, ?_⟩
    intro e f m n s he hf
    obtain ⟨d, side, rfl, rfl⟩ := Blueprint.exists_of_attachment trimmed he
    obtain ⟨d', side', rfl, same⟩ := Blueprint.exists_of_attachment trimmed hf
    obtain ⟨rfl, rfl⟩ := socketSlot_inj same
    rfl
  case placed =>
    refine { joints := ?_, wires := ?_, node := ?_, socket := ?_, link := ?_ }
    · rw [trimmed.hostOrder, trimmed.hostSize, trimmed.joints]
    · rw [trimmed.hostSize, trimmed.wires]
    · intro j hj socket
      rw [trimmed.hostOrder] at hj
      obtain ⟨e, record, side, -, -, same⟩ :=
        (Blueprint.isSocket_iff_of_trimmed trimmed).mp socket
      exact slot_ne_socketSlot (v := ⟨j⟩) hj e side same.symm
    · rintro j above - ⟨origin, h⟩
      rw [trimmed.hostOrder] at above
      obtain ⟨v, -, hv, -, rfl⟩ := (Blueprint.node_iff_of_trimmed trimmed).mp h
      exact absurd hv (Nat.not_lt.mpr above)
    · intro e ends he h
      rw [trimmed.hostSize] at he
      obtain ⟨record, found⟩ := Graph.edge?_isSome_iff.mpr he
      obtain ⟨-, same⟩ := (trimmed.link e record found _).mp h
      cases same

/-! ## Steps -/

/-- A wiring that has lost wires and joints stays rooted where no socket is left without its
attachment. -/
theorem Rooted.of_fewer (rooted : w.Rooted owner)
    (fewer : ∀ e x, w'.wire? e = some x → w.wire? e = some x)
    (attached : ∀ s, w'.IsSocket s → w'.AttachedTo (owner s) s) : w'.Rooted owner :=
  ⟨attached, fun e f m n s he hf => rooted.single e f m n s (fewer e _ he) (fewer f _ hf)⟩

theorem Formed.cutEdge (formed : w.Formed) (e : EdgeId) : (w.cutEdge e).Formed := by
  unfold Wiring.cutEdge
  split
  · next there =>
    obtain ⟨owner, rooted⟩ := formed.rooted
    refine ⟨formed.sound.removeWire _,
      ⟨owner, rooted.of_fewer (fun f x => wire?_of_removeWire) ?_⟩,
      formed.placed.of_old (sameHost_removeWire w _) (size_removeWire w _).1.ge
        (size_removeWire w _).2.ge ?_ fun f _ x => wire?_of_removeWire⟩
    · intro s hs
      rw [isSocket_congr (kind?_removeWire ..)] at hs
      obtain ⟨f, found⟩ := rooted.attached s hs
      refine ⟨f, ?_⟩
      rw [wire?_removeWire, if_neg, found]
      rintro rfl
      exact formed.placed.link e _ there.1 found
    · intro j _ k h
      rwa [kind?_removeWire] at h
  · exact formed

theorem mem_withSockets_iff (sound : w.Sound) {n j : JointId} (node : w.IsNode n) :
    j ∈ w.withSockets n ↔ j = n ∨ w.AttachedTo n j := by
  simp only [withSockets, List.mem_append, List.mem_filterMap, List.mem_singleton,
    sound.mem_incident_iff, opposite?]
  constructor
  · rintro (⟨e, ⟨⟨ends, kind⟩, found, -⟩, across⟩ | same)
    · rw [found] at across
      have joins := Ends.opposite?_eq_some_iff.mp across
      cases kind with
      | attachment =>
        rcases joins with rfl | rfl
        · exact .inr ⟨e, found⟩
        · exact absurd (sound.attachment e _ found).2 node.not_isSocket
      | link origin =>
        obtain ⟨first, second⟩ := sound.link e ends origin found
        rcases joins with rfl | rfl
        · exact absurd first node.not_isSocket
        · exact absurd second node.not_isSocket
    · exact .inl same
  · rintro (same | ⟨e, found⟩)
    · exact .inr same
    · refine .inl ⟨e, ⟨_, found, .inl rfl⟩, ?_⟩
      rw [found]
      exact Ends.opposite?_eq_some_iff.mpr (.inl rfl)

theorem Formed.isNode_of_hostNode? (formed : w.Formed) {v : VertexId} {n : JointId}
    (found : w.hostNode? v = some n) : w.IsNode n := by
  unfold hostNode? at found
  split at found
  · next there =>
    cases found
    obtain ⟨k, h⟩ := isLive_iff_kind?.mp there.2
    cases k with
    | node origin => exact ⟨origin, h⟩
    | socket origin => exact absurd ⟨origin, h⟩ (formed.placed.node _ there.1)
  · cases found

theorem Formed.isSocket_of_hostSocket? (formed : w.Formed) {e : EdgeId} {side : Side} {s : JointId}
    (found : w.hostSocket? e side = some s) : w.IsSocket s := by
  unfold hostSocket? at found
  dsimp only at found
  split at found
  · next there =>
    cases found
    obtain ⟨k, h⟩ := isLive_iff_kind?.mp there.2
    cases k with
    | node origin =>
      have above : w.hostOrder ≤ socketSlot w.hostOrder e side := by
        unfold socketSlot
        omega
      have below : w.hostOrder + 2 * e.slot + side.toNat < w.hostOrder + 2 * w.hostSize := by
        have inside := there.1
        cases side <;> simp only [Side.toNat] <;> omega
      exact absurd ⟨origin, h⟩ (formed.placed.socket _ above below)
    | socket origin => exact ⟨origin, h⟩
  · cases found

theorem Formed.cutVertex (formed : w.Formed) (v : VertexId) : (w.cutVertex v).Formed := by
  cases found : w.hostNode? v with
  | none =>
    rw [cutVertex_of_none found]
    exact formed
  | some n =>
    have node := formed.isNode_of_hostNode? found
    obtain ⟨owner, rooted⟩ := formed.rooted
    obtain ⟨sound, kinds, wires⟩ := removeJoints_spec formed.sound (w.withSockets n)
    obtain ⟨joints, wireSize, sameHost⟩ := size_removeJoints (w.withSockets n) w
    rw [cutVertex_of_some found]
    refine ⟨sound, ⟨owner, rooted.of_fewer (fun e x h => ((wires e x).mp h).1) ?_⟩,
      formed.placed.of_old sameHost joints.ge wireSize.ge ?_ fun e _ x h => ((wires e x).mp h).1⟩
    · -- A socket of the vertex goes with it, so one that stays has its node left.
      rintro s ⟨origin, h⟩
      rw [kinds] at h
      split at h
      · cases h
      · next away =>
        have attached := rooted.attached s ⟨origin, h⟩
        have other : owner s ∉ w.withSockets n := by
          rw [mem_withSockets_iff formed.sound node]
          rintro (same | ⟨e, found⟩)
          · exact away ((mem_withSockets_iff formed.sound node).mpr (.inr (same ▸ attached)))
          · exact (attached.isNode formed.sound).not_isSocket
              (formed.sound.attachment e _ found).2
        obtain ⟨e, found⟩ := attached
        exact ⟨e, (wires e _).mpr ⟨found, forall_not_touches_iff.mpr ⟨other, away⟩⟩⟩
    · intro j _ k h
      rw [kinds] at h
      split at h
      · cases h
      · exact h

theorem Formed.addNode (formed : w.Formed) (origin : NodeOrigin) : (w.addNode origin).Formed := by
  obtain ⟨owner, rooted⟩ := formed.rooted
  unfold Wiring.addNode
  refine ⟨formed.sound.addJoint _, ⟨owner, rooted.of_fewer ?_ ?_⟩,
    formed.placed.of_old ⟨rfl, rfl⟩ ?_ Nat.le.refl ?_ ?_⟩
  · intro e x h
    rwa [wire?_addJoint] at h
  · rintro s ⟨o, h⟩
    rw [kind?_addJoint] at h
    split at h
    · cases h
    · obtain ⟨e, found⟩ := rooted.attached s ⟨o, h⟩
      exact ⟨e, by rwa [wire?_addJoint]⟩
  · rw [size_addJoint]
    exact Nat.le_succ _
  · intro j hj k h
    have older : j ≠ w.nextJoint := Nat.ne_of_lt hj
    rwa [kind?_addJoint, if_neg older] at h
  · intro e _ x h
    rwa [wire?_addJoint] at h

theorem Formed.addSocket (formed : w.Formed) {n : JointId} (node : w.IsNode n)
    (origin : SocketOrigin) : (w.addSocket n origin).Formed := by
  obtain ⟨owner, rooted⟩ := formed.rooted
  refine ⟨formed.sound.addSocket node origin,
    ⟨Function.update owner w.nextJoint n, ?attached, ?single⟩,
    formed.placed.of_old (sameHost_addSocket ..) ?_ ?_ ?_ ?_⟩
  case attached =>
    intro s hs
    rcases (isSocket_addSocket w n origin s).mp hs with rfl | old
    · rw [Function.update_self]
      exact ⟨w.nextWire, by rw [wire?_addSocket, if_pos rfl]⟩
    · have older : s ≠ w.nextJoint := Nat.ne_of_lt (lt_size_of_isLive old.isLive)
      obtain ⟨e, found⟩ := rooted.attached s old
      have before : e ≠ w.nextWire := Nat.ne_of_lt (lt_size_of_wire? found)
      rw [Function.update_of_ne older]
      exact ⟨e, by rw [wire?_addSocket, if_neg before, found]⟩
  case single =>
    intro e f m m' s he hf
    have first := formed.sound.attachment_addSocket he
    have second := formed.sound.attachment_addSocket hf
    split at first
    · next last =>
      rw [if_pos last] at second
      exact first.trans second.symm
    · next older =>
      rw [if_neg older] at second
      exact rooted.single e f m m' s first second
  · exact (Nat.le_succ _).trans (nextJoint_addSocket w n origin).ge
  · exact (Nat.le_succ _).trans (nextWire_addSocket w n origin).ge
  · intro j hj k h
    have older : j ≠ w.nextJoint := Nat.ne_of_lt hj
    rwa [kind?_addSocket, if_neg older] at h
  · intro e he x h
    have older : e ≠ w.nextWire := Nat.ne_of_lt he
    rwa [wire?_addSocket, if_neg older] at h

theorem Formed.addLink (formed : w.Formed) {a b : JointId} (ha : w.IsSocket a) (hb : w.IsSocket b)
    (origin : LinkOrigin) : (w.addLink a b origin).Formed := by
  obtain ⟨owner, rooted⟩ := formed.rooted
  refine ⟨formed.sound.addLink ha hb origin, ⟨owner, ?attached, ?single⟩,
    formed.placed.of_old (sameHost_addWire ..) ?_ ?_ ?_ ?_⟩
  case attached =>
    intro s hs
    rw [isSocket_congr (kind?_addLink ..)] at hs
    obtain ⟨e, found⟩ := rooted.attached s hs
    exact ⟨e, attachment_addLink.mpr found⟩
  case single =>
    intro e f m n s he hf
    exact rooted.single e f m n s (attachment_addLink.mp he) (attachment_addLink.mp hf)
  · exact (size_addWire ..).1.ge
  · exact (Nat.le_succ _).trans (size_addWire w a b (.link origin)).2.ge
  · intro j _ k h
    rwa [kind?_addLink] at h
  · intro e he x h
    have older : e ≠ w.nextWire := Nat.ne_of_lt he
    rwa [wire?_addLink, if_neg older] at h

theorem Prepared.formed (consistent : host.Consistent) (prepared : Prepared host w) :
    w.Formed := by
  induction prepared with
  | expanded => exact (trimmed_ofGraph consistent).formed
  | cutEdge e _ ih => exact ih.cutEdge e
  | cutVertex v _ ih => exact ih.cutVertex v
  | addNode p _ ih => exact ih.addNode _
  | addSocket _ node ih => exact ih.addSocket node _
  | addLink p _ ha hb ih => exact ih.addLink ha hb _

/-! ## Batches -/

section Batch

variable {r : Resolved D} {a : Nat} {firstNode : JointId}

theorem Prepared.cut (batch : List (Resolved D)) (state : D.BuildState) :
    Prepared host (Cutting.applyAll host batch ⟨ofGraph host, state⟩).wiring := by
  have edge : ∀ (context : BuildContext D) (c : Cutting D), Prepared host c.wiring → ∀ x,
      Prepared host (Cutting.cutEdge context c x).wiring := by
    intro context c prepared x
    rw [Cutting.wiring_cutEdge]
    split
    · exact prepared.cutEdge x.2
    · exact prepared
  have vertex : ∀ (context : BuildContext D) (c : Cutting D), Prepared host c.wiring → ∀ x,
      Prepared host (Cutting.cutVertex context c x).wiring := by
    intro context c prepared x
    rw [Cutting.wiring_cutVertex]
    split
    · exact prepared.cutVertex x.2
    · exact prepared
  refine List.foldlRecOn (motive := fun c : Cutting D => Prepared host c.wiring) batch _ .expanded ?_
  intro c prepared r _
  refine List.foldlRecOn (motive := fun c : Cutting D => Prepared host c.wiring) _ _ ?_
    fun c prepared x _ => vertex _ c prepared x
  exact List.foldlRecOn (motive := fun c : Cutting D => Prepared host c.wiring) _ _ prepared
    fun c prepared x _ => edge _ c prepared x

theorem Prepared.addNodes (prepared : Prepared host w) (r : Resolved D) (a : Nat) :
    Prepared host (Insertion.addNodes r a w) ∧
      ∀ k < r.rule.addedVertices.length, (Insertion.addNodes r a w).IsNode (w.nextJoint + k) := by
  have counted : ∀ n, let w' := (List.range n).foldl (fun w k => w.addNode (.created ⟨r.id, k, a⟩)) w
      Prepared host w' ∧ w'.nextJoint = w.nextJoint + n ∧
        ∀ k < n, w'.IsNode (w.nextJoint + k) := by
    intro n
    induction n with
    | zero => exact ⟨prepared, rfl, nofun⟩
    | succ n ih =>
      obtain ⟨prepared', next, nodes⟩ := ih
      simp only [List.range_succ, List.foldl_append, List.foldl_cons, List.foldl_nil]
      refine ⟨prepared'.addNode _, ?_, ?_⟩
      · exact (size_addJoint ..).trans (congrArg (· + 1) next)
      · intro k hk
        rcases Nat.lt_succ_iff_lt_or_eq.mp hk with less | rfl
        · exact (retains_addJoint _ _).isNode (nodes k less)
        · exact ⟨_, by rw [Wiring.addNode, kind?_addJoint, if_pos next.symm]⟩
  obtain ⟨prepared', -, nodes⟩ := counted r.rule.addedVertices.length
  exact ⟨prepared', nodes⟩

theorem Prepared.socketFor (consistent : host.Consistent) (prepared : Prepared host w)
    (nodes : ∀ k < r.rule.addedVertices.length, w.IsNode (firstNode + k)) {endpoint : Endpoint}
    {cut : Option Nat} {s : JointId}
    (h : Insertion.socketFor host r firstNode w endpoint cut = some (w', s)) :
    Prepared host w' ∧ w'.IsSocket s ∧ Retains w w' := by
  have formed := prepared.formed consistent
  have fresh : ∀ {n}, w.IsNode n → Prepared host (w.addSocket n .fresh) ∧
      (w.addSocket n .fresh).IsSocket w.nextJoint ∧ Retains w (w.addSocket n .fresh) :=
    fun {n} node => ⟨prepared.addSocket node, (isSocket_addSocket w n .fresh _).mpr (.inl rfl),
      retains_addSocket w n .fresh⟩
  unfold Insertion.socketFor at h
  split at h
  · split at h
    · next inside =>
      cases h
      exact fresh (nodes _ inside)
    · cases h
  · simp only [Option.bind_eq_bind, Option.bind_eq_some_iff, Option.pure_def,
      Option.some.injEq, Prod.mk.injEq] at h
    obtain ⟨v, -, n, found, rfl, rfl⟩ := h
    exact fresh (formed.isNode_of_hostNode? found)
  · simp only [Option.bind_eq_bind, Option.bind_eq_some_iff, Option.pure_def,
      Option.some.injEq, Prod.mk.injEq] at h
    obtain ⟨v, -, e, -, record, -, side, -, socket, found, rfl, rfl⟩ := h
    exact ⟨prepared, formed.isSocket_of_hostSocket? found, fun _ _ same => same⟩

theorem Prepared.addEdge (consistent : host.Consistent) (prepared : Prepared host w)
    (nodes : ∀ k < r.rule.addedVertices.length, w.IsNode (firstNode + k))
    {x : AddedEdge D × Nat} (h : Insertion.addEdge host r a firstNode w x = some w') :
    Prepared host w' ∧ ∀ k < r.rule.addedVertices.length, w'.IsNode (firstNode + k) := by
  unfold Insertion.addEdge at h
  simp only [Option.bind_eq_bind, Option.bind_eq_some_iff, Option.pure_def, Option.some.injEq,
    Prod.exists] at h
  obtain ⟨w₁, first, found, w₂, second, found', rfl⟩ := h
  obtain ⟨prepared₁, socket₁, retains₁⟩ := prepared.socketFor consistent nodes found
  have nodes₁ := fun k hk => retains₁.isNode (nodes k hk)
  obtain ⟨prepared₂, socket₂, retains₂⟩ := prepared₁.socketFor consistent nodes₁ found'
  refine ⟨prepared₂.addLink _ (retains₂.isSocket socket₁) socket₂, ?_⟩
  intro k hk
  rw [isNode_congr (kind?_addLink ..)]
  exact retains₂.isNode (nodes₁ k hk)

theorem Prepared.addEdges (consistent : host.Consistent) (xs : List (AddedEdge D × Nat)) :
    ∀ {w : Wiring}, Prepared host w →
      (∀ k < r.rule.addedVertices.length, w.IsNode (firstNode + k)) →
      xs.foldlM (Insertion.addEdge host r a firstNode) w = some w' → Prepared host w' := by
  induction xs with
  | nil =>
    intro w prepared _ h
    cases h
    exact prepared
  | cons x rest ih =>
    intro w prepared nodes h
    rw [List.foldlM_cons] at h
    obtain ⟨w₁, first, later⟩ := Option.bind_eq_some_iff.mp h
    obtain ⟨prepared₁, nodes₁⟩ := prepared.addEdge consistent nodes first
    exact ih prepared₁ nodes₁ later

/-- The wiring of a batch before sockets are merged. -/
theorem prepared_of_batch (consistent : host.Consistent) {batch : List (Resolved D)}
    {state : D.BuildState} (h : Insertion.applyAll host batch
      (Cutting.applyAll host batch ⟨ofGraph host, state⟩).wiring = .ok w) : Prepared host w := by
  refine foldlM_keeps (P := Prepared host) ?_ (.cut batch state) h
  intro w x w' prepared inserted
  split at inserted
  · cases inserted
  · next found =>
    cases inserted
    obtain ⟨prepared', nodes⟩ := prepared.addNodes x.1 x.2
    exact prepared'.addEdges consistent _ nodes found

end Batch

end GraphSplice.Wiring
