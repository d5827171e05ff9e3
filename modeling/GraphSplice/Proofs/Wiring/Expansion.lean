import GraphSplice.Proofs.Graph.Consistency
import GraphSplice.Proofs.Wiring.Soundness

/-!
The wiring of a host graph, and what cuts leave of it. Every host element has its place, computed
from its handle; it is there unless it was cut, or a vertex at it was.
-/

namespace GraphSplice.Wiring

section Steps

variable {w : Wiring}

theorem size_addJoint (w : Wiring) (kind : JointKind) :
    (w.addJoint kind).joints.size = w.joints.size + 1 := by simp [addJoint]

theorem size_addWire (w : Wiring) (a b : JointId) (kind : WireKind) :
    (w.addWire a b kind).joints.size = w.joints.size ∧
      (w.addWire a b kind).wires.size = w.wires.size + 1 := by
  simp [addWire, listWire, modifyJoint]

/-- No operation changes what the wiring knows of the host. -/
structure SameHost (w w' : Wiring) : Prop where
  order : w'.hostOrder = w.hostOrder
  size : w'.hostSize = w.hostSize

theorem SameHost.trans {w w' w'' : Wiring} (first : SameHost w w') (second : SameHost w' w'') :
    SameHost w w'' := ⟨second.order.trans first.order, second.size.trans first.size⟩

theorem sameHost_addWire (w : Wiring) (a b : JointId) (kind : WireKind) :
    SameHost w (w.addWire a b kind) := ⟨rfl, rfl⟩

theorem sameHost_addSocket (w : Wiring) (node : JointId) (origin : SocketOrigin) :
    SameHost w (w.addSocket node origin) :=
  @SameHost.trans w (w.addJoint (.socket origin)) _ ⟨rfl, rfl⟩ (sameHost_addWire ..)

theorem sameHost_expandEdge (w : Wiring) (e : EdgeId) (ends : Ends VertexId) :
    SameHost w (w.expandEdge e ends) :=
  (sameHost_addSocket ..).trans ((sameHost_addSocket ..).trans (sameHost_addWire ..))

theorem kind?_addSocket (w : Wiring) (node : JointId) (origin : SocketOrigin) (j : JointId) :
    (w.addSocket node origin).kind? j =
      if j = w.nextJoint then some (.socket origin) else w.kind? j := by
  rw [addSocket, kind?_addWire, kind?_addJoint]

theorem wire?_addSocket (w : Wiring) (node : JointId) (origin : SocketOrigin) (e : WireId) :
    (w.addSocket node origin).wire? e =
      if e = w.nextWire then some ⟨⟨node, w.nextJoint⟩, .attachment⟩ else w.wire? e := by
  rw [addSocket, wire?_addWire, wire?_addJoint]
  rfl

theorem nextJoint_addSocket (w : Wiring) (node : JointId) (origin : SocketOrigin) :
    (w.addSocket node origin).nextJoint = w.nextJoint + 1 :=
  (size_addWire ..).1.trans (size_addJoint ..)

theorem nextWire_addSocket (w : Wiring) (node : JointId) (origin : SocketOrigin) :
    (w.addSocket node origin).nextWire = w.nextWire + 1 := (size_addWire ..).2

/-- Every joint is what it was. -/
def Retains (w w' : Wiring) : Prop := ∀ j k, w.kind? j = some k → w'.kind? j = some k

theorem Retains.isNode {w w' : Wiring} (retains : Retains w w') {j : JointId} (h : w.IsNode j) :
    w'.IsNode j := by
  obtain ⟨origin, h⟩ := h
  exact ⟨origin, retains j _ h⟩

theorem Retains.isSocket {w w' : Wiring} (retains : Retains w w') {j : JointId}
    (h : w.IsSocket j) : w'.IsSocket j := by
  obtain ⟨origin, h⟩ := h
  exact ⟨origin, retains j _ h⟩

theorem retains_addJoint (w : Wiring) (kind : JointKind) : Retains w (w.addJoint kind) := by
  intro j k h
  rw [kind?_addJoint, if_neg, h]
  rintro rfl
  rw [kind?_nextJoint] at h
  cases h

theorem retains_addSocket (w : Wiring) (node : JointId) (origin : SocketOrigin) :
    Retains w (w.addSocket node origin) := by
  intro j k h
  rw [addSocket, kind?_addWire]
  exact retains_addJoint w _ j k h

theorem Sound.addSocket (sound : w.Sound) {node : JointId} (h : w.IsNode node)
    (origin : SocketOrigin) : (w.addSocket node origin).Sound := by
  unfold Wiring.addSocket
  refine (sound.addJoint _).addAttachment ((retains_addJoint w _).isNode h) ⟨origin, ?_⟩
  rw [kind?_addJoint, if_pos rfl]

theorem isSocket_addSocket (w : Wiring) (node : JointId) (origin : SocketOrigin) (j : JointId) :
    (w.addSocket node origin).IsSocket j ↔ j = w.nextJoint ∨ w.IsSocket j := by
  unfold IsSocket
  rw [kind?_addSocket]
  split
  · next last => simp [last]
  · next older => simp [older]

/-- The new socket hangs on its own attachment, the others where they hung. -/
theorem Sound.attachment_addSocket (sound : w.Sound) {node m s : JointId} {origin : SocketOrigin}
    {e : WireId} (h : (w.addSocket node origin).wire? e = some ⟨⟨m, s⟩, .attachment⟩) :
    if s = w.nextJoint then e = w.nextWire else w.wire? e = some ⟨⟨m, s⟩, .attachment⟩ := by
  rw [wire?_addSocket] at h
  split at h
  · next last =>
    cases h
    exact (if_pos rfl).mpr last
  · have older : s ≠ w.nextJoint :=
      Nat.ne_of_lt (lt_size_of_isLive (sound.attachment e _ h).2.isLive)
    rwa [if_neg older]

theorem kind?_addLink (w : Wiring) (a b : JointId) (origin : LinkOrigin) (j : JointId) :
    (w.addLink a b origin).kind? j = w.kind? j := kind?_addWire ..

theorem wire?_addLink (w : Wiring) (a b : JointId) (origin : LinkOrigin) (e : WireId) :
    (w.addLink a b origin).wire? e =
      if e = w.nextWire then some ⟨⟨a, b⟩, .link origin⟩ else w.wire? e := wire?_addWire ..

theorem attachment_addLink {a b : JointId} {origin : LinkOrigin} {e : WireId}
    {ends : Ends JointId} : (w.addLink a b origin).wire? e = some ⟨ends, .attachment⟩ ↔
      w.wire? e = some ⟨ends, .attachment⟩ := by
  rw [wire?_addLink]
  split
  · next last =>
    rw [last, wire?_nextWire]
    simp
  · rfl

end Steps

variable {N E : Type} {host : Graph N E}

/-- The wiring of `host` without the vertices in `V`, the edges in `F` and all that hangs on
them. -/
structure Trimmed (host : Graph N E) (V : VertexId → Prop) (F : EdgeId → Prop) (w : Wiring) :
    Prop where
  sound : w.Sound
  hostOrder : w.hostOrder = host.order
  hostSize : w.hostSize = host.size
  joints : w.joints.size = host.order + 2 * host.size
  wires : w.wires.size = 3 * host.size
  node : ∀ v, host.Contains v → ∀ k, w.kind? v.slot = some k ↔ ¬ V v ∧ k = .node (.host v)
  socket : ∀ e record, host.edge? e = some record → ∀ side k,
    w.kind? (socketSlot host.order e side) = some k ↔
      ¬ V (record.ends.get side) ∧ k = .socket (.host e side)
  attachment : ∀ e record, host.edge? e = some record → ∀ side wire,
    w.wire? (3 * e.slot + side.toNat) = some wire ↔ ¬ V (record.ends.get side) ∧
      wire = ⟨⟨(record.ends.get side).slot, socketSlot host.order e side⟩, .attachment⟩
  link : ∀ e record, host.edge? e = some record → ∀ wire,
    w.wire? (linkSlot e) = some wire ↔
      (¬ F e ∧ ¬ V record.ends.first ∧ ¬ V record.ends.second) ∧
      wire = ⟨⟨socketSlot host.order e .first, socketSlot host.order e .second⟩, .link (.host e)⟩

/-! ## Expansion -/

/-- The nodes of all vertices, and the sockets and wires of the first `m` edges. -/
structure Expanded (host : Graph N E) (m : Nat) (w : Wiring) : Prop where
  sound : w.Sound
  hostOrder : w.hostOrder = host.order
  hostSize : w.hostSize = host.size
  joints : w.joints.size = host.order + 2 * m
  wires : w.wires.size = 3 * m
  node : ∀ v, host.Contains v → w.kind? v.slot = some (.node (.host v))
  socket : ∀ e record, e.slot < m → host.edge? e = some record → ∀ side,
    w.kind? (socketSlot host.order e side) = some (.socket (.host e side))
  attachment : ∀ e record, e.slot < m → host.edge? e = some record → ∀ side,
    w.wire? (3 * e.slot + side.toNat) =
      some ⟨⟨(record.ends.get side).slot, socketSlot host.order e side⟩, .attachment⟩
  link : ∀ e record, e.slot < m → host.edge? e = some record → w.wire? (linkSlot e) =
    some ⟨⟨socketSlot host.order e .first, socketSlot host.order e .second⟩, .link (.host e)⟩

theorem expandNodes_spec (n : Nat) (w : Wiring) (sound : w.Sound) (empty : w.joints.size = 0) :
    let w' := ((List.range n).map Handle.mk).foldl (fun w v => w.addNode (.host v)) w
    w'.Sound ∧ w'.joints.size = n ∧ w'.wires = w.wires ∧ w'.hostOrder = w.hostOrder ∧
      w'.hostSize = w.hostSize ∧ ∀ i < n, w'.kind? i = some (.node (.host ⟨i⟩)) := by
  induction n with
  | zero => exact ⟨sound, empty, rfl, rfl, rfl, fun i h => absurd h (Nat.not_lt_zero i)⟩
  | succ n ih =>
    obtain ⟨sound', size, wires, order, hostSize, nodes⟩ := ih
    simp only [List.range_succ, List.map_append, List.map_cons, List.map_nil, List.foldl_append,
      List.foldl_cons, List.foldl_nil]
    refine ⟨sound'.addJoint _, ?_, wires, order, hostSize, ?_⟩
    · rw [addNode, size_addJoint, size]
    · intro i hi
      rw [addNode, kind?_addJoint, nextJoint, size]
      by_cases last : i = n
      · rw [if_pos last, last]
      · rw [if_neg last]
        exact nodes i (by omega)

theorem kind?_expandEdge (w : Wiring) (e : EdgeId) (ends : Ends VertexId) (j : Nat) :
    (w.expandEdge e ends).kind? j =
      if j = w.nextJoint + 1 then some (.socket (.host e .second))
      else if j = w.nextJoint then some (.socket (.host e .first))
      else w.kind? j := by
  simp only [expandEdge, kind?_addLink, kind?_addSocket, nextJoint_addSocket]

theorem wire?_expandEdge (w : Wiring) (e : EdgeId) (ends : Ends VertexId) (f : Nat) :
    (w.expandEdge e ends).wire? f =
      if f = w.nextWire + 2 then
        some ⟨⟨w.nextJoint, w.nextJoint + 1⟩, .link (.host e)⟩
      else if f = w.nextWire + 1 then
        some ⟨⟨ends.second.slot, w.nextJoint + 1⟩, .attachment⟩
      else if f = w.nextWire then some ⟨⟨ends.first.slot, w.nextJoint⟩, .attachment⟩
      else w.wire? f := by
  simp only [expandEdge, wire?_addLink, wire?_addSocket, nextJoint_addSocket, nextWire_addSocket]

theorem size_expandEdge (w : Wiring) (e : EdgeId) (ends : Ends VertexId) :
    (w.expandEdge e ends).nextJoint = w.nextJoint + 2 ∧
      (w.expandEdge e ends).nextWire = w.nextWire + 3 := by
  constructor
  · refine (size_addWire ..).1.trans ?_
    exact (nextJoint_addSocket ..).trans (congrArg (· + 1) (nextJoint_addSocket ..))
  · refine (size_addWire ..).2.trans ?_
    refine congrArg (· + 1) ((nextWire_addSocket ..).trans ?_)
    exact congrArg (· + 1) (nextWire_addSocket ..)

theorem Sound.expandEdge {w : Wiring} (sound : w.Sound) (e : EdgeId) {ends : Ends VertexId}
    (first : w.IsNode ends.first.slot) (second : w.IsNode ends.second.slot) :
    (w.expandEdge e ends).Sound := by
  have sound₁ := sound.addSocket first (.host e .first)
  refine (sound₁.addSocket ((retains_addSocket _ _ _).isNode second) (.host e .second)).addLink
    ⟨.host e .first, ?_⟩ ⟨.host e .second, ?_⟩ _
  · rw [kind?_addSocket, if_neg, kind?_addSocket, if_pos rfl]
    rw [nextJoint_addSocket]
    exact (Nat.succ_ne_self w.nextJoint).symm
  · rw [kind?_addSocket, if_pos rfl]

theorem Expanded.expandEdge (consistent : host.Consistent) {w : Wiring} {m : Nat}
    (expanded : Expanded host m w) {record : Edge E} (found : host.edge? ⟨m⟩ = some record) :
    Expanded host (m + 1) (w.expandEdge ⟨m⟩ record.ends) := by
  obtain ⟨inFirst, inSecond⟩ := consistent.ends _ record found
  have firstSlot : w.nextJoint = host.order + 2 * m := expanded.joints
  have firstWire : w.nextWire = 3 * m := expanded.wires
  have sizes := size_expandEdge w ⟨m⟩ record.ends
  have sameHost := sameHost_expandEdge w ⟨m⟩ record.ends
  have keptKinds : ∀ (j : Nat) k, w.kind? j = some k →
      (w.expandEdge ⟨m⟩ record.ends).kind? j = some k := by
    intro j k h
    have lower : j < host.order + 2 * m := by
      rw [← firstSlot]
      exact lt_size_of_isLive (isLive_iff_kind?.mpr ⟨k, h⟩)
    rw [kind?_expandEdge, firstSlot, if_neg (by omega), if_neg (by omega), h]
  have keptWires : ∀ f : Nat, f < 3 * m →
      (w.expandEdge ⟨m⟩ record.ends).wire? f = w.wire? f := by
    intro f h
    rw [wire?_expandEdge, firstWire, if_neg (by omega), if_neg (by omega), if_neg (by omega)]
  have older : ∀ e : EdgeId, e.slot < m + 1 → e.slot < m ∨ e = ⟨m⟩ := by
    intro e he
    rcases Nat.lt_succ_iff_lt_or_eq.mp he with h | h
    · exact .inl h
    · exact .inr (Handle.ext_slot h)
  refine ⟨expanded.sound.expandEdge _ ⟨_, expanded.node _ inFirst⟩ ⟨_, expanded.node _ inSecond⟩,
    sameHost.order.trans expanded.hostOrder, sameHost.size.trans expanded.hostSize, ?_, ?_, ?_, ?_,
    ?_, ?_⟩
  · have joints : host.order + 2 * m + 2 = host.order + 2 * (m + 1) := by omega
    exact sizes.1.trans ((congrArg (· + 2) firstSlot).trans joints)
  · have wires : 3 * m + 3 = 3 * (m + 1) := by omega
    exact sizes.2.trans ((congrArg (· + 3) firstWire).trans wires)
  · exact fun v hv => keptKinds _ _ (expanded.node v hv)
  · intro e record' he found' side
    rcases older e he with old | rfl
    · exact keptKinds _ _ (expanded.socket e record' old found' side)
    · rw [kind?_expandEdge, firstSlot]
      cases side with
      | first => rw [socketSlot, if_neg (by simp [Side.toNat]), if_pos (by simp [Side.toNat])]
      | second => rw [socketSlot, if_pos (by simp [Side.toNat])]
  · intro e record' he found' side
    rcases older e he with old | rfl
    · have range : side.toNat < 2 := by cases side <;> simp [Side.toNat]
      rw [keptWires _ (by omega)]
      exact expanded.attachment e record' old found' side
    · rw [found] at found'
      cases found'
      rw [wire?_expandEdge, firstWire, firstSlot]
      cases side <;> simp [Side.toNat, Ends.get, socketSlot]
  · intro e record' he found'
    rcases older e he with old | rfl
    · rw [linkSlot, keptWires _ (by omega)]
      exact expanded.link e record' old found'
    · rw [wire?_expandEdge, firstWire, firstSlot]
      simp [linkSlot, socketSlot, Side.toNat]

/-- The sockets and wires of host edge `e`. -/
def expandAt (host : Graph N E) (w : Wiring) (e : EdgeId) : Wiring :=
  match host.edge? e with
  | none => w
  | some edge => w.expandEdge e edge.ends

theorem ofGraph_eq : ofGraph host = host.edgeIds.foldl (expandAt host)
    (host.vertexIds.foldl (fun w v => w.addNode (.host v)) ⟨#[], #[], host.order, host.size⟩) := rfl

theorem expanded_ofGraph (consistent : host.Consistent) :
    Expanded host host.size (ofGraph host) := by
  obtain ⟨sound, joints, wires, order, size, nodes⟩ :=
    expandNodes_spec host.order ⟨#[], #[], host.order, host.size⟩ (Sound.bare _ _) rfl
  have edges : ∀ m ≤ host.size, Expanded host m
      (((List.range m).map Handle.mk).foldl (expandAt host)
        (host.vertexIds.foldl (fun w v => w.addNode (.host v))
          ⟨#[], #[], host.order, host.size⟩)) := by
    intro m
    induction m with
    | zero =>
      intro _
      refine ⟨sound, order, size, joints, congrArg Array.size wires, ?_, ?_, ?_, ?_⟩
      · exact fun v hv => nodes v.slot hv
      · exact fun e record he => absurd he (Nat.not_lt_zero _)
      · exact fun e record he => absurd he (Nat.not_lt_zero _)
      · exact fun e record he => absurd he (Nat.not_lt_zero _)
    | succ m ih =>
      intro le
      obtain ⟨record, found⟩ := Graph.edge?_isSome_iff (g := host) (e := ⟨m⟩).mpr le
      simp only [List.range_succ, List.map_append, List.map_cons, List.map_nil, List.foldl_append,
        List.foldl_cons, List.foldl_nil, expandAt, found]
      exact (ih (by omega)).expandEdge consistent found
  rw [ofGraph_eq]
  exact edges host.size (Nat.le_refl _)

theorem trimmed_ofGraph (consistent : host.Consistent) :
    Trimmed host (fun _ => False) (fun _ => False) (ofGraph host) := by
  have expanded := expanded_ofGraph consistent
  refine ⟨expanded.sound, expanded.hostOrder, expanded.hostSize, expanded.joints, expanded.wires,
    ?_, ?_, ?_, ?_⟩
  · intro v hv k
    rw [show (ofGraph host).kind? v.slot = _ from expanded.node v hv]
    simp [eq_comm]
  · intro e record found side k
    have inside := Graph.edge?_isSome_iff.mp ⟨record, found⟩
    rw [show (ofGraph host).kind? _ = _ from expanded.socket e record inside found side]
    simp [eq_comm]
  · intro e record found side wire
    have inside := Graph.edge?_isSome_iff.mp ⟨record, found⟩
    rw [show (ofGraph host).wire? _ = _ from expanded.attachment e record inside found side]
    simp [eq_comm]
  · intro e record found wire
    have inside := Graph.edge?_isSome_iff.mp ⟨record, found⟩
    rw [show (ofGraph host).wire? _ = _ from expanded.link e record inside found]
    simp [eq_comm]

/-! ## Cuts -/

theorem socketSlot_inj {order : Nat} {e f : EdgeId} {s t : Side}
    (h : socketSlot order e s = socketSlot order f t) : e = f ∧ s = t := by
  have slots : order + 2 * e.slot + s.toNat = order + 2 * f.slot + t.toNat := h
  cases s <;> cases t <;> simp only [Side.toNat] at slots <;>
    first
    | exact ⟨Handle.ext_slot (by omega), rfl⟩
    | omega

theorem attachmentSlot_ne (e f : EdgeId) (side : Side) : 3 * e.slot + side.toNat ≠ linkSlot f := by
  have range : side.toNat < 2 := by cases side <;> simp [Side.toNat]
  have slots : 3 * e.slot + side.toNat ≠ 3 * f.slot + 2 := by omega
  exact slots

theorem linkSlot_inj {e f : EdgeId} (h : linkSlot e = linkSlot f) : e = f := by
  have slots : 3 * e.slot + 2 = 3 * f.slot + 2 := h
  exact Handle.ext_slot (by omega)

theorem slot_ne_socketSlot {v : VertexId} (hv : host.Contains v) (e : EdgeId) (side : Side) :
    v.slot ≠ socketSlot host.order e side := by
  have inside : v.slot < host.order := hv
  simp only [socketSlot]
  omega

variable {V : VertexId → Prop} {F : EdgeId → Prop} {w : Wiring}

namespace Trimmed

theorem joint_cases (trimmed : Trimmed host V F w) {j : Nat} (live : w.IsLive j) :
    (∃ v, host.Contains v ∧ j = v.slot) ∨
      ∃ e record side, host.edge? e = some record ∧ j = socketSlot host.order e side := by
  have inside : j < host.order + 2 * host.size := by
    rw [← trimmed.joints]
    exact lt_size_of_isLive live
  by_cases node : j < host.order
  · exact .inl ⟨⟨j⟩, node, rfl⟩
  · obtain ⟨record, found⟩ :=
      Graph.edge?_isSome_iff (g := host) (e := ⟨(j - host.order) / 2⟩).mpr (by simp only; omega)
    rcases Nat.mod_two_eq_zero_or_one (j - host.order) with even | odd
    · refine .inr ⟨_, record, .first, found, ?_⟩
      simp only [socketSlot, Side.toNat]
      omega
    · refine .inr ⟨_, record, .second, found, ?_⟩
      simp only [socketSlot, Side.toNat]
      omega

theorem wire_cases (trimmed : Trimmed host V F w) {f : Nat} {wire : Wire}
    (h : w.wire? f = some wire) : ∃ e record, host.edge? e = some record ∧
      (f = linkSlot e ∨ ∃ side : Side, f = 3 * e.slot + side.toNat) := by
  have inside : f < 3 * host.size := by
    rw [← trimmed.wires]
    exact lt_size_of_wire? h
  obtain ⟨record, found⟩ :=
    Graph.edge?_isSome_iff (g := host) (e := ⟨f / 3⟩).mpr (by simp only; omega)
  refine ⟨⟨f / 3⟩, record, found, ?_⟩
  have remainder : f % 3 = 0 ∨ f % 3 = 1 ∨ f % 3 = 2 := by omega
  simp only [linkSlot]
  rcases remainder with h | h | h
  · exact .inr ⟨.first, by simp only [Side.toNat]; omega⟩
  · exact .inr ⟨.second, by simp only [Side.toNat]; omega⟩
  · exact .inl (by omega)

theorem hasHostLink_iff (trimmed : Trimmed host V F w) {e : EdgeId} {record : Edge E}
    (found : host.edge? e = some record) :
    w.HasHostLink e ↔ (w.wire? (linkSlot e)).isSome = true := by
  unfold HasHostLink
  rw [trimmed.hostSize]
  simp [Graph.edge?_isSome_iff.mp ⟨record, found⟩]

end Trimmed

theorem wire?_cutEdge (trimmed : Trimmed host V F w) {e : EdgeId} {record : Edge E}
    (found : host.edge? e = some record) (f : WireId) :
    (w.cutEdge e).wire? f = if f = linkSlot e then none else w.wire? f := by
  unfold cutEdge
  split
  · exact wire?_removeWire w _ f
  · next gone =>
    rw [trimmed.hasHostLink_iff found] at gone
    split
    · next same =>
      subst same
      simpa using gone
    · rfl

theorem size_removeWire (w : Wiring) (e : WireId) :
    (w.removeWire e).joints.size = w.joints.size ∧ (w.removeWire e).wires.size = w.wires.size := by
  unfold removeWire
  split
  · exact ⟨rfl, rfl⟩
  · simp [unlistWire, modifyJoint]

theorem sameHost_removeWire (w : Wiring) (e : WireId) : SameHost w (w.removeWire e) := by
  unfold removeWire
  split
  · exact ⟨rfl, rfl⟩
  · exact ⟨rfl, rfl⟩

theorem Trimmed.cutEdge (trimmed : Trimmed host V F w) {e : EdgeId} {record : Edge E}
    (found : host.edge? e = some record) :
    Trimmed host V (fun x => F x ∨ x = e) (w.cutEdge e) := by
  have wires := wire?_cutEdge trimmed found
  have kinds : ∀ j, (w.cutEdge e).kind? j = w.kind? j := by
    intro j
    unfold Wiring.cutEdge
    split
    · exact kind?_removeWire ..
    · rfl
  have sizes : (w.cutEdge e).joints.size = w.joints.size ∧
      (w.cutEdge e).wires.size = w.wires.size := by
    unfold Wiring.cutEdge
    split
    · exact size_removeWire w _
    · exact ⟨rfl, rfl⟩
  have sameHost : SameHost w (w.cutEdge e) := by
    unfold Wiring.cutEdge
    split
    · exact sameHost_removeWire w _
    · exact ⟨rfl, rfl⟩
  refine {
    sound := ?sound
    hostOrder := sameHost.order.trans trimmed.hostOrder
    hostSize := sameHost.size.trans trimmed.hostSize
    joints := sizes.1.trans trimmed.joints
    wires := sizes.2.trans trimmed.wires
    node := ?node
    socket := ?socket
    attachment := ?attachment
    link := ?link }
  case sound =>
    unfold Wiring.cutEdge
    split
    · exact trimmed.sound.removeWire _
    · exact trimmed.sound
  case node =>
    intro v hv k
    rw [kinds]
    exact trimmed.node v hv k
  case socket =>
    intro d record' found' side k
    rw [kinds]
    exact trimmed.socket d record' found' side k
  case attachment =>
    intro d record' found' side wire
    rw [wires, if_neg (attachmentSlot_ne d e side)]
    exact trimmed.attachment d record' found' side wire
  case link =>
    intro d record' found' wire
    rw [wires]
    by_cases same : d = e
    · subst same
      simp
    · rw [if_neg fun h => same (linkSlot_inj h), trimmed.link d record' found' wire]
      simp [same]

theorem size_removeJoints (joints : List JointId) (w : Wiring) :
    (joints.foldl (fun w j => w.removeJoint j) w).joints.size = w.joints.size ∧
      (joints.foldl (fun w j => w.removeJoint j) w).wires.size = w.wires.size ∧
      SameHost w (joints.foldl (fun w j => w.removeJoint j) w) := by
  have wires : ∀ (wires : List WireId) (w : Wiring),
      (wires.foldl (fun w e => w.removeWire e) w).joints.size = w.joints.size ∧
        (wires.foldl (fun w e => w.removeWire e) w).wires.size = w.wires.size ∧
        SameHost w (wires.foldl (fun w e => w.removeWire e) w) := by
    intro wires
    induction wires with
    | nil => exact fun w => ⟨rfl, rfl, rfl, rfl⟩
    | cons e rest ih =>
      intro w
      obtain ⟨joints, wires, same⟩ := ih (w.removeWire e)
      obtain ⟨joints', wires'⟩ := size_removeWire w e
      exact ⟨joints.trans joints', wires.trans wires', (sameHost_removeWire w e).trans same⟩
  induction joints generalizing w with
  | nil => exact ⟨rfl, rfl, rfl, rfl⟩
  | cons j rest ih =>
    obtain ⟨joints, wires', same⟩ := ih (w.removeJoint j)
    obtain ⟨joints₀, wires₀, same₀⟩ := wires (w.incident j) w
    refine ⟨joints.trans ?_, wires'.trans wires₀, same₀.trans ⟨same.order, same.size⟩⟩
    simpa [removeJoint] using joints₀

/-- The sockets of a vertex not yet cut. -/
theorem Trimmed.mem_sockets_iff (trimmed : Trimmed host V F w) {v : VertexId}
    (hv : host.Contains v) (live : ¬ V v) {s : Nat} :
    s ∈ (w.incident v.slot).filterMap (fun e => w.opposite? e v.slot) ↔
      ∃ e record side, host.edge? e = some record ∧ record.ends.get side = v ∧
        s = socketSlot host.order e side := by
  have node : w.IsNode v.slot := ⟨_, (trimmed.node v hv _).mpr ⟨live, rfl⟩⟩
  simp only [List.mem_filterMap, trimmed.sound.mem_incident_iff, opposite?]
  constructor
  · rintro ⟨f, ⟨wire, h, -⟩, across⟩
    rw [h] at across
    have joins := Ends.opposite?_eq_some_iff.mp across
    obtain ⟨e, record, found, rfl | ⟨side, rfl⟩⟩ := trimmed.wire_cases h
    · obtain ⟨-, rfl⟩ := (trimmed.link e record found wire).mp h
      obtain ⟨first, second⟩ := trimmed.sound.link _ _ _ h
      rcases joins.touches.1 with same | same
      · exact absurd (same ▸ first) node.not_isSocket
      · exact absurd (same ▸ second) node.not_isSocket
    · obtain ⟨-, rfl⟩ := (trimmed.attachment e record found side wire).mp h
      rcases joins with same | same
      · simp only [Ends.mk.injEq] at same
        exact ⟨e, record, side, found, Handle.ext_slot same.1, same.2.symm⟩
      · simp only [Ends.mk.injEq] at same
        have socket := (trimmed.sound.attachment _ _ h).2
        exact absurd (same.2 ▸ socket) node.not_isSocket
  · rintro ⟨e, record, side, found, rfl, rfl⟩
    have h := (trimmed.attachment e record found side _).mpr ⟨live, rfl⟩
    refine ⟨_, ⟨_, h, .inl rfl⟩, ?_⟩
    rw [h]
    exact Ends.opposite?_eq_some_iff.mpr (.inl rfl)

theorem Trimmed.hostNode?_eq (trimmed : Trimmed host V F w) {v : VertexId}
    (hv : host.Contains v) :
    (V v → w.hostNode? v = none) ∧ (¬ V v → w.hostNode? v = some v.slot) := by
  have inside : v.slot < w.hostOrder := by
    rw [trimmed.hostOrder]
    exact hv
  have live : w.IsLive v.slot ↔ ¬ V v := by
    rw [isLive_iff_kind?]
    constructor
    · rintro ⟨k, h⟩
      exact ((trimmed.node v hv k).mp h).1
    · exact fun h => ⟨_, (trimmed.node v hv _).mpr ⟨h, rfl⟩⟩
  unfold hostNode?
  constructor
  · intro h
    rw [if_neg]
    simp [live, h]
  · intro h
    rw [if_pos ⟨inside, live.mpr h⟩]

/-! A vertex goes with its sockets. -/

/-- The joints at the far ends of the wires of a node, and the node. -/
def withSockets (w : Wiring) (node : JointId) : List JointId :=
  (w.incident node).filterMap (fun e => w.opposite? e node) ++ [node]

theorem cutVertex_of_none {v : VertexId} (gone : w.hostNode? v = none) : w.cutVertex v = w := by
  unfold cutVertex
  rw [gone]

theorem cutVertex_of_some {v : VertexId} {node : JointId} (there : w.hostNode? v = some node) :
    w.cutVertex v = (w.withSockets node).foldl (fun w j => w.removeJoint j) w := by
  unfold cutVertex
  rw [there]
  simp [withSockets]

/-- A wire stays that has neither end among the joints. -/
theorem forall_not_touches_iff {joints : List JointId} {a b : JointId} :
    (∀ j ∈ joints, ¬ (Ends.mk a b).Touches j) ↔ a ∉ joints ∧ b ∉ joints := by
  constructor
  · exact fun h => ⟨fun ha => h a ha (.inl rfl), fun hb => h b hb (.inr rfl)⟩
  · rintro ⟨ha, hb⟩ j hj (rfl | rfl)
    · exact ha hj
    · exact hb hj

namespace Trimmed

variable (trimmed : Trimmed host V F w) {v : VertexId} (hv : host.Contains v) (live : ¬ V v)

include trimmed hv live

theorem slot_mem_withSockets {u : VertexId} (hu : host.Contains u) :
    u.slot ∈ w.withSockets v.slot ↔ u = v := by
  rw [withSockets, List.mem_append, trimmed.mem_sockets_iff hv live, List.mem_singleton]
  constructor
  · rintro (⟨e, record, side, -, -, same⟩ | same)
    · exact absurd same (slot_ne_socketSlot hu e side)
    · exact Handle.ext_slot same
  · rintro rfl
    exact .inr rfl

theorem socketSlot_mem_withSockets {e : EdgeId} {record : Edge E} {side : Side}
    (found : host.edge? e = some record) :
    socketSlot host.order e side ∈ w.withSockets v.slot ↔ record.ends.get side = v := by
  rw [withSockets, List.mem_append, trimmed.mem_sockets_iff hv live, List.mem_singleton]
  constructor
  · rintro (⟨d, record', side', found', own, same⟩ | same)
    · obtain ⟨rfl, rfl⟩ := socketSlot_inj same
      rw [found] at found'
      cases found'
      exact own
    · exact absurd same.symm (slot_ne_socketSlot hv e side)
  · exact fun own => .inl ⟨e, record, side, found, own, rfl⟩

/-- With the node go its sockets and all wires at them. -/
theorem removeJoints (consistent : host.Consistent) : Trimmed host (fun x => V x ∨ x = v) F
    ((w.withSockets v.slot).foldl (fun w j => w.removeJoint j) w) := by
  obtain ⟨sound, kinds, wires⟩ := removeJoints_spec trimmed.sound (w.withSockets v.slot)
  obtain ⟨joints, wireSize, sameHost⟩ := size_removeJoints (w.withSockets v.slot) w
  have nodeIn {u : VertexId} := trimmed.slot_mem_withSockets hv live (u := u)
  have socketIn {e : EdgeId} {record : Edge E} (found : host.edge? e = some record) (side : Side) :
      socketSlot host.order e side ∈ w.withSockets v.slot ↔ record.ends.get side = v :=
    trimmed.socketSlot_mem_withSockets hv live found
  refine {
    sound
    hostOrder := sameHost.order.trans trimmed.hostOrder
    hostSize := sameHost.size.trans trimmed.hostSize
    joints := joints.trans trimmed.joints
    wires := wireSize.trans trimmed.wires
    node := ?node
    socket := ?socket
    attachment := ?attachment
    link := ?link }
  case node =>
    intro u hu k
    rw [kinds, not_or, ← nodeIn hu]
    split
    · next gone => simp [gone]
    · next there => simp [there, trimmed.node u hu k]
  case socket =>
    intro e record found side k
    rw [kinds, not_or, ← socketIn found side]
    split
    · next gone => simp [gone]
    · next there => simp [there, trimmed.socket e record found side k]
  case attachment =>
    intro e record found side wire
    rw [wires, trimmed.attachment e record found, not_or]
    have away : (∀ j ∈ w.withSockets v.slot, ¬ (Ends.mk (record.ends.get side).slot
        (socketSlot host.order e side)).Touches j) ↔ record.ends.get side ≠ v := by
      rw [forall_not_touches_iff, nodeIn (consistent.contains_get found side), socketIn found side]
      exact and_self_iff
    constructor
    · rintro ⟨⟨staying, rfl⟩, far⟩
      exact ⟨⟨staying, away.mp far⟩, rfl⟩
    · rintro ⟨⟨staying, other⟩, rfl⟩
      exact ⟨⟨staying, rfl⟩, away.mpr other⟩
  case link =>
    intro e record found wire
    rw [wires, trimmed.link e record found, not_or, not_or]
    have away : (∀ j ∈ w.withSockets v.slot, ¬ (Ends.mk (socketSlot host.order e .first)
        (socketSlot host.order e .second)).Touches j) ↔
          record.ends.first ≠ v ∧ record.ends.second ≠ v := by
      rw [forall_not_touches_iff, socketIn found .first, socketIn found .second]
      rfl
    constructor
    · rintro ⟨⟨⟨kept, first, second⟩, rfl⟩, far⟩
      obtain ⟨first', second'⟩ := away.mp far
      exact ⟨⟨kept, ⟨first, first'⟩, second, second'⟩, rfl⟩
    · rintro ⟨⟨kept, ⟨first, first'⟩, second, second'⟩, rfl⟩
      exact ⟨⟨⟨kept, first, second⟩, rfl⟩, away.mpr ⟨first', second'⟩⟩

omit live

theorem cutVertex (consistent : host.Consistent) :
    Trimmed host (fun x => V x ∨ x = v) F (w.cutVertex v) := by
  obtain ⟨gone, there⟩ := trimmed.hostNode?_eq hv
  by_cases live : V v
  · have absorbed : (fun x => V x ∨ x = v) = V := by
      funext x
      simp only [eq_iff_iff, or_iff_left_iff_imp]
      rintro rfl
      exact live
    rw [cutVertex_of_none (gone live), absorbed]
    exact trimmed
  · rw [cutVertex_of_some (there live)]
    exact trimmed.removeJoints hv live consistent

end Trimmed

end GraphSplice.Wiring
