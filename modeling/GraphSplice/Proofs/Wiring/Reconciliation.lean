import GraphSplice.Derivation
import GraphSplice.Proofs.Wiring.Nodes

/-!
Reconciliation as a whole. Sockets go to the lowest one beside them, nodes to the lowest one that
sockets side by side connect them to, and sockets without links are dropped.
-/

namespace GraphSplice.Wiring

variable {w w' : Wiring} {owner : Nat → Nat}

/-- Every socket hangs off one node. -/
structure Rooted (w : Wiring) (owner : Nat → Nat) : Prop where
  attached : ∀ s, w.IsSocket s → w.AttachedTo (owner s) s
  single : ∀ e f m n s, w.wire? e = some ⟨⟨m, s⟩, .attachment⟩ →
    w.wire? f = some ⟨⟨n, s⟩, .attachment⟩ → e = f

theorem Rooted.owner_eq (rooted : w.Rooted owner) (sound : w.Sound) {n s : Nat}
    (h : w.AttachedTo n s) : n = owner s := by
  obtain ⟨f, own⟩ := rooted.attached s (h.isSocket sound)
  obtain ⟨e, found⟩ := h
  obtain rfl := rooted.single e f n (owner s) s found own
  rw [found] at own
  cases own
  rfl

/-- A socket of one node is beside a socket of the other. -/
def Touching (w : Wiring) (owner : Nat → Nat) (m n : Nat) : Prop :=
  ∃ s t, w.IsSocket s ∧ w.IsSocket t ∧ owner s = m ∧ owner t = n ∧ w.Beside s t

/-- What a reconciled wiring is to the one it was made of, where sockets went along `p` and nodes
along `q`. -/
structure Settled (w : Wiring) (owner p q : Nat → Nat) (w' : Wiring) : Prop where
  sound : w'.Sound
  leastSocket : Least w.Beside p
  leastNode : Least (Relation.EqvGen (w.Touching owner)) q
  node : ∀ j origin,
    w'.kind? j = some (.node origin) ↔ w.kind? j = some (.node origin) ∧ q j = j
  socket : ∀ s, w'.IsSocket s ↔ w.IsSocket s ∧ p s = s ∧ w.links s ≠ []
  hangs : ∀ s, w'.IsSocket s → w'.attachedNodes s = [q (owner s)]
  origin : ∀ e ends o, w'.wire? e = some ⟨ends, .link o⟩ →
    ∃ ends', w.wire? e = some ⟨ends', .link o⟩ ∧ ends = ends'.map p
  cover : ∀ e ends o, w.wire? e = some ⟨ends, .link o⟩ →
    ∃ f ends' o', w'.wire? f = some ⟨ends', .link o'⟩ ∧ ends'.Joins (p ends.first) (p ends.second)
  keep : ∀ e ends o, w.wire? e = some ⟨ends, .link o⟩ → ends.map p = ends →
    w'.wire? e = some ⟨ends, .link o⟩
  single : ∀ e f x y a b o o', e ≠ f → w'.wire? e = some ⟨x, .link o⟩ →
    w'.wire? f = some ⟨y, .link o'⟩ → x.Joins a b → y.Joins a b → w.wire? e = some ⟨x, .link o⟩

theorem beside_cases (sound : w.Sound) {j k : Nat} (h : w.Beside j k) :
    j = k ∨ (w.links j ≠ [] ∧ w.links k ≠ []) := by
  obtain ⟨n, -, walk⟩ := h
  cases n with
  | zero => exact .inl walk
  | succ n =>
    have back := walk.reverse LinkedTo.symm
    exact .inr ⟨links_ne_nil_of_walk sound walk, links_ne_nil_of_walk sound back⟩

theorem isSocket_of_links (sound : w.Sound) {j : Nat} (h : w.links j ≠ []) : w.IsSocket j := by
  obtain ⟨k, linked⟩ := (links_ne_nil_iff sound).mp h
  exact linked.isSocket sound

/-- A wire between a node and a socket is an attachment, the node first. -/
theorem attachment_of_joins (sound : w.Sound) {e : WireId} {wire : Wire} {n s : Nat}
    (found : w.wire? e = some wire) (joins : wire.ends.Joins n s) (node : w.IsNode n)
    (socket : w.IsSocket s) : w.wire? e = some ⟨⟨n, s⟩, .attachment⟩ := by
  obtain ⟨ends, kind⟩ := wire
  cases kind with
  | attachment =>
    rcases joins with rfl | rfl
    · exact found
    · exact absurd socket (sound.attachment e _ found).1.not_isSocket
  | link origin =>
    obtain ⟨first, second⟩ := sound.link e _ _ found
    rcases joins with rfl | rfl
    · exact absurd first node.not_isSocket
    · exact absurd second node.not_isSocket

theorem Redirects.attachment_origin {f : Nat → Nat} (redirects : Redirects f w w') {e : WireId}
    {n s : Nat} (h : w'.wire? e = some ⟨⟨n, s⟩, .attachment⟩) :
    ∃ m t, w.wire? e = some ⟨⟨m, t⟩, .attachment⟩ ∧ f m = n ∧ f t = s := by
  obtain ⟨⟨⟨m, t⟩, kind⟩, old, same⟩ := redirects.origin e _ h
  simp only [Ends.map, Wire.mk.injEq, Ends.mk.injEq] at same
  obtain ⟨⟨rfl, rfl⟩, rfl⟩ := same
  exact ⟨m, t, old, rfl, rfl⟩

theorem isSocket_target (sound : w.Sound) {p : Nat → Nat} (least : Least w.Beside p) {s : Nat}
    (hs : w.IsSocket s) : w.IsSocket (p s) := by
  rcases beside_cases sound (least.related s) with same | ⟨-, linked⟩
  · rwa [← same]
  · exact isSocket_of_links sound linked

theorem target_of_isNode (sound : w.Sound) {p : Nat → Nat} (least : Least w.Beside p) {n : Nat}
    (hn : w.IsNode n) : p n = n := by
  rcases beside_cases sound (least.related n) with same | ⟨linked, -⟩
  · exact same.symm
  · exact absurd (isSocket_of_links sound linked) hn.not_isSocket

theorem touching_cases (sound : w.Sound) (rooted : w.Rooted owner) {m n : Nat}
    (h : Relation.EqvGen (w.Touching owner) m n) : m = n ∨ (w.IsNode m ∧ w.IsNode n) := by
  induction h with
  | rel m n touching =>
    obtain ⟨s, t, hs, ht, rfl, rfl, -⟩ := touching
    exact .inr ⟨(rooted.attached s hs).isNode sound, (rooted.attached t ht).isNode sound⟩
  | refl m => exact .inl rfl
  | symm m n _ ih => exact ih.imp Eq.symm And.symm
  | trans m n l _ _ first second =>
    rcases first with rfl | ⟨hm, hn⟩
    · exact second
    · rcases second with rfl | ⟨-, hl⟩
      · exact .inr ⟨hm, hn⟩
      · exact .inr ⟨hm, hl⟩

theorem isNode_target (sound : w.Sound) (rooted : w.Rooted owner) {q : Nat → Nat}
    (least : Least (Relation.EqvGen (w.Touching owner)) q) {n : Nat} (hn : w.IsNode n) :
    w.IsNode (q n) := by
  rcases touching_cases sound rooted (least.related n) with same | ⟨-, target⟩
  · rwa [← same]
  · exact target

/-- The sockets merged along `p`, and no node so far. -/
structure SocketsMerged (w : Wiring) (p : Nat → Nat) (w' : Wiring) : Prop where
  sound : w'.Sound
  least : Least w.Beside p
  kind : ∀ j, w'.kind? j = if p j = j then w.kind? j else none
  redirects : Redirects p w w'

namespace SocketsMerged

variable {p : Nat → Nat} (merged : SocketsMerged w p w') (sound : w.Sound)
  (rooted : w.Rooted owner)

include merged

theorem isSocket_iff {s : Nat} : w'.IsSocket s ↔ w.IsSocket s ∧ p s = s := by
  unfold IsSocket
  rw [merged.kind]
  split
  · next own => simp [own]
  · next own => simp [own]

include sound

theorem node_iff {j : Nat} {origin : NodeOrigin} :
    w'.kind? j = some (.node origin) ↔ w.kind? j = some (.node origin) := by
  rw [merged.kind]
  constructor
  · intro h
    split at h
    · exact h
    · cases h
  · intro h
    rw [if_pos (target_of_isNode sound merged.least ⟨origin, h⟩), h]

theorem isNode_iff {n : Nat} : w'.IsNode n ↔ w.IsNode n :=
  exists_congr fun _ => merged.node_iff sound

include rooted

theorem attachedTo_iff {n s : Nat} :
    w'.AttachedTo n s ↔ ∃ t, w.IsSocket t ∧ p t = s ∧ owner t = n := by
  constructor
  · rintro ⟨e, found⟩
    obtain ⟨m, t, old, rfl, rfl⟩ := merged.redirects.attachment_origin found
    obtain ⟨node, socket⟩ := sound.attachment e _ old
    refine ⟨t, socket, rfl, ?_⟩
    rw [target_of_isNode sound merged.least node]
    exact (rooted.owner_eq sound ⟨e, old⟩).symm
  · rintro ⟨t, ht, rfl, rfl⟩
    have attached := rooted.attached t ht
    have node := attached.isNode sound
    obtain ⟨e, found⟩ := attached
    obtain ⟨f, wire, found', joins⟩ := merged.redirects.cover e _ found
    rw [target_of_isNode sound merged.least node] at joins
    have idem := merged.least.idem (beside_equivalence w) t
    exact ⟨f, attachment_of_joins merged.sound found' joins ((merged.isNode_iff sound).mpr node)
      (merged.isSocket_iff.mpr ⟨isSocket_target sound merged.least ht, idem⟩)⟩

theorem shareSocket_eq : w'.ShareSocket = w.Touching owner := by
  have equivalence := beside_equivalence w
  funext m n
  apply propext
  simp only [ShareSocket, merged.attachedTo_iff sound rooted, Touching]
  constructor
  · rintro ⟨s, ⟨t, ht, same, hm⟩, u, hu, same', hn⟩
    exact ⟨t, u, ht, hu, hm, hn, (merged.least.eq_iff equivalence).mp (same.trans same'.symm)⟩
  · rintro ⟨s, t, hs, ht, hm, hn, beside⟩
    exact ⟨p t, ⟨s, hs, (merged.least.eq_iff equivalence).mpr beside, hm⟩, t, ht, rfl, hn⟩

omit rooted in
theorem root_of_isSocket {s : Nat} (hs : w.IsSocket s) : w'.nodeForest.root s = s := by
  rcases shareSocket_cases merged.sound ((least_nodeForest merged.sound).related s) with
    same | ⟨node, -⟩
  · exact same.symm
  · exact absurd hs ((merged.isNode_iff sound).mp node).not_isSocket

end SocketsMerged

/-- The two mergings one after the other, before sockets are dropped. -/
structure Merged (w : Wiring) (owner p q : Nat → Nat) (w' : Wiring) : Prop where
  sound : w'.Sound
  leastSocket : Least w.Beside p
  leastNode : Least (Relation.EqvGen (w.Touching owner)) q
  node : ∀ j origin,
    w'.kind? j = some (.node origin) ↔ w.kind? j = some (.node origin) ∧ q j = j
  socket : ∀ s, w'.IsSocket s ↔ w.IsSocket s ∧ p s = s
  fixedNode : ∀ n, w.IsNode n → p n = n
  fixedSocket : ∀ s, w.IsSocket s → q s = s
  redirects : Redirects (fun j => q (p j)) w w'

theorem SocketsMerged.mergeNodes {p : Nat → Nat} {w₁ : Wiring} (first : SocketsMerged w p w₁)
    (sound : w.Sound) (rooted : w.Rooted owner) :
    Merged w owner p w₁.nodeForest.root w₁.mergeNodes.1 := by
  obtain ⟨sound', kinds, redirects⟩ := mergeNodes_spec first.sound
  have leastNode : Least (Relation.EqvGen (w.Touching owner)) w₁.nodeForest.root := by
    rw [← first.shareSocket_eq sound rooted]
    exact least_nodeForest first.sound
  refine {
    sound := sound'
    leastSocket := first.least
    leastNode
    node := ?node
    socket := ?socket
    fixedNode := fun n hn => target_of_isNode sound first.least hn
    fixedSocket := fun s hs => first.root_of_isSocket sound hs
    redirects := first.redirects.trans redirects (first.least.le (beside_equivalence w))
      w₁.nodeForest.root_le }
  case node =>
    intro j origin
    rw [kinds, ← first.node_iff sound]
    split
    · next own => simp [own]
    · next own => simp [own]
  case socket =>
    intro s
    rw [← first.isSocket_iff]
    unfold IsSocket
    rw [kinds]
    constructor
    · rintro ⟨origin, h⟩
      split at h
      · exact ⟨origin, h⟩
      · cases h
    · rintro ⟨origin, h⟩
      have own := first.root_of_isSocket sound (first.isSocket_iff.mp ⟨origin, h⟩).1
      exact ⟨origin, by rw [if_pos own, h]⟩

theorem mem_dangling_iff {j : Nat} : j ∈ w.dangling ↔ w.IsSocket j ∧ w.links j = [] := by
  simp [dangling, mem_liveSockets_iff]

namespace Merged

variable {p q : Nat → Nat}

theorem origin_link (merged : Merged w owner p q w') (sound : w.Sound) {e : WireId}
    {ends : Ends JointId} {o : LinkOrigin} (h : w'.wire? e = some ⟨ends, .link o⟩) :
    ∃ ends', w.wire? e = some ⟨ends', .link o⟩ ∧ ends = ends'.map p := by
  obtain ⟨⟨⟨a, b⟩, kind⟩, old, same⟩ := merged.redirects.origin e _ h
  simp only [Wire.mk.injEq] at same
  obtain ⟨rfl, rfl⟩ := same
  obtain ⟨first, second⟩ := sound.link e _ o old
  refine ⟨⟨a, b⟩, old, ?_⟩
  simp only [Ends.map]
  rw [merged.fixedSocket _ (isSocket_target sound merged.leastSocket first),
    merged.fixedSocket _ (isSocket_target sound merged.leastSocket second)]

theorem cover_link (merged : Merged w owner p q w') (sound : w.Sound) {e : WireId}
    {ends : Ends JointId} {o : LinkOrigin} (h : w.wire? e = some ⟨ends, .link o⟩) :
    ∃ f ends' o', w'.wire? f = some ⟨ends', .link o'⟩ ∧
      ends'.Joins (p ends.first) (p ends.second) := by
  obtain ⟨first, second⟩ := sound.link e _ o h
  have first' := isSocket_target sound merged.leastSocket first
  have second' := isSocket_target sound merged.leastSocket second
  obtain ⟨f, ⟨ends', kind⟩, found, joins⟩ := merged.redirects.cover e _ h
  simp only at joins
  rw [merged.fixedSocket _ first', merged.fixedSocket _ second'] at joins
  cases kind with
  | link o' => exact ⟨f, ends', o', found, joins⟩
  | attachment =>
    have idem := merged.leastSocket.idem (beside_equivalence w)
    obtain ⟨node, -⟩ := merged.sound.attachment f _ found
    rcases joins with rfl | rfl
    · exact absurd ((merged.socket _).mpr ⟨first', idem _⟩) node.not_isSocket
    · exact absurd ((merged.socket _).mpr ⟨second', idem _⟩) node.not_isSocket

theorem links_ne_nil (merged : Merged w owner p q w') (sound : w.Sound) {s : Nat}
    (own : p s = s) : w'.links s ≠ [] ↔ w.links s ≠ [] := by
  have equivalence := beside_equivalence w
  constructor
  · intro h
    obtain ⟨k, e, ends, o, found, joins⟩ := (links_ne_nil_iff merged.sound).mp h
    obtain ⟨⟨a, b⟩, old, rfl⟩ := merged.origin_link sound found
    have linked : w.LinkedTo a b := ⟨e, _, o, old, .inl rfl⟩
    have reached : ∀ c, w.links c ≠ [] → p c = s → w.links s ≠ [] := by
      intro c hc same
      rcases beside_cases sound (merged.leastSocket.related c) with still | ⟨-, there⟩
      · rwa [← same, ← still]
      · rwa [← same]
    rcases joins.touches.1 with same | same
    · exact reached a (linked.symm.links_ne_nil sound) same
    · exact reached b (linked.links_ne_nil sound) same
  · intro h
    obtain ⟨k, e, ends, o, found, joins⟩ := (links_ne_nil_iff sound).mp h
    obtain ⟨f, ends', o', found', joins'⟩ := merged.cover_link sound found
    refine (links_ne_nil_iff merged.sound).mpr ⟨p k, f, ends', o', found', ?_⟩
    have mapped := joins.map p
    rw [own] at mapped
    exact (ends.map p).joins_self.of_parallel mapped joins'

theorem attached (merged : Merged w owner p q w') (sound : w.Sound) (rooted : w.Rooted owner)
    {s : Nat} (hs : w.IsSocket s) (own : p s = s) :
    ∃ e, w'.wire? e = some ⟨⟨q (owner s), s⟩, .attachment⟩ ∧
      ∀ f m, w'.wire? f = some ⟨⟨m, s⟩, .attachment⟩ → f = e := by
  have attached := rooted.attached s hs
  have node := attached.isNode sound
  obtain ⟨e, found⟩ := attached
  obtain ⟨g, wire, found', joins⟩ := merged.redirects.cover e _ found
  simp only at joins
  rw [merged.fixedNode _ node, own, merged.fixedSocket s hs] at joins
  have node' : w'.IsNode (q (owner s)) := by
    have idem := merged.leastNode.idem (Relation.EqvGen.is_equivalence _) (owner s)
    obtain ⟨origin, h⟩ := isNode_target sound rooted merged.leastNode node
    exact ⟨origin, (merged.node _ origin).mpr ⟨h, idem⟩⟩
  have there : w'.wire? g = some ⟨⟨q (owner s), s⟩, .attachment⟩ :=
    attachment_of_joins merged.sound found' joins node' ((merged.socket s).mpr ⟨hs, own⟩)
  refine ⟨g, there, ?_⟩
  intro f m h
  have target : m = q (owner s) := by
    obtain ⟨n, t, old, rfl, rfl⟩ := merged.redirects.attachment_origin h
    obtain ⟨nodeN, socketT⟩ := sound.attachment f _ old
    have socketP := isSocket_target sound merged.leastSocket socketT
    rw [merged.fixedNode n nodeN, rooted.owner_eq sound ⟨f, old⟩]
    refine (merged.leastNode.eq_iff (Relation.EqvGen.is_equivalence _)).mpr (.rel _ _ ?_)
    rw [merged.fixedSocket _ socketP]
    exact ⟨t, p t, socketT, socketP, rfl, rfl, merged.leastSocket.related t⟩
  subst target
  by_contra different
  have old :=
    merged.redirects.single f g _ _ (q (owner s)) s different h there (.inl rfl) (.inl rfl)
  have old' := merged.redirects.single g f _ _ (q (owner s)) s (Ne.symm different) there h
    (.inl rfl) (.inl rfl)
  exact different (rooted.single f g _ _ s old old')

/-! Dropping the sockets without links. -/

section Prune

variable (merged : Merged w owner p q w')

include merged

theorem kind?_prune (j : Nat) :
    w'.prune.1.kind? j = if j ∈ w'.dangling then none else w'.kind? j :=
  (removeJoints_spec merged.sound w'.dangling).2.1 j

theorem wire?_prune_iff {e : WireId} {wire : Wire} : w'.prune.1.wire? e = some wire ↔
    w'.wire? e = some wire ∧ ∀ j ∈ w'.dangling, ¬ wire.ends.Touches j :=
  (removeJoints_spec merged.sound w'.dangling).2.2 e wire

theorem link_prune_iff {e : WireId} {ends : Ends JointId} {o : LinkOrigin} :
    w'.prune.1.wire? e = some ⟨ends, .link o⟩ ↔ w'.wire? e = some ⟨ends, .link o⟩ := by
  refine (merged.wire?_prune_iff).trans ⟨fun h => h.1, fun h => ⟨h, ?_⟩⟩
  intro j hj touches
  have listed := (mem_links_iff merged.sound).mpr ⟨ends, o, h, touches⟩
  rw [(mem_dangling_iff.mp hj).2] at listed
  cases listed

theorem isSocket_prune_iff (sound : w.Sound) {s : Nat} :
    w'.prune.1.IsSocket s ↔ w.IsSocket s ∧ p s = s ∧ w.links s ≠ [] := by
  rw [← and_assoc, ← merged.socket]
  unfold IsSocket
  rw [merged.kind?_prune]
  constructor
  · rintro ⟨origin, h⟩
    split at h
    · cases h
    · next staying =>
      have there : w'.IsSocket s := ⟨origin, h⟩
      refine ⟨there, ?_⟩
      rw [← merged.links_ne_nil sound ((merged.socket s).mp there).2]
      exact fun none => staying (mem_dangling_iff.mpr ⟨there, none⟩)
  · rintro ⟨⟨origin, h⟩, linked⟩
    rw [← merged.links_ne_nil sound ((merged.socket s).mp ⟨origin, h⟩).2] at linked
    exact ⟨origin, by rw [if_neg fun hs => linked (mem_dangling_iff.mp hs).2, h]⟩

theorem prune (sound : w.Sound) (rooted : w.Rooted owner) : Settled w owner p q w'.prune.1 := by
  have sound' : w'.prune.1.Sound := (removeJoints_spec merged.sound w'.dangling).1
  refine {
    sound := sound'
    leastSocket := merged.leastSocket
    leastNode := merged.leastNode
    node := ?node
    socket := fun s => merged.isSocket_prune_iff sound
    hangs := ?hangs
    origin := fun e ends o h => merged.origin_link sound (merged.link_prune_iff.mp h)
    cover := ?cover
    keep := ?keep
    single := ?single }
  case node =>
    intro j origin
    rw [← merged.node, merged.kind?_prune]
    constructor
    · intro h
      split at h
      · cases h
      · exact h
    · intro h
      rw [if_neg, h]
      exact fun hj => IsNode.not_isSocket ⟨origin, h⟩ (mem_dangling_iff.mp hj).1
  case hangs =>
    intro s hs
    obtain ⟨there, own, linked⟩ := (merged.isSocket_prune_iff sound).mp hs
    obtain ⟨e, found, single⟩ := merged.attached sound rooted there own
    have kept : w'.prune.1.wire? e = some ⟨⟨q (owner s), s⟩, .attachment⟩ := by
      refine merged.wire?_prune_iff.mpr ⟨found, ?_⟩
      rintro j hj (rfl | rfl)
      · exact (merged.sound.attachment e _ found).1.not_isSocket (mem_dangling_iff.mp hj).1
      · rw [← merged.links_ne_nil sound own] at linked
        exact linked (mem_dangling_iff.mp hj).2
    exact attachedNodes_eq_singleton sound' kept fun f m h =>
      single f m (merged.wire?_prune_iff.mp h).1
  case cover =>
    intro e ends o h
    obtain ⟨f, ends', o', found, joins⟩ := merged.cover_link sound h
    exact ⟨f, ends', o', merged.link_prune_iff.mpr found, joins⟩
  case keep =>
    intro e ends o h fixed
    refine merged.link_prune_iff.mpr (merged.redirects.keep e _ h ?_)
    obtain ⟨first, second⟩ := sound.link e ends o h
    obtain ⟨a, b⟩ := ends
    simp only [Ends.map, Ends.mk.injEq] at fixed ⊢
    exact ⟨by rw [fixed.1]; exact merged.fixedSocket _ first,
      by rw [fixed.2]; exact merged.fixedSocket _ second⟩
  case single =>
    intro e f x y a b o o' different hx hy joinsX joinsY
    exact merged.redirects.single e f _ _ a b different (merged.link_prune_iff.mp hx)
      (merged.link_prune_iff.mp hy) joinsX joinsY

end Prune

end Merged

/-- A batch is refused for the odd component with the lowest socket, or its wiring is settled. -/
theorem reconcile_spec (sound : w.Sound) (rooted : w.Rooted owner) (checkParity : Bool)
    (checked : checkParity = true ∨ ∀ j, ¬ OnOddWalk w.LinkedTo j) :
    match Derivation.reconcile w checkParity with
    | .error e => ∃ c start, e = .oddCycle c.sockets.length ∧ w.IsComponent start c ∧
        OnOddWalk w.LinkedTo start ∧ ∀ j, OnOddWalk w.LinkedTo j → start ≤ j
    | .ok r => (∀ j, ¬ OnOddWalk w.LinkedTo j) ∧ ∃ p q, Settled w owner p q r.wiring := by
  have outcome := mergeSockets_spec sound checkParity checked
  unfold Derivation.reconcile
  cases h : w.mergeSockets checkParity with
  | error c =>
    rw [h] at outcome
    obtain ⟨start, component, odd, lowest⟩ := outcome
    exact ⟨c, start, rfl, component, odd, lowest⟩
  | ok result =>
    obtain ⟨w₁, count⟩ := result
    rw [h] at outcome
    obtain ⟨balanced, sound₁, kinds₁, redirects₁⟩ := outcome
    have first : SocketsMerged w w.socketTarget w₁ :=
      ⟨sound₁, least_socketTarget sound balanced, kinds₁, redirects₁⟩
    have merged := first.mergeNodes sound rooted
    exact ⟨balanced, _, _, merged.prune sound rooted⟩

end GraphSplice.Wiring
