import GraphSplice.Proofs.Wiring.Passage

/-!
What the merging of nodes leaves. The nodes that a chain of shared sockets connects become one, the
lowest of them; each socket keeps one attachment to it, and no link is touched.
-/

namespace GraphSplice.Wiring

variable {D : Domain} {host : Host D} {w w' : Wiring}

/-! ## Host nodes -/

/-- Host nodes come before created ones. -/
def HostFirst (w : Wiring) : Prop :=
  ∀ m n u p, w.kind? m = some (.node (.host u)) → w.kind? n = some (.node (.created p)) → m < n

theorem HostFirst.of_fewer (first : w.HostFirst)
    (fewer : ∀ j k, w'.kind? j = some k → w.kind? j = some k) : w'.HostFirst :=
  fun m n u p hm hn => first m n u p (fewer m _ hm) (fewer n _ hn)

theorem HostFirst.addNode (first : w.HostFirst) (p : Provenance) :
    (w.addNode (.created p)).HostFirst := by
  intro m n u q hm hn
  rw [Wiring.addNode, kind?_addJoint] at hm hn
  split at hm
  · cases hm
  · split at hn
    · next last =>
      rw [last]
      exact lt_size_of_isLive (isLive_iff_kind?.mpr ⟨_, hm⟩)
    · exact first m n u q hm hn

theorem HostFirst.addSocket (first : w.HostFirst) (node : JointId) (origin : SocketOrigin) :
    (w.addSocket node origin).HostFirst := by
  intro m n u p hm hn
  rw [kind?_addSocket] at hm hn
  split at hm
  · cases hm
  · split at hn
    · cases hn
    · exact first m n u p hm hn

theorem Prepared.hostFirst (consistent : host.Consistent) (prepared : Prepared host w) :
    w.HostFirst := by
  induction prepared with
  | expanded =>
    intro m n u p _ hn
    obtain ⟨v, same, -⟩ := (Blueprint.node_iff_of_trimmed (trimmed_ofGraph consistent)).mp hn
    cases same
  | cutEdge e _ ih =>
    unfold Wiring.cutEdge
    split
    · exact ih.of_fewer fun j k h => by rwa [kind?_removeWire] at h
    · exact ih
  | cutVertex v prepared ih =>
    cases found : Wiring.hostNode? _ v with
    | none => rwa [cutVertex_of_none found]
    | some n =>
      rw [cutVertex_of_some found]
      refine List.foldlRecOn (motive := HostFirst) _ _ ih ?_
      exact fun w first i _ => first.of_fewer fun j k => kind?_of_removeJoint
  | addNode p _ ih => exact ih.addNode p
  | addSocket _ _ ih => exact ih.addSocket _ _
  | addLink p _ _ _ ih => exact ih.of_fewer fun j k h => by rwa [kind?_addLink] at h

theorem HostFirst.apply {f : Folding} {left : List Folding} (first : w.HostFirst) (hung : w.Hung)
    (foldable : w.Foldable (f :: left)) : (f.apply w).HostFirst := by
  obtain ⟨-, kinds⟩ := Folding.apply_spec hung (foldable.fits f List.mem_cons_self)
  refine first.of_fewer ?_
  intro j k h
  rw [kinds] at h
  split at h
  · cases h
  · exact h

theorem Passage.hostFirst (consistent : host.Consistent) {phase : Phase}
    (passage : Passage host phase w) : w.HostFirst := by
  induction passage with
  | prepared prepared => exact prepared.hostFirst consistent
  | beginSockets _ ih => exact ih
  | foldSocket passage ih =>
    obtain ⟨hung, foldable⟩ := passage.holds consistent
    exact ih.apply hung foldable
  | beginNodes _ ih => exact ih
  | foldNode passage ih =>
    obtain ⟨hung, foldable, -⟩ := passage.holds consistent
    exact ih.apply hung foldable
  | beginDrops _ ih => exact ih
  | drop _ ih => exact ih.of_fewer fun j k => kind?_of_removeJoint

/-! ## Survivors -/

/-- The node is folded into the survivor, or survives itself. -/
def GoesInto (w : Wiring) (n r : JointId) : Prop :=
  (∃ f ∈ w.nodeFoldings, f.member = n ∧ f.rep = r) ∨ (n = r ∧ ∀ f ∈ w.nodeFoldings, f.member ≠ n)

theorem mem_nodeFoldings {f : Folding} (hf : f ∈ w.nodeFoldings) :
    w.nodeForest.root f.member = f.rep ∧ f.rep ≠ f.member := by
  obtain ⟨hc, hm⟩ := mem_foldings_iff.mp hf
  exact (Forest.mem_members_iff hc).mp hm

theorem exists_folding_iff {n r : JointId} :
    (∃ f ∈ w.nodeFoldings, f.member = n ∧ f.rep = r) ↔ w.nodeForest.root n = r ∧ r ≠ n := by
  constructor
  · rintro ⟨f, hf, rfl, rfl⟩
    exact mem_nodeFoldings hf
  · rintro ⟨rfl, moved⟩
    obtain ⟨members, listed, mem⟩ := Forest.exists_class moved
    exact ⟨⟨_, members, n⟩, mem_foldings_iff.mpr ⟨listed, mem⟩, rfl, rfl⟩

theorem goesInto_iff {n r : JointId} : w.GoesInto n r ↔ w.nodeForest.root n = r := by
  unfold GoesInto
  rw [exists_folding_iff]
  constructor
  · rintro (⟨top, -⟩ | ⟨rfl, unfolded⟩)
    · exact top
    · by_contra moved
      obtain ⟨f, hf, same, -⟩ := exists_folding_iff.mpr ⟨rfl, moved⟩
      exact unfolded f hf same
  · rintro rfl
    by_cases top : w.nodeForest.root n = n
    · refine .inr ⟨top.symm, ?_⟩
      rintro f hf rfl
      obtain ⟨same, moved⟩ := mem_nodeFoldings hf
      exact moved (same.symm.trans top)
    · exact .inl ⟨rfl, top⟩

instance (w : Wiring) : Std.Symm w.ShareSocket where
  symm := fun _ _ ⟨s, hm, hn⟩ => ⟨s, hn, hm⟩

theorem root_eq_iff_chain (sound : w.Sound) {m n : JointId} :
    w.nodeForest.root m = w.nodeForest.root n ↔ Relation.ReflTransGen w.ShareSocket m n := by
  rw [← Relation.EqvGen.eqvGen_eq_reflTransGen]
  exact (least_nodeForest sound).eq_iff (Relation.EqvGen.is_equivalence _)

/-- The links of a wiring with the nodes merged are those it had before. -/
theorem link_mergeNodes_iff (sound : w.Sound) {e : WireId} {ends : Ends JointId} {o : LinkOrigin} :
    w.mergeNodes.1.wire? e = some ⟨ends, .link o⟩ ↔ w.wire? e = some ⟨ends, .link o⟩ := by
  have redirects := (mergeNodes_spec sound).2.2
  have still : ∀ {x : Ends JointId}, w.wire? e = some ⟨x, .link o⟩ →
      x.map w.nodeForest.root = x := by
    rintro ⟨a, b⟩ found
    obtain ⟨first, second⟩ := sound.link e _ o found
    simp only [Ends.map, Ends.mk.injEq]
    exact ⟨root_of_not_isNode sound fun node => node.not_isSocket first,
      root_of_not_isNode sound fun node => node.not_isSocket second⟩
  constructor
  · intro h
    obtain ⟨⟨x, kind⟩, old, same⟩ := redirects.origin e _ h
    simp only [Wire.mk.injEq] at same
    obtain ⟨rfl, rfl⟩ := same
    rwa [still old]
  · exact fun h => redirects.keep e _ h (still h)

theorem count_links (sound : w.Sound) {s : JointId} (socket : w.IsSocket s) (e : WireId) :
    (w.links s).count e = if w.isLink e then w.endsAt e s else 0 := by
  unfold links
  split
  · next link => rw [List.count_filter link, sound.listed s socket.isLive]
  · next other =>
    rw [List.count_eq_zero]
    exact fun listed => other (List.mem_filter.mp listed).2

/-- The nodes folded away. -/
def foldedNodes (w : Wiring) : List JointId := w.nodeForest.classes.flatMap (·.2)

theorem mem_foldedNodes_iff {n : JointId} : n ∈ w.foldedNodes ↔ w.nodeForest.root n ≠ n := by
  simp only [foldedNodes, List.mem_flatMap]
  constructor
  · rintro ⟨c, hc, hn⟩
    obtain ⟨top, moved⟩ := (Forest.mem_members_iff hc).mp hn
    rwa [top]
  · intro moved
    obtain ⟨members, listed, mem⟩ := Forest.exists_class moved
    exact ⟨_, listed, mem⟩

theorem nodup_foldedNodes (w : Wiring) : w.foldedNodes.Nodup := by
  rw [foldedNodes, List.nodup_flatMap]
  refine ⟨fun c hc => Forest.nodup_members hc, w.nodeForest.disjoint_classes.imp ?_⟩
  exact fun apart j hj hj' => apart j (.inr hj) (.inr hj')

/-- What merging nodes makes of `w`, with the number of nodes folded away. -/
structure NodesMerged (w w' : Wiring) (folded : Nat) : Prop where
  steps : w.nodeFoldings.foldl Folding.apply w = w'
  goes : ∀ n, w.IsNode n → ∃! r, w.GoesInto n r
  /-- A survivor is made of nodes that a chain of shared sockets connects. -/
  together : ∀ m n, w.IsNode m → w.IsNode n →
    ((∃ r, w'.IsNode r ∧ w.GoesInto m r ∧ w.GoesInto n r) ↔
      Relation.ReflTransGen w.ShareSocket m n)
  lowest : ∀ n r, w.IsNode n → w.GoesInto n r → Relation.ReflTransGen w.ShareSocket n r ∧
    ∀ m, Relation.ReflTransGen w.ShareSocket n m → r ≤ m
  host : ∀ n r u, w.kind? n = some (.node (.host u)) → w.GoesInto n r →
    ∃ v, w'.kind? r = some (.node (.host v))
  node : ∀ r origin, w'.kind? r = some (.node origin) ↔
    w.kind? r = some (.node origin) ∧ w.GoesInto r r
  socket : ∀ s origin, w'.kind? s = some (.socket origin) ↔ w.kind? s = some (.socket origin)
  attached : ∀ r s, w'.IsNode r → w'.IsSocket s →
    ((w'.attachedNodes s).count r = 1 ↔ ∃ n ∈ w.attachedNodes s, w.GoesInto n r) ∧
      (w'.attachedNodes s).count r ≤ 1
  link : ∀ e ends origin, w'.wire? e = some ⟨ends, .link origin⟩ ↔
    w.wire? e = some ⟨ends, .link origin⟩
  links : ∀ s, w.IsSocket s → (w'.links s).Perm (w.links s)
  gone : ∃ gone : List JointId, gone.Nodup ∧ (∀ n, n ∈ gone ↔ w.IsNode n ∧ ¬ w'.IsNode n) ∧
    gone.length = folded

theorem Hung.nodesMerged (hung : w.Hung) (first : w.HostFirst) :
    w.NodesMerged w.mergeNodes.1 w.mergeNodes.2 := by
  have sound := hung.sound
  have sound' := (mergeNodes_spec sound).1
  refine {
    steps := foldl_nodeFoldings w
    goes := fun n _ => ⟨_, goesInto_iff.mpr rfl, fun r h => (goesInto_iff.mp h).symm⟩
    together := ?together
    lowest := ?lowest
    host := ?host
    node := fun r origin => by rw [kind?_mergeNodes_iff sound, goesInto_iff]
    socket := ?socket
    attached := ?attached
    link := fun e ends origin => link_mergeNodes_iff sound
    links := ?links
    gone := ⟨w.foldedNodes, w.nodup_foldedNodes, ?gone, rfl⟩ }
  case together =>
    intro m n hm _
    simp only [goesInto_iff, ← root_eq_iff_chain sound]
    constructor
    · rintro ⟨r, -, rfl, same⟩
      exact same.symm
    · intro same
      exact ⟨_, (isNode_mergeNodes_iff sound).mpr ⟨isNode_root sound hm, Forest.root_root m⟩, rfl,
        same.symm⟩
  case lowest =>
    intro n r _ goes
    obtain rfl := goesInto_iff.mp goes
    simp only [← root_eq_iff_chain sound, Forest.root_root, true_and]
    intro m same
    rw [same]
    exact Forest.root_le _ m
  case host =>
    intro n r u found goes
    obtain rfl := goesInto_iff.mp goes
    obtain ⟨origin, there⟩ := isNode_root sound ⟨_, found⟩
    cases origin with
    | host v => exact ⟨v, (kind?_mergeNodes_iff sound).mpr ⟨there, Forest.root_root n⟩⟩
    | created p =>
      exact absurd (first n _ u p found there) (Nat.not_lt.mpr (Forest.root_le _ n))
  case socket =>
    intro s origin
    rw [kind?_mergeNodes_iff sound, and_iff_left_iff_imp]
    exact fun socket => root_of_not_isNode sound fun node => node.not_isSocket ⟨origin, socket⟩
  case attached =>
    intro r s _ hs
    obtain ⟨owner, rooted⟩ := hung.rooted_mergeNodes
    have old := (isSocket_mergeNodes_iff sound).mp hs
    have once : (w.mergeNodes.1.attachedNodes s).Nodup := by
      rw [rooted.attachedNodes_eq sound' hs]
      exact List.nodup_singleton _
    have mem : r ∈ w.mergeNodes.1.attachedNodes s ↔ ∃ n ∈ w.attachedNodes s, w.GoesInto n r := by
      simp only [mem_attachedNodes_iff sound' hs, attachedTo_mergeNodes_iff sound,
        mem_attachedNodes_iff sound old, goesInto_iff]
    refine ⟨?_, List.nodup_iff_count_le_one.mp once r⟩
    rw [← mem]
    exact ⟨fun h => List.count_pos_iff.mp (by omega), List.count_eq_one_of_mem once⟩
  case links =>
    intro s hs
    have same (e : WireId) : w.mergeNodes.1.isLink e = true ↔ w.isLink e = true := by
      simp only [isLink_iff, link_mergeNodes_iff sound]
    rw [List.perm_iff_count]
    intro e
    rw [count_links sound' ((isSocket_mergeNodes_iff sound).mpr hs), count_links sound hs]
    simp only [same]
    split
    · next link =>
      obtain ⟨ends, origin, found⟩ := isLink_iff.mp link
      exact endsAt_congr (((link_mergeNodes_iff sound).mpr found).trans found.symm) s
    · rfl
  case gone =>
    intro n
    rw [mem_foldedNodes_iff, isNode_mergeNodes_iff sound]
    constructor
    · intro moved
      refine ⟨?_, fun there => moved there.2⟩
      by_contra other
      exact moved (root_of_not_isNode sound other)
    · rintro ⟨node, gone⟩ top
      exact gone ⟨node, top⟩

/-- A search in a forest ends at the lowest position of the set, and the merging of nodes that
rests on it, in whatever run it comes, merges along chains. -/
theorem mergeNodes_merges_chains (built : host.Built) :
    (∀ (f : Forest) (i : Nat), f.Same i (f.find i).1 ∧ (∀ j, f.Same i j → (f.find i).1 ≤ j) ∧
      (f.find i).2.Same = f.Same) ∧
    ∀ w : Wiring, Passage host (.foldingSockets []) w →
      w.NodesMerged w.mergeNodes.1 w.mergeNodes.2 := by
  constructor
  · intro f i
    obtain ⟨found, -, roots⟩ := f.find_spec i
    rw [found]
    refine ⟨f.least_root.related i, f.least_root.least i, ?_⟩
    funext j k
    rw [eq_iff_iff, Forest.same_iff, Forest.same_iff, roots, roots]
  · intro w passage
    exact (passage.holds built.consistent).hung.nodesMerged (passage.hostFirst built.consistent)

open Samples in
/-- One edge is split twice at once: the two new nodes in the middle become one. -/
theorem mergeNodes_merges_chains_split_twice :
    ∃ w : Wiring, Passage (shaped 3 [(0, 1), (1, 2)]) (.foldingSockets []) w ∧
      w.mergeNodes.2 = 1 ∧ w.NodesMerged w.mergeNodes.1 1 := by
  let host := shaped 3 [(0, 1), (1, 2)]
  obtain ⟨w, inserted, folded⟩ : ∃ w,
      ((single splitEdge).resolveAll host [applyAt [0, 1] [0], applyAt [0, 1] [0]] >>=
        fun batch => Insertion.applyAll host batch
          (Cutting.applyAll host batch ⟨ofGraph host, ()⟩).wiring) = .ok w ∧
      (w.mergeSockets true).toOption.map (·.1.mergeNodes.2) = some 1 :=
    exists_of_check (by decide +kernel)
  have built := built_shaped 3 [(0, 1), (1, 2)]
  obtain ⟨batch, -, inserted⟩ := bind_ok inserted
  obtain ⟨⟨w', count⟩, merged, one⟩ := Option.map_eq_some_iff.mp folded
  rw [toOption_eq_some_iff] at merged
  have prepared := prepared_of_batch built.consistent inserted
  have passage := (Passage.prepared prepared).mergeSockets merged
  have survivors := (mergeNodes_merges_chains built).2 w' passage
  rw [one] at survivors
  exact ⟨w', passage, one, survivors⟩

end GraphSplice.Wiring
