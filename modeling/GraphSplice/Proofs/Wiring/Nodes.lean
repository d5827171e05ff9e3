import GraphSplice.Proofs.Wiring.Forest

/-!
Merging the nodes that share a socket.
-/

namespace GraphSplice.Wiring

variable {w : Wiring}

/-- An attachment leads from the node to the socket. -/
def AttachedTo (w : Wiring) (node socket : Nat) : Prop :=
  ∃ e, w.wire? e = some ⟨⟨node, socket⟩, .attachment⟩

/-- The two nodes hang on one socket. -/
def ShareSocket (w : Wiring) (m n : Nat) : Prop := ∃ s, w.AttachedTo m s ∧ w.AttachedTo n s

theorem AttachedTo.isNode (sound : w.Sound) {n s : Nat} (h : w.AttachedTo n s) : w.IsNode n := by
  obtain ⟨e, found⟩ := h
  exact (sound.attachment e _ found).1

theorem AttachedTo.isSocket (sound : w.Sound) {n s : Nat} (h : w.AttachedTo n s) :
    w.IsSocket s := by
  obtain ⟨e, found⟩ := h
  exact (sound.attachment e _ found).2

theorem mem_attachedNodes_iff (sound : w.Sound) {n s : Nat} (hs : w.IsSocket s) :
    n ∈ w.attachedNodes s ↔ w.AttachedTo n s := by
  simp only [attachedNodes, List.mem_filterMap]
  constructor
  · rintro ⟨e, -, h⟩
    split at h
    · next ends found =>
      have joins := Ends.opposite?_eq_some_iff.mp h
      obtain ⟨node, -⟩ := sound.attachment e ends found
      rcases joins with rfl | rfl
      · exact absurd hs node.not_isSocket
      · exact ⟨e, found⟩
    · cases h
  · rintro ⟨e, found⟩
    refine ⟨e, sound.mem_incident_iff.mpr ⟨_, found, .inr rfl⟩, ?_⟩
    rw [found]
    exact Ends.opposite?_eq_some_iff.mpr (.inr rfl)

/-- A socket with one attachment hangs off one node. -/
theorem attachedNodes_eq_singleton (sound : w.Sound) {n s e : Nat}
    (found : w.wire? e = some ⟨⟨n, s⟩, .attachment⟩)
    (single : ∀ f m, w.wire? f = some ⟨⟨m, s⟩, .attachment⟩ → f = e) : w.attachedNodes s = [n] := by
  obtain ⟨node, socket⟩ := sound.attachment e _ found
  have different : n ≠ s := by
    rintro rfl
    exact node.not_isSocket socket
  have once : (w.incident s).count e = 1 := by
    rw [sound.listed s socket.isLive, endsAt_of_wire? found]
    simp [Ends.toList, different]
  have chosen : w.attachedNodes s =
      (w.incident s).filterMap fun f => if f = e then some n else none := by
    unfold attachedNodes
    apply List.filterMap_congr
    intro f _
    by_cases same : f = e
    · subst same
      rw [found, if_pos rfl]
      exact Ends.opposite?_eq_some_iff.mpr (.inr rfl)
    · rw [if_neg same]
      split
      · next ends attached =>
        cases across : ends.opposite? s with
        | none => rfl
        | some m =>
          obtain ⟨other, -⟩ := sound.attachment f ends attached
          rcases Ends.opposite?_eq_some_iff.mp across with rfl | rfl
          · exact absurd socket other.not_isSocket
          · exact absurd (single f m attached) same
      · rfl
  have collected : ∀ wires : List Nat,
      wires.filterMap (fun f => if f = e then some n else none) =
        List.replicate (wires.count e) n := by
    intro wires
    induction wires with
    | nil => rfl
    | cons f rest ih =>
      by_cases same : f = e
      · subst same
        simp [ih, List.replicate_succ]
      · simp [same, ih]
  rw [chosen, collected, once]
  rfl

/-! ## The forest of nodes -/

theorem shareSocket_cases (sound : w.Sound) {m n : Nat} (h : Relation.EqvGen w.ShareSocket m n) :
    m = n ∨ (w.IsNode m ∧ w.IsNode n) := by
  induction h with
  | rel m n share =>
    obtain ⟨s, hm, hn⟩ := share
    exact .inr ⟨hm.isNode sound, hn.isNode sound⟩
  | refl m => exact .inl rfl
  | symm m n _ ih => exact ih.imp Eq.symm And.symm
  | trans m n l _ _ first second =>
    rcases first with rfl | ⟨hm, hn⟩
    · exact second
    · rcases second with rfl | ⟨-, hl⟩
      · exact .inr ⟨hm, hn⟩
      · exact .inr ⟨hm, hl⟩

theorem joinAttached_spec (sound : w.Sound) (f : Forest) (size : f.parents.size = w.joints.size)
    (within : ∀ j, Relation.EqvGen w.ShareSocket j (f.root j)) {s : JointId}
    (hs : w.IsSocket s) :
    (w.joinAttached f s).parents.size = w.joints.size ∧
      (∀ j, Relation.EqvGen w.ShareSocket j ((w.joinAttached f s).root j)) ∧
      (∀ i j, f.root i = f.root j →
        (w.joinAttached f s).root i = (w.joinAttached f s).root j) ∧
      ∀ m n, w.AttachedTo m s → w.AttachedTo n s →
        (w.joinAttached f s).root m = (w.joinAttached f s).root n := by
  have inside : ∀ m ∈ w.attachedNodes s, m < f.parents.size := by
    intro m hm
    rw [size]
    exact lt_size_of_isLive (((mem_attachedNodes_iff sound hs).mp hm).isNode sound).isLive
  unfold joinAttached
  cases attached : w.attachedNodes s with
  | nil =>
    refine ⟨size, within, fun _ _ same => same, ?_⟩
    intro m n hm
    rw [← mem_attachedNodes_iff sound hs, attached] at hm
    cases hm
  | cons first rest =>
    rw [attached] at inside
    have share : ∀ m ∈ rest, Relation.EqvGen w.ShareSocket first m := by
      intro m hm
      refine .rel _ _ ⟨s, (mem_attachedNodes_iff sound hs).mp ?_,
        (mem_attachedNodes_iff sound hs).mp ?_⟩
      · simp [attached]
      · simp [attached, hm]
    obtain ⟨size', within', kept, joined⟩ := Forest.joins_spec (Relation.EqvGen.is_equivalence _)
      rest f (inside first List.mem_cons_self)
      (fun m hm => ⟨inside m (List.mem_cons_of_mem _ hm), share m hm⟩) within
    refine ⟨size'.trans size, within', kept, ?_⟩
    have sameAsFirst : ∀ m, w.AttachedTo m s →
        (rest.foldl (fun f b => f.join first b) f).root m =
          (rest.foldl (fun f b => f.join first b) f).root first := by
      intro m hm
      rw [← mem_attachedNodes_iff sound hs, attached] at hm
      rcases List.mem_cons.mp hm with rfl | hm
      · rfl
      · exact joined m hm
    exact fun m n hm hn => (sameAsFirst m hm).trans (sameAsFirst n hn).symm

theorem joinAllAttached_spec (sound : w.Sound) (sockets : List JointId) :
    ∀ f : Forest, f.parents.size = w.joints.size →
      (∀ j, Relation.EqvGen w.ShareSocket j (f.root j)) → (∀ s ∈ sockets, w.IsSocket s) →
      (∀ j, Relation.EqvGen w.ShareSocket j ((sockets.foldl w.joinAttached f).root j)) ∧
      (∀ i j, f.root i = f.root j →
        (sockets.foldl w.joinAttached f).root i = (sockets.foldl w.joinAttached f).root j) ∧
      ∀ s ∈ sockets, ∀ m n, w.AttachedTo m s → w.AttachedTo n s →
        (sockets.foldl w.joinAttached f).root m = (sockets.foldl w.joinAttached f).root n := by
  induction sockets with
  | nil =>
    intro f _ within _
    exact ⟨within, fun _ _ same => same, by simp⟩
  | cons s rest ih =>
    intro f size within sockets
    obtain ⟨size₁, within₁, kept₁, joined₁⟩ :=
      joinAttached_spec sound f size within (sockets s List.mem_cons_self)
    obtain ⟨within', kept, joined⟩ :=
      ih _ size₁ within₁ fun t ht => sockets t (List.mem_cons_of_mem _ ht)
    refine ⟨within', fun i j same => kept i j (kept₁ i j same), ?_⟩
    intro t ht m n hm hn
    rcases List.mem_cons.mp ht with rfl | ht
    · exact kept m n (joined₁ m n hm hn)
    · exact joined t ht m n hm hn

theorem least_nodeForest (sound : w.Sound) :
    Least (Relation.EqvGen w.ShareSocket) w.nodeForest.root := by
  obtain ⟨within, -, joined⟩ := joinAllAttached_spec sound w.liveSockets
    (Forest.singletons w.joints.size) (by simp [Forest.singletons])
    (fun j => by rw [Forest.root_singletons]; exact .refl j)
    (fun s hs => mem_liveSockets_iff.mp hs)
  refine .of_eqvGen within ?_ (Forest.root_le _)
  rintro m n ⟨s, hm, hn⟩
  exact joined s (mem_liveSockets_iff.mpr (hm.isSocket sound)) m n hm hn

/-- Only nodes are merged. -/
theorem root_of_not_isNode (sound : w.Sound) {j : JointId} (h : ¬ w.IsNode j) :
    w.nodeForest.root j = j := by
  rcases shareSocket_cases sound ((least_nodeForest sound).related j) with same | ⟨node, -⟩
  · exact same.symm
  · exact absurd node h

theorem isClass_nodeForest (sound : w.Sound) {c : JointId × List JointId}
    (hc : c ∈ w.nodeForest.classes) : w.IsClass c.1 c.2 := by
  have node : ∀ j, InClass c.1 c.2 j → w.IsNode j := by
    have connected : ∀ j ∈ c.2, w.IsNode j ∧ w.IsNode c.1 := by
      intro j hj
      obtain ⟨top, other⟩ := (Forest.mem_members_iff hc).mp hj
      have related := (least_nodeForest sound).related j
      rw [top] at related
      exact (shareSocket_cases sound related).resolve_left (Ne.symm other)
    rintro j (rfl | mem)
    · obtain ⟨⟨i, top, other⟩, -⟩ := Forest.mem_classes_iff.mp hc
      exact (connected i ((Forest.mem_members_iff hc).mpr ⟨top, other⟩)).2
    · exact (connected j mem).1
  refine ⟨Forest.nodup_members hc, ?_, ?_, ?_⟩
  · intro m hm
    have le := w.nodeForest.root_le m
    rw [((Forest.mem_members_iff hc).mp hm).1] at le
    exact le
  · exact fun m hm => .inl ⟨node _ (.inl rfl), node m (.inr hm)⟩
  · intro e wire h both
    obtain ⟨ends, kind⟩ := wire
    cases kind with
    | attachment => exact (node _ both.2).not_isSocket (sound.attachment e ends h).2
    | link origin => exact (node _ both.1).not_isSocket (sound.link e ends origin h).1

/-- Every node is sent to the lowest one that shared sockets connect it to. -/
theorem mergeNodes_spec (sound : w.Sound) :
    w.mergeNodes.1.Sound ∧
      (∀ j, w.mergeNodes.1.kind? j = if w.nodeForest.root j = j then w.kind? j else none) ∧
      Redirects w.nodeForest.root w w.mergeNodes.1 := by
  have merged := contractAll_spec w.nodeForest.classes w sound
    (fun c hc => isClass_nodeForest sound hc) w.nodeForest.disjoint_classes
  simp only [Forest.gatherAll_classes] at merged
  obtain ⟨sound', kinds, redirects⟩ := merged
  exact ⟨sound', kinds, redirects.congr w.nodeForest.gatherAll_classes⟩

end GraphSplice.Wiring
