import GraphSplice.Proofs.Wiring.Reconciliation

/-!
Merging one member at a time. With each member the wiring stays sound and every socket keeps
hanging off a node. Nothing is asked of the links here: the members of one class may be linked to
each other, as those of an odd component are. Once all nodes are folded every socket hangs off one.
-/

namespace GraphSplice.Wiring

variable {w w' : Wiring} {rep member : JointId} {members : List JointId} {e : WireId}

/-- No socket hangs off a node twice. -/
def AttachedOnce (w : Wiring) : Prop :=
  ∀ e f n s, w.wire? e = some ⟨⟨n, s⟩, .attachment⟩ → w.wire? f = some ⟨⟨n, s⟩, .attachment⟩ → e = f

/-- Every socket hangs off some node, and off none twice. -/
structure Hung (w : Wiring) : Prop where
  sound : w.Sound
  attached : ∀ s, w.IsSocket s → ∃ n, w.AttachedTo n s
  once : w.AttachedOnce

theorem Rooted.hung {owner : Nat → Nat} (rooted : w.Rooted owner) (sound : w.Sound) : w.Hung :=
  ⟨sound, fun s hs => ⟨owner s, rooted.attached s hs⟩,
    fun e f n s he hf => rooted.single e f n n s he hf⟩

theorem AttachedOnce.of_fewer (once : w.AttachedOnce)
    (fewer : ∀ e x, w'.wire? e = some x → w.wire? e = some x) : w'.AttachedOnce :=
  fun e f n s he hf => once e f n s (fewer e _ he) (fewer f _ hf)

/-- The members of a class that are left are of the sort of its representative. -/
def Alike (w : Wiring) (rep : JointId) (members : List JointId) : Prop :=
  ∀ j, InClass rep members j → w.IsLive j → w.SameSort rep j

theorem Alike.congr (alike : w.Alike rep members) (kinds : ∀ j, w'.kind? j = w.kind? j) :
    w'.Alike rep members :=
  fun j hj live => (alike j hj ((isLive_congr (kinds j)).mp live)).congr (kinds rep) (kinds j)

theorem redirect_redirect (different : rep ≠ member) (j : Nat) :
    redirect member rep (redirect member rep j) = redirect member rep j := by
  unfold redirect
  split <;> simp_all

/-! ## Wires handed on -/

/-- What stays while wires of a member are handed on to the representative. -/
structure Handing (rep member : JointId) (w w' : Wiring) : Prop where
  sound : w'.Sound
  kind : ∀ j, w'.kind? j = w.kind? j
  /-- The member gets no new wires. -/
  touching : ∀ e x, w'.wire? e = some x → x.ends.Touches member → w.wire? e = some x
  attached : ∀ n s, w.AttachedTo n s →
    w'.AttachedTo n s ∨ w'.AttachedTo (redirect member rep n) (redirect member rep s)
  once : w.AttachedOnce → w'.AttachedOnce

namespace Handing

theorem refl (sound : w.Sound) : Handing rep member w w :=
  ⟨sound, fun _ => rfl, fun _ _ h _ => h, fun _ _ h => .inl h, id⟩

theorem trans {w'' : Wiring} (different : rep ≠ member) (first : Handing rep member w w')
    (second : Handing rep member w' w'') : Handing rep member w w'' where
  sound := second.sound
  kind j := (second.kind j).trans (first.kind j)
  touching e x h touches := first.touching e x (second.touching e x h touches) touches
  attached n s h := by
    rcases first.attached n s h with still | moved
    · exact second.attached n s still
    · have settled := second.attached _ _ moved
      rw [redirect_redirect different, redirect_redirect different, or_self] at settled
      exact .inr settled
  once := second.once ∘ first.once

/-- A link may be dropped. -/
theorem removeWire (sound : w.Sound) {ends : Ends JointId} {origin : LinkOrigin}
    (found : w.wire? e = some ⟨ends, .link origin⟩) : Handing rep member w (w.removeWire e) := by
  refine ⟨sound.removeWire e, kind?_removeWire w e, fun f x h _ => wire?_of_removeWire h, ?_,
    fun once => once.of_fewer fun f x => wire?_of_removeWire⟩
  rintro n s ⟨f, attached⟩
  refine .inl ⟨f, ?_⟩
  rw [wire?_removeWire, if_neg, attached]
  rintro rfl
  rw [found] at attached
  cases attached

end Handing

theorem not_sameSort_of_attachment (sound : w.Sound) {n s : JointId}
    (found : w.wire? e = some ⟨⟨n, s⟩, .attachment⟩) : ¬ w.SameSort n s := by
  obtain ⟨node, socket⟩ := sound.attachment e _ found
  rintro (⟨-, other⟩ | ⟨other, -⟩)
  · exact other.not_isSocket socket
  · exact node.not_isSocket other

theorem SameSort.symm {a b : JointId} (sort : w.SameSort a b) : w.SameSort b a :=
  sort.imp And.symm And.symm

theorem SameSort.trans {a b c : JointId} (first : w.SameSort a b) (second : w.SameSort b c) :
    w.SameSort a c := by
  rcases first with ⟨ha, hb⟩ | ⟨ha, hb⟩ <;> rcases second with ⟨hb', hc⟩ | ⟨hb', hc⟩
  · exact .inl ⟨ha, hc⟩
  · exact absurd hb' hb.not_isSocket
  · exact absurd hb hb'.not_isSocket
  · exact .inr ⟨ha, hc⟩

theorem SameSort.isNode_redirect (sort : w.SameSort rep member) {j : JointId} (h : w.IsNode j) :
    w.IsNode (redirect member rep j) := by
  unfold redirect
  split
  · next same =>
    subst same
    exact sort.resolve_right (fun sockets => h.not_isSocket sockets.2) |>.1
  · exact h

theorem SameSort.isSocket_redirect (sort : w.SameSort rep member) {j : JointId}
    (h : w.IsSocket j) : w.IsSocket (redirect member rep j) := by
  unfold redirect
  split
  · next same =>
    subst same
    exact sort.resolve_left (fun nodes => nodes.2.not_isSocket h) |>.1
  · exact h

/-- A wire inside a class is a link, for an attachment joins joints of two sorts. -/
theorem Alike.link_of_joins (alike : w.Alike rep members) (sound : w.Sound) {wire : Wire}
    {a b : JointId} (found : w.wire? e = some wire) (joins : wire.ends.Joins a b)
    (ha : InClass rep members a) (hb : InClass rep members b) :
    ∃ ends origin, w.wire? e = some ⟨ends, .link origin⟩ := by
  have liveA := sound.isLive_of_touches found joins.touches.1
  have liveB := sound.isLive_of_touches found joins.touches.2
  have sort : w.SameSort a b := (alike a ha liveA).symm.trans (alike b hb liveB)
  obtain ⟨ends, kind⟩ := wire
  cases kind with
  | link origin => exact ⟨ends, origin, found⟩
  | attachment =>
    rcases joins with rfl | rfl
    · exact absurd sort (not_sameSort_of_attachment sound found)
    · exact absurd sort.symm (not_sameSort_of_attachment sound found)

namespace Inherited

variable {other : JointId} {wire : Wire}

/-- An attachment is moved, or there is one like it at the representative. -/
theorem attached (step : Inherited rep member other e wire w w') (sound : w.Sound)
    (found : w.wire? e = some wire) (joins : wire.ends.Joins member other)
    (different : rep ≠ member) (otherNe : other ≠ member) (otherNeRep : other ≠ rep)
    (sort : w.SameSort rep member) {n s : JointId} (h : w.AttachedTo n s) :
    w'.AttachedTo n s ∨ w'.AttachedTo (redirect member rep n) (redirect member rep s) := by
  obtain ⟨f, attachment⟩ := h
  by_cases same : f = e
  · subst same
    rw [found] at attachment
    cases attachment
    right
    rcases step.handled with ⟨-, g, parallel, here, joined⟩ | ⟨there, -⟩
    · have older : g ≠ f := by
        rintro rfl
        rw [found] at here
        cases here
        rcases joins.eq_of_touches joined.touches.1 with same | same
        · exact different same
        · exact otherNeRep same.symm
      obtain ⟨node, socket⟩ := sound.attachment f _ found
      have sent : Ends.Joins _ rep other := joins_redirect joins otherNe
      have parallelJoins : parallel.ends.Joins (redirect member rep n) (redirect member rep s) :=
        sent.of_parallel (Ends.joins_self _) joined
      exact ⟨g, (step.others g older).trans
        (attachment_of_joins sound here parallelJoins (sort.isNode_redirect node)
          (sort.isSocket_redirect socket))⟩
    · exact ⟨f, there⟩
  · exact .inl ⟨f, (step.others f same).trans attachment⟩

theorem once (step : Inherited rep member other e wire w w') (found : w.wire? e = some wire)
    (joins : wire.ends.Joins member other) (otherNe : other ≠ member) (once : w.AttachedOnce) :
    w'.AttachedOnce := by
  have sent : (wire.ends.map (redirect member rep)).Joins rep other :=
    joins_redirect joins otherNe
  -- A moved wire has no other one beside it.
  have alone : ∀ f n s, w.wire? f = some ⟨⟨n, s⟩, .attachment⟩ →
      w'.wire? e = some ⟨⟨n, s⟩, .attachment⟩ → f ≠ e → False := by
    intro f n s old moved apart
    rcases step.handled with ⟨gone, -⟩ | ⟨there, single⟩
    · rw [gone] at moved
      cases moved
    · rw [there, Option.some.injEq, Wire.mk.injEq] at moved
      rw [moved.1] at sent
      exact single f _ old sent
  intro f g n s hf hg
  rcases step.origin found hf with ⟨apart, old⟩ | ⟨rfl, -⟩
  · rcases step.origin found hg with ⟨-, old'⟩ | ⟨rfl, -⟩
    · exact once f g n s old old'
    · exact (alone f n s old hg apart).elim
  · rcases step.origin found hg with ⟨apart, old'⟩ | ⟨rfl, -⟩
    · exact (alone g n s old' hf apart).elim
    · rfl

end Inherited

/-- One wire of the member is handed on, dropped, or was none of it any more. -/
theorem inherit_handing (sound : w.Sound) (hm : member ∈ members) (different : rep ≠ member)
    (alike : w.Alike rep members) (live : w.IsLive member) (e : WireId) :
    Handing rep member w (inherit rep members member w e) ∧
      ∀ x, (inherit rep members member w e).wire? e = some x → ¬ x.ends.Touches member := by
  cases across : w.opposite? e member with
  | none =>
    have unchanged : inherit rep members member w e = w := by simp [inherit, across]
    rw [unchanged]
    refine ⟨.refl sound, ?_⟩
    intro x found touches
    obtain ⟨other, joins⟩ := touches.joins
    simp [opposite?, found, Ends.opposite?_eq_some_iff.mpr joins] at across
  | some other =>
    obtain ⟨wire, found, across'⟩ := Option.bind_eq_some_iff.mp across
    have joins := Ends.opposite?_eq_some_iff.mp across'
    by_cases inside : InClass rep members other
    · have dropped : inherit rep members member w e = w.removeWire e := by
        unfold inherit
        rw [across]
        dsimp only
        rw [if_pos (inside.imp_right .inl)]
      rw [dropped]
      obtain ⟨ends, origin, link⟩ := alike.link_of_joins sound found joins (.inr hm) inside
      refine ⟨.removeWire sound link, ?_⟩
      intro x h
      simp [wire?_removeWire] at h
    · have otherNe : other ≠ member := fun same => inside (.inr (same ▸ hm))
      have otherNeRep : other ≠ rep := fun same => inside (.inl same)
      have sort := alike member (.inr hm) live
      obtain ⟨sound', kinds, step⟩ := inherit_spec sound inside hm different sort found joins
      have handed : ∀ x, (inherit rep members member w e).wire? e = some x →
          ¬ x.ends.Touches member := by
        intro x h touches
        exact ((step.touches_iff found joins different otherNe e).mp ⟨x, h, touches⟩).1 rfl
      refine ⟨⟨sound', kinds, ?_, ?_, step.once found joins otherNe⟩, handed⟩
      · intro f x h touches
        rcases step.origin found h with ⟨-, old⟩ | ⟨rfl, -⟩
        · exact old
        · exact absurd touches (handed x h)
      · exact fun n s => step.attached sound found joins different otherNe otherNeRep sort

/-- All the listed wires of the member are handed on; a wire may be listed twice. -/
theorem inherits_handing (hm : member ∈ members) (different : rep ≠ member)
    (wires : List WireId) : ∀ w : Wiring, w.Sound → w.Alike rep members → w.IsLive member →
      Handing rep member w (wires.foldl (inherit rep members member) w) ∧
        ∀ e ∈ wires, ∀ x, (wires.foldl (inherit rep members member) w).wire? e = some x →
          ¬ x.ends.Touches member := by
  induction wires with
  | nil => exact fun w sound _ _ => ⟨.refl sound, nofun⟩
  | cons e rest ih =>
    intro w sound alike live
    obtain ⟨first, handed⟩ := inherit_handing sound hm different alike live e
    obtain ⟨later, handed'⟩ := ih _ first.sound (alike.congr first.kind)
      ((isLive_congr (first.kind member)).mpr live)
    refine ⟨first.trans different later, ?_⟩
    intro f hf x h touches
    rcases List.mem_cons.mp hf with rfl | hf
    · exact handed x (later.touching f x h touches) touches
    · exact handed' f hf x h touches

/-! ## Members folded -/

/-- One member of a class that is to be merged into the representative. -/
structure Folding where
  rep : JointId
  members : List JointId
  member : JointId
  deriving DecidableEq, Repr

namespace Folding

def apply (w : Wiring) (f : Folding) : Wiring := absorb f.rep f.members w f.member

/-- The member belongs to its class, and the class has members of one sort. -/
structure Fits (f : Folding) (w : Wiring) : Prop where
  mem : f.member ∈ f.members
  alike : w.Alike f.rep f.members

variable {f : Folding}

theorem apply_spec (hung : w.Hung) (fits : f.Fits w) : (f.apply w).Hung ∧
    ∀ j, (f.apply w).kind? j = if j = f.member ∧ j ≠ f.rep then none else w.kind? j := by
  obtain ⟨rep, members, member⟩ := f
  obtain ⟨hm, alike⟩ := fits
  simp only [apply] at hm alike ⊢
  by_cases skipped : member = rep ∨ ¬ w.IsLive member
  · rw [absorb, if_pos skipped]
    refine ⟨hung, ?_⟩
    intro j
    split
    · next folded =>
      obtain ⟨rfl, moved⟩ := folded
      have gone := skipped.resolve_left moved
      cases found : w.kind? j with
      | none => rfl
      | some k => exact absurd (isLive_iff_kind?.mpr ⟨k, found⟩) gone
    · rfl
  · obtain ⟨moved, live⟩ := not_or.mp skipped
    rw [not_not] at live
    have different : rep ≠ member := Ne.symm moved
    rw [absorb, if_neg skipped]
    obtain ⟨handing, handed⟩ := inherits_handing hm different (w.incident member) w hung.sound
      alike live
    set v := (w.incident member).foldl (inherit rep members member) w with hv
    have away : ∀ e x, v.wire? e = some x → ¬ x.ends.Touches member := by
      intro e x h touches
      have old := handing.touching e x h touches
      exact handed e (hung.sound.mem_incident_iff.mpr ⟨x, old, touches⟩) x h touches
    have wires : ∀ e x, (v.removeJoint member).wire? e = some x ↔ v.wire? e = some x :=
      fun e x => (wire?_removeJoint handing.sound).trans ⟨And.left, fun h => ⟨h, away e x h⟩⟩
    have kinds : ∀ j, (v.removeJoint member).kind? j = if j = member then none else w.kind? j := by
      intro j
      rw [kind?_removeJoint, handing.kind]
    refine ⟨⟨handing.sound.removeJoint member, ?_, ?_⟩, ?_⟩
    · rintro s ⟨origin, h⟩
      rw [kinds] at h
      split at h
      · cases h
      · next other =>
        obtain ⟨n, attached⟩ := hung.attached s ⟨origin, h⟩
        have still : redirect member rep s = s := by simp [redirect, other]
        rcases handing.attached n s attached with ⟨e, there⟩ | ⟨e, there⟩
        · exact ⟨n, e, (wires e _).mpr there⟩
        · rw [still] at there
          exact ⟨_, e, (wires e _).mpr there⟩
    · exact (handing.once hung.once).of_fewer fun e x h => (wires e x).mp h
    · intro j
      rw [kinds]
      by_cases same : j = member
      · simp [same, moved]
      · simp [same]

/-- Folding `f` leaves the representative of `g`. -/
def Spares (f g : Folding) : Prop := f.member = g.rep → f.member = f.rep

theorem Fits.apply {g : Folding} (fits : g.Fits w) (hung : w.Hung) (fits' : f.Fits w)
    (spares : f.Spares g) : g.Fits (f.apply w) := by
  obtain ⟨-, kinds⟩ := apply_spec hung fits'
  refine ⟨fits.mem, ?_⟩
  intro j hj live
  have left : ¬ (j = f.member ∧ j ≠ f.rep) := by
    intro folded
    obtain ⟨k, found⟩ := isLive_iff_kind?.mp live
    rw [kinds, if_pos folded] at found
    cases found
  have sameJ : (f.apply w).kind? j = w.kind? j := by rw [kinds, if_neg left]
  have sameRep : (f.apply w).kind? g.rep = w.kind? g.rep := by
    rw [kinds, if_neg]
    rintro ⟨same, moved⟩
    exact moved (same.trans (spares same.symm))
  exact (fits.alike j hj ((isLive_congr sameJ).mp live)).congr sameRep sameJ

end Folding

/-- The foldings can be applied one after the other. -/
structure Foldable (w : Wiring) (left : List Folding) : Prop where
  fits : ∀ f ∈ left, f.Fits w
  spares : left.Pairwise Folding.Spares

theorem Foldable.apply {f : Folding} {left : List Folding} (foldable : w.Foldable (f :: left))
    (hung : w.Hung) : (f.apply w).Hung ∧ (f.apply w).Foldable left := by
  obtain ⟨spares, later⟩ := List.pairwise_cons.mp foldable.spares
  have fits := foldable.fits f List.mem_cons_self
  refine ⟨(Folding.apply_spec hung fits).1, ?_, later⟩
  exact fun g hg => (foldable.fits g (List.mem_cons_of_mem _ hg)).apply hung fits (spares g hg)

/-- The members of the classes, class by class. -/
def foldings (classes : List (JointId × List JointId)) : List Folding :=
  classes.flatMap fun c => c.2.map fun m => ⟨c.1, c.2, m⟩

theorem mem_foldings_iff {classes : List (JointId × List JointId)} {f : Folding} :
    f ∈ foldings classes ↔ (f.rep, f.members) ∈ classes ∧ f.member ∈ f.members := by
  obtain ⟨rep, members, member⟩ := f
  simp only [foldings, List.mem_flatMap, List.mem_map, Folding.mk.injEq]
  constructor
  · rintro ⟨⟨rep', members'⟩, hc, m, hm, rfl, rfl, rfl⟩
    exact ⟨hc, hm⟩
  · rintro ⟨hc, hm⟩
    exact ⟨_, hc, member, hm, rfl, rfl, rfl⟩

/-- Folding all members is contracting all classes. -/
theorem foldl_foldings (classes : List (JointId × List JointId)) (w : Wiring) :
    (foldings classes).foldl Folding.apply w =
      classes.foldl (fun w c => w.contract c.1 c.2) w := by
  simp only [foldings, List.foldl_flatMap, List.foldl_map]
  rfl

theorem foldable_foldings {classes : List (JointId × List JointId)}
    (alike : ∀ c ∈ classes, w.Alike c.1 c.2) (disjoint : DisjointClasses classes) :
    w.Foldable (foldings classes) := by
  refine ⟨?_, ?_⟩
  · intro f hf
    obtain ⟨hc, hm⟩ := mem_foldings_iff.mp hf
    exact ⟨hm, alike _ hc⟩
  · rw [foldings, List.pairwise_flatMap]
    constructor
    · intro c _
      rw [List.pairwise_map]
      exact List.pairwise_of_forall fun _ _ => id
    · refine disjoint.imp ?_
      intro c d apart f hf g hg same
      obtain ⟨m, hm, rfl⟩ := List.mem_map.mp hf
      obtain ⟨n, -, rfl⟩ := List.mem_map.mp hg
      exact absurd (.inl same) (apart m (.inr hm))

/-! ## The two mergings -/

/-- The sockets to be folded, in order. -/
def socketFoldings (w : Wiring) : List Folding := foldings (ranked (socketClasses w.components))

/-- The nodes to be folded, in order. -/
def nodeFoldings (w : Wiring) : List Folding := foldings w.nodeForest.classes

theorem foldl_socketFoldings {checkParity : Bool} {count : Nat}
    (merged : w.mergeSockets checkParity = .ok (w', count)) :
    w.socketFoldings.foldl Folding.apply w = w' := by
  unfold mergeSockets at merged
  dsimp only at merged
  split at merged
  · cases merged
  · rw [Except.ok.injEq] at merged
    rw [socketFoldings, foldl_foldings, ← foldl_mergeClass _ (w, 0), merged]

theorem foldl_nodeFoldings (w : Wiring) :
    w.nodeFoldings.foldl Folding.apply w = w.mergeNodes.1 := foldl_foldings _ w

theorem foldable_socketFoldings (sound : w.Sound) : w.Foldable w.socketFoldings := by
  refine foldable_foldings ?_ (disjoint_ranked sound)
  intro c hc j hj _
  have least := List.min?_mem (mem_ranked_iff.mp hc).2
  exact .inr ⟨isSocket_of_mem_ranked sound hc least,
    isSocket_of_mem_ranked sound hc ((inClass_iff_of_ranked hc).mp hj)⟩

theorem foldable_nodeFoldings (sound : w.Sound) : w.Foldable w.nodeFoldings := by
  refine foldable_foldings ?_ w.nodeForest.disjoint_classes
  rintro c hc j (rfl | hj) live
  · obtain ⟨⟨i, top, other⟩, -⟩ := Forest.mem_classes_iff.mp hc
    have sort := (isClass_nodeForest sound hc).sort i ((Forest.mem_members_iff hc).mpr ⟨top, other⟩)
    exact sort.trans sort.symm
  · exact (isClass_nodeForest sound hc).sort j hj

/-! ## Attachments of merged nodes -/

theorem isNode_root (sound : w.Sound) {n : JointId} (hn : w.IsNode n) :
    w.IsNode (w.nodeForest.root n) := by
  rcases shareSocket_cases sound ((least_nodeForest sound).related n) with same | ⟨-, node⟩
  · rwa [← same]
  · exact node

theorem kind?_mergeNodes_iff (sound : w.Sound) {j : JointId} {k : JointKind} :
    w.mergeNodes.1.kind? j = some k ↔ w.kind? j = some k ∧ w.nodeForest.root j = j := by
  rw [(mergeNodes_spec sound).2.1]
  split
  · next own => simp [own]
  · next moved => simp [moved]

theorem isNode_mergeNodes_iff (sound : w.Sound) {n : JointId} :
    w.mergeNodes.1.IsNode n ↔ w.IsNode n ∧ w.nodeForest.root n = n := by
  simp only [IsNode, kind?_mergeNodes_iff sound, exists_and_right]

theorem isSocket_mergeNodes_iff (sound : w.Sound) {s : JointId} :
    w.mergeNodes.1.IsSocket s ↔ w.IsSocket s := by
  simp only [IsSocket, kind?_mergeNodes_iff sound, exists_and_right, and_iff_left_iff_imp]
  exact fun socket => root_of_not_isNode sound fun node => node.not_isSocket socket

theorem attachedTo_mergeNodes_iff (sound : w.Sound) {n s : JointId} :
    w.mergeNodes.1.AttachedTo n s ↔ ∃ m, w.AttachedTo m s ∧ w.nodeForest.root m = n := by
  obtain ⟨sound', -, redirects⟩ := mergeNodes_spec sound
  have still : ∀ {t}, w.IsSocket t → w.nodeForest.root t = t := fun socket =>
    root_of_not_isNode sound fun node => node.not_isSocket socket
  constructor
  · rintro ⟨e, found⟩
    obtain ⟨m, t, old, rfl, rfl⟩ := redirects.attachment_origin found
    rw [still (sound.attachment e _ old).2]
    exact ⟨m, ⟨e, old⟩, rfl⟩
  · rintro ⟨m, ⟨e, found⟩, rfl⟩
    obtain ⟨node, socket⟩ := sound.attachment e _ found
    obtain ⟨f, wire, found', joins⟩ := redirects.cover e _ found
    simp only at joins
    rw [still socket] at joins
    have target : w.mergeNodes.1.IsNode (w.nodeForest.root m) :=
      (isNode_mergeNodes_iff sound).mpr ⟨isNode_root sound node, Forest.root_root m⟩
    exact ⟨f, attachment_of_joins sound' found' joins target
      ((isSocket_mergeNodes_iff sound).mpr socket)⟩

/-- The nodes of one socket become one. -/
theorem eq_of_attachedTo_mergeNodes (sound : w.Sound) {m n s : JointId}
    (hm : w.mergeNodes.1.AttachedTo m s) (hn : w.mergeNodes.1.AttachedTo n s) : m = n := by
  obtain ⟨m', first, rfl⟩ := (attachedTo_mergeNodes_iff sound).mp hm
  obtain ⟨n', second, rfl⟩ := (attachedTo_mergeNodes_iff sound).mp hn
  exact ((least_nodeForest sound).eq_iff (Relation.EqvGen.is_equivalence _)).mpr
    (.rel _ _ ⟨s, first, second⟩)

/-- After the nodes are merged every socket hangs off one. -/
theorem Hung.rooted_mergeNodes (hung : w.Hung) : ∃ owner, w.mergeNodes.1.Rooted owner := by
  have redirects := (mergeNodes_spec hung.sound).2.2
  have attached : ∀ s, ∃ n, w.mergeNodes.1.IsSocket s → w.mergeNodes.1.AttachedTo n s := by
    intro s
    by_cases socket : w.IsSocket s
    · obtain ⟨n, there⟩ := hung.attached s socket
      exact ⟨_, fun _ => (attachedTo_mergeNodes_iff hung.sound).mpr ⟨n, there, rfl⟩⟩
    · exact ⟨0, fun there => absurd ((isSocket_mergeNodes_iff hung.sound).mp there) socket⟩
  choose owner attached using attached
  refine ⟨owner, attached, ?_⟩
  intro e f m n s he hf
  obtain rfl := eq_of_attachedTo_mergeNodes hung.sound ⟨e, he⟩ ⟨f, hf⟩
  by_contra different
  -- Of two wires that came to lie beside each other one would have been dropped.
  have old := redirects.single e f _ _ m s different he hf (.inl rfl) (.inl rfl)
  have old' := redirects.single f e _ _ m s (Ne.symm different) hf he (.inl rfl) (.inl rfl)
  exact different (hung.once e f m s old old')

end GraphSplice.Wiring
